import Bitrig.Lib.Span

/-!
# The lock list of a file

The functions of `vfs_lockf.c` that walk and change the list of the advisory
locks of one file.  A lock is identified by its address; the list at `lf_head`
is a list of locks in the order of `lf_next`, and a cursor `prev` into it is a
split of the list.  Requests that sleep are kept beside the list.  Their field
`lf_next` is the lock that blocks them, until they are woken.

The bounds of a lock are those of a span, with sums of integers, or two values of
the type `off_t`, whose sums wrap.  An operation is undefined where the source
panics, where it would leave a lock whose bounds are not those of a span, and
where it would link a lock that is linked already.
-/

namespace Bitrig.Advlock

open List

/-- The types of locks and requests. -/
inductive LfType
  | rdlck
  | unlck
  | wrlck
  deriving DecidableEq

/-- The flags `F_POSIX`, `F_FLOCK` and `F_WAIT`. -/
structure LfFlags where
  fPosix : Bool
  fFlock : Bool
  fWait : Bool
  deriving DecidableEq

/-- How bounds are computed and kept. -/
class Bounds (ρ : Type) where
  first : ρ → Int
  last : ρ → Int
  /-- The value of a sum. -/
  sum : Int → Int
  of? : Int → Int → Option ρ

/-- Spans of integers. -/
instance : Bounds Span where
  first := Span.first
  last := Span.last
  sum n := n
  of? := Span.of?

/-- The value of the type `off_t` that a sum leaves. -/
def offT (n : Int) : Int :=
  Int.bmod n (2 ^ 64)

/-- Two values of the type `off_t`. -/
structure OffRange where
  first : Int
  last : Int
  deriving DecidableEq

instance : Bounds OffRange where
  first := OffRange.first
  last := OffRange.last
  sum := offT
  of? first last := some ⟨first, last⟩

/-- A lock or a request for one (`struct lockf`). -/
structure Lockf (ι : Type) (ρ : Type := Span) where
  addr : Nat
  lfFlags : LfFlags
  lfType : LfType
  /-- The bounds `lf_start` and `lf_end`. -/
  range : ρ
  /-- The resource that holds the lock. -/
  lfId : ι
  lfPid : Int
  /-- The addresses of the requests that the lock blocks. -/
  lfBlkhd : List Nat
  deriving DecidableEq

/-- A request in `tsleep`, or woken there and not yet running. -/
structure Sleeper (ι : Type) (ρ : Type := Span) where
  request : Lockf ι ρ
  /-- The sleeping process. -/
  proc : Nat
  /-- The address of the lock that blocks the request, cleared by a wakeup. -/
  lfNext : Option Nat
  deriving DecidableEq

/-- What the operations change beside the list: the sleeping requests of the
file, and the next address to allocate. -/
structure Heap (ι : Type) (ρ : Type := Span) where
  sleepers : List (Sleeper ι ρ)
  nextAddr : Nat
  /-- The locks that have been freed while they were linked. -/
  freed : List Nat

/-- Which locks `lf_findoverlap` looks at. -/
inductive Scope
  | self
  | others
  deriving DecidableEq

/-- The result of `lf_findoverlap`: case 0 with the split of the list at
`prev`, or an overlapping lock with its case. -/
inductive Found (ι : Type) (ρ : Type := Span)
  | clear (skipped rest : List (Lockf ι ρ))
  | meets (ovcase : Overlap) (skipped : List (Lockf ι ρ)) (overlap : Lockf ι ρ)
      (tail : List (Lockf ι ρ))

section Functions

variable {ι ρ : Type} [DecidableEq ι] [Bounds ρ]

namespace Lockf

/-- The first byte of a lock. -/
def lfStart (lock : Lockf ι ρ) : Int :=
  Bounds.first lock.range

/-- The last byte of a lock, or `-1`. -/
def lfEnd (lock : Lockf ι ρ) : Int :=
  Bounds.last lock.range

/-- Assign new bounds to a lock. -/
def withBounds (lock : Lockf ι ρ) (start stop : Int) : Option (Lockf ι ρ) :=
  (Bounds.of? (Bounds.sum ρ start) (Bounds.sum ρ stop)).map fun range =>
    { lock with range := range }

end Lockf

/-- Put a lock in front of what was skipped. -/
def Found.skip (lf : Lockf ι ρ) : Found ι ρ → Found ι ρ
  | .clear skipped rest => .clear (lf :: skipped) rest
  | .meets ovcase skipped overlap tail => .meets ovcase (lf :: skipped) overlap tail

/-- The tests of `lf_findoverlap` on one lock: case 0 is `some none`, and a lock
that fits no case makes it panic. -/
def overlapCase (lock lf : Lockf ι ρ) : Option (Option Overlap) :=
  -- case 0
  if (lf.lfEnd ≠ -1 ∧ lock.lfStart > lf.lfEnd) ∨
      (lock.lfEnd ≠ -1 ∧ lf.lfStart > lock.lfEnd) then
    some none
  -- case 1
  else if lf.lfStart = lock.lfStart ∧ lf.lfEnd = lock.lfEnd then
    some (some .equal)
  -- case 2
  else if lf.lfStart ≤ lock.lfStart ∧
      (lf.lfEnd = -1 ∨ (lock.lfEnd ≠ -1 ∧ lf.lfEnd ≥ lock.lfEnd)) then
    some (some .contains)
  -- case 3
  else if lock.lfStart ≤ lf.lfStart ∧
      (lock.lfEnd = -1 ∨ (lf.lfEnd ≠ -1 ∧ lock.lfEnd ≥ lf.lfEnd)) then
    some (some .contained)
  -- case 4
  else if lf.lfStart < lock.lfStart ∧ (lf.lfEnd ≥ lock.lfStart ∨ lf.lfEnd = -1) then
    some (some .startsBefore)
  -- case 5
  else if lf.lfStart > lock.lfStart ∧ lock.lfEnd ≠ -1 ∧
      (lf.lfEnd > lock.lfEnd ∨ lf.lfEnd = -1) then
    some (some .endsAfter)
  else none

/-- `lf_findoverlap`. -/
def lfFindoverlap (scope : Scope) (lock : Lockf ι ρ) : List (Lockf ι ρ) → Option (Found ι ρ)
  | [] => some (.clear [] [])
  | lf :: rest =>
    if (scope = .self ∧ lf.lfId ≠ lock.lfId) ∨ (scope = .others ∧ lf.lfId = lock.lfId) then
      (lfFindoverlap scope lock rest).map (.skip lf)
    else
      match overlapCase lock lf with
      | some none =>
        if scope = .self ∧ lock.lfEnd ≠ -1 ∧ lf.lfStart > lock.lfEnd then
          some (.clear [] (lf :: rest))
        else (lfFindoverlap scope lock rest).map (.skip lf)
      | some (some ovcase) => some (.meets ovcase [] lf rest)
      | none => none

/-- The loop of `lf_getblock`. -/
def getblockLoop (lock : Lockf ι ρ) : Nat → List (Lockf ι ρ) → Option (Option (Lockf ι ρ))
  | 0, _ => none
  | fuel + 1, lf => do
      match ← lfFindoverlap .others lock lf with
      | .clear _ _ => pure none
      | .meets _ _ overlap tail =>
        if lock.lfType = .wrlck ∨ overlap.lfType = .wrlck then pure (some overlap)
        else getblockLoop lock fuel tail

/-- `lf_getblock`: the first lock that blocks a request. -/
def lfGetblock (lock : Lockf ι ρ) (locks : List (Lockf ι ρ)) : Option (Option (Lockf ι ρ)) :=
  getblockLoop lock (locks.length + 1) locks

/-- Assign `lf_next` of the sleeping requests at some addresses. -/
def Heap.redirect (heap : Heap ι ρ) (addrs : List Nat) (next : Option Nat) : Heap ι ρ :=
  { heap with
    sleepers := heap.sleepers.map fun sleeper =>
      if sleeper.request.addr ∈ addrs then { sleeper with lfNext := next } else sleeper }

omit [DecidableEq ι] [Bounds ρ] in
@[simp]
theorem redirect_nextAddr (heap : Heap ι ρ) (addrs : List Nat) (next : Option Nat) :
    (heap.redirect addrs next).nextAddr = heap.nextAddr :=
  rfl

/-- `lf_wakelock`: the lock without waiters, and the waiters without blocker. -/
def lfWakelock (lock : Lockf ι ρ) (heap : Heap ι ρ) : Lockf ι ρ × Heap ι ρ :=
  ({ lock with lfBlkhd := [] }, heap.redirect lock.lfBlkhd none)

/-- The waiters of `overlap` are appended to those of `lock`. -/
def takeWaiters (lock overlap : Lockf ι ρ) (heap : Heap ι ρ) : Lockf ι ρ × Heap ι ρ :=
  ({ lock with lfBlkhd := lock.lfBlkhd ++ overlap.lfBlkhd },
    heap.redirect overlap.lfBlkhd (some lock.addr))

/-- `lf_split`: the pieces of `lock1` before and behind `lock2`. -/
def lfSplit (lock1 lock2 : Lockf ι ρ) (heap : Heap ι ρ) :
    Option (List (Lockf ι ρ) × List (Lockf ι ρ) × Heap ι ρ) :=
  if lock1.lfStart = lock2.lfStart then do
    let lock1 ← lock1.withBounds (lock2.lfEnd + 1) lock1.lfEnd
    pure ([], [lock1], heap)
  else if lock1.lfEnd = lock2.lfEnd then do
    let lock1 ← lock1.withBounds lock1.lfStart (lock2.lfStart - 1)
    pure ([lock1], [], heap)
  else do
    let splitlock ← lock1.withBounds (lock2.lfEnd + 1) lock1.lfEnd
    let splitlock := { splitlock with addr := heap.nextAddr, lfBlkhd := [] }
    let lock1 ← lock1.withBounds lock1.lfStart (lock2.lfStart - 1)
    pure ([lock1], [splitlock], { heap with nextAddr := heap.nextAddr + 1 })

/-- The loop of `lf_clearlock`, with the list split at `prev`. -/
def clearLoop (lock : Lockf ι ρ) :
    Nat → List (Lockf ι ρ) → List (Lockf ι ρ) → Heap ι ρ → Option (List (Lockf ι ρ) × Heap ι ρ)
  | 0, _, _, _ => none
  | fuel + 1, front, lf, heap => do
      match ← lfFindoverlap .self lock lf with
      | .clear _ _ => pure (front ++ lf, heap)
      | .meets ovcase skipped overlap tail =>
        let (overlap, heap) := lfWakelock overlap heap
        match ovcase with
        | .equal => pure (front ++ skipped ++ tail, heap)
        | .contains =>
          if overlap.lfStart = lock.lfStart then do
            let overlap ← overlap.withBounds (lock.lfEnd + 1) overlap.lfEnd
            pure (front ++ skipped ++ overlap :: tail, heap)
          else do
            let (before, behind, heap) ← lfSplit overlap lock heap
            pure (front ++ skipped ++ (before ++ behind) ++ tail, heap)
        | .contained => clearLoop lock fuel (front ++ skipped) tail heap
        | .startsBefore => do
            let overlap ← overlap.withBounds overlap.lfStart (lock.lfStart - 1)
            clearLoop lock fuel (front ++ skipped ++ [overlap]) tail heap
        | .endsAfter => do
            let overlap ← overlap.withBounds (lock.lfEnd + 1) overlap.lfEnd
            pure (front ++ skipped ++ overlap :: tail, heap)

/-- `lf_clearlock`. -/
def lfClearlock (lock : Lockf ι ρ) (locks : List (Lockf ι ρ)) (heap : Heap ι ρ) :
    Option (List (Lockf ι ρ) × Heap ι ρ) :=
  clearLoop lock (locks.length + 1) [] locks heap

/-- Case 3 of `lf_setlock`: a downgrade wakes the waiters of the overlap,
otherwise the lock takes them. -/
def replaceOverlap (lock overlap : Lockf ι ρ) (heap : Heap ι ρ) : Lockf ι ρ × Heap ι ρ :=
  if lock.lfType = .rdlck ∧ overlap.lfType = .wrlck then (lock, (lfWakelock overlap heap).2)
  else takeWaiters lock overlap heap

/-- A lock is freed while it is linked. -/
def Heap.free (heap : Heap ι ρ) (lock : Lockf ι ρ) : Heap ι ρ :=
  { heap with freed := lock.addr :: heap.freed }

/-- Case 1 of `lf_setlock`: the overlap gets the type of the lock. -/
def retypeOverlap (lock overlap : Lockf ι ρ) (heap : Heap ι ρ) : Lockf ι ρ × Heap ι ρ :=
  let (overlap, heap) :=
    if lock.lfType = .rdlck ∧ overlap.lfType = .wrlck then lfWakelock overlap heap
    else (overlap, heap)
  ({ overlap with lfType := lock.lfType }, heap)

/-- The loop at the end of `lf_setlock` when `needtolink` is 0.  The lock is
linked between `front` and `mid`, and `prev` is behind `mid`.  Case 4, and case 2
with another type, would link it a second time. -/
def linkedLoop : Nat → List (Lockf ι ρ) → Lockf ι ρ → List (Lockf ι ρ) → List (Lockf ι ρ) →
    Heap ι ρ → Option (List (Lockf ι ρ) × Heap ι ρ)
  | 0, _, _, _, _, _ => none
  | fuel + 1, front, lock, mid, block, heap => do
      match ← lfFindoverlap .self lock block with
      | .clear _ _ => pure (front ++ lock :: (mid ++ block), heap)
      | .meets .contained skipped overlap tail =>
        let (lock, heap) := replaceOverlap lock overlap heap
        linkedLoop fuel front lock (mid ++ skipped) tail heap
      | .meets .endsAfter skipped overlap tail => do
          let (overlap, heap) := lfWakelock overlap heap
          let overlap ← overlap.withBounds (lock.lfEnd + 1) overlap.lfEnd
          pure (front ++ lock :: (mid ++ skipped ++ overlap :: tail), heap)
      | .meets .equal skipped overlap tail =>
        let (overlap, heap) := retypeOverlap lock overlap heap
        pure (front ++ lock :: (mid ++ skipped ++ overlap :: tail), heap.free lock)
      | .meets .contains _ overlap _ =>
        if overlap.lfType = lock.lfType then
          pure (front ++ lock :: (mid ++ block), heap.free lock)
        else none
      | .meets .startsBefore _ _ _ => none

/-- The loop at the end of `lf_setlock`, which adds a lock that nothing blocks,
in its first round: `needtolink` is 1.  The waiters of an overlap that is cut
are woken; a piece that `lf_split` allocates has none. -/
def lfAddlock (lock : Lockf ι ρ) (locks : List (Lockf ι ρ)) (heap : Heap ι ρ) :
    Option (List (Lockf ι ρ) × Heap ι ρ) := do
  match ← lfFindoverlap .self lock locks with
  | .clear skipped rest => pure (skipped ++ lock :: rest, heap)
  | .meets ovcase skipped overlap tail =>
    match ovcase with
    | .equal =>
      let (overlap, heap) := retypeOverlap lock overlap heap
      pure (skipped ++ overlap :: tail, heap)
    | .contains =>
      if overlap.lfType = lock.lfType then pure (locks, heap)
      else
        let (overlap, heap) := lfWakelock overlap heap
        if overlap.lfStart = lock.lfStart then do
          let overlap ← overlap.withBounds (lock.lfEnd + 1) overlap.lfEnd
          pure (skipped ++ lock :: overlap :: tail, heap)
        else do
          let (before, behind, heap) ← lfSplit overlap lock heap
          pure (skipped ++ before ++ lock :: (behind ++ tail), heap)
    | .contained =>
      let (lock, heap) := replaceOverlap lock overlap heap
      linkedLoop (tail.length + 1) skipped lock [] tail heap
    | .startsBefore => do
        let (overlap, heap) := lfWakelock overlap heap
        let overlap ← overlap.withBounds overlap.lfStart (lock.lfStart - 1)
        linkedLoop (tail.length + 1) (skipped ++ [overlap]) lock [] tail heap
    | .endsAfter => do
        let (overlap, heap) := lfWakelock overlap heap
        let overlap ← overlap.withBounds (lock.lfEnd + 1) overlap.lfEnd
        pure (skipped ++ lock :: overlap :: tail, heap)

end Functions

/-! ## What the walks find -/

section Walks

variable {ι : Type} [DecidableEq ι] {lock : Lockf ι} {locks : List (Lockf ι)} {found : Found ι}
  {lf request : Lockf ι}

omit [DecidableEq ι] in
theorem lfStart_eq (lock : Lockf ι) : lock.lfStart = lock.range.first :=
  rfl

omit [DecidableEq ι] in
theorem lfEnd_eq (lock : Lockf ι) : lock.lfEnd = lock.range.last :=
  rfl

omit [DecidableEq ι] in
/-- The tests classify every pair of ranges, so the panic is never reached. -/
theorem overlapCase_spec (lock lf : Lockf ι) : ∃ result, overlapCase lock lf = some result ∧
      match result with
      | none => ¬lf.range.Overlaps lock.range
      | some ovcase => ovcase.Fits lf.range lock.range := by
  have lockBounds := And.intro (lfStart_eq lock) (lfEnd_eq lock)
  have lfBounds := And.intro (lfStart_eq lf) (lfEnd_eq lf)
  unfold overlapCase
  split_ifs with apart equal contains contained startsBefore endsAfter
  · refine ⟨none, rfl, ?_⟩
    simp only [Span.Overlaps, Span.Before]
    omega
  · refine ⟨some .equal, rfl, ?_⟩
    exact Span.ext equal.1 equal.2
  · refine ⟨some .contains, rfl, ?_, contains.1, by omega⟩
    rintro same
    exact equal ⟨congrArg Span.first same, congrArg Span.last same⟩
  · refine ⟨some .contained, rfl, ?_, contained.1, by omega⟩
    rintro same
    exact equal ⟨congrArg Span.first same, congrArg Span.last same⟩
  · refine ⟨some .startsBefore, rfl, ?_⟩
    simp only [Overlap.Fits]
    omega
  · refine ⟨some .endsAfter, rfl, ?_⟩
    simp only [Overlap.Fits]
    omega
  · omega

/-- What a walk over the locks of the same owner finds: the skipped ones end
before the lock, and case 0 stops in front of one that starts behind it. -/
def Found.Own (lock : Lockf ι) (locks : List (Lockf ι)) : Found ι → Prop
  | .clear skipped rest =>
    locks = skipped ++ rest ∧
      (∀ lf ∈ skipped, lf.lfId = lock.lfId → lf.range.Before lock.range) ∧
      ∀ lf, rest.head? = some lf → lf.lfId = lock.lfId ∧ lock.range.Before lf.range
  | .meets ovcase skipped overlap tail =>
    locks = skipped ++ overlap :: tail ∧
      (∀ lf ∈ skipped, lf.lfId = lock.lfId → lf.range.Before lock.range) ∧
      overlap.lfId = lock.lfId ∧ ovcase.Fits overlap.range lock.range

omit [DecidableEq ι] in
theorem Found.Own.skip (own : found.Own lock locks)
    (behind : lf.lfId = lock.lfId → lf.range.Before lock.range) :
    (found.skip lf).Own lock (lf :: locks) := by
  cases found with
  | clear skipped rest =>
    rcases own with ⟨rfl, before, ahead⟩
    exact ⟨rfl, forall_mem_cons.mpr ⟨behind, before⟩, ahead⟩
  | meets ovcase skipped overlap tail =>
    rcases own with ⟨rfl, before, facts⟩
    exact ⟨rfl, forall_mem_cons.mpr ⟨behind, before⟩, facts⟩

theorem lfFindoverlap_self (lock : Lockf ι) (locks : List (Lockf ι)) :
    ∃ found, lfFindoverlap .self lock locks = some found ∧ found.Own lock locks := by
  induction locks with
  | nil => exact ⟨.clear [] [], rfl, rfl, by simp, by simp⟩
  | cons lf rest ih =>
    rcases ih with ⟨found, isFound, own⟩
    have skips : (lfFindoverlap .self lock rest).map (.skip lf) = some (found.skip lf) := by
      rw [isFound, Option.map_some]
    by_cases isOwn : lf.lfId = lock.lfId
    · rcases overlapCase_spec lock lf with ⟨result, isResult, facts⟩
      simp only [lfFindoverlap, isOwn, isResult, ne_eq, not_true_eq_false, and_false,
        reduceCtorEq, false_and, or_self, if_false, true_and]
      cases result with
      | none =>
        simp only [Span.Overlaps, Span.Before] at facts
        by_cases ahead : lock.lfEnd ≠ -1 ∧ lf.lfStart > lock.lfEnd
        · refine ⟨.clear [] (lf :: rest), by simp [ahead], rfl, by simp, ?_⟩
          intro other isHead
          cases isHead
          exact ⟨isOwn, ahead.1, ahead.2⟩
        · refine ⟨found.skip lf, by simp only [if_neg ahead, skips], own.skip ?_⟩
          intro _
          rw [lfEnd_eq, lfStart_eq] at ahead
          unfold Span.Before
          omega
      | some ovcase => exact ⟨.meets ovcase [] lf rest, rfl, rfl, by simp, isOwn, facts⟩
    · refine ⟨found.skip lf, ?_, own.skip fun same => absurd same isOwn⟩
      simp only [lfFindoverlap, isOwn, ne_eq, not_false_eq_true, and_self, true_or, if_true, skips]

/-- What a walk over the locks of other owners finds: the skipped ones do not
overlap the lock, and case 0 comes at the end of the list only. -/
def Found.Other (lock : Lockf ι) (locks : List (Lockf ι)) : Found ι → Prop
  | .clear skipped rest =>
    locks = skipped ∧ rest = [] ∧
      ∀ lf ∈ skipped, lf.lfId ≠ lock.lfId → ¬lf.range.Overlaps lock.range
  | .meets ovcase skipped overlap tail =>
    locks = skipped ++ overlap :: tail ∧
      (∀ lf ∈ skipped, lf.lfId ≠ lock.lfId → ¬lf.range.Overlaps lock.range) ∧
      overlap.lfId ≠ lock.lfId ∧ ovcase.Fits overlap.range lock.range

omit [DecidableEq ι] in
theorem Found.Other.skip (other : found.Other lock locks)
    (apart : lf.lfId ≠ lock.lfId → ¬lf.range.Overlaps lock.range) :
    (found.skip lf).Other lock (lf :: locks) := by
  cases found with
  | clear skipped rest =>
    rcases other with ⟨rfl, rfl, before⟩
    exact ⟨rfl, rfl, forall_mem_cons.mpr ⟨apart, before⟩⟩
  | meets ovcase skipped overlap tail =>
    rcases other with ⟨rfl, before, facts⟩
    exact ⟨rfl, forall_mem_cons.mpr ⟨apart, before⟩, facts⟩

theorem lfFindoverlap_others (lock : Lockf ι) (locks : List (Lockf ι)) :
    ∃ found, lfFindoverlap .others lock locks = some found ∧ found.Other lock locks := by
  induction locks with
  | nil => exact ⟨.clear [] [], rfl, rfl, rfl, by simp⟩
  | cons lf rest ih =>
    rcases ih with ⟨found, isFound, other⟩
    have skips : (lfFindoverlap .others lock rest).map (.skip lf) = some (found.skip lf) := by
      rw [isFound, Option.map_some]
    by_cases isOwn : lf.lfId = lock.lfId
    · refine ⟨found.skip lf, ?_, other.skip fun differs => absurd isOwn differs⟩
      simp only [lfFindoverlap, isOwn, and_self, or_true, if_true, skips]
    · rcases overlapCase_spec lock lf with ⟨result, isResult, facts⟩
      simp only [lfFindoverlap, isOwn, isResult, reduceCtorEq, false_and, and_false, or_self,
        if_false]
      cases result with
      | none => exact ⟨found.skip lf, skips, other.skip fun _ => facts⟩
      | some ovcase => exact ⟨.meets ovcase [] lf rest, rfl, rfl, by simp, isOwn, facts⟩

/-- A lock blocks a request of another owner that overlaps it, if one of the two
is exclusive. -/
def Blocks (lock request : Lockf ι) : Prop :=
  lock.lfId ≠ request.lfId ∧ lock.range.Overlaps request.range ∧
    (request.lfType = .wrlck ∨ lock.lfType = .wrlck)

instance (lock request : Lockf ι) : Decidable (Blocks lock request) :=
  inferInstanceAs (Decidable (_ ∧ _))

/-- `lf_getblock` returns the first lock that blocks the request. -/
theorem lfGetblock_eq (request : Lockf ι) (locks : List (Lockf ι)) :
    lfGetblock request locks = some (locks.find? fun lock => Blocks lock request) := by
  have loop : ∀ (fuel : Nat) (locks : List (Lockf ι)), locks.length < fuel →
      getblockLoop request fuel locks = some (locks.find? fun lock => Blocks lock request) := by
    intro fuel
    induction fuel with
    | zero =>
      intro locks short
      omega
    | succ fuel ih =>
      intro locks short
      have passes : ∀ skipped : List (Lockf ι),
          (∀ lf ∈ skipped, lf.lfId ≠ request.lfId → ¬lf.range.Overlaps request.range) →
            skipped.find? (fun lock => Blocks lock request) = none := by
        intro skipped apart
        rw [find?_eq_none]
        intro lf member blocks
        have facts := of_decide_eq_true blocks
        exact apart lf member facts.1 facts.2.1
      rcases lfFindoverlap_others request locks with ⟨found, isFound, other⟩
      simp only [getblockLoop, isFound, Option.bind_eq_bind, Option.bind_some]
      cases found with
      | clear skipped rest =>
        rcases other with ⟨rfl, _, apart⟩
        simp only [passes locks apart]
        rfl
      | meets ovcase skipped overlap tail =>
        rcases other with ⟨rfl, apart, differs, fits⟩
        rw [find?_append, passes skipped apart]
        by_cases exclusive : request.lfType = .wrlck ∨ overlap.lfType = .wrlck
        · have blocks : Blocks overlap request := ⟨differs, fits.overlaps, exclusive⟩
          simp [exclusive, blocks]
        · have passes : ¬Blocks overlap request := fun blocks => exclusive blocks.2.2
          simp only [if_neg exclusive, find?_cons, passes, decide_false]
          exact ih tail (by simp at short; omega)
  exact loop _ _ (Nat.lt_succ_self _)

theorem lfGetblock_some {block : Lockf ι} (found : lfGetblock request locks = some (some block)) :
    block ∈ locks ∧ Blocks block request := by
  rw [lfGetblock_eq, Option.some.injEq] at found
  have blocks := find?_some found
  exact ⟨mem_of_find?_eq_some found, of_decide_eq_true blocks⟩

theorem lfGetblock_none (found : lfGetblock request locks = some none) :
    ∀ lf ∈ locks, ¬Blocks lf request := by
  rw [lfGetblock_eq, Option.some.injEq] at found
  simpa using found

/-- `lf_getblock` never panics. -/
theorem lfGetblock_cases (request : Lockf ι) (locks : List (Lockf ι)) :
    (∃ block, lfGetblock request locks = some (some block)) ∨
      lfGetblock request locks = some none := by
  rw [lfGetblock_eq]
  cases locks.find? fun lf => Blocks lf request with
  | none => exact .inr rfl
  | some block => exact .inl ⟨block, rfl⟩

end Walks

end Bitrig.Advlock
