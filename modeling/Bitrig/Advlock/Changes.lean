import Bitrig.Advlock.Table

/-!
# What the operations do to the list

Clearing a range and adding a lock are described once, as relations between the
list and the heap before and after, with what each case has tested.  Everything
about the operations is proved from these relations.

An overlapping lock is cut: its waiters are woken and what is left of it, at most
two pieces, has none.  Only a lock that is replaced by one that reaches over it
on both sides gives its waiters to that lock.
-/

variable {start stop : Int}

namespace Bitrig.Advlock

open Bitrig.SpanList List Option

variable {ι : Type}

/-- How locks carry an owner, a type and a range. -/
def reading (ι : Type) : Reading (Lockf ι) ι LfType where
  key := Lockf.lfId
  label := Lockf.lfType
  span := Lockf.range

/-- The locks of each owner are in increasing order and disjoint. -/
abbrev Sorted (locks : List (Lockf ι)) : Prop :=
  Ordered (reading ι) locks

/-- The list without the bytes of a range of one owner. -/
abbrev Without (id : ι) (range : Span) : List (Lockf ι) → List (Lockf ι) → Prop :=
  Clipped (reading ι) id range

/-! ## Pieces of an overlap -/

section Pieces

variable {lock overlap : Lockf ι}

theorem withBounds_eq (valid : 0 ≤ start ∧ (stop = -1 ∨ start ≤ stop)) :
    overlap.withBounds start stop = some { overlap with range := ⟨start, stop, valid⟩ } := by
  change (Span.of? start stop).map _ = _
  rw [Span.of?_eq_some valid]
  rfl

/-- An overlap inside the range disappears. -/
theorem pieces_nil (within : overlap.lfId = lock.lfId)
    (fits : Overlap.equal.Fits overlap.range lock.range ∨
      Overlap.contained.Fits overlap.range lock.range) :
    Pieces (reading ι) lock.lfId lock.range overlap [] where
  key := by simp
  label := by simp
  covers x := by
    have inside : overlap.range.Covers x → lock.range.Covers x := by
      rcases fits with same | ⟨_, contained⟩
      · rw [show overlap.range = lock.range from same]
        exact id
      · unfold Span.Covers
        omega
    simp only [not_mem_nil, false_and, exists_false, false_iff]
    rintro ⟨covers, outside⟩
    exact outside ⟨within, inside covers⟩
  ordered := List.Pairwise.nil

end Pieces

/-! ## Cutting an overlap -/

/-- The range of `lock` is cut out of `overlap`, whose waiters are woken. -/
structure Cut (lock overlap : Lockf ι) (heap : Heap ι) (left : List (Lockf ι)) (heap' : Heap ι) :
    Prop where
  own : overlap.lfId = lock.lfId
  pieces : Pieces (reading ι) lock.lfId lock.range overlap left
  bounds : ∀ piece ∈ left,
    (piece.range.first = overlap.range.first ∨ piece.range.first = lock.range.last + 1) ∧
      (piece.range.last = overlap.range.last ∨ piece.range.last = lock.range.first - 1)
  flags : ∀ piece ∈ left, piece.lfFlags = overlap.lfFlags
  noWaiter : ∀ piece ∈ left, piece.lfBlkhd = []
  addr : ∀ piece ∈ left, piece.addr = overlap.addr ∨
    heap.nextAddr ≤ piece.addr ∧ piece.addr < heap'.nextAddr
  nodup : (left.map Lockf.addr).Nodup
  woken : heap'.sleepers = (lfWakelock overlap heap).2.sleepers
  next : heap.nextAddr ≤ heap'.nextAddr
  freed : heap'.freed = heap.freed

section Cut

variable {lock overlap : Lockf ι} {heap : Heap ι}

theorem Cut.nil (own : overlap.lfId = lock.lfId)
    (fits : Overlap.equal.Fits overlap.range lock.range ∨
      Overlap.contained.Fits overlap.range lock.range) :
    Cut lock overlap heap [] (lfWakelock overlap heap).2 where
  own := own
  pieces := pieces_nil own fits
  bounds := by simp
  flags := by simp
  noWaiter := by simp
  addr := by simp
  nodup := by simp
  woken := rfl
  next := le_refl _
  freed := rfl

/-- One piece of the overlap is left. -/
theorem Cut.single (own : overlap.lfId = lock.lfId) (valid : 0 ≤ start ∧ (stop = -1 ∨ start ≤ stop))
    (bounds : (start = overlap.range.first ∨ start = lock.range.last + 1) ∧
      (stop = overlap.range.last ∨ stop = lock.range.first - 1))
    (covers : ∀ x,
      (⟨start, stop, valid⟩ : Span).Covers x ↔ overlap.range.Covers x ∧ ¬lock.range.Covers x) :
    Cut lock overlap heap [{ (lfWakelock overlap heap).1 with range := ⟨start, stop, valid⟩ }]
      (lfWakelock overlap heap).2 where
  own := own
  pieces := by
    refine ⟨forall_mem_singleton.mpr rfl, forall_mem_singleton.mpr rfl, fun x => ?_,
      pairwise_singleton _ _⟩
    simp only [mem_singleton, exists_eq_left, reading, own, true_and]
    exact covers x
  bounds := forall_mem_singleton.mpr bounds
  flags := forall_mem_singleton.mpr rfl
  noWaiter := forall_mem_singleton.mpr rfl
  addr := forall_mem_singleton.mpr (.inl rfl)
  nodup := nodup_singleton _
  woken := rfl
  next := le_refl _
  freed := rfl

theorem front_valid (early : overlap.range.first < lock.range.first) :
    0 ≤ overlap.lfStart ∧ (lock.lfStart - 1 = -1 ∨ overlap.lfStart ≤ lock.lfStart - 1) := by
  have valid := overlap.range.valid
  rw [lfStart_eq, lfStart_eq]
  omega

theorem back_valid (late : overlap.range.last = -1 ∨ lock.range.last < overlap.range.last) :
    0 ≤ lock.lfEnd + 1 ∧ (overlap.lfEnd = -1 ∨ lock.lfEnd + 1 ≤ overlap.lfEnd) := by
  have valid := lock.range.valid
  rw [lfEnd_eq, lfEnd_eq]
  omega

section

variable (own : overlap.lfId = lock.lfId)
include own

/-- The overlap is cut off at the start of the range. -/
theorem Cut.front (early : overlap.range.first < lock.range.first) (noTail : lock.range.last = -1 ∨
      (overlap.range.last ≠ -1 ∧ overlap.range.last ≤ lock.range.last))
    (meets : overlap.range.Overlaps lock.range) (heap : Heap ι) :
    ∃ piece, (lfWakelock overlap heap).1.withBounds (lfWakelock overlap heap).1.lfStart
        (lock.lfStart - 1) = some piece ∧
      Cut lock overlap heap [piece] (lfWakelock overlap heap).2 ∧
      piece.range.Before lock.range := by
  have validOverlap := overlap.range.valid
  refine ⟨_, withBounds_eq (front_valid early),
    .single own (front_valid early) ⟨.inl rfl, .inr rfl⟩ fun x => ?_, ?_⟩
  · unfold Span.Overlaps Span.Before at meets
    unfold Span.Covers
    dsimp only [lfStart_eq]
    omega
  · unfold Span.Before
    dsimp only [lfStart_eq]
    omega

/-- The overlap is cut off up to the end of the range. -/
theorem Cut.back (closed : lock.range.last ≠ -1) (noHead : lock.range.first ≤ overlap.range.first)
    (late : overlap.range.last = -1 ∨ lock.range.last < overlap.range.last)
    (meets : overlap.range.Overlaps lock.range) (heap : Heap ι) :
    ∃ piece, (lfWakelock overlap heap).1.withBounds (lock.lfEnd + 1)
        (lfWakelock overlap heap).1.lfEnd = some piece ∧
      Cut lock overlap heap [piece] (lfWakelock overlap heap).2 ∧
      lock.range.Before piece.range := by
  refine ⟨_, withBounds_eq (back_valid late),
    .single own (back_valid late) ⟨.inr rfl, .inl rfl⟩ fun x => ?_, ?_⟩
  · unfold Span.Overlaps Span.Before at meets
    unfold Span.Covers
    dsimp only [lfEnd_eq]
    omega
  · unfold Span.Before
    dsimp only [lfEnd_eq]
    omega

/-- `lf_split` leaves the parts of the overlap before and behind the lock. -/
theorem Cut.split (fits : Overlap.contains.Fits overlap.range lock.range)
    (fresh : overlap.addr < heap.nextAddr) :
    ∃ before behind heap', lfSplit (lfWakelock overlap heap).1 lock (lfWakelock overlap heap).2 =
        some (before, behind, heap') ∧
      Cut lock overlap heap (before ++ behind) heap' ∧
      (∀ piece ∈ before, piece.range.Before lock.range) ∧
      ∀ piece ∈ behind, lock.range.Before piece.range := by
  have validLock := lock.range.valid
  have validOverlap := overlap.range.valid
  have meets := Overlap.Fits.overlaps fits
  rcases fits with ⟨differ, first, last⟩
  unfold lfSplit
  by_cases starts : overlap.range.first = lock.range.first
  · have endNe : overlap.range.last ≠ lock.range.last := fun ends => differ (Span.ext starts ends)
    rcases Cut.back own (by omega) (by omega) (by omega) meets heap with
      ⟨piece, bounds, cut, behind⟩
    refine ⟨[], [piece], (lfWakelock overlap heap).2, ?_, cut, by simp, by simpa using behind⟩
    rw [if_pos (show (lfWakelock overlap heap).1.lfStart = lock.lfStart from starts), bounds]
    rfl
  have early : overlap.range.first < lock.range.first := by omega
  rw [if_neg (show ¬(lfWakelock overlap heap).1.lfStart = lock.lfStart from starts)]
  by_cases sameEnd : overlap.lfEnd = lock.lfEnd
  · rcases Cut.front own early (by rw [lfEnd_eq, lfEnd_eq] at sameEnd; omega) meets heap with
      ⟨piece, bounds, cut, before⟩
    refine ⟨[piece], [], (lfWakelock overlap heap).2, ?_, cut, by simpa using before, by simp⟩
    rw [if_pos (show (lfWakelock overlap heap).1.lfEnd = lock.lfEnd from sameEnd), bounds]
    rfl
  · have endNe : overlap.range.last ≠ lock.range.last := sameEnd
    have late : overlap.range.last = -1 ∨ lock.range.last < overlap.range.last := by omega
    have frontBounds : (lfWakelock overlap heap).1.withBounds (lfWakelock overlap heap).1.lfStart
        (lock.lfStart - 1) = _ := withBounds_eq (front_valid early)
    have backBounds : (lfWakelock overlap heap).1.withBounds (lock.lfEnd + 1)
        (lfWakelock overlap heap).1.lfEnd = _ := withBounds_eq (back_valid late)
    have before : (⟨_, _, front_valid early⟩ : Span).Before lock.range := by
      unfold Span.Before
      dsimp only [lfStart_eq]
      omega
    have behind : lock.range.Before ⟨_, _, back_valid late⟩ := by
      unfold Span.Before
      dsimp only [lfEnd_eq]
      omega
    rw [if_neg (show ¬(lfWakelock overlap heap).1.lfEnd = lock.lfEnd from sameEnd), frontBounds,
      backBounds]
    refine ⟨_, _, _, rfl, ⟨own, ⟨?_, ?_, fun x => ?_, ?_⟩, ?_, ?_, ?_, ?_, ?_, rfl, ?_, rfl⟩,
      ?_, ?_⟩
    · simp [lfWakelock, reading]
    · simp [lfWakelock, reading]
    · simp only [singleton_append, mem_cons, not_mem_nil, or_false, exists_eq_or_imp,
        exists_eq_left, reading, own, true_and]
      unfold Span.Covers
      dsimp only [lfStart_eq, lfEnd_eq]
      omega
    · exact pairwise_pair.mpr (before.trans behind)
    · exact forall_mem_cons.mpr ⟨⟨.inl rfl, .inr rfl⟩,
        forall_mem_singleton.mpr ⟨.inr rfl, .inl rfl⟩⟩
    · simp [lfWakelock]
    · simp [lfWakelock]
    · simp [lfWakelock]
    · simp only [lfWakelock, redirect_nextAddr, singleton_append, map_cons,
        map_nil, nodup_cons, mem_singleton, not_mem_nil, not_false_eq_true, nodup_nil, and_true]
      omega
    · exact Nat.le_succ _
    · exact forall_mem_singleton.mpr before
    · exact forall_mem_singleton.mpr behind

end

end Cut

/-! ## Order facts of the walks -/

section Walks

variable {lock : Lockf ι} {locks : List (Lockf ι)}

/-- Behind a lock of the same owner that reaches the end of the range, the locks
of the owner are behind the range. -/
theorem ahead_of_cover {tail : List (Lockf ι)} (sorted : Sorted (overlap :: tail))
    (own : overlap.lfId = lock.lfId) (reaches : overlap.range.last = -1 ∨
      (lock.range.last ≠ -1 ∧ lock.range.last ≤ overlap.range.last)) :
    ∀ lf ∈ tail, lf.lfId = lock.lfId → lock.range.Before lf.range := by
  intro lf member isOwn
  have after : overlap.range.Before lf.range :=
    (pairwise_cons.mp sorted).1 lf member (own.trans isOwn.symm)
  unfold Span.Before at after ⊢
  omega

/-- Case 0 is right: every lock of the owner in the rest of the list is behind
the range. -/
theorem Found.Own.ahead {skipped rest : List (Lockf ι)}
    (own : (Found.clear skipped rest).Own lock locks)
    (sorted : Sorted locks) : ∀ lf ∈ rest, lf.lfId = lock.lfId → lock.range.Before lf.range := by
  rcases own with ⟨rfl, _, head⟩
  intro lf member isOwn
  cases rest with
  | nil => cases member
  | cons next rest =>
    have nextFacts := head next rfl
    rcases mem_cons.mp member with rfl | later
    · exact nextFacts.2
    · have restSorted := (pairwise_append.mp sorted).2.1
      have after : next.range.Before lf.range :=
        (pairwise_cons.mp restSorted).1 lf later (nextFacts.1.trans isOwn.symm)
      exact nextFacts.2.trans after

theorem without_of_before
    (before : ∀ lf ∈ locks, lf.lfId = lock.lfId → lf.range.Before lock.range) :
    Without lock.lfId lock.range locks locks := by
  apply Clipped.refl
  intro lf member isOwn meets
  exact meets.1 (before lf member isOwn)

theorem without_of_ahead (ahead : ∀ lf ∈ locks, lf.lfId = lock.lfId → lock.range.Before lf.range) :
    Without lock.lfId lock.range locks locks := by
  apply Clipped.refl
  intro lf member isOwn meets
  exact meets.2 (ahead lf member isOwn)

end Walks

/-! ## Clearing a range -/

/-- What `lf_clearlock` does to the list and the heap. -/
inductive Cleared (lock : Lockf ι) : List (Lockf ι) → Heap ι → List (Lockf ι) → Heap ι → Prop
  /-- No lock of the owner is left to cut. -/
  | none {skipped rest : List (Lockf ι)} {heap : Heap ι}
      (before : ∀ lf ∈ skipped, lf.lfId = lock.lfId → lf.range.Before lock.range)
      (ahead : ∀ lf ∈ rest, lf.lfId = lock.lfId → lock.range.Before lf.range) :
      Cleared lock (skipped ++ rest) heap (skipped ++ rest) heap
  /-- A lock of the owner is cut, and the walk may go on behind it. -/
  | cut {skipped tail pieces left : List (Lockf ι)} {overlap : Lockf ι} {heap heap' heap'' : Heap ι}
      (before : ∀ lf ∈ skipped, lf.lfId = lock.lfId → lf.range.Before lock.range)
      (isCut : Cut lock overlap heap pieces heap') (more : Cleared lock tail heap' left heap'') :
      Cleared lock (skipped ++ overlap :: tail) heap (skipped ++ (pieces ++ left)) heap''

section Clear

variable {lock : Lockf ι} {locks locks' : List (Lockf ι)} {heap heap' : Heap ι}

theorem Cleared.refl (ahead : ∀ lf ∈ locks, lf.lfId = lock.lfId → lock.range.Before lf.range) :
    Cleared lock locks heap locks heap := by
  rw [← nil_append locks]
  exact .none (by simp) ahead

theorem Cleared.without (cleared : Cleared lock locks heap locks' heap') :
    Without lock.lfId lock.range locks locks' := by
  induction cleared with
  | none before ahead => exact (without_of_before before).append (without_of_ahead ahead)
  | cut before isCut _ ih => exact (without_of_before before).append (.cons isCut.pieces ih)

/-- The locks of other owners stay as they are. -/
theorem Cleared.mem_of_other (cleared : Cleared lock locks heap locks' heap') {lf : Lockf ι}
    (member : lf ∈ locks) (other : lf.lfId ≠ lock.lfId) : lf ∈ locks' := by
  induction cleared with
  | none _ _ => exact member
  | cut _ isCut _ ih =>
    rcases mem_append.mp member with isSkipped | isRest
    · exact mem_append_left _ isSkipped
    · rcases mem_cons.mp isRest with rfl | isTail
      · exact absurd isCut.own other
      · exact mem_append_right _ (mem_append_right _ (ih isTail))

variable [DecidableEq ι]

theorem clearLoop_cleared (lock : Lockf ι) (fuel : Nat) (front locks : List (Lockf ι))
    (heap : Heap ι) (sorted : Sorted locks) (fresh : ∀ lf ∈ locks, lf.addr < heap.nextAddr)
    (short : locks.length < fuel) :
    ∃ left heap', clearLoop lock fuel front locks heap = some (front ++ left, heap') ∧
      Cleared lock locks heap left heap' := by
  induction fuel generalizing front locks heap with
  | zero => omega
  | succ fuel ih =>
    rcases lfFindoverlap_self lock locks with ⟨found, isFound, own⟩
    simp only [clearLoop, isFound, bind_eq_bind, bind_some]
    cases found with
    | clear skipped rest =>
      have ahead := own.ahead sorted
      rcases own with ⟨rfl, before, _⟩
      exact ⟨skipped ++ rest, heap, rfl, .none before ahead⟩
    | meets ovcase skipped overlap tail =>
      rcases own with ⟨rfl, before, isOwn, fits⟩
      have tailSorted : Sorted (overlap :: tail) := (pairwise_append.mp sorted).2.1
      have meets := fits.overlaps
      have validOverlap := overlap.range.valid
      cases ovcase with
      | equal =>
        have same : overlap.range = lock.range := fits
        have ahead := ahead_of_cover tailSorted isOwn (by rw [same]; omega)
        refine ⟨skipped ++ ([] ++ tail), (lfWakelock overlap heap).2, by simp, ?_⟩
        exact .cut before (.nil isOwn (.inl fits)) (.refl ahead)
      | contains =>
        have ahead := ahead_of_cover tailSorted isOwn fits.2.2
        rcases Cut.split isOwn fits (fresh overlap (by simp)) with
          ⟨front', back', heap', split, isCut, _, _⟩
        refine ⟨skipped ++ (front' ++ back' ++ tail), heap', ?_, .cut before isCut (.refl ahead)⟩
        dsimp only
        split_ifs with starts
        · simp only [lfSplit, if_pos starts] at split
          obtain ⟨piece, bounds, same⟩ := bind_eq_some_iff.mp split
          cases same
          simp [bounds]
        · simp [split]
      | endsAfter =>
        unfold Overlap.Fits at fits
        have ahead := ahead_of_cover tailSorted isOwn (by omega)
        rcases Cut.back isOwn fits.2.1 (by omega) fits.2.2.2 meets heap with
          ⟨piece, bounds, isCut, _⟩
        refine ⟨skipped ++ ([piece] ++ tail), (lfWakelock overlap heap).2, ?_,
          .cut before isCut (.refl ahead)⟩
        simp [bounds]
      | contained =>
        -- the walk goes on behind the overlap
        rcases ih (front ++ skipped) tail (lfWakelock overlap heap).2
          (pairwise_cons.mp tailSorted).2
          (fun lf member => fresh lf (by simp [member]))
          (by simp only [length_append, length_cons] at short; omega) with
          ⟨left, heap', cleared, more⟩
        refine ⟨skipped ++ ([] ++ left), heap', ?_, .cut before (.nil isOwn (.inr fits)) more⟩
        simpa using cleared
      | startsBefore =>
        unfold Overlap.Fits at fits
        rcases Cut.front isOwn fits.1 (by omega) meets heap with ⟨piece, bounds, isCut, _⟩
        rcases ih (front ++ skipped ++ [piece]) tail (lfWakelock overlap heap).2
          (pairwise_cons.mp tailSorted).2
          (fun lf member => fresh lf (by simp [member]))
          (by simp only [length_append, length_cons] at short; omega) with
          ⟨left, heap', cleared, more⟩
        refine ⟨skipped ++ ([piece] ++ left), heap', ?_, .cut before isCut more⟩
        simp only [bounds, bind_some, cleared]
        simp

end Clear

/-! ## Adding a lock -/

/-- What the loop of `lf_setlock` does behind the place where the lock is linked:
it cuts the locks that reach out of the range and replaces the others. -/
inductive Passed : Lockf ι → List (Lockf ι) → Heap ι → Lockf ι → List (Lockf ι) → Heap ι → Prop
  | done {lock : Lockf ι} {block : List (Lockf ι)} {heap : Heap ι}
      (ahead : ∀ lf ∈ block, lf.lfId = lock.lfId → lock.range.Before lf.range) :
      Passed lock block heap lock block heap
  | cut {lock overlap piece : Lockf ι} {skipped tail : List (Lockf ι)} {heap heap' : Heap ι}
      (others : ∀ lf ∈ skipped, lf.lfId ≠ lock.lfId) (isCut : Cut lock overlap heap [piece] heap')
      (behind : lock.range.Before piece.range)
      (ahead : ∀ lf ∈ tail, lf.lfId = lock.lfId → lock.range.Before lf.range) :
      Passed lock (skipped ++ overlap :: tail) heap lock (skipped ++ piece :: tail) heap'
  | replace {lock overlap lock' : Lockf ι} {skipped tail left : List (Lockf ι)}
      {heap heap' : Heap ι}
      (others : ∀ lf ∈ skipped, lf.lfId ≠ lock.lfId) (own : overlap.lfId = lock.lfId)
      (fits : Overlap.contained.Fits overlap.range lock.range)
      (more : Passed (replaceOverlap lock overlap heap).1 tail (replaceOverlap lock overlap heap).2
        lock' left heap') :
      Passed lock (skipped ++ overlap :: tail) heap lock' (skipped ++ left) heap'

/-- What the loop of `lf_setlock` does to the list and the heap. -/
inductive Added (lock : Lockf ι) : List (Lockf ι) → Heap ι → List (Lockf ι) → Heap ι → Prop
  /-- Case 0: the lock is linked between locks that do not overlap it. -/
  | link {skipped rest : List (Lockf ι)} {heap : Heap ι}
      (before : ∀ lf ∈ skipped, lf.lfId = lock.lfId → lf.range.Before lock.range)
      (ahead : ∀ lf ∈ rest, lf.lfId = lock.lfId → lock.range.Before lf.range) :
      Added lock (skipped ++ rest) heap (skipped ++ lock :: rest) heap
  /-- Case 1: the type of the overlap is changed, and a downgrade wakes its
  waiters. -/
  | retype {skipped tail : List (Lockf ι)} {overlap : Lockf ι} {heap : Heap ι}
      (before : ∀ lf ∈ skipped, lf.lfId = lock.lfId → lf.range.Before lock.range)
      (own : overlap.lfId = lock.lfId) (same : overlap.range = lock.range)
      (ahead : ∀ lf ∈ tail, lf.lfId = lock.lfId → lock.range.Before lf.range) :
      Added lock (skipped ++ overlap :: tail) heap
        (skipped ++
          { (if lock.lfType = .rdlck ∧ overlap.lfType = .wrlck then lfWakelock overlap heap
              else (overlap, heap)).1 with lfType := lock.lfType } :: tail)
        (if lock.lfType = .rdlck ∧ overlap.lfType = .wrlck then lfWakelock overlap heap
          else (overlap, heap)).2
  /-- Case 2 with the same type: nothing changes. -/
  | keep {locks : List (Lockf ι)} {overlap : Lockf ι} {heap : Heap ι} (member : overlap ∈ locks)
      (own : overlap.lfId = lock.lfId)
      (fits : Overlap.contains.Fits overlap.range lock.range)
      (sameType : overlap.lfType = lock.lfType) : Added lock locks heap locks heap
  /-- Cases 2 and 5: the lock stands between the pieces of the overlap. -/
  | cut {skipped tail before behind : List (Lockf ι)} {overlap : Lockf ι} {heap heap' : Heap ι}
      (beforeSkipped : ∀ lf ∈ skipped, lf.lfId = lock.lfId → lf.range.Before lock.range)
      (isCut : Cut lock overlap heap (before ++ behind) heap')
      (isBefore : ∀ piece ∈ before, piece.range.Before lock.range)
      (isBehind : ∀ piece ∈ behind, lock.range.Before piece.range)
      (ahead : ∀ lf ∈ tail, lf.lfId = lock.lfId → lock.range.Before lf.range) :
      Added lock (skipped ++ overlap :: tail) heap
        (skipped ++ before ++ lock :: (behind ++ tail)) heap'
  /-- Case 3: the lock replaces the overlap. -/
  | replace {skipped tail left : List (Lockf ι)} {overlap lock' : Lockf ι} {heap heap' : Heap ι}
      (before : ∀ lf ∈ skipped, lf.lfId = lock.lfId → lf.range.Before lock.range)
      (own : overlap.lfId = lock.lfId)
      (fits : Overlap.contained.Fits overlap.range lock.range)
      (passed : Passed (replaceOverlap lock overlap heap).1 tail
        (replaceOverlap lock overlap heap).2 lock' left heap') :
      Added lock (skipped ++ overlap :: tail) heap (skipped ++ lock' :: left) heap'
  /-- Case 4: the lock follows what is left of the overlap. -/
  | follow {skipped tail left : List (Lockf ι)} {overlap piece lock' : Lockf ι}
      {heap heap' heap'' : Heap ι}
      (before : ∀ lf ∈ skipped, lf.lfId = lock.lfId → lf.range.Before lock.range)
      (isCut : Cut lock overlap heap [piece] heap') (isBefore : piece.range.Before lock.range)
      (passed : Passed lock tail heap' lock' left heap'') :
      Added lock (skipped ++ overlap :: tail) heap (skipped ++ [piece] ++ lock' :: left) heap''

section Add

variable {lock : Lockf ι} {heap : Heap ι}

/-- The lock that replaces an overlap keeps what it is. -/
theorem replaceOverlap_fst (lock overlap : Lockf ι) (heap : Heap ι) :
    (replaceOverlap lock overlap heap).1.lfId = lock.lfId ∧
      (replaceOverlap lock overlap heap).1.range = lock.range ∧
      (replaceOverlap lock overlap heap).1.lfType = lock.lfType ∧
      (replaceOverlap lock overlap heap).1.addr = lock.addr ∧
      (replaceOverlap lock overlap heap).1.lfFlags = lock.lfFlags := by
  unfold replaceOverlap
  split
  · exact ⟨rfl, rfl, rfl, rfl, rfl⟩
  · exact ⟨rfl, rfl, rfl, rfl, rfl⟩

variable [DecidableEq ι]

/-- Behind the place of the lock every lock of its owner starts later, so that
only cases 0, 3 and 5 are left. -/
theorem linkedLoop_passed (fuel : Nat) (front : List (Lockf ι)) (lock : Lockf ι)
    (mid : List (Lockf ι)) (heap : Heap ι) {block : List (Lockf ι)} (sorted : Sorted block)
    (later : ∀ lf ∈ block, lf.lfId = lock.lfId → lock.range.first < lf.range.first)
    (short : block.length < fuel) :
    ∃ lock' left heap',
      linkedLoop fuel front lock mid block heap = some (front ++ lock' :: (mid ++ left), heap') ∧
        Passed lock block heap lock' left heap' := by
  induction fuel generalizing mid block lock heap with
  | zero => omega
  | succ fuel ih =>
    rcases lfFindoverlap_self lock block with ⟨found, isFound, own⟩
    simp only [linkedLoop, isFound, bind_eq_bind, bind_some]
    cases found with
    | clear skipped rest =>
      have ahead := own.ahead sorted
      rcases own with ⟨rfl, before, _⟩
      refine ⟨lock, skipped ++ rest, heap, rfl, .done ?_⟩
      intro lf member isOwn
      rcases mem_append.mp member with isSkipped | isRest
      · have starts := later lf member isOwn
        have ends := before lf isSkipped isOwn
        have valid := lf.range.valid
        unfold Span.Before at ends
        omega
      · exact ahead lf isRest isOwn
    | meets ovcase skipped overlap tail =>
      rcases own with ⟨rfl, before, isOwn, fits⟩
      have tailSorted : Sorted (overlap :: tail) := (pairwise_append.mp sorted).2.1
      have meets := fits.overlaps
      have starts := later overlap (by simp) isOwn
      have others : ∀ lf ∈ skipped, lf.lfId ≠ lock.lfId := by
        intro lf member same
        have lfStarts := later lf (by simp [member]) same
        have ends := before lf member same
        have valid := lf.range.valid
        unfold Span.Before at ends
        omega
      cases ovcase with
      | equal =>
        have same : overlap.range = lock.range := fits
        rw [same] at starts
        omega
      | contains =>
        have first := fits.2.1
        omega
      | startsBefore =>
        have first := fits.1
        omega
      | endsAfter =>
        unfold Overlap.Fits at fits
        have ahead := ahead_of_cover tailSorted isOwn (by omega)
        rcases Cut.back isOwn fits.2.1 (by omega) fits.2.2.2 meets heap with
          ⟨piece, bounds, isCut, behind⟩
        refine ⟨lock, skipped ++ piece :: tail, (lfWakelock overlap heap).2, ?_,
          .cut others isCut behind ahead⟩
        simp [bounds]
      | contained =>
        have same := replaceOverlap_fst lock overlap heap
        rcases ih (replaceOverlap lock overlap heap).1 (mid ++ skipped)
          (replaceOverlap lock overlap heap).2
          (pairwise_cons.mp tailSorted).2
          (by
            rw [same.1, same.2.1]
            exact fun lf member => later lf (by simp [member]))
          (by simp only [length_append, length_cons] at short; omega) with
          ⟨lock', left, heap', linked, passed⟩
        refine ⟨lock', skipped ++ left, heap', ?_, .replace others isOwn fits passed⟩
        simpa using linked

/-- `lf_setlock` adds a lock that nothing blocks; on an ordered list it never
panics and never links the lock twice. -/
theorem lfAddlock_added (lock : Lockf ι) (sorted : Sorted locks)
    (fresh : ∀ lf ∈ locks, lf.addr < heap.nextAddr) :
    ∃ locks' heap', lfAddlock lock locks heap = some (locks', heap') ∧
      Added lock locks heap locks' heap' := by
  rcases lfFindoverlap_self lock locks with ⟨found, isFound, own⟩
  simp only [lfAddlock, isFound, bind_eq_bind, bind_some]
  cases found with
  | clear skipped rest =>
    have ahead := own.ahead sorted
    rcases own with ⟨rfl, before, _⟩
    exact ⟨_, _, rfl, .link before ahead⟩
  | meets ovcase skipped overlap tail =>
    rcases own with ⟨rfl, before, isOwn, fits⟩
    have tailSorted : Sorted (overlap :: tail) := (pairwise_append.mp sorted).2.1
    have restSorted : Sorted tail := (pairwise_cons.mp tailSorted).2
    have meets := fits.overlaps
    have validOverlap := overlap.range.valid
    -- the locks of the owner behind the overlap start later
    have later : ∀ lf ∈ tail, lf.lfId = lock.lfId → lock.range.first < lf.range.first := by
      intro lf member isLfOwn
      have after : overlap.range.Before lf.range :=
        (pairwise_cons.mp tailSorted).1 lf member (isOwn.trans isLfOwn.symm)
      unfold Span.Overlaps Span.Before at meets
      unfold Span.Before at after
      omega
    cases ovcase with
    | equal =>
      have same : overlap.range = lock.range := fits
      have ahead := ahead_of_cover tailSorted isOwn (by rw [same]; omega)
      exact ⟨_, _, rfl, .retype before isOwn same ahead⟩
    | contains =>
      have ahead := ahead_of_cover tailSorted isOwn fits.2.2
      by_cases sameType : overlap.lfType = lock.lfType
      · simp only [if_pos sameType]
        exact ⟨_, _, rfl, .keep (by simp) isOwn fits sameType⟩
      · simp only [if_neg sameType]
        rcases Cut.split isOwn fits (fresh overlap (by simp)) with
          ⟨front, back, heap', split, isCut, isBefore, isBehind⟩
        refine ⟨_, heap', ?_, .cut before isCut isBefore isBehind ahead⟩
        split_ifs with starts
        · simp only [lfSplit, if_pos starts] at split
          obtain ⟨piece, bounds, same⟩ := bind_eq_some_iff.mp split
          cases same
          simp [bounds]
        · simp [split]
    | endsAfter =>
      unfold Overlap.Fits at fits
      have ahead := ahead_of_cover tailSorted isOwn (by omega)
      rcases Cut.back isOwn fits.2.1 (by omega) fits.2.2.2 meets heap with
        ⟨piece, bounds, isCut, behind⟩
      refine ⟨skipped ++ [] ++ lock :: ([piece] ++ tail), (lfWakelock overlap heap).2, ?_,
        .cut before isCut (by simp) (by simpa using behind) ahead⟩
      simp [bounds]
    | contained =>
      have same := replaceOverlap_fst lock overlap heap
      rcases linkedLoop_passed _ skipped (replaceOverlap lock overlap heap).1 []
        (replaceOverlap lock overlap heap).2 restSorted
        (by rwa [same.1, same.2.1])
        (Nat.lt_succ_self _) with ⟨lock', left, heap', linked, passed⟩
      exact ⟨_, heap', linked, .replace before isOwn fits passed⟩
    | startsBefore =>
      unfold Overlap.Fits at fits
      rcases Cut.front isOwn fits.1 (by omega) meets heap with ⟨piece, bounds, isCut, isBefore⟩
      rcases linkedLoop_passed _ (skipped ++ [piece]) lock [] (lfWakelock overlap heap).2
        restSorted later (Nat.lt_succ_self _) with ⟨lock', left, heap', linked, passed⟩
      refine ⟨_, heap', ?_, .follow before isCut isBefore passed⟩
      simp only [bounds, bind_some, linked]
      rfl

end Add

end Bitrig.Advlock
