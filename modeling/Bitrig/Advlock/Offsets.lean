import Bitrig.Advlock.Guarantees
import Bitrig.Advlock.WaitsFor
import Bitrig.Lib.Partial

/-!
# Bounds of the type off_t

The sums that `vfs_lockf.c` computes are of the type `off_t`.  As long as no
request ends at the largest offset, the locks with such bounds are those with
bounds of integers.
-/

namespace Bitrig.Advlock

open Bitrig.Transition Function List Option

variable {φ ι : Type}

/-- `OFF_MAX` -/
def offMax : Int := 2 ^ 63 - 1

/-- The values of the type `off_t`. -/
def IsOff (n : Int) : Prop :=
  -2 ^ 63 ≤ n ∧ n ≤ offMax

instance (n : Int) : Decidable (IsOff n) :=
  inferInstanceAs (Decidable (_ ∧ _))

theorem offT_cases {n : Int} (lower : -2 ^ 63 - 1 ≤ n) (upper : n < 2 ^ 64) :
    (-2 ^ 63 ≤ n ∧ n ≤ offMax ∧ offT n = n) ∨ (offMax < n ∧ offT n = n - 2 ^ 64) ∨
      (n = -2 ^ 63 - 1 ∧ offT n = offMax) := by
  unfold offT offMax
  rw [Int.bmod_def]
  push_cast
  split_ifs <;> omega

theorem offT_eq {n : Int} (isOff : IsOff n) : offT n = n := by
  unfold IsOff offMax at isOff
  exact Int.bmod_eq_of_le (by omega) (by omega)

/-! ## The same locks -/

/-- A lock with the bounds of a span. -/
@[simps]
def Lockf.stored (lock : Lockf ι) : Lockf ι OffRange :=
  ⟨lock.addr, lock.lfFlags, lock.lfType, ⟨lock.range.first, lock.range.last⟩, lock.lfId,
    lock.lfPid, lock.lfBlkhd⟩

def Sleeper.stored (sleeper : Sleeper ι) : Sleeper ι OffRange :=
  ⟨sleeper.request.stored, sleeper.proc, sleeper.lfNext⟩

def Heap.stored (heap : Heap ι) : Heap ι OffRange :=
  ⟨heap.sleepers.map Sleeper.stored, heap.nextAddr, heap.freed⟩

def Found.stored : Found ι → Found ι OffRange
  | .clear skipped rest => .clear (skipped.map Lockf.stored) (rest.map Lockf.stored)
  | .meets ovcase skipped overlap tail =>
    .meets ovcase (skipped.map Lockf.stored) overlap.stored (tail.map Lockf.stored)

def FileLocks.stored (here : FileLocks ι) : FileLocks ι OffRange :=
  ⟨here.locks.map Lockf.stored, here.heap.stored⟩

/-- The state with bounds of the type `off_t`. -/
def storedState (state : LockState φ ι) : LockState φ ι OffRange :=
  fun file => (state file).stored

/-- The sums that are computed from the bounds of a span are offsets. -/
def Below (range : Span) : Prop :=
  range.first ≤ offMax ∧ range.last < offMax

theorem Below.isOff {range : Span} (below : Below range) :
    (IsOff range.first ∧ IsOff (range.first - 1)) ∧ IsOff range.last ∧ IsOff (range.last + 1) := by
  have valid := range.valid
  unfold Below at below
  unfold IsOff offMax at *
  omega

section Stored

variable {lock overlap piece : Lockf ι} {locks front mid : List (Lockf ι)} {heap : Heap ι}

theorem stored_lfStart (lock : Lockf ι) : lock.stored.lfStart = lock.lfStart :=
  rfl

theorem stored_lfEnd (lock : Lockf ι) : lock.stored.lfEnd = lock.lfEnd :=
  rfl

theorem redirect_stored (heap : Heap ι) (addrs : List Nat) (next : Option Nat) :
    heap.stored.redirect addrs next = (heap.redirect addrs next).stored := by
  simp only [Heap.redirect, Heap.stored, List.map_map, Heap.mk.injEq, and_true]
  refine map_congr_left fun sleeper _ => ?_
  simp only [comp_apply, Sleeper.stored, Lockf.stored_addr]
  split_ifs
  · rfl
  · rfl

theorem lfWakelock_stored (overlap : Lockf ι) (heap : Heap ι) :
    lfWakelock overlap.stored heap.stored =
      ((lfWakelock overlap heap).1.stored, (lfWakelock overlap heap).2.stored) := by
  rw [lfWakelock, lfWakelock, ← redirect_stored]
  rfl

theorem replaceOverlap_stored (lock overlap : Lockf ι) (heap : Heap ι) :
    replaceOverlap lock.stored overlap.stored heap.stored =
      ((replaceOverlap lock overlap heap).1.stored,
        (replaceOverlap lock overlap heap).2.stored) := by
  simp only [replaceOverlap, Lockf.stored_lfType]
  split_ifs
  · rw [lfWakelock_stored]
  · rw [takeWaiters, takeWaiters, ← redirect_stored]
    rfl

theorem retypeOverlap_stored (lock overlap : Lockf ι) (heap : Heap ι) :
    retypeOverlap lock.stored overlap.stored heap.stored =
      ((retypeOverlap lock overlap heap).1.stored, (retypeOverlap lock overlap heap).2.stored) := by
  simp only [retypeOverlap, Lockf.stored_lfType]
  split_ifs
  · rw [lfWakelock_stored]
    rfl
  · rfl

theorem withBounds_stored {start stop : Int} (isStart : IsOff start) (isStop : IsOff stop) :
    Maps Lockf.stored (lock.withBounds start stop) (lock.stored.withBounds start stop) := by
  intro piece bounds
  obtain ⟨range, isRange, rfl⟩ := map_eq_some_iff.mp bounds
  change Span.of? start stop = some range at isRange
  unfold Span.of? at isRange
  split_ifs at isRange
  cases isRange
  change some { lock.stored with range := (⟨offT start, offT stop⟩ : OffRange) } = _
  rw [offT_eq isStart, offT_eq isStop]
  rfl

theorem skip_stored (lf : Lockf ι) (found : Found ι) :
    (found.skip lf).stored = found.stored.skip lf.stored := by
  cases found <;> rfl

variable [DecidableEq ι]

theorem lfFindoverlap_stored (scope : Scope) (lock : Lockf ι) (locks : List (Lockf ι)) :
    lfFindoverlap scope lock.stored (locks.map Lockf.stored) =
      (lfFindoverlap scope lock locks).map Found.stored := by
  induction locks with
  | nil => rfl
  | cons lf rest ih =>
    have skips : (lfFindoverlap scope lock.stored (rest.map Lockf.stored)).map (.skip lf.stored) =
        ((lfFindoverlap scope lock rest).map (.skip lf)).map Found.stored := by
      rw [ih, Option.map_map, Option.map_map]
      congr 1
      funext found
      exact (skip_stored lf found).symm
    have same : overlapCase lock.stored lf.stored = overlapCase lock lf := rfl
    simp only [map_cons, lfFindoverlap, skips, same, Lockf.stored_lfId, stored_lfStart,
      stored_lfEnd]
    split_ifs
    · rfl
    · rcases overlapCase lock lf with _ | _ | ovcase <;> rfl
    · rcases overlapCase lock lf with _ | _ | ovcase <;> rfl

theorem lfGetblock_stored (lock : Lockf ι) (locks : List (Lockf ι)) :
    lfGetblock lock.stored (locks.map Lockf.stored) =
      (lfGetblock lock locks).map (Option.map Lockf.stored) := by
  have loop : ∀ (fuel : Nat) (locks : List (Lockf ι)),
      getblockLoop lock.stored fuel (locks.map Lockf.stored) =
        (getblockLoop lock fuel locks).map (Option.map Lockf.stored) := by
    intro fuel
    induction fuel with
    | zero => exact fun _ => rfl
    | succ fuel ih =>
      intro locks
      rw [getblockLoop, getblockLoop, lfFindoverlap_stored]
      cases lfFindoverlap .others lock locks with
      | none => rfl
      | some found =>
        cases found with
        | clear skipped rest => rfl
        | meets ovcase skipped overlap tail =>
          change (if lock.lfType = .wrlck ∨ overlap.lfType = .wrlck then _ else _) =
            Option.map _ (if lock.lfType = .wrlck ∨ overlap.lfType = .wrlck then _ else _)
          split_ifs
          · rfl
          · exact ih tail
  rw [lfGetblock, lfGetblock, length_map]
  exact loop _ locks

/-- What an operation leaves, with bounds of the type `off_t`. -/
def storedPair (result : List (Lockf ι) × Heap ι) : List (Lockf ι OffRange) × Heap ι OffRange :=
  (result.1.map Lockf.stored, result.2.stored)

section Bounds

variable (belowLock : Below lock.range)
include belowLock

section

variable (below : Below overlap.range)
include below

omit [DecidableEq ι]

/-- The piece of an overlap before the range of a lock. -/
theorem front_stored : Maps Lockf.stored (overlap.withBounds overlap.lfStart (lock.lfStart - 1))
    (overlap.stored.withBounds overlap.stored.lfStart (lock.stored.lfStart - 1)) :=
  withBounds_stored below.isOff.1.1 belowLock.isOff.1.2

/-- The piece behind it. -/
theorem back_stored : Maps Lockf.stored (overlap.withBounds (lock.lfEnd + 1) overlap.lfEnd)
    (overlap.stored.withBounds (lock.stored.lfEnd + 1) overlap.stored.lfEnd) :=
  withBounds_stored belowLock.isOff.2.2 below.isOff.2.1

theorem lfSplit_stored : Maps (fun result => (result.1.map Lockf.stored, storedPair result.2))
    (lfSplit overlap lock heap) (lfSplit overlap.stored lock.stored heap.stored) := by
  refine .ite (fun _ => ?_) fun _ => .ite (fun _ => ?_) fun _ => ?_
  · exact (back_stored belowLock below).bind fun _ _ => .some rfl
  · exact (front_stored belowLock below).bind fun _ _ => .some rfl
  · exact (back_stored belowLock below).bind fun _ _ =>
      (front_stored belowLock below).bind fun _ _ => .some rfl

end

omit belowLock in
theorem below_tail {ovcase : Overlap} {skipped tail : List (Lockf ι)}
    (below : ∀ lf ∈ locks, Below lf.range)
    (found : lfFindoverlap .self lock locks = some (.meets ovcase skipped overlap tail)) :
    Below overlap.range ∧ ∀ lf ∈ tail, Below lf.range := by
  rcases lfFindoverlap_self lock locks with ⟨other, isOther, own⟩
  cases some.inj (found.symm.trans isOther)
  rw [own.1, forall_mem_append, forall_mem_cons] at below
  exact below.2

theorem clearLoop_stored {fuel : Nat} (below : ∀ lf ∈ locks, Below lf.range) :
    Maps storedPair (clearLoop lock fuel front locks heap)
      (clearLoop lock.stored fuel (front.map Lockf.stored) (locks.map Lockf.stored)
        heap.stored) := by
  induction fuel generalizing front locks heap with
  | zero => exact .none
  | succ fuel ih =>
    refine .bind (.of_eq (lfFindoverlap_stored .self lock locks)) fun found isFound => ?_
    cases found with
    | clear skipped rest => exact .some (by rw [storedPair, map_append])
    | meets ovcase skipped overlap tail =>
      obtain ⟨belowOverlap, belowTail⟩ := below_tail below isFound
      have belowWoken : Below (lfWakelock overlap heap).1.range := belowOverlap
      simp only [Found.stored, lfWakelock_stored]
      cases ovcase with
      | equal => exact .some (by simp only [storedPair, map_append])
      | contains =>
        refine .ite (fun _ => ?_) fun _ => ?_
        · exact (back_stored belowLock belowWoken).bind fun _ _ =>
            .some (by simp only [storedPair, map_append, map_cons])
        · exact (lfSplit_stored belowLock belowWoken).bind fun _ _ =>
            .some (by simp only [storedPair, map_append])
      | contained =>
        rw [← map_append]
        exact ih belowTail
      | startsBefore =>
        refine (front_stored belowLock belowWoken).bind fun piece _ => ?_
        rw [← map_singleton (f := Lockf.stored), ← map_append, ← map_append]
        exact ih belowTail
      | endsAfter =>
        exact (back_stored belowLock belowWoken).bind fun _ _ =>
          .some (by simp only [storedPair, map_append, map_cons])

theorem linkedLoop_stored {fuel : Nat} (below : ∀ lf ∈ locks, Below lf.range) :
    Maps storedPair (linkedLoop fuel front lock mid locks heap)
      (linkedLoop fuel (front.map Lockf.stored) lock.stored (mid.map Lockf.stored)
        (locks.map Lockf.stored) heap.stored) := by
  induction fuel generalizing lock mid locks heap with
  | zero => exact .none
  | succ fuel ih =>
    refine .bind (.of_eq (lfFindoverlap_stored .self lock locks)) fun found isFound => ?_
    cases found with
    | clear skipped rest => exact .some (by simp only [storedPair, map_append, map_cons])
    | meets ovcase skipped overlap tail =>
      obtain ⟨belowOverlap, belowTail⟩ := below_tail below isFound
      cases ovcase with
      | equal =>
        simp only [Found.stored, retypeOverlap_stored]
        exact .some (by simp only [storedPair, map_append, map_cons]; rfl)
      | contains =>
        refine .ite (fun _ => ?_) fun _ => .none
        exact .some (by simp only [storedPair, map_append, map_cons]; rfl)
      | contained =>
        have belowReplaced : Below (replaceOverlap lock overlap heap).1.range := by
          rw [(replaceOverlap_fst lock overlap heap).2.1]
          exact belowLock
        simp only [Found.stored, replaceOverlap_stored]
        rw [← map_append]
        exact ih belowReplaced belowTail
      | startsBefore => exact .none
      | endsAfter =>
        have belowWoken : Below (lfWakelock overlap heap).1.range := belowOverlap
        simp only [Found.stored, lfWakelock_stored]
        exact (back_stored belowLock belowWoken).bind fun _ _ =>
          .some (by simp only [storedPair, map_append, map_cons])

theorem lfAddlock_stored (below : ∀ lf ∈ locks, Below lf.range) :
    Maps storedPair (lfAddlock lock locks heap)
      (lfAddlock lock.stored (locks.map Lockf.stored) heap.stored) := by
  refine .bind (.of_eq (lfFindoverlap_stored .self lock locks)) fun found isFound => ?_
  cases found with
  | clear skipped rest => exact .some (by simp only [storedPair, map_append, map_cons])
  | meets ovcase skipped overlap tail =>
    obtain ⟨belowOverlap, belowTail⟩ := below_tail below isFound
    have belowWoken : Below (lfWakelock overlap heap).1.range := belowOverlap
    simp only [Found.stored, lfWakelock_stored, retypeOverlap_stored, replaceOverlap_stored,
      length_map]
    cases ovcase with
    | equal => exact .some (by simp only [storedPair, map_append, map_cons])
    | contains =>
      refine .ite (fun _ => .some rfl) fun _ => .ite (fun _ => ?_) fun _ => ?_
      · exact (back_stored belowLock belowWoken).bind fun _ _ =>
          .some (by simp only [storedPair, map_append, map_cons])
      · exact (lfSplit_stored belowLock belowWoken).bind fun _ _ =>
          .some (by simp only [storedPair, map_append, map_cons])
    | contained =>
      have belowReplaced : Below (replaceOverlap lock overlap heap).1.range := by
        rw [(replaceOverlap_fst lock overlap heap).2.1]
        exact belowLock
      exact linkedLoop_stored belowReplaced belowTail
    | startsBefore =>
      refine (front_stored belowLock belowWoken).bind fun piece _ => ?_
      rw [← map_singleton (f := Lockf.stored), ← map_append]
      exact linkedLoop_stored belowLock belowTail
    | endsAfter =>
      exact (back_stored belowLock belowWoken).bind fun _ _ =>
        .some (by simp only [storedPair, map_append, map_cons])

theorem lfClearlock_stored (below : ∀ lf ∈ locks, Below lf.range) :
    Maps storedPair (lfClearlock lock locks heap)
      (lfClearlock lock.stored (locks.map Lockf.stored) heap.stored) := by
  rw [lfClearlock, lfClearlock, length_map]
  exact clearLoop_stored belowLock below

end Bounds

omit [DecidableEq ι] in
theorem flock_stored (below : Below lock.range) : lock.stored.flock = lock.flock := by
  have valid := lock.range.valid
  have length : lock.lfEnd ≠ -1 → offT (lock.lfEnd - lock.lfStart + 1) =
      lock.lfEnd - lock.lfStart + 1 := by
    intro closed
    rw [lfEnd_eq, lfStart_eq] at *
    refine offT_eq ?_
    unfold Below at below
    unfold IsOff offMax at *
    omega
  change Flock.mk _ _ _ (if lock.lfEnd = -1 then 0 else offT _) _ = Flock.mk _ _ _ _ _
  congr 1
  split_ifs with isOpen
  · rfl
  · exact length isOpen

theorem lfGetlock_stored (lock : Lockf ι) (below : ∀ lf ∈ locks, Below lf.range) (fl : Flock) :
    lfGetlock lock.stored (locks.map Lockf.stored) fl = lfGetlock lock locks fl := by
  rw [lfGetlock, lfGetlock, lfGetblock_stored]
  rcases lfGetblock_cases lock locks with ⟨block, found⟩ | found
  · rw [found]
    change some block.stored.flock = some block.flock
    rw [flock_stored (below block (lfGetblock_some found).1)]
  · rw [found]
    rfl

end Stored

/-! ## The same requests -/

section Requests

variable {state : LockState φ ι} {here : FileLocks ι} {lock : Lockf ι} {file : φ} {fl : Flock}
  {proc : Nat} (view : WaitView φ ι OffRange)

/-- What a request leaves, with bounds of the type `off_t`. -/
def storedReply (result : LockState φ ι × Reply) : LockState φ ι OffRange × Reply :=
  (storedState result.1, result.2)

theorem storedState_update [DecidableEq φ] (state : LockState φ ι) (file : φ) (here : FileLocks ι) :
    storedState (update state file here) = update (storedState state) file here.stored := by
  funext place
  unfold storedState
  by_cases same : place = file
  · rw [same, update_self, update_self]
  · rw [update_of_ne same, update_of_ne same]

theorem find_sleeper_stored (heap : Heap ι) (addr : Nat) :
    heap.stored.sleepers.find? (·.request.addr = addr) =
      (heap.sleepers.find? (·.request.addr = addr)).map Sleeper.stored :=
  find?_map ..

theorem waitBlock_stored (here : FileLocks ι) (addr : Nat) :
    waitBlock here.stored addr = (waitBlock here addr).map Lockf.stored := by
  simp only [waitBlock, FileLocks.stored, find_sleeper_stored]
  cases here.heap.sleepers.find? (·.request.addr = addr) with
  | none => rfl
  | some sleeper =>
    change sleeper.lfNext.bind _ = (sleeper.lfNext.bind _).map _
    cases sleeper.lfNext with
    | none => rfl
    | some next => exact find?_map ..

theorem updateLock_stored (addr : Nat) (change : Lockf ι → Lockf ι)
    (change' : Lockf ι OffRange → Lockf ι OffRange)
    (same : ∀ lf : Lockf ι, change' lf.stored = (change lf).stored) (locks : List (Lockf ι)) :
    updateLock addr change' (locks.map Lockf.stored) =
      (updateLock addr change locks).map Lockf.stored := by
  simp only [updateLock, List.map_map]
  refine map_congr_left fun lf _ => ?_
  simp only [comp_apply, Lockf.stored_addr, same]
  split_ifs
  · rfl
  · rfl

theorem sleepOn_stored (block lock : Lockf ι) (proc : Nat) (here : FileLocks ι) :
    sleepOn block.stored lock.stored proc here.stored = (sleepOn block lock proc here).stored := by
  have locks := updateLock_stored block.addr
    (fun lf => { lf with lfBlkhd := lf.lfBlkhd ++ [lock.addr] })
    (fun lf => { lf with lfBlkhd := lf.lfBlkhd ++ [lock.addr] }) (fun _ => rfl) here.locks
  simp only [sleepOn, FileLocks.stored, Heap.stored, map_append, FileLocks.mk.injEq]
  exact ⟨locks, rfl⟩

theorem leaveList_stored (sleeper : Sleeper ι) (here : FileLocks ι) :
    leaveList sleeper.stored here.stored = (leaveList sleeper here).stored := by
  have sleepers : here.stored.heap.sleepers.filter
      (·.request.addr ≠ sleeper.stored.request.addr) =
        (here.heap.sleepers.filter (·.request.addr ≠ sleeper.request.addr)).map Sleeper.stored :=
    filter_map ..
  cases isNext : sleeper.lfNext with
  | none =>
    have isStored : sleeper.stored.lfNext = none := isNext
    simp only [leaveList, sleepers, isNext, isStored]
    rfl
  | some next =>
    have isStored : sleeper.stored.lfNext = some next := isNext
    simp only [leaveList, sleepers, isNext, isStored]
    have locks := updateLock_stored next
      (fun lf => { lf with lfBlkhd := lf.lfBlkhd.filter (· ≠ sleeper.request.addr) })
      (fun lf => { lf with lfBlkhd := lf.lfBlkhd.filter (· ≠ sleeper.request.addr) })
      (fun _ => rfl) here.locks
    exact congrArg (FileLocks.mk · _) locks

variable [DecidableEq ι]

theorem deadlockLoop_stored (self : ι) (depth : Nat) (wproc : ι) :
    deadlockLoop view (storedState state) self depth wproc =
      deadlockLoop (fun state => view (storedState state)) state self depth wproc := by
  induction depth generalizing wproc with
  | zero => rfl
  | succ depth ih =>
    rw [deadlockLoop, deadlockLoop]
    cases view (storedState state) wproc with
    | none => rfl
    | some place =>
      dsimp only
      rw [storedState, waitBlock_stored]
      cases waitBlock (state place.1) place.2 with
      | none => rfl
      | some block =>
        dsimp only [Option.map_some]
        rw [← ih]
        rfl

theorem releaseShared_stored (belowLock : Below lock.range)
    (below : ∀ lf ∈ here.locks, Below lf.range) :
    Maps FileLocks.stored (releaseShared lock here) (releaseShared lock.stored here.stored) := by
  have belowUnlck : Below { lock with lfType := .unlck }.range := belowLock
  refine .ite (fun _ => ?_) fun _ => .some rfl
  exact (lfClearlock_stored belowUnlck below).bind fun _ _ => .some rfl

variable [DecidableEq φ]

theorem lfSetlock_stored (belowLock : Below lock.range)
    (below : ∀ lf ∈ (state file).locks, Below lf.range) :
    Maps storedReply (lfSetlock (fun state => view (storedState state)) state file proc lock fl)
      (lfSetlock view (storedState state) file proc lock.stored fl) := by
  refine .bind (.of_eq (lfGetblock_stored lock (state file).locks)) fun result found => ?_
  cases result with
  | none =>
    refine (lfAddlock_stored belowLock below).bind fun result _ => .some ?_
    rw [storedReply, storedState_update]
    rfl
  | some block =>
    refine .ite (fun _ => .some rfl) fun _ => ?_
    rw [deadlockLoop_stored]
    refine .ite (fun _ => .some rfl) fun _ => ?_
    refine (releaseShared_stored belowLock below).bind fun released _ => .some ?_
    rw [storedReply, storedState_update, ← sleepOn_stored]

theorem wakeUp_stored (below : ∀ lf ∈ (state file).locks, Below lf.range)
    (belowRequest : ∀ sleeper ∈ (state file).heap.sleepers, Below sleeper.request.range)
    (waits : Waits (state file).locks (state file).heap) {addr : Nat} {interrupted : Bool} :
    Maps storedReply
      (wakeUp (fun state => view (storedState state)) state file addr interrupted fl)
      (wakeUp view (storedState state) file addr interrupted fl) := by
  refine .bind (.of_eq (find_sleeper_stored (state file).heap addr)) fun sleeper found => ?_
  have member := mem_of_find?_eq_some found
  have start : update (storedState state) file (leaveList sleeper.stored (storedState state file)) =
      storedState (update state file (leaveList sleeper (state file))) := by
    rw [storedState_update, ← leaveList_stored]
    rfl
  rw [start]
  refine .ite (fun _ => .some rfl) fun _ => ?_
  refine lfSetlock_stored view (belowRequest sleeper member) ?_
  rw [update_self, leaveList_locks waits member]
  intro lf memLf
  obtain ⟨was, isWas, rfl⟩ := mem_map.mp memLf
  exact below was isWas

/-- `lf_advlock` computes the same range. -/
theorem lfAdvlock_stored {call : LockCall ι} {range : Span}
    (isRange : lfRange call.size call.fl = some range)
    (isStored : lfRange call.size call.fl = some (⟨range.first, range.last⟩ : OffRange))
    (belowRange : Below range) (below : ∀ lf ∈ (state file).locks, Below lf.range) :
    Maps storedReply (lfAdvlock (fun state => view (storedState state)) state file call)
      (lfAdvlock view (storedState state) file call) := by
  have empty : (storedState state file).locks = [] ↔ (state file).locks = [] := map_eq_nil_iff
  have start : update (storedState state) file (storedState state file).allocated =
      storedState (update state file (state file).allocated) := by
    rw [storedState_update]
    rfl
  have belowStart : ∀ lf ∈ (update state file (state file).allocated file).locks,
      Below lf.range := by
    rw [update_self]
    exact below
  have belowLock : Below (call.lock range (state file).heap.nextAddr).range := belowRange
  simp only [lfAdvlock, isRange, isStored, empty, start]
  refine .ite (fun _ => .some rfl) fun _ => ?_
  cases call.op with
  | setlk => exact lfSetlock_stored view belowLock belowStart
  | unlck =>
    refine (lfClearlock_stored belowLock belowStart).bind fun result _ => .some ?_
    exact Prod.ext (storedState_update _ file ⟨result.1, result.2⟩).symm rfl
  | getlk =>
    refine .bind (f := id) (.of_eq ?_) fun _ _ => .some rfl
    rw [Option.map_id]
    exact lfGetlock_stored (call.lock range _) belowStart call.fl

end Requests

/-! ## Requests that end below the largest offset -/

section Run

variable {here here' : FileLocks ι} {label : LockStep φ ι} {reply : Reply}

/-- The offsets of a call are values of the type `off_t`. -/
def LockCall.IsOff (call : LockCall ι) : Prop :=
  Advlock.IsOff call.fl.lStart ∧ Advlock.IsOff call.fl.lLen ∧ 0 ≤ call.size ∧ call.size ≤ offMax

/-- The calls have values of the type `off_t`. -/
def offCalls : LockStep φ ι → LockState φ ι OffRange → Prop
  | .call _ call, _ => call.IsOff
  | .wakeUp .., _ => True

/-- No request ends at `OFF_MAX`. -/
def endsBelow : LockStep φ ι → LockState φ ι OffRange → Prop
  | .call _ call, _ => call.IsOff ∧
      (lfRange call.size call.fl : Option OffRange).map OffRange.last ≠ some offMax
  | .wakeUp .., _ => True

theorem lfBounds_stored {start len : Int} (isStart : start ≤ offMax) (isLen : IsOff len)
    {range : OffRange} (isRange : lfBounds start len = some range) (ends : range.last ≠ offMax) :
    ∃ span : Span, lfBounds start len = some span ∧ range = ⟨span.first, span.last⟩ ∧
      Below span := by
  unfold lfBounds at isRange ⊢
  unfold IsOff at isLen
  split_ifs at isRange with negative whole before
  · cases isRange
    refine ⟨⟨start, -1, by omega⟩, ?_, rfl, isStart, (by decide : -1 < offMax)⟩
    rw [if_neg negative, if_pos whole]
    exact Span.of?_eq_some _
  · cases isRange
    -- a sum that wraps is less than the start, or it is the largest offset
    have same : offT (start + len - 1) = start + len - 1 ∧ start + len - 1 < offMax := by
      change ¬offT (start + len - 1) < start at before
      change offT (start + len - 1) ≠ offMax at ends
      have cases := @offT_cases (start + len - 1) (by omega) (by unfold offMax at *; omega)
      unfold offMax at *
      omega
    refine ⟨⟨start, start + len - 1, ?_⟩, ?_, ?_, isStart, same.2⟩
    · change ¬offT (start + len - 1) < start at before
      omega
    · rw [if_neg negative, if_neg whole]
      change (if start + len - 1 < start then none else Span.of? start (start + len - 1)) = _
      change ¬offT (start + len - 1) < start at before
      rw [if_neg (by omega)]
      exact Span.of?_eq_some _
    · exact congrArg (OffRange.mk start) same.1

/-- Where `lf_advlock` does not return `EINVAL`, no sum wraps. -/
theorem lfRange_stored {call : LockCall ι} (isOff : call.IsOff) {range : OffRange}
    (isRange : lfRange call.size call.fl = some range) (ends : range.last ≠ offMax) :
    ∃ span : Span, lfRange call.size call.fl = some span ∧ range = ⟨span.first, span.last⟩ ∧
      Below span := by
  obtain ⟨isStart, isLen, isSize⟩ := isOff
  unfold lfRange at isRange ⊢
  cases whence : call.fl.lWhence <;> rw [whence] at isRange
  case seekSet | seekCur => exact lfBounds_stored isStart.2 isLen isRange ends
  case seekEnd =>
    change lfBounds (offT (call.size + call.fl.lStart)) call.fl.lLen = some range at isRange
    have nonneg : 0 ≤ offT (call.size + call.fl.lStart) := by
      by_contra negative
      rw [lfBounds, if_pos (by omega)] at isRange
      cases isRange
    have same : offT (call.size + call.fl.lStart) = call.size + call.fl.lStart ∧
        call.size + call.fl.lStart ≤ offMax := by
      unfold IsOff at isStart
      have cases := @offT_cases (call.size + call.fl.lStart) (by omega)
        (by unfold offMax at *; omega)
      unfold offMax at *
      omega
    rw [same.1] at isRange
    exact lfBounds_stored same.2 isLen isRange ends
  case unknown => cases isRange

theorem Below.inherited : Inherited fun lf : Lockf ι => Below lf.range where
  same below _ _ range := range ▸ below
  piece {lock overlap _ _ _} isCut belowLock below piece member := by
    have bounds := isCut.bounds piece member
    have valid := lock.range.valid
    unfold Below at *
    omega

/-- No lock has been freed while it was linked, and all bounds of the locks and the
requests of a file are offsets. -/
structure FileLocks.Fits (here : FileLocks ι) : Prop where
  freed : here.heap.freed = []
  locks : ∀ lf ∈ here.locks, Below lf.range
  requests : ∀ key ∈ here.heap.keys, Below key.1.range

theorem FileLocks.Fits.request (fits : here.Fits) {sleeper : Sleeper ι}
    (member : sleeper ∈ here.heap.sleepers) : Below sleeper.request.range :=
  fits.requests _ (mem_keys.mpr ⟨sleeper, member, rfl, rfl⟩)

variable [DecidableEq ι]

theorem FileLocks.Fits.change (fits : here.Fits) (inv : here.Inv)
    (change : Change here label here' reply)
    (request : ∀ file call range, label = .call file call →
      lfRange call.size call.fl = some range → Below range) : here'.Fits where
  freed := change.freed.trans fits.freed
  locks := by
    refine Below.inherited.change inv change (fun lock proc start prepared => ?_) request fits.locks
    cases prepared with
    | allocated isRange _ => exact request _ _ _ rfl isRange
    | awake member _ => exact fits.request member
  requests key isKey := by
    rcases change.keys isKey with isOld | ⟨file, call, range, isCall, isRange, rfl⟩
    · exact fits.requests key isOld
    · exact request file call range isCall isRange

variable [DecidableEq φ] {state : LockState φ ι} {view : WaitView φ ι OffRange}
  {target : LockState φ ι OffRange}

/-- A sleeper continues with the same result. -/
theorem wakeUp_isSome {file : φ} (inv : (state file).Inv) {addr : Nat} {interrupted : Bool}
    {fl : Flock}
    (replied : wakeUp view (storedState state) file addr interrupted fl = some (target, reply)) :
    ∃ result, wakeUp (fun state => view (storedState state)) state file addr interrupted fl =
      some result := by
  obtain ⟨raw, isRaw, -⟩ := bind_eq_some_iff.mp replied
  rw [storedState, FileLocks.stored, find_sleeper_stored, map_eq_some_iff] at isRaw
  obtain ⟨sleeper, found, -⟩ := isRaw
  rw [wakeUp, found, bind_eq_bind, bind_some]
  cases interrupted with
  | true => exact ⟨_, rfl⟩
  | false =>
    have prepared : Prepared (state file) (.wakeUp file addr false fl) sleeper.request
        sleeper.proc (leaveList sleeper (state file)) := .of_find found
    have start : (update state file (leaveList sleeper (state file))) file =
        leaveList sleeper (state file) := update_self _ _ _
    rcases lfSetlock_outcome (fun state => view (storedState state))
      (start ▸ (inv.prepared prepared).1) sleeper.proc sleeper.request fl with
      ⟨here', reply', isSet, -⟩
    exact ⟨_, isSet⟩

/-- A step with bounds of the type `off_t` is one with bounds of integers. -/
theorem lockReply_stored (inv : (state label.file).Inv) (fits : (state label.file).Fits)
    (ends : endsBelow label (storedState state))
    (replied : lockReply view label (storedState state) = some (target, reply)) :
    ∃ here, target = storedState (update state label.file here) ∧ here.Inv ∧ here.Fits := by
  cases label with
  | call file call =>
    obtain ⟨_, asserted, called⟩ := bind_eq_some_iff.mp replied
    obtain ⟨isOff, notMax⟩ := ends
    cases isRange : (lfRange call.size call.fl : Option OffRange) with
    | none =>
      rw [lfAdvlock, isRange] at called
      cases called
      refine ⟨state file, ?_, inv, fits⟩
      exact congrArg storedState (update_eq_self file state).symm
    | some range =>
      rw [isRange] at notMax
      obtain ⟨span, isSpan, rfl, below⟩ :=
        lfRange_stored isOff isRange fun isMax => notMax (congrArg some isMax)
      rcases lfAdvlock_change (fun state => view (storedState state)) inv call
        ((kassert_eq_some_iff _ _).mp asserted) with ⟨here, reply', isCalled, change⟩
      have same := lfAdvlock_stored view isSpan isRange below fits.locks _ isCalled
      cases some.inj (same.symm.trans called)
      refine ⟨here, rfl, inv.change change, fits.change inv change ?_⟩
      rintro _ _ other ⟨⟩ isOther
      cases some.inj (isSpan.symm.trans isOther)
      exact below
  | wakeUp file addr interrupted fl =>
    obtain ⟨⟨state', reply'⟩, isAwake⟩ := wakeUp_isSome inv replied
    rcases wakeUp_change (fun state => view (storedState state)) inv addr interrupted fl isAwake
      with ⟨here, rfl, change⟩
    have same := wakeUp_stored view fits.locks (fun _ => fits.request) inv.waits _ isAwake
    cases some.inj (same.symm.trans replied)
    refine ⟨here, rfl, inv.change change, fits.change inv change ?_⟩
    rintro _ _ _ ⟨⟩

/-- The locks of a run are those with bounds of integers. -/
theorem stored_of_run (run : Run (lockNext view) endsBelow noLocks target) :
    ∃ state : LockState φ ι, target = storedState state ∧
      ∀ file, (state file).Inv ∧ (state file).Fits := by
  refine Run.invariant (P := fun target => ∃ state : LockState φ ι, target = storedState state ∧
    ∀ file, (state file).Inv ∧ (state file).Fits) ?_ run
    ⟨noLocks, rfl, fun _ => ⟨.empty, rfl, forall_mem_nil _, forall_mem_nil _⟩⟩
  rintro label _ target ⟨state, rfl, holds⟩ ends stepped
  rcases map_eq_some_iff.mp stepped with ⟨⟨_, reply⟩, replied, rfl⟩
  obtain ⟨here, isTarget, inv, fits⟩ :=
    lockReply_stored (holds label.file).1 (holds label.file).2 ends replied
  refine ⟨_, isTarget, fun file => ?_⟩
  by_cases same : file = label.file
  · rw [same, update_self]
    exact ⟨inv, fits⟩
  · rw [update_of_ne same]
    exact holds file

end Run

/-! ## Exclusion -/

/-- By the tests of `lf_findoverlap`, no range ends before the other one. -/
def OffRange.Overlaps (a b : OffRange) : Prop :=
  ¬(a.last ≠ -1 ∧ a.last < b.first) ∧ ¬(b.last ≠ -1 ∧ b.last < a.first)

/-- A lock conflicts with a request of another owner that overlaps it, if one of
the two is exclusive. -/
def Conflicts (lock request : Lockf ι OffRange) : Prop :=
  lock.lfId ≠ request.lfId ∧ lock.range.Overlaps request.range ∧
    (request.lfType = .wrlck ∨ lock.lfType = .wrlck)

section Guarantees

variable [DecidableEq φ] [DecidableEq ι]

instance : (label : LockStep φ ι) → (state : LockState φ ι OffRange) →
    Decidable (endsBelow label state)
  | .call _ _, _ => inferInstanceAs (Decidable ((_ ∧ _ ∧ _ ∧ _) ∧ _))
  | .wakeUp .., _ => isTrue trivial

instance : (label : LockStep φ ι) → (state : LockState φ ι OffRange) →
    Decidable (offCalls label state)
  | .call _ _, _ => inferInstanceAs (Decidable (_ ∧ _ ∧ _ ∧ _))
  | .wakeUp .., _ => isTrue trivial

end Guarantees

instance (a b : OffRange) : Decidable (a.Overlaps b) :=
  inferInstanceAs (Decidable (_ ∧ _))

end Bitrig.Advlock
