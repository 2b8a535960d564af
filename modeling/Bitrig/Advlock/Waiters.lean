import Bitrig.Advlock.ByteMap
import Bitrig.Advlock.System

/-!
# Sleeping requests and their blockers

A sleeping request that was not woken is on the list of one lock of its file,
which blocks it; the waiters on the list of a lock point back to it.  This is
kept when a lock is cut, replaced, retyped or linked, and so by clearing a range
and by adding a lock.  The order of the locks does not matter, so each change is
stated for the first lock of a list.
-/

namespace Bitrig.Advlock

open List Option

variable {ι : Type} {request lock overlap : Lockf ι}

/-- The locks of a file and its sleeping requests fit together. -/
structure Waits (locks : List (Lockf ι)) (heap : Heap ι) : Prop where
  lockAddr : (locks.map Lockf.addr).Nodup
  requestAddr : (heap.sleepers.map (·.request.addr)).Nodup
  apart : ∀ sleeper ∈ heap.sleepers, ∀ lf ∈ locks, lf.addr ≠ sleeper.request.addr
  lockOld : ∀ lf ∈ locks, lf.addr < heap.nextAddr
  requestOld : ∀ sleeper ∈ heap.sleepers, sleeper.request.addr < heap.nextAddr
  lockType : ∀ lf ∈ locks, lf.lfType ≠ .unlck
  requestType : ∀ sleeper ∈ heap.sleepers, sleeper.request.lfType ≠ .unlck
  requestIdle : ∀ sleeper ∈ heap.sleepers, sleeper.request.lfBlkhd = []
  /-- The waiters of a lock point back to it and are blocked by it. -/
  waiting : ∀ lf ∈ locks, ∀ addr ∈ lf.lfBlkhd, ∃ sleeper ∈ heap.sleepers,
    sleeper.request.addr = addr ∧ sleeper.lfNext = some lf.addr ∧ Blocks lf sleeper.request
  /-- A request that was not woken is on the list of its blocker. -/
  listed : ∀ sleeper ∈ heap.sleepers, ∀ next, sleeper.lfNext = some next →
    ∃ lf ∈ locks, lf.addr = next ∧ sleeper.request.addr ∈ lf.lfBlkhd

/-- A request that is neither on the list nor asleep, and might be linked. -/
def InFlight (lock : Lockf ι) (locks : List (Lockf ι)) (heap : Heap ι) : Prop :=
  Waits (lock :: locks) heap ∧ lock.lfBlkhd = []

/-- The sleeping requests with their processes. -/
def Heap.keys (heap : Heap ι) : List (Lockf ι × Nat) :=
  heap.sleepers.map fun sleeper => (sleeper.request, sleeper.proc)

theorem mem_keys {heap : Heap ι} {proc : Nat} : (request, proc) ∈ heap.keys ↔
      ∃ sleeper ∈ heap.sleepers, sleeper.request = request ∧ sleeper.proc = proc := by
  simp [Heap.keys]

/-! ## Redirecting sleepers -/

section Redirect

variable {heap : Heap ι} {addrs : List Nat} {next : Option Nat} {sleeper : Sleeper ι}

theorem mem_redirect (member : sleeper ∈ (heap.redirect addrs next).sleepers) :
    ∃ before ∈ heap.sleepers, sleeper.request = before.request ∧
      (before.request.addr ∈ addrs ∧ sleeper.lfNext = next ∨
        before.request.addr ∉ addrs ∧ sleeper = before) := by
  rcases mem_map.mp member with ⟨before, isBefore, isSleeper⟩
  refine ⟨before, isBefore, ?_⟩
  by_cases changed : before.request.addr ∈ addrs
  · rw [if_pos changed] at isSleeper
    cases isSleeper
    exact ⟨rfl, .inl ⟨changed, rfl⟩⟩
  · rw [if_neg changed] at isSleeper
    cases isSleeper
    exact ⟨rfl, .inr ⟨changed, rfl⟩⟩

theorem mem_redirect_of_not_mem (member : sleeper ∈ heap.sleepers)
    (other : sleeper.request.addr ∉ addrs) : sleeper ∈ (heap.redirect addrs next).sleepers :=
  mem_map.mpr ⟨sleeper, member, if_neg other⟩

theorem mem_redirect_of_mem (member : sleeper ∈ heap.sleepers)
    (changed : sleeper.request.addr ∈ addrs) :
    { sleeper with lfNext := next } ∈ (heap.redirect addrs next).sleepers :=
  mem_map.mpr ⟨sleeper, member, if_pos changed⟩

theorem redirect_keys : (heap.redirect addrs next).keys = heap.keys := by
  rw [Heap.keys, Heap.redirect, List.map_map]
  apply map_congr_left
  intro sleeper _
  simp only [Function.comp]
  split
  · rfl
  · rfl

theorem keys_of_woken {heap' : Heap ι} {lock : Lockf ι}
    (woken : heap'.sleepers = (lfWakelock lock heap).2.sleepers) : heap'.keys = heap.keys := by
  rw [Heap.keys, woken]
  exact redirect_keys

end Redirect

/-! ## Changes of one lock -/

theorem find?_eq_of_unique {α : Type} {items : List α} {item : α} (addr : α → Nat)
    (member : item ∈ items) (unique : ∀ other ∈ items, addr other = addr item → other = item) :
    items.find? (addr · = addr item) = some item := by
  have isSome : (items.find? (addr · = addr item)).isSome :=
    find?_isSome.mpr ⟨item, member, by simp⟩
  rcases isSome_iff_exists.mp isSome with ⟨other, isFound⟩
  have same := find?_some isFound
  rw [isFound, unique other (mem_of_find?_eq_some isFound) (of_decide_eq_true same)]

/-- Without a downgrade, a lock that replaces an exclusive one is exclusive. -/
theorem wrlck_of_not_downgrade (type : lock.lfType ≠ .unlck)
    (noDowngrade : ¬(lock.lfType = .rdlck ∧ overlap.lfType = .wrlck))
    (wrlck : overlap.lfType = .wrlck) : lock.lfType = .wrlck := by
  cases isType : lock.lfType with
  | rdlck => exact absurd ⟨isType, wrlck⟩ noDowngrade
  | unlck => exact absurd isType type
  | wrlck => rfl

/-- A lock blocks what an overlap inside it blocks that is no stronger. -/
theorem Blocks.inside (blocks : Blocks overlap request) (own : overlap.lfId = lock.lfId)
    (fits : Overlap.contained.Fits overlap.range lock.range)
    (noWeaker : overlap.lfType = .wrlck → lock.lfType = .wrlck) : Blocks lock request := by
  refine ⟨own ▸ blocks.1, ?_, blocks.2.2.imp_right noWeaker⟩
  have meets := blocks.2.1
  have contained := fits.2
  unfold Span.Overlaps Span.Before at meets ⊢
  omega

namespace Waits

variable {locks locks' : List (Lockf ι)} {lf lock overlap : Lockf ι} {heap heap' : Heap ι}
  {first second : Lockf ι} {sleeper : Sleeper ι} {pieces : List (Lockf ι)}

section

variable (waits : Waits locks heap)
include waits

theorem perm (same : locks.Perm locks') : Waits locks' heap where
  lockAddr := (same.map _).nodup_iff.mp waits.lockAddr
  requestAddr := waits.requestAddr
  apart sleeper isSleeper lf member := waits.apart sleeper isSleeper lf (same.mem_iff.mpr member)
  lockOld lf member := waits.lockOld lf (same.mem_iff.mpr member)
  requestOld := waits.requestOld
  lockType lf member := waits.lockType lf (same.mem_iff.mpr member)
  requestType := waits.requestType
  requestIdle := waits.requestIdle
  waiting lf member := waits.waiting lf (same.mem_iff.mpr member)
  listed sleeper isSleeper next points := by
    rcases waits.listed sleeper isSleeper next points with ⟨lf, member, facts⟩
    exact ⟨lf, same.mem_iff.mp member, facts⟩

theorem request_unique {first second : Sleeper ι} (isFirst : first ∈ heap.sleepers)
    (isSecond : second ∈ heap.sleepers) (same : first.request.addr = second.request.addr) :
    first = second :=
  inj_on_of_nodup_map waits.requestAddr isFirst isSecond same

theorem lock_unique (isFirst : first ∈ locks) (isSecond : second ∈ locks)
    (same : first.addr = second.addr) : first = second :=
  inj_on_of_nodup_map waits.lockAddr isFirst isSecond same

/-- The request at an address is found. -/
theorem find_request (isSleeper : sleeper ∈ heap.sleepers) :
    heap.sleepers.find? (·.request.addr = sleeper.request.addr) = some sleeper :=
  find?_eq_of_unique (·.request.addr) isSleeper fun _ isOther =>
    waits.request_unique isOther isSleeper

/-- The lock at an address is found. -/
theorem find_lock (member : lf ∈ locks) : locks.find? (·.addr = lf.addr) = some lf :=
  find?_eq_of_unique Lockf.addr member fun _ isOther => waits.lock_unique isOther member

/-- A request is on the list of one lock only. -/
theorem list_unique (isFirst : first ∈ locks) (isSecond : second ∈ locks) {addr : Nat}
    (onFirst : addr ∈ first.lfBlkhd) (onSecond : addr ∈ second.lfBlkhd) : first = second := by
  rcases waits.waiting first isFirst addr onFirst with ⟨sleeper, isSleeper, isAddr, points, _⟩
  rcases waits.waiting second isSecond addr onSecond with
    ⟨other, isOther, otherAddr, otherPoints, _⟩
  have same := waits.request_unique isSleeper isOther (isAddr.trans otherAddr.symm)
  subst same
  exact waits.lock_unique isFirst isSecond (some.inj (points.symm.trans otherPoints))

end

section

variable (waits : Waits (lf :: locks) heap)
include waits

/-- Redirecting the waiters of the first lock leaves the waiters of the others. -/
theorem waiting_redirect (next : Option Nat) :
    ∀ other ∈ locks, ∀ addr ∈ other.lfBlkhd, ∃ sleeper ∈ (heap.redirect lf.lfBlkhd next).sleepers,
      sleeper.request.addr = addr ∧ sleeper.lfNext = some other.addr ∧
        Blocks other sleeper.request := by
  intro other isOther addr onOther
  rcases waits.waiting other (by simp [isOther]) addr onOther with
    ⟨sleeper, isSleeper, rfl, points, blocks⟩
  refine ⟨sleeper, mem_redirect_of_not_mem isSleeper ?_, rfl, points, blocks⟩
  intro onFirst
  have same := waits.list_unique (by simp) (by simp [isOther]) onFirst onOther
  subst same
  exact (nodup_cons.mp waits.lockAddr).1 (mem_map_of_mem isOther)

/-- A request that is not on the list of the first lock is on that of another. -/
theorem listed_of_not_mem (isSleeper : sleeper ∈ heap.sleepers)
    (other : sleeper.request.addr ∉ lf.lfBlkhd) {next : Nat} (points : sleeper.lfNext = some next) :
    ∃ lf' ∈ locks, lf'.addr = next ∧ sleeper.request.addr ∈ lf'.lfBlkhd := by
  rcases waits.listed sleeper isSleeper next points with ⟨lf', member, isNext, onList⟩
  rcases mem_cons.mp member with rfl | later
  · exact absurd onList other
  · exact ⟨lf', later, isNext, onList⟩

omit waits in
/-- A change that keeps the requests keeps the rest, if the lists of the locks
still fit. -/
theorem change (waits : Waits locks heap) (keys : heap'.keys = heap.keys)
    (more : heap.nextAddr ≤ heap'.nextAddr) (nodup : (locks'.map Lockf.addr).Nodup)
    (origin : ∀ lf ∈ locks', lf.lfType ≠ .unlck ∧ ((∃ old ∈ locks, lf.addr = old.addr) ∨
      heap.nextAddr ≤ lf.addr ∧ lf.addr < heap'.nextAddr))
    (waiting : ∀ lf ∈ locks', ∀ addr ∈ lf.lfBlkhd, ∃ sleeper ∈ heap'.sleepers,
      sleeper.request.addr = addr ∧ sleeper.lfNext = some lf.addr ∧ Blocks lf sleeper.request)
    (listed : ∀ sleeper ∈ heap'.sleepers, ∀ next, sleeper.lfNext = some next →
      ∃ lf ∈ locks', lf.addr = next ∧ sleeper.request.addr ∈ lf.lfBlkhd) :
    Waits locks' heap' := by
  have before : ∀ sleeper ∈ heap'.sleepers, ∃ old ∈ heap.sleepers,
      old.request = sleeper.request := by
    intro sleeper isSleeper
    have member : (sleeper.request, sleeper.proc) ∈ heap.keys :=
      keys ▸ mem_keys.mpr ⟨sleeper, isSleeper, rfl, rfl⟩
    rcases mem_keys.mp member with ⟨old, isOld, request, _⟩
    exact ⟨old, isOld, request⟩
  have addrs : heap'.sleepers.map (·.request.addr) = heap.sleepers.map (·.request.addr) := by
    have mapped := congrArg (List.map (·.1.addr)) keys
    rwa [Heap.keys, Heap.keys, List.map_map, List.map_map] at mapped
  refine ⟨nodup, addrs ▸ waits.requestAddr, ?_, ?_, ?_, fun lf member => (origin lf member).1, ?_,
    ?_, waiting, listed⟩
  · intro sleeper isSleeper lf member same
    rcases before sleeper isSleeper with ⟨old, isOld, request⟩
    rw [← request] at same
    rcases (origin lf member).2 with ⟨was, isLock, sameAddr⟩ | new
    · exact waits.apart old isOld was isLock (sameAddr.symm.trans same)
    · have oldAddr := waits.requestOld old isOld
      omega
  · intro lf member
    rcases (origin lf member).2 with ⟨was, isLock, sameAddr⟩ | new
    · have oldAddr := waits.lockOld was isLock
      omega
    · exact new.2
  · intro sleeper isSleeper
    rcases before sleeper isSleeper with ⟨old, isOld, request⟩
    rw [← request]
    exact lt_of_lt_of_le (waits.requestOld old isOld) more
  · intro sleeper isSleeper
    rcases before sleeper isSleeper with ⟨old, isOld, request⟩
    rw [← request]
    exact waits.requestType old isOld
  · intro sleeper isSleeper
    rcases before sleeper isSleeper with ⟨old, isOld, request⟩
    rw [← request]
    exact waits.requestIdle old isOld

/-- The first lock wakes its waiters, and locks without waiters take its place,
at its address or at new ones. -/
theorem wake (woken : heap'.sleepers = (lfWakelock lf heap).2.sleepers)
    (more : heap.nextAddr ≤ heap'.nextAddr) (noWaiter : ∀ piece ∈ pieces, piece.lfBlkhd = [])
    (type : ∀ piece ∈ pieces, piece.lfType ≠ .unlck)
    (addr : ∀ piece ∈ pieces, piece.addr = lf.addr ∨
      heap.nextAddr ≤ piece.addr ∧ piece.addr < heap'.nextAddr)
    (nodup : (pieces.map Lockf.addr).Nodup) : Waits (pieces ++ locks) heap' := by
  have unlinked := nodup_cons.mp waits.lockAddr
  apply waits.change (keys_of_woken woken) more
  · rw [map_append, nodup_append]
    refine ⟨nodup, unlinked.2, ?_⟩
    intro first isFirst second isSecond same
    rcases mem_map.mp isFirst with ⟨piece, member, rfl⟩
    rcases mem_map.mp isSecond with ⟨other, isOther, rfl⟩
    rcases addr piece member with sameAddr | new
    · exact unlinked.1 (mem_map.mpr ⟨other, isOther, same.symm.trans sameAddr⟩)
    · have old := waits.lockOld other (by simp [isOther])
      omega
  · intro other isOther
    rcases mem_append.mp isOther with isPiece | isLock
    · exact ⟨type other isPiece,
        (addr other isPiece).imp_left fun sameAddr => ⟨lf, by simp, sameAddr⟩⟩
    · exact ⟨waits.lockType other (by simp [isLock]), .inl ⟨other, by simp [isLock], rfl⟩⟩
  · intro other isOther waiter onList
    rw [woken]
    rcases mem_append.mp isOther with isPiece | isLock
    · rw [noWaiter other isPiece] at onList
      cases onList
    · exact waits.waiting_redirect none other isLock waiter onList
  · intro sleeper isSleeper next points
    rw [woken] at isSleeper
    rcases mem_redirect isSleeper with ⟨before, isBefore, _, ⟨_, isWoken⟩ | ⟨notWoken, rfl⟩⟩
    · rw [isWoken] at points
      cases points
    · rcases waits.listed_of_not_mem isBefore notWoken points with ⟨other, isOther, facts⟩
      exact ⟨other, by simp [isOther], facts⟩

omit waits in
theorem cut (waits : Waits (overlap :: locks) heap) (isCut : Cut lock overlap heap pieces heap') :
    Waits (pieces ++ locks) heap' := by
  apply waits.wake isCut.woken isCut.next isCut.noWaiter _ isCut.addr isCut.nodup
  intro piece member
  have same : piece.lfType = overlap.lfType := isCut.pieces.label piece member
  rw [same]
  exact waits.lockType overlap (by simp)

/-- The first lock gets another type.  Its waiters keep waiting if it does not
get weaker. -/
theorem retype {type : LfType} (isLock : type ≠ .unlck)
    (noWeaker : lf.lfType = .wrlck → type = .wrlck) :
    Waits ({ lf with lfType := type } :: locks) heap := by
  refine waits.change rfl (le_refl _) waits.lockAddr ?_ ?_ ?_
  · intro other isOther
    rcases mem_cons.mp isOther with rfl | later
    · exact ⟨isLock, .inl ⟨lf, by simp, rfl⟩⟩
    · exact ⟨waits.lockType other (by simp [later]), .inl ⟨other, by simp [later], rfl⟩⟩
  · intro other isOther addr onList
    rcases mem_cons.mp isOther with rfl | later
    · rcases waits.waiting lf (by simp) addr onList with
        ⟨sleeper, isSleeper, isAddr, points, blocks⟩
      exact ⟨sleeper, isSleeper, isAddr, points, blocks.1, blocks.2.1,
        blocks.2.2.imp_right noWeaker⟩
    · exact waits.waiting other (by simp [later]) addr onList
  · intro sleeper isSleeper next points
    rcases waits.listed sleeper isSleeper next points with ⟨other, isOther, isNext, onList⟩
    rcases mem_cons.mp isOther with rfl | later
    · exact ⟨_, mem_cons_self, isNext, onList⟩
    · exact ⟨other, by simp [later], isNext, onList⟩

omit waits in
/-- A lock takes the waiters of an overlap inside it that is no stronger. -/
theorem take (waits : Waits (overlap :: lock :: locks) heap) (own : overlap.lfId = lock.lfId)
    (fits : Overlap.contained.Fits overlap.range lock.range)
    (noWeaker : overlap.lfType = .wrlck → lock.lfType = .wrlck) :
    Waits ((takeWaiters lock overlap heap).1 :: locks) (takeWaiters lock overlap heap).2 := by
  have unlinked := nodup_cons.mp waits.lockAddr
  refine waits.change redirect_keys (le_refl _) unlinked.2 ?_ ?_ ?_
  · intro other isOther
    rcases mem_cons.mp isOther with rfl | later
    · exact ⟨waits.lockType lock (by simp), .inl ⟨lock, by simp, rfl⟩⟩
    · exact ⟨waits.lockType other (by simp [later]), .inl ⟨other, by simp [later], rfl⟩⟩
  · intro other isOther addr onList
    rcases mem_cons.mp isOther with rfl | later
    · rcases mem_append.mp onList with onLock | onOverlap
      · exact waits.waiting_redirect _ lock (by simp) addr onLock
      · rcases waits.waiting overlap (by simp) addr onOverlap with
          ⟨sleeper, isSleeper, rfl, _, blocks⟩
        exact ⟨_, mem_redirect_of_mem isSleeper onOverlap, rfl, rfl,
          blocks.inside own fits noWeaker⟩
    · exact waits.waiting_redirect _ other (by simp [later]) addr onList
  · intro sleeper isSleeper next points
    rcases mem_redirect isSleeper with ⟨before, isBefore, request, ⟨moved, isNext⟩ | ⟨kept, rfl⟩⟩
    · rw [isNext] at points
      refine ⟨_, mem_cons_self, some.inj points, ?_⟩
      rw [request]
      exact mem_append_right _ moved
    · rcases waits.listed_of_not_mem isBefore kept points with ⟨other, isOther, isNext, onList⟩
      rcases mem_cons.mp isOther with rfl | later
      · exact ⟨_, mem_cons_self, isNext, mem_append_left _ onList⟩
      · exact ⟨other, by simp [later], isNext, onList⟩

/-- The first lock wakes its waiters and is freed. -/
theorem drop (woken : heap'.sleepers = (lfWakelock lf heap).2.sleepers)
    (more : heap.nextAddr ≤ heap'.nextAddr) : Waits locks heap' := by
  rw [← nil_append locks]
  exact waits.wake woken more (by simp) (by simp) (by simp) (by simp)

end

/-- A lock replaces an overlap inside it. -/
theorem replace (waits : Waits (overlap :: lock :: locks) heap) (own : overlap.lfId = lock.lfId)
    (fits : Overlap.contained.Fits overlap.range lock.range) :
    Waits ((replaceOverlap lock overlap heap).1 :: locks) (replaceOverlap lock overlap heap).2 := by
  have type := waits.lockType lock (by simp)
  unfold replaceOverlap
  split
  · exact waits.drop rfl (le_refl _)
  · rename_i noDowngrade
    exact waits.take own fits (wrlck_of_not_downgrade type noDowngrade)

theorem middle {front back : List (Lockf ι)} :
    Waits (front ++ lf :: back) heap ↔ Waits (lf :: (front ++ back)) heap :=
  ⟨fun waits => waits.perm perm_middle, fun waits => waits.perm perm_middle.symm⟩

end Waits

/-! ## Clearing and adding -/

section Operations

variable {lock lock' : Lockf ι} {locks locks' block left : List (Lockf ι)} {heap heap' : Heap ι}

theorem Cleared.waits (cleared : Cleared lock locks heap locks' heap') (front : List (Lockf ι))
    (waits : Waits (front ++ locks) heap) : Waits (front ++ locks') heap' := by
  induction cleared generalizing front with
  | none _ _ => exact waits
  | @cut skipped tail pieces left overlap _ _ _ _ isCut _ ih =>
    rw [← append_assoc] at waits
    have cut := (Waits.middle.mp waits).cut isCut
    have after := ih (front ++ skipped ++ pieces)
      (cut.perm ((perm_append_comm_assoc _ _ _).trans (by rw [← append_assoc])))
    simpa only [append_assoc] using after

theorem Passed.waits (passed : Passed lock block heap lock' left heap') (front : List (Lockf ι))
    (waits : Waits (lock :: (front ++ block)) heap) : Waits (lock' :: (front ++ left)) heap' := by
  induction passed generalizing front with
  | done _ => exact waits
  | @cut lock overlap piece skipped tail _ _ _ isCut _ _ =>
    have cut := (Waits.middle.mp (show Waits (lock :: (front ++ skipped) ++ overlap :: tail) _ by
      simpa using waits)).cut isCut
    have after : Waits (lock :: (front ++ skipped) ++ piece :: tail) _ := Waits.middle.mpr cut
    simpa using after
  | @replace lock overlap lock' skipped tail left _ _ _ own fits _ ih =>
    have first := Waits.middle.mp (show Waits (lock :: (front ++ skipped) ++ overlap :: tail) _ by
      simpa using waits)
    have after := ih (front ++ skipped) (first.replace own fits)
    simpa using after

namespace InFlight

/-- A request is allocated. -/
theorem allocate (waits : Waits locks heap) (addr : lock.addr = heap.nextAddr)
    (type : lock.lfType ≠ .unlck) (idle : lock.lfBlkhd = []) :
    InFlight lock locks { heap with nextAddr := heap.nextAddr + 1 } := by
  refine ⟨waits.change rfl (Nat.le_succ _) ?_ ?_ ?_ ?_, idle⟩
  · rw [map_cons, nodup_cons]
    refine ⟨?_, waits.lockAddr⟩
    intro member
    rcases mem_map.mp member with ⟨other, isOther, same⟩
    have old := waits.lockOld other isOther
    omega
  · intro other isOther
    rcases mem_cons.mp isOther with rfl | later
    · exact ⟨type, .inr ⟨by omega, by simp [addr]⟩⟩
    · exact ⟨waits.lockType other later, .inl ⟨other, later, rfl⟩⟩
  · intro other isOther waiter onList
    rcases mem_cons.mp isOther with rfl | later
    · exact absurd (idle ▸ onList) not_mem_nil
    · exact waits.waiting other later waiter onList
  · intro sleeper isSleeper next points
    rcases waits.listed sleeper isSleeper next points with ⟨other, isOther, facts⟩
    exact ⟨other, by simp [isOther], facts⟩

section

variable (inFlight : InFlight lock locks heap)
include inFlight

theorem waits : Waits locks heap := by
  apply inFlight.1.drop _ (le_refl _)
  simp [lfWakelock, inFlight.2, Heap.redirect]

theorem cleared (change : Cleared lock' locks heap locks' heap') : InFlight lock locks' heap' :=
  ⟨change.waits [lock] inFlight.1, inFlight.2⟩

theorem added (change : Added lock locks heap locks' heap') : Waits locks' heap' := by
  have linked := inFlight.1
  cases change with
  | link _ _ => exact Waits.middle.mpr linked
  | @retype skipped tail overlap _ own same _ =>
    have first := Waits.middle.mp inFlight.waits
    apply Waits.middle.mpr
    split
    · rw [← singleton_append]
      exact first.wake rfl (le_refl _) (by simp [lfWakelock])
        (by simpa using linked.lockType lock (by simp)) (by simp [lfWakelock]) (by simp)
    · rename_i noDowngrade
      have type := linked.lockType lock (by simp)
      exact first.retype type (wrlck_of_not_downgrade type noDowngrade)
  | keep _ _ _ _ => exact inFlight.waits
  | @cut skipped tail before behind overlap _ _ _ isCut _ _ _ =>
    have first := Waits.middle.mp (show Waits (lock :: skipped ++ overlap :: tail) _ from linked)
    have there : (before ++ behind ++ (lock :: skipped ++ tail)).Perm
        (lock :: (skipped ++ (before ++ behind ++ tail))) :=
      perm_middle.trans ((perm_append_comm_assoc _ _ _).cons lock)
    have back : (skipped ++ before ++ lock :: (behind ++ tail)).Perm
        (lock :: (skipped ++ (before ++ behind ++ tail))) := by
      refine perm_middle.trans ?_
      simp
    exact (first.cut isCut).perm (there.trans back.symm)
  | @replace skipped tail left overlap lock' _ _ _ own fits passed =>
    have first := Waits.middle.mp (show Waits (lock :: skipped ++ overlap :: tail) _ from linked)
    exact Waits.middle.mpr (passed.waits skipped (first.replace own fits))
  | @follow skipped tail left overlap piece lock' _ _ _ _ isCut _ passed =>
    have first := Waits.middle.mp (show Waits (lock :: skipped ++ overlap :: tail) _ from linked)
    have cut : Waits (lock :: skipped ++ piece :: tail) _ := Waits.middle.mpr (first.cut isCut)
    exact Waits.middle.mpr (passed.waits (skipped ++ [piece]) (by simpa using cut))

end

end InFlight

end Operations

/-! ## Sleeping and waking -/

section Sleep

variable {lock block : Lockf ι} {locks : List (Lockf ι)} {heap : Heap ι} {sleeper : Sleeper ι}

/-- Only the lock at the address changes. -/
theorem updateLock_middle {front back : List (Lockf ι)} (change : Lockf ι → Lockf ι)
    (nodup : ((front ++ block :: back).map Lockf.addr).Nodup) :
    updateLock block.addr change (front ++ block :: back) = front ++ change block :: back := by
  rw [map_append, map_cons, nodup_middle, nodup_cons, ← map_append]
    at nodup
  have other : ∀ lf ∈ front ++ back,
      (if lf.addr = block.addr then change lf else lf) = id lf := by
    intro lf member
    rw [if_neg, id]
    intro same
    exact nodup.1 (same ▸ mem_map_of_mem member)
  rw [updateLock, map_append, map_cons, if_pos rfl,
    map_congr_left fun lf member => other lf (mem_append_left _ member),
    map_congr_left fun lf member => other lf (mem_append_right _ member), List.map_id,
    List.map_id]

/-- A request goes to sleep on the first lock, which blocks it. -/
theorem Waits.sleep (waits : Waits (lock :: block :: locks) heap) (idle : lock.lfBlkhd = [])
    (blocks : Blocks block lock) (proc : Nat) :
    Waits ({ block with lfBlkhd := block.lfBlkhd ++ [lock.addr] } :: locks)
      { heap with sleepers := heap.sleepers ++ [⟨lock, proc, some block.addr⟩] } := by
  have unlinked := nodup_cons.mp waits.lockAddr
  have ofSleeper : ∀ {P : Sleeper ι → Prop}, (∀ sleeper ∈ heap.sleepers, P sleeper) →
      P ⟨lock, proc, some block.addr⟩ →
        ∀ sleeper ∈ heap.sleepers ++ [⟨lock, proc, some block.addr⟩], P sleeper := by
    intro P old new sleeper isSleeper
    rcases mem_append.mp isSleeper with isOld | isNew
    · exact old sleeper isOld
    · rwa [mem_singleton.mp isNew]
  have before : ∀ lf ∈ { block with lfBlkhd := block.lfBlkhd ++ [lock.addr] } :: locks,
      ∃ old ∈ block :: locks, old.addr = lf.addr ∧ old.lfType = lf.lfType := by
    intro lf member
    rcases mem_cons.mp member with rfl | later
    · exact ⟨block, by simp, rfl, rfl⟩
    · exact ⟨lf, by simp [later], rfl, rfl⟩
  refine ⟨unlinked.2, ?_, ?_, ?_, ?_, ?_, ?_, ?_, ?_, ?_⟩
  · rw [map_append, nodup_append]
    refine ⟨waits.requestAddr, nodup_singleton _, ?_⟩
    intro first isFirst second isSecond same
    rcases mem_map.mp isFirst with ⟨sleeper, isSleeper, rfl⟩
    rw [map_singleton, mem_singleton] at isSecond
    exact waits.apart sleeper isSleeper lock (by simp) (same.trans isSecond).symm
  · apply ofSleeper
    · intro sleeper isSleeper lf member
      rcases before lf member with ⟨old, isOld, addr, _⟩
      rw [← addr]
      exact waits.apart sleeper isSleeper old (mem_cons_of_mem _ isOld)
    · intro lf member same
      rcases before lf member with ⟨old, isOld, addr, _⟩
      exact unlinked.1 (mem_map.mpr ⟨old, isOld, addr.trans same⟩)
  · intro lf member
    rcases before lf member with ⟨old, isOld, addr, _⟩
    rw [← addr]
    exact waits.lockOld old (mem_cons_of_mem _ isOld)
  · exact ofSleeper waits.requestOld (waits.lockOld lock (by simp))
  · intro lf member
    rcases before lf member with ⟨old, isOld, _, type⟩
    rw [← type]
    exact waits.lockType old (mem_cons_of_mem _ isOld)
  · exact ofSleeper waits.requestType (waits.lockType lock (by simp))
  · exact ofSleeper waits.requestIdle idle
  · intro lf member addr onList
    have kept : ∀ old ∈ block :: locks, addr ∈ old.lfBlkhd →
        ∃ sleeper ∈ heap.sleepers ++ [⟨lock, proc, some block.addr⟩],
          sleeper.request.addr = addr ∧ sleeper.lfNext = some old.addr ∧
            Blocks old sleeper.request := by
      intro old isOld onOld
      rcases waits.waiting old (mem_cons_of_mem _ isOld) addr onOld with
        ⟨sleeper, isSleeper, facts⟩
      exact ⟨sleeper, mem_append_left _ isSleeper, facts⟩
    rcases mem_cons.mp member with rfl | later
    · rcases mem_append.mp onList with onOld | isNew
      · exact kept block (by simp) onOld
      · exact ⟨⟨lock, proc, some block.addr⟩, by simp, (mem_singleton.mp isNew).symm, rfl,
          blocks⟩
    · exact kept lf (by simp [later]) onList
  · apply ofSleeper
    · intro sleeper isSleeper next points
      rcases waits.listed sleeper isSleeper next points with ⟨lf, member, isNext, onList⟩
      rcases mem_cons.mp member with rfl | member
      · rw [idle] at onList
        cases onList
      · rcases mem_cons.mp member with rfl | later
        · exact ⟨_, mem_cons_self, isNext, mem_append_left _ onList⟩
        · exact ⟨lf, by simp [later], isNext, onList⟩
    · intro next points
      exact ⟨_, mem_cons_self, some.inj points, by simp⟩

/-- A request goes to sleep on a lock that blocks it. -/
theorem InFlight.sleepOn (inFlight : InFlight lock locks heap) (member : block ∈ locks)
    (blocks : Blocks block lock) (proc : Nat) :
    Waits (sleepOn block lock proc ⟨locks, heap⟩).locks
      (Advlock.sleepOn block lock proc ⟨locks, heap⟩).heap := by
  rcases append_of_mem member with ⟨front, back, rfl⟩
  have linked : Waits (lock :: block :: (front ++ back)) heap :=
    inFlight.1.perm (perm_middle.cons lock)
  rw [Advlock.sleepOn, updateLock_middle _ inFlight.waits.lockAddr]
  exact Waits.middle.mpr (linked.sleep inFlight.2 blocks proc)

/-- The lock without one of its waiters. -/
def Lockf.dropWaiter (addr : Nat) (lf : Lockf ι) : Lockf ι :=
  { lf with lfBlkhd := lf.lfBlkhd.filter (· ≠ addr) }

/-- The request is on no other list, so it may leave all of them. -/
theorem leaveList_locks (waits : Waits locks heap) (isSleeper : sleeper ∈ heap.sleepers) :
    (leaveList sleeper ⟨locks, heap⟩).locks =
      locks.map (Lockf.dropWaiter sleeper.request.addr) := by
  have other : ∀ lf ∈ locks, sleeper.lfNext ≠ some lf.addr →
      lf = lf.dropWaiter sleeper.request.addr := by
    intro lf member notNext
    have absent : ∀ addr ∈ lf.lfBlkhd, addr ≠ sleeper.request.addr := by
      intro addr onList same
      rcases waits.waiting lf member addr onList with ⟨waiter, isWaiter, isAddr, points, _⟩
      have equal := waits.request_unique isWaiter isSleeper (isAddr.trans same)
      rw [equal] at points
      exact notNext points
    rw [Lockf.dropWaiter, filter_eq_self.mpr (by simpa using absent)]
  unfold leaveList
  cases points : sleeper.lfNext with
  | none =>
    refine Eq.trans (map_id locks).symm (map_congr_left ?_)
    intro lf member
    exact other lf member (by simp [points])
  | some next =>
    apply map_congr_left
    intro lf member
    by_cases isNext : lf.addr = next
    · rw [if_pos isNext]
      rfl
    · rw [if_neg isNext]
      exact other lf member (by rw [points]; exact fun same => isNext (some.inj same).symm)

/-- A sleeper continues as a request in flight. -/
theorem Waits.leaveList (waits : Waits locks heap) (isSleeper : sleeper ∈ heap.sleepers) :
    InFlight sleeper.request (leaveList sleeper ⟨locks, heap⟩).locks
      (Advlock.leaveList sleeper ⟨locks, heap⟩).heap := by
  have mem_rest : ∀ {other : Sleeper ι},
      other ∈ (Advlock.leaveList sleeper ⟨locks, heap⟩).heap.sleepers ↔
        other ∈ heap.sleepers ∧ other.request.addr ≠ sleeper.request.addr := by
    simp [Advlock.leaveList]
  have before : ∀ lf ∈ locks.map (Lockf.dropWaiter sleeper.request.addr),
      ∃ old ∈ locks, lf = old.dropWaiter sleeper.request.addr := by
    intro lf member
    rcases mem_map.mp member with ⟨old, isOld, same⟩
    exact ⟨old, isOld, same.symm⟩
  have idle := waits.requestIdle sleeper isSleeper
  rw [leaveList_locks waits isSleeper]
  refine ⟨⟨?_, ?_, ?_, ?_, ?_, ?_, ?_, ?_, ?_, ?_⟩, idle⟩
  · rw [map_cons, List.map_map, nodup_cons]
    refine ⟨?_, waits.lockAddr⟩
    intro member
    rcases mem_map.mp member with ⟨lf, isLock, same⟩
    exact waits.apart sleeper isSleeper lf isLock same
  · exact waits.requestAddr.sublist ((filter_sublist).map _)
  · intro other isOther lf member
    rw [mem_rest] at isOther
    rcases mem_cons.mp member with rfl | later
    · exact isOther.2.symm
    · rcases before lf later with ⟨old, isOld, rfl⟩
      exact waits.apart other isOther.1 old isOld
  · intro lf member
    rcases mem_cons.mp member with rfl | later
    · exact waits.requestOld sleeper isSleeper
    · rcases before lf later with ⟨old, isOld, rfl⟩
      exact waits.lockOld old isOld
  · intro other isOther
    exact waits.requestOld other (mem_rest.mp isOther).1
  · intro lf member
    rcases mem_cons.mp member with rfl | later
    · exact waits.requestType sleeper isSleeper
    · rcases before lf later with ⟨old, isOld, rfl⟩
      exact waits.lockType old isOld
  · intro other isOther
    exact waits.requestType other (mem_rest.mp isOther).1
  · intro other isOther
    exact waits.requestIdle other (mem_rest.mp isOther).1
  · intro lf member addr onList
    rcases mem_cons.mp member with rfl | later
    · rw [idle] at onList
      cases onList
    · rcases before lf later with ⟨old, isOld, rfl⟩
      rcases mem_filter.mp onList with ⟨onOld, notLeft⟩
      rcases waits.waiting old isOld addr onOld with ⟨other, isOther, rfl, facts⟩
      exact ⟨other, mem_rest.mpr ⟨isOther, by simpa using notLeft⟩, rfl, facts⟩
  · intro other isOther next points
    rw [mem_rest] at isOther
    rcases waits.listed other isOther.1 next points with ⟨lf, member, isNext, onList⟩
    refine ⟨lf.dropWaiter sleeper.request.addr,
      mem_cons_of_mem _ (mem_map_of_mem member), isNext, ?_⟩
    exact mem_filter.mpr ⟨onList, by simpa using isOther.2⟩

end Sleep

end Bitrig.Advlock
