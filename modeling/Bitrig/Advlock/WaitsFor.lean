import Bitrig.Advlock.Invariant

/-!
# The waits-for graph of a file

A sleeping request waits for the owner of the lock in its `lf_next`.  When locks
are cut, replaced or split, waiters are woken or go over to a lock of the same
owner, so that a step adds no edge to the graph unless its request goes to sleep.
-/

namespace Bitrig.Advlock

open List

variable {φ ι : Type}

/-! ## Where locks come from -/

/-- The waiters of a lock waited for locks of the same owner on a list before a
change. -/
def Stems (old : List (Lockf ι)) (lf : Lockf ι) : Prop :=
  ∀ addr ∈ lf.lfBlkhd, ∃ was ∈ old, was.lfId = lf.lfId ∧ addr ∈ was.lfBlkhd

section Stems

variable {old mid : List (Lockf ι)} {lf lock lock' overlap : Lockf ι} {heap heap' : Heap ι}
  {locks locks' block left pieces : List (Lockf ι)}

theorem Stems.of_mem (member : lf ∈ old) : Stems old lf :=
  fun _ onList => ⟨lf, member, rfl, onList⟩

theorem Stems.trans (second : Stems mid lf) (first : ∀ lf ∈ mid, Stems old lf) : Stems old lf := by
  intro addr onList
  rcases second addr onList with ⟨was, isWas, id, onWas⟩
  rcases first was isWas addr onWas with ⟨before, isBefore, id', onBefore⟩
  exact ⟨before, isBefore, id'.trans id, onBefore⟩

theorem Stems.mono (stems : Stems mid lf) (more : mid ⊆ old) : Stems old lf :=
  stems.trans fun _ member => .of_mem (more member)

theorem Cut.stems (isCut : Cut lock overlap heap pieces heap') :
    ∀ piece ∈ pieces, Stems old piece := by
  intro piece isPiece addr onList
  rw [isCut.noWaiter piece isPiece] at onList
  exact absurd onList not_mem_nil

theorem replaceOverlap_stems (own : overlap.lfId = lock.lfId) (isLock : lock ∈ old)
    (isOverlap : overlap ∈ old) (heap : Heap ι) :
    Stems old (replaceOverlap lock overlap heap).1 := by
  unfold replaceOverlap
  split
  · exact .of_mem isLock
  · intro addr onList
    rcases mem_append.mp onList with onLock | onOverlap
    · exact ⟨lock, isLock, rfl, onLock⟩
    · exact ⟨overlap, isOverlap, own, onOverlap⟩

theorem Cleared.stems (cleared : Cleared lock locks heap locks' heap') :
    ∀ lf ∈ locks', Stems locks lf := by
  induction cleared with
  | none _ _ => exact fun _ => .of_mem
  | cut _ isCut _ ih =>
    intro lf member
    rcases mem_append.mp member with isSkipped | isRest
    · exact .of_mem (by simp [isSkipped])
    · rcases mem_append.mp isRest with isPiece | isLeft
      · exact isCut.stems lf isPiece
      · exact (ih lf isLeft).mono fun _ => by simp_all

theorem Passed.stems (passed : Passed lock block heap lock' left heap') :
    ∀ lf ∈ lock' :: left, Stems (lock :: block) lf := by
  induction passed with
  | done _ => exact fun _ => .of_mem
  | cut _ isCut _ _ =>
    rw [forall_mem_cons, forall_mem_append, forall_mem_cons]
    refine ⟨.of_mem (by simp), ?_, isCut.stems _ (by simp), ?_⟩
    · exact fun _ isSkipped => .of_mem (by simp [isSkipped])
    · exact fun _ isTail => .of_mem (by simp [isTail])
  | @replace lock overlap lock' skipped tail left heap _ _ own _ _ ih =>
    have before : ∀ lf ∈ (replaceOverlap lock overlap heap).1 :: tail,
        Stems (lock :: (skipped ++ overlap :: tail)) lf := by
      rw [forall_mem_cons]
      refine ⟨replaceOverlap_stems own (by simp) (by simp) heap, ?_⟩
      exact fun _ isTail => .of_mem (by simp [isTail])
    rw [forall_mem_cons] at ih
    rw [forall_mem_cons, forall_mem_append]
    refine ⟨ih.1.trans before, ?_, fun lf isLeft => (ih.2 lf isLeft).trans before⟩
    exact fun _ isSkipped => .of_mem (by simp [isSkipped])

theorem Added.stems (added : Added lock locks heap locks' heap') :
    ∀ lf ∈ locks', Stems (lock :: locks) lf := by
  cases added with
  | link _ _ =>
    intro lf member
    apply Stems.of_mem
    simpa [or_left_comm] using member
  | @retype skipped tail overlap _ _ _ _ =>
    rw [forall_mem_append, forall_mem_cons]
    refine ⟨fun _ isSkipped => .of_mem (by simp [isSkipped]), ?_,
      fun _ isTail => .of_mem (by simp [isTail])⟩
    split
    · exact fun _ onList => absurd onList not_mem_nil
    · exact fun _ onList => ⟨overlap, by simp, rfl, onList⟩
  | keep _ _ _ _ => exact fun _ member => .of_mem (by simp [member])
  | @cut skipped tail before behind overlap _ _ _ isCut _ _ _ =>
    have pieces : ∀ piece ∈ before ++ behind, Stems (lock :: (skipped ++ overlap :: tail)) piece :=
      isCut.stems
    rw [forall_mem_append] at pieces
    rw [forall_mem_append, forall_mem_append, forall_mem_cons, forall_mem_append]
    refine ⟨⟨?_, pieces.1⟩, .of_mem (by simp), pieces.2, ?_⟩
    · exact fun _ isSkipped => .of_mem (by simp [isSkipped])
    · exact fun _ isTail => .of_mem (by simp [isTail])
  | @replace skipped tail left overlap lock' _ _ _ own _ passed =>
    rw [forall_mem_append]
    refine ⟨fun _ isSkipped => .of_mem (by simp [isSkipped]), ?_⟩
    intro lf member
    apply (passed.stems lf member).trans
    rw [forall_mem_cons]
    refine ⟨replaceOverlap_stems own (by simp) (by simp) heap, ?_⟩
    exact fun _ isTail => .of_mem (by simp [isTail])
  | @follow skipped tail left overlap piece lock' _ _ _ _ isCut _ passed =>
    rw [forall_mem_append, forall_mem_append]
    refine ⟨⟨fun _ isSkipped => .of_mem (by simp [isSkipped]), isCut.stems⟩, ?_⟩
    intro lf member
    apply (passed.stems lf member).mono
    intro was isWas
    rcases mem_cons.mp isWas with rfl | isTail
    · simp
    · simp [isTail]

end Stems

/-! ## The sleeping requests -/

section Heap

variable {lock lock' : Lockf ι} {heap heap' : Heap ι} {locks locks' block left : List (Lockf ι)}

theorem replaceOverlap_kept (lock overlap : Lockf ι) (heap : Heap ι) :
    (replaceOverlap lock overlap heap).2.keys = heap.keys ∧
      (replaceOverlap lock overlap heap).2.freed = heap.freed := by
  unfold replaceOverlap
  split
  · exact ⟨redirect_keys, rfl⟩
  · exact ⟨redirect_keys, rfl⟩

theorem Cleared.kept (cleared : Cleared lock locks heap locks' heap') :
    heap'.keys = heap.keys ∧ heap'.freed = heap.freed := by
  induction cleared with
  | none _ _ => exact ⟨rfl, rfl⟩
  | cut _ isCut _ ih => exact ⟨ih.1.trans (keys_of_woken isCut.woken), ih.2.trans isCut.freed⟩

theorem Passed.kept (passed : Passed lock block heap lock' left heap') :
    heap'.keys = heap.keys ∧ heap'.freed = heap.freed := by
  induction passed with
  | done _ => exact ⟨rfl, rfl⟩
  | cut _ isCut _ _ => exact ⟨keys_of_woken isCut.woken, isCut.freed⟩
  | replace _ _ _ _ ih =>
    obtain ⟨keys, freed⟩ := replaceOverlap_kept _ _ _
    exact ⟨ih.1.trans keys, ih.2.trans freed⟩

theorem Added.kept (added : Added lock locks heap locks' heap') :
    heap'.keys = heap.keys ∧ heap'.freed = heap.freed := by
  cases added with
  | link _ _ | keep _ _ _ _ => exact ⟨rfl, rfl⟩
  | retype _ _ _ _ =>
    split
    · exact ⟨redirect_keys, rfl⟩
    · exact ⟨rfl, rfl⟩
  | cut _ isCut _ _ _ => exact ⟨keys_of_woken isCut.woken, isCut.freed⟩
  | replace _ _ _ passed =>
    obtain ⟨keys, freed⟩ := replaceOverlap_kept _ _ _
    exact ⟨passed.kept.1.trans keys, passed.kept.2.trans freed⟩
  | follow _ isCut _ passed =>
    exact ⟨passed.kept.1.trans (keys_of_woken isCut.woken), passed.kept.2.trans isCut.freed⟩

end Heap

/-! ## Edges -/

/-- A sleeping request of the first owner has a lock of the second one in its
`lf_next`. -/
def FileLocks.WaitsFor (here : FileLocks ι) (owner other : ι) : Prop :=
  ∃ sleeper ∈ here.heap.sleepers, sleeper.request.lfId = owner ∧
    ∃ lf ∈ here.locks, sleeper.lfNext = some lf.addr ∧ lf.lfId = other

section Edges

variable {here here' start : FileLocks ι} {owner other : ι} {lock : Lockf ι} {label : LockStep φ ι}
  {proc : Nat} {reply : Reply} {locks : List (Lockf ι)} {heap : Heap ι}

/-- Seen from the lock, a waiter is on its list. -/
theorem waitsFor_iff (waits : Waits here.locks here.heap) :
    here.WaitsFor owner other ↔ ∃ lf ∈ here.locks, lf.lfId = other ∧
      ∃ key ∈ here.heap.keys, key.1.addr ∈ lf.lfBlkhd ∧ key.1.lfId = owner := by
  constructor
  · rintro ⟨sleeper, isSleeper, rfl, lf, member, points, rfl⟩
    rcases waits.listed sleeper isSleeper lf.addr points with ⟨listed, isListed, sameAddr, onList⟩
    have same := waits.lock_unique isListed member sameAddr
    subst same
    exact ⟨listed, member, rfl, (sleeper.request, sleeper.proc),
      mem_keys.mpr ⟨sleeper, isSleeper, rfl, rfl⟩, onList, rfl⟩
  · rintro ⟨lf, member, rfl, ⟨request, proc⟩, isKey, onList, rfl⟩
    rcases mem_keys.mp isKey with ⟨sleeper, isSleeper, rfl, rfl⟩
    rcases waits.waiting lf member _ onList with ⟨waiter, isWaiter, sameAddr, points, _⟩
    have same := waits.request_unique isWaiter isSleeper sameAddr
    subst same
    exact ⟨waiter, isSleeper, rfl, lf, member, points, rfl⟩

/-- No edge is new if the waiters of each lock waited for its owner before. -/
theorem FileLocks.WaitsFor.of_stems (edge : here'.WaitsFor owner other)
    (waits : Waits here.locks here.heap) (waits' : Waits here'.locks here'.heap)
    (stems : ∀ lf ∈ here'.locks, Stems here.locks lf)
    (keys : here'.heap.keys ⊆ here.heap.keys) : here.WaitsFor owner other := by
  rw [waitsFor_iff waits'] at edge
  rw [waitsFor_iff waits]
  rcases edge with ⟨lf, member, rfl, key, isKey, onList, rfl⟩
  rcases stems lf member _ onList with ⟨was, isWas, same, onWas⟩
  exact ⟨was, isWas, same, key, keys isKey, onWas, rfl⟩

theorem FileLocks.Inv.waitsFor_cleared (inv : here.Inv)
    (change : Cleared lock here.locks here.heap locks heap)
    (edge : (⟨locks, heap⟩ : FileLocks ι).WaitsFor owner other) : here.WaitsFor owner other :=
  edge.of_stems inv.waits (inv.cleared change).waits change.stems (change.kept.1 ▸ Subset.refl _)

theorem FileLocks.Inv.waitsFor_added (inv : here.Inv)
    (inFlight : InFlight lock here.locks here.heap)
    (change : Added lock here.locks here.heap locks heap)
    (edge : (⟨locks, heap⟩ : FileLocks ι).WaitsFor owner other) : here.WaitsFor owner other := by
  apply edge.of_stems inv.waits (inFlight.added change) _ (change.kept.1 ▸ Subset.refl _)
  intro lf member addr onList
  rcases change.stems lf member addr onList with ⟨was, isWas, facts⟩
  rcases mem_cons.mp isWas with rfl | isOld
  · rw [inFlight.2] at facts
    exact absurd facts.2 (not_mem_nil)
  · exact ⟨was, isOld, facts⟩

/-- Preparing a request adds no edge. -/
theorem FileLocks.Inv.waitsFor_prepared (inv : here.Inv)
    (isPrepared : Prepared here label lock proc start) (edge : start.WaitsFor owner other) :
    here.WaitsFor owner other := by
  have startInv := (inv.prepared isPrepared).1
  cases isPrepared with
  | allocated range type => exact edge
  | @awake _ _ _ _ sleeper isSleeper _ =>
    apply edge.of_stems inv.waits startInv.waits
    · rw [leaveList_locks inv.waits isSleeper]
      intro lf member addr onList
      rcases mem_map.mp member with ⟨was, isWas, rfl⟩
      exact ⟨was, isWas, rfl, (mem_filter.mp onList).1⟩
    · exact map_subset _ (filter_subset_self _)

/-- A request that goes to sleep adds the edge to the owner of its blocker. -/
theorem waitsFor_sleepOn {block : Lockf ι} (waits : Waits here.locks here.heap)
    (isBlock : block ∈ here.locks) (edge : (sleepOn block lock proc here).WaitsFor owner other) :
    here.WaitsFor owner other ∨ owner = lock.lfId ∧ other = block.lfId := by
  rcases edge with ⟨sleeper, isSleeper, rfl, lf, member, points, rfl⟩
  rcases mem_map.mp member with ⟨was, isWas, isLf⟩
  have same : was.addr = lf.addr ∧ was.lfId = lf.lfId := by
    subst isLf
    split
    · exact ⟨rfl, rfl⟩
    · exact ⟨rfl, rfl⟩
  rcases mem_append.mp isSleeper with isOld | isNew
  · exact .inl ⟨sleeper, isOld, rfl, was, isWas, same.1 ▸ points, same.2⟩
  · cases mem_singleton.mp isNew
    have isBlocker := waits.lock_unique isWas isBlock (same.1.trans (Option.some.inj points).symm)
    exact .inr ⟨rfl, by rw [← same.2, isBlocker]⟩

variable [DecidableEq ι]

/-- A step whose request does not go to sleep adds no edge. -/
theorem FileLocks.Inv.waitsFor_change (inv : here.Inv) (change : Change here label here' reply)
    (awake : reply ≠ .asleep) (edge : here'.WaitsFor owner other) : here.WaitsFor owner other := by
  cases change with
  | same _ => exact edge
  | allocated _ => exact edge
  | cleared _ _ _ isCleared => exact inv.allocated.waitsFor_cleared isCleared edge
  | interrupted prepared => exact inv.waitsFor_prepared prepared edge
  | set prepared outcome =>
    rcases inv.prepared prepared with ⟨startInv, inFlight⟩
    cases outcome with
    | refused _ _ => exact inv.waitsFor_prepared prepared edge
    | asleep _ _ _ => exact absurd rfl awake
    | granted _ added =>
      exact inv.waitsFor_prepared prepared (startInv.waitsFor_added inFlight added edge)

end Edges

/-! ## What a step keeps of the requests and locks -/

/-- A property of locks that does not depend on their type, waiters and address,
and goes over to what a request leaves of a lock. -/
structure Inherited (P : Lockf ι → Prop) : Prop where
  same : ∀ {lf lf' : Lockf ι}, P lf → lf'.lfId = lf.lfId → lf'.lfFlags = lf.lfFlags →
    lf'.range = lf.range → P lf'
  piece : ∀ {lock overlap : Lockf ι} {heap heap' : Heap ι} {pieces : List (Lockf ι)},
    Cut lock overlap heap pieces heap' → P lock → P overlap → ∀ piece ∈ pieces, P piece

theorem Inherited.of_kind (P : ι → LfFlags → Prop) :
    Inherited fun lf : Lockf ι => P lf.lfId lf.lfFlags where
  same holds id flags _ := by
    rw [id, flags]
    exact holds
  piece isCut _ holds piece member := by
    have id : piece.lfId = _ := isCut.pieces.key piece member
    rw [id, isCut.flags piece member]
    exact holds

section Inherited

variable {P : Lockf ι → Prop} (inherited : Inherited P) {lock lock' : Lockf ι}
  {heap heap' : Heap ι} {locks locks' block left : List (Lockf ι)}
include inherited

theorem Inherited.replaced (request : P lock) (overlap : Lockf ι) (heap : Heap ι) :
    P (replaceOverlap lock overlap heap).1 := by
  obtain ⟨id, range, -, -, flags⟩ := replaceOverlap_fst lock overlap heap
  exact inherited.same request id flags range

theorem Inherited.cleared (change : Cleared lock locks heap locks' heap') (request : P lock)
    (all : ∀ lf ∈ locks, P lf) : ∀ lf ∈ locks', P lf := by
  induction change with
  | none _ _ => exact all
  | cut _ isCut _ ih =>
    rw [forall_mem_append, forall_mem_cons] at all
    rw [forall_mem_append, forall_mem_append]
    exact ⟨all.1, inherited.piece isCut request all.2.1, ih all.2.2⟩

theorem Inherited.passed (change : Passed lock block heap lock' left heap')
    (all : ∀ lf ∈ lock :: block, P lf) : ∀ lf ∈ lock' :: left, P lf := by
  induction change with
  | done _ => exact all
  | cut _ isCut _ _ =>
    rw [forall_mem_cons, forall_mem_append, forall_mem_cons] at all ⊢
    exact ⟨all.1, all.2.1, inherited.piece isCut all.1 all.2.2.1 _ mem_cons_self, all.2.2.2⟩
  | replace _ _ _ _ ih =>
    rw [forall_mem_cons, forall_mem_append, forall_mem_cons] at all
    have later := ih (forall_mem_cons.mpr ⟨inherited.replaced all.1 _ _, all.2.2.2⟩)
    rw [forall_mem_cons] at later
    rw [forall_mem_cons, forall_mem_append]
    exact ⟨later.1, all.2.1, later.2⟩

theorem Inherited.added (change : Added lock locks heap locks' heap') (request : P lock)
    (all : ∀ lf ∈ locks, P lf) : ∀ lf ∈ locks', P lf := by
  cases change with
  | link _ _ =>
    rw [forall_mem_append, forall_mem_cons] at *
    exact ⟨all.1, request, all.2⟩
  | keep _ _ _ _ => exact all
  | retype _ _ _ _ =>
    rw [forall_mem_append, forall_mem_cons] at *
    refine ⟨all.1, ?_, all.2.2⟩
    split
    · exact inherited.same all.2.1 rfl rfl rfl
    · exact inherited.same all.2.1 rfl rfl rfl
  | cut _ isCut _ _ _ =>
    rw [forall_mem_append, forall_mem_cons] at all
    have pieces := inherited.piece isCut request all.2.1
    rw [forall_mem_append] at pieces
    rw [forall_mem_append, forall_mem_append, forall_mem_cons, forall_mem_append]
    exact ⟨⟨all.1, pieces.1⟩, request, pieces.2, all.2.2⟩
  | replace _ _ _ passed =>
    rw [forall_mem_append, forall_mem_cons] at all
    exact forall_mem_append.mpr ⟨all.1, inherited.passed passed
      (forall_mem_cons.mpr ⟨inherited.replaced request _ _, all.2.2⟩)⟩
  | follow _ isCut _ passed =>
    rw [forall_mem_append, forall_mem_cons] at all
    rw [forall_mem_append, forall_mem_append]
    exact ⟨⟨all.1, inherited.piece isCut request all.2.1⟩,
      inherited.passed passed (forall_mem_cons.mpr ⟨request, all.2.2⟩)⟩

end Inherited

section Kept

variable {here here' start : FileLocks ι} {lock : Lockf ι} {label : LockStep φ ι}
  {proc : Nat} {reply : Reply} {P : Lockf ι → Prop}

theorem Inherited.prepared (inherited : Inherited P)
    (prepared : Prepared here label lock proc start) (waits : Waits here.locks here.heap)
    (all : ∀ lf ∈ here.locks, P lf) : ∀ lf ∈ start.locks, P lf := by
  cases prepared with
  | allocated _ _ => exact all
  | awake isSleeper _ =>
    rw [leaveList_locks waits isSleeper]
    intro lf member
    rcases mem_map.mp member with ⟨was, isWas, rfl⟩
    exact inherited.same (all was isWas) rfl rfl rfl

variable [DecidableEq ι]

/-- What holds of every lock and of the request of a step holds of every lock
afterwards. -/
theorem Inherited.change (inherited : Inherited P) (inv : here.Inv)
    (change : Change here label here' reply)
    (request : ∀ lock proc start, Prepared here label lock proc start → P lock)
    (unlock : ∀ file call range, label = .call file call →
      lfRange call.size call.fl = some range → P (call.lock range here.heap.nextAddr))
    (all : ∀ lf ∈ here.locks, P lf) : ∀ lf ∈ here'.locks, P lf := by
  cases change with
  | same _ | allocated _ => exact all
  | cleared _ isCall isRange isCleared =>
    exact inherited.cleared isCleared (unlock _ _ _ isCall isRange) all
  | interrupted prepared => exact inherited.prepared prepared inv.waits all
  | set prepared outcome =>
    have start := inherited.prepared prepared inv.waits all
    have isRequest := request _ _ _ prepared
    cases outcome with
    | refused _ _ => exact start
    | granted _ added => exact inherited.added added isRequest start
    | asleep _ _ isReleased =>
      intro lf member
      rcases mem_map.mp member with ⟨was, isWas, rfl⟩
      have holds : P was := by
        rcases isReleased with rfl | isCleared
        · exact start was isWas
        · exact inherited.cleared isCleared (inherited.same isRequest rfl rfl rfl) start was isWas
      split
      · exact inherited.same holds rfl rfl rfl
      · exact holds

/-- The sleeping requests after a step were asleep before, unless the step is a
call that goes to sleep. -/
theorem Change.keys (change : Change here label here' reply) {key : Lockf ι × Nat}
    (isKey : key ∈ here'.heap.keys) :
    key ∈ here.heap.keys ∨ ∃ file call range, label = .call file call ∧
        lfRange call.size call.fl = some range ∧
        key = (call.lock range here.heap.nextAddr, call.proc) := by
  have ofPrepared : ∀ {lock proc start}, Prepared here label lock proc start →
      key ∈ start.heap.keys → key ∈ here.heap.keys := by
    intro lock proc start prepared isStart
    cases prepared with
    | allocated _ _ => exact isStart
    | awake _ _ => exact map_subset _ (filter_subset_self _) isStart
  cases change with
  | same _ | allocated _ => exact .inl isKey
  | cleared _ _ _ isCleared => exact .inl (isCleared.kept.1 ▸ isKey)
  | interrupted prepared => exact .inl (ofPrepared prepared isKey)
  | @set lock proc start _ _ _ prepared outcome =>
    cases outcome with
    | refused _ _ => exact .inl (ofPrepared prepared isKey)
    | granted _ added => exact .inl (ofPrepared prepared (added.kept.1 ▸ isKey))
    | @asleep block released _ _ isReleased =>
      have keys : released.heap.keys = start.heap.keys := by
        rcases isReleased with rfl | isCleared
        · rfl
        · exact isCleared.kept.1
      rw [sleepOn, Heap.keys, map_append, mem_append] at isKey
      rcases isKey with isOld | isNew
      · exact .inl (ofPrepared prepared (keys ▸ isOld))
      · cases mem_singleton.mp isNew
        cases prepared with
        | allocated isRange _ => exact .inr ⟨_, _, _, rfl, isRange, rfl⟩
        | awake isSleeper _ => exact .inl (mem_keys.mpr ⟨_, isSleeper, rfl, rfl⟩)

/-- A step frees no lock that is linked. -/
theorem Change.freed (change : Change here label here' reply) :
    here'.heap.freed = here.heap.freed := by
  have ofPrepared : ∀ {lock proc start}, Prepared here label lock proc start →
      start.heap.freed = here.heap.freed := by
    intro lock proc start prepared
    cases prepared with
    | allocated _ _ | awake _ _ => rfl
  cases change with
  | same _ | allocated _ => rfl
  | cleared _ _ _ isCleared => exact isCleared.kept.2
  | interrupted prepared => exact ofPrepared prepared
  | set prepared outcome =>
    refine Eq.trans ?_ (ofPrepared prepared)
    cases outcome with
    | refused _ _ => rfl
    | granted _ added => exact added.kept.2
    | asleep _ _ isReleased =>
      rcases isReleased with rfl | isCleared
      · rfl
      · exact isCleared.kept.2

end Kept

end Bitrig.Advlock
