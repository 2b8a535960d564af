import Bitrig.Advlock.Waiters

/-!
# The invariant of the lock lists

What a step can do to a file is said once: a request is prepared, that is
allocated or taken back from its sleep, and then it is refused, goes to sleep or
is granted; or a range is cleared.  The order of the list, the exclusion between
owners and the lists of waiters are kept by each of these, and so they hold in
every reachable state.
-/

namespace Bitrig.Advlock

open Bitrig.SpanList Bitrig.Transition Function Option

variable {φ ι : Type}

/-! ## What a step does to a file -/

/-- The shared lock of a flock request is released, if at all. -/
def Released (lock : Lockf ι) (here released : FileLocks ι) : Prop :=
  released = here ∨
    Cleared { lock with lfType := .unlck } here.locks here.heap released.locks released.heap

/-- A request that a step brings to `lf_setlock`, allocated or back from its
sleep, with its process and the locks of its file. -/
inductive Prepared (here : FileLocks ι) :
    LockStep φ ι → Lockf ι → Nat → FileLocks ι → Prop
  | allocated {file : φ} {call : LockCall ι} {range : Span}
      (isRange : lfRange call.size call.fl = some range) (type : call.fl.lType ≠ .unlck) :
      Prepared here (.call file call) (call.lock range here.heap.nextAddr) call.proc here.allocated
  | awake {file : φ} {addr : Nat} {interrupted : Bool} {fl : Flock} {sleeper : Sleeper ι}
      (member : sleeper ∈ here.heap.sleepers) (isAddr : sleeper.request.addr = addr) :
      Prepared here (.wakeUp file addr interrupted fl) sleeper.request sleeper.proc
        (leaveList sleeper here)

theorem Prepared.of_find {here : FileLocks ι} {file : φ} {addr : Nat} {interrupted : Bool}
    {fl : Flock} {sleeper : Sleeper ι}
    (found : here.heap.sleepers.find? (·.request.addr = addr) = some sleeper) :
    Prepared here (.wakeUp file addr interrupted fl) sleeper.request sleeper.proc
      (leaveList sleeper here) := by
  have test := List.find?_some found
  exact .awake (List.mem_of_find?_eq_some found) (of_decide_eq_true test)

section

variable [DecidableEq ι]

/-- How `lf_setlock` ends or pauses. -/
inductive Outcome (lock : Lockf ι) (proc : Nat) (fl : Flock) (here : FileLocks ι) :
    FileLocks ι → Reply → Prop
  | refused {block : Lockf ι} (errno : LockError)
      (found : lfGetblock lock here.locks = some (some block)) :
      Outcome lock proc fl here here (.error errno)
  | asleep {block : Lockf ι} {released : FileLocks ι} (wait : lock.lfFlags.fWait = true)
      (found : lfGetblock lock here.locks = some (some block))
      (isReleased : Released lock here released) :
      Outcome lock proc fl here (sleepOn block lock proc released) .asleep
  | granted {locks : List (Lockf ι)} {heap : Heap ι}
      (found : lfGetblock lock here.locks = some none)
      (added : Added lock here.locks here.heap locks heap) :
      Outcome lock proc fl here ⟨locks, heap⟩ (.done fl)

/-- What a step does to the locks of its file, and its reply. -/
inductive Change (here : FileLocks ι) (label : LockStep φ ι) : FileLocks ι → Reply → Prop
  | same {reply : Reply} (awake : reply ≠ .asleep) : Change here label here reply
  | allocated (fl : Flock) : Change here label here.allocated (.done fl)
  | cleared {file : φ} {call : LockCall ι} {range : Span} (fl : Flock) {locks : List (Lockf ι)}
      {heap : Heap ι} (isCall : label = .call file call)
      (isRange : lfRange call.size call.fl = some range)
      (isCleared : Cleared (call.lock range here.heap.nextAddr) here.allocated.locks
        here.allocated.heap locks heap) :
      Change here label ⟨locks, heap⟩ (.done fl)
  | interrupted {lock : Lockf ι} {proc : Nat} {start : FileLocks ι}
      (prepared : Prepared here label lock proc start) : Change here label start (.error .eintr)
  | set {lock : Lockf ι} {proc : Nat} {start here' : FileLocks ι} {fl : Flock} {reply : Reply}
      (prepared : Prepared here label lock proc start)
      (outcome : Outcome lock proc fl start here' reply) : Change here label here' reply

end

/-! ## The invariant -/

/-- No owner has an exclusive lock on bytes of a lock of another one. -/
def Exclusive (locks : List (Lockf ι)) : Prop :=
  ∀ a ∈ locks, ∀ b ∈ locks, a.lfId ≠ b.lfId → a.range.Overlaps b.range → a.lfType ≠ .wrlck

/-- The locks of a file are in order, exclude each other and know their waiters. -/
structure FileLocks.Inv (here : FileLocks ι) : Prop where
  sorted : Sorted here.locks
  exclusive : Exclusive here.locks
  waits : Waits here.locks here.heap

theorem exclusive_iff {locks : List (Lockf ι)} :
    Exclusive locks ↔ ∀ owner other x type type', owner ≠ other → Holds locks owner x type →
      Holds locks other x type' → type ≠ .wrlck := by
  constructor
  · rintro exclusive _ _ x _ _ differ ⟨a, isA, rfl, inA, rfl⟩ ⟨b, isB, rfl, inB, rfl⟩
    exact exclusive a isA b isB differ (Span.overlaps_iff.mpr ⟨x, inA, inB⟩)
  · intro byByte a isA b isB differ meet
    rcases Span.overlaps_iff.mp meet with ⟨x, inA, inB⟩
    exact byByte _ _ x _ _ differ ⟨a, isA, rfl, inA, rfl⟩ ⟨b, isB, rfl, inB, rfl⟩

/-- A lock of another owner is not released. -/
theorem Released.mem_of_other {lock lf : Lockf ι} {here released : FileLocks ι}
    (isReleased : Released lock here released) (member : lf ∈ here.locks)
    (other : lf.lfId ≠ lock.lfId) : lf ∈ released.locks := by
  rcases isReleased with rfl | change
  · exact member
  · exact change.mem_of_other member other

section Keep

variable {lock : Lockf ι} {locks locks' : List (Lockf ι)} {heap heap' : Heap ι}

theorem Exclusive.of_holds (exclusive : Exclusive locks)
    (fewer : ∀ owner x type, Holds locks' owner x type → Holds locks owner x type) :
    Exclusive locks' := by
  rw [exclusive_iff] at exclusive ⊢
  intro owner other x type type' differ holds holds'
  exact exclusive owner other x type type' differ (fewer _ _ _ holds) (fewer _ _ _ holds')

theorem Exclusive.cleared (exclusive : Exclusive locks)
    (change : Cleared lock locks heap locks' heap') : Exclusive locks' :=
  exclusive.of_holds fun owner x type holds => ((change.holds owner x type).mp holds).1

/-- The grant was decided before the list is changed: no byte of the range is
held by another owner in a type that conflicts. -/
theorem Exclusive.added (exclusive : Exclusive locks) (sorted : Sorted locks)
    (change : Added lock locks heap locks' heap') (free : ∀ lf ∈ locks, ¬Blocks lf lock) :
    Exclusive locks' := by
  have apart : ∀ owner x type, owner ≠ lock.lfId → lock.range.Covers x →
      Holds locks owner x type → lock.lfType ≠ .wrlck ∧ type ≠ .wrlck := by
    rintro _ x _ differ covers ⟨lf, member, rfl, inLf, rfl⟩
    have meet : lf.range.Overlaps lock.range := Span.overlaps_iff.mpr ⟨x, inLf, covers⟩
    constructor
    · exact fun wrlck => free lf member ⟨differ, meet, .inl wrlck⟩
    · exact fun wrlck => free lf member ⟨differ, meet, .inr wrlck⟩
  rw [exclusive_iff] at exclusive ⊢
  intro owner other x type type' differ holds holds'
  rcases (change.holds sorted _ _ _).mp holds with ⟨⟨rfl, covers⟩, rfl⟩ | ⟨_, was⟩
  · rcases (change.holds sorted _ _ _).mp holds' with ⟨⟨rfl, _⟩, _⟩ | ⟨_, was'⟩
    · exact absurd rfl differ
    · exact (apart other x type' differ.symm covers was').1
  · rcases (change.holds sorted _ _ _).mp holds' with ⟨⟨rfl, covers⟩, _⟩ | ⟨_, was'⟩
    · exact (apart owner x type differ covers was).2
    · exact exclusive owner other x type type' differ was was'

/-- Lists of waiters play no role in what is held. -/
theorem holds_updateLock (addr : Nat) (change : List Nat → List Nat) (owner : ι) (x : Int)
    (type : LfType) :
    Holds (updateLock addr (fun lf => { lf with lfBlkhd := change lf.lfBlkhd }) locks) owner x
        type ↔ Holds locks owner x type := by
  apply gives_map
  all_goals
    intro lf
    split
    · rfl
    · rfl

theorem sorted_updateLock (addr : Nat) (change : List Nat → List Nat) (sorted : Sorted locks) :
    Sorted (updateLock addr (fun lf => { lf with lfBlkhd := change lf.lfBlkhd }) locks) := by
  apply sorted.map
  all_goals
    intro lf
    split
    · rfl
    · rfl

end Keep

namespace FileLocks.Inv

variable {here here' start : FileLocks ι} {lock : Lockf ι} {label : LockStep φ ι} {proc : Nat}
  {reply : Reply}

theorem empty : (⟨[], ⟨[], 0, []⟩⟩ : FileLocks ι).Inv where
  sorted := List.Pairwise.nil
  exclusive := by simp [Exclusive]
  waits := by
    constructor <;> simp

section

variable (inv : here.Inv)
include inv

theorem cleared {locks : List (Lockf ι)} {heap : Heap ι}
    (change : Cleared lock here.locks here.heap locks heap) :
    (⟨locks, heap⟩ : FileLocks ι).Inv where
  sorted := change.sorted inv.sorted
  exclusive := inv.exclusive.cleared change
  waits := change.waits [] inv.waits

theorem allocated : here.allocated.Inv where
  sorted := inv.sorted
  exclusive := inv.exclusive
  waits := inv.waits.change rfl (Nat.le_succ _) inv.waits.lockAddr
    (fun lf member => ⟨inv.waits.lockType lf member, .inl ⟨lf, member, rfl⟩⟩) inv.waits.waiting
    inv.waits.listed

theorem leaveList_sorted (sleeper : Sleeper ι) : Sorted (leaveList sleeper here).locks := by
  unfold leaveList
  split
  · exact sorted_updateLock _ (fun blkhd => blkhd.filter (· ≠ sleeper.request.addr)) inv.sorted
  · exact inv.sorted

theorem leaveList_exclusive (sleeper : Sleeper ι) : Exclusive (leaveList sleeper here).locks := by
  apply inv.exclusive.of_holds
  intro owner x type holds
  unfold leaveList at holds
  split at holds
  · exact (holds_updateLock _ (fun blkhd => blkhd.filter (· ≠ sleeper.request.addr)) owner x
      type).mp holds
  · exact holds

/-- A prepared request finds the invariant and is in flight. -/
theorem prepared (isPrepared : Prepared here label lock proc start) :
    start.Inv ∧ InFlight lock start.locks start.heap := by
  cases isPrepared with
  | allocated _ type => exact ⟨inv.allocated, InFlight.allocate inv.waits rfl type rfl⟩
  | @awake _ _ _ _ sleeper member _ =>
    have inFlight := inv.waits.leaveList member
    exact ⟨⟨inv.leaveList_sorted sleeper, inv.leaveList_exclusive sleeper, inFlight.waits⟩,
      inFlight⟩

theorem released (inFlight : InFlight lock here.locks here.heap) {released : FileLocks ι}
    (isReleased : Released lock here released) :
    released.Inv ∧ InFlight lock released.locks released.heap := by
  rcases isReleased with rfl | change
  · exact ⟨inv, inFlight⟩
  · exact ⟨inv.cleared change, inFlight.cleared change⟩

end

variable [DecidableEq ι]

theorem outcome (inv : here.Inv) (inFlight : InFlight lock here.locks here.heap) {fl : Flock}
    (result : Outcome lock proc fl here here' reply) : here'.Inv := by
  cases result with
  | refused _ _ => exact inv
  | @asleep block released _ found isReleased =>
    rcases inv.released inFlight isReleased with ⟨releasedInv, releasedFlight⟩
    rcases lfGetblock_some found with ⟨member, blocks⟩
    refine ⟨sorted_updateLock _ (· ++ [lock.addr]) releasedInv.sorted, ?_,
      releasedFlight.sleepOn (isReleased.mem_of_other member blocks.1) blocks proc⟩
    exact releasedInv.exclusive.of_holds fun owner x type =>
      (holds_updateLock _ (· ++ [lock.addr]) owner x type).mp
  | granted found added =>
    exact ⟨added.sorted inv.sorted, inv.exclusive.added inv.sorted added (lfGetblock_none found),
      inFlight.added added⟩

theorem change (inv : here.Inv) (step : Change here label here' reply) : here'.Inv := by
  cases step with
  | same _ => exact inv
  | allocated _ => exact inv.allocated
  | cleared _ _ _ isCleared => exact inv.allocated.cleared isCleared
  | interrupted prepared => exact (inv.prepared prepared).1
  | set prepared result =>
    rcases inv.prepared prepared with ⟨startInv, inFlight⟩
    exact startInv.outcome inFlight result

end FileLocks.Inv

/-! ## The functions -/

section Functions

variable [DecidableEq φ] [DecidableEq ι] {here : FileLocks ι}

/-- `lf_clearlock` never panics. -/
theorem FileLocks.Inv.lfClearlock_eq (inv : here.Inv) (lock : Lockf ι) :
    ∃ locks heap, lfClearlock lock here.locks here.heap = some (locks, heap) ∧
      Cleared lock here.locks here.heap locks heap :=
  clearLoop_cleared lock _ [] here.locks here.heap inv.sorted inv.waits.lockOld (Nat.lt_succ_self _)

theorem FileLocks.Inv.releaseShared_eq (inv : here.Inv) (lock : Lockf ι) :
    ∃ released, releaseShared lock here = some released ∧ Released lock here released := by
  unfold releaseShared
  split
  · rcases inv.lfClearlock_eq { lock with lfType := .unlck } with ⟨locks, heap, isCleared, cleared⟩
    refine ⟨⟨locks, heap⟩, ?_, .inr cleared⟩
    rw [isCleared]
    rfl
  · exact ⟨here, rfl, .inl rfl⟩

variable {state state' : LockState φ ι} {file : φ} {reply : Reply} (view : WaitView φ ι)
  {label : LockStep φ ι}

/-- `lf_setlock` never panics. -/
theorem lfSetlock_outcome (inv : (state file).Inv) (proc : Nat) (lock : Lockf ι) (fl : Flock) :
    ∃ here' reply, lfSetlock view state file proc lock fl = some (update state file here', reply) ∧
      Outcome lock proc fl (state file) here' reply := by
  have refuse : ∀ errno, some (state, Reply.error errno) =
      some (update state file (state file), .error errno) := by
    intro errno
    rw [update_eq_self]
  rcases lfGetblock_cases lock (state file).locks with ⟨block, found⟩ | found
  · simp only [lfSetlock, found, bind_eq_bind, bind_some]
    split
    · exact ⟨_, _, refuse .eagain, .refused _ found⟩
    · rename_i wait
      split
      · exact ⟨_, _, refuse .edeadlk, .refused _ found⟩
      · rcases inv.releaseShared_eq lock with ⟨released, isReleased, facts⟩
        rw [isReleased]
        exact ⟨_, _, rfl, .asleep (Bool.of_not_eq_false wait) found facts⟩
  · rcases lfAddlock_added lock inv.sorted inv.waits.lockOld with ⟨locks, heap, isAdded, added⟩
    refine ⟨⟨locks, heap⟩, .done fl, ?_, .granted found added⟩
    simp only [lfSetlock, found, isAdded, bind_eq_bind, bind_some]
    rfl

/-- `lf_getlock` describes a lock that blocks the request, if there is one. -/
theorem lfGetlock_eq (lock : Lockf ι) (locks : List (Lockf ι)) (fl : Flock) :
    (∃ block ∈ locks, Blocks block lock ∧ lfGetlock lock locks fl = some block.flock) ∨
      (∀ lf ∈ locks, ¬Blocks lf lock) ∧
        lfGetlock lock locks fl = some { fl with lType := .unlck } := by
  rcases lfGetblock_cases lock locks with ⟨block, found⟩ | found
  · have facts := lfGetblock_some found
    refine .inl ⟨block, facts.1, facts.2, ?_⟩
    simp [lfGetlock, found]
  · refine .inr ⟨lfGetblock_none found, ?_⟩
    simp [lfGetlock, found]

/-- `lf_advlock` never panics. -/
theorem lfAdvlock_change (inv : (state file).Inv) (call : LockCall ι)
    (isLock : call.op = .setlk → call.fl.lType ≠ .unlck) :
    ∃ here' reply, lfAdvlock view state file call = some (update state file here', reply) ∧
      Change (state file) (.call file call) here' reply := by
  have stay : ∀ reply : Reply, some (state, reply) =
      some (update state file (state file), reply) := by
    intro reply
    rw [update_eq_self]
  unfold lfAdvlock
  split
  · exact ⟨_, _, stay _, .same nofun⟩
  · rename_i range isRange
    split
    · exact ⟨_, _, stay _, .same nofun⟩
    · cases isOp : call.op with
      | setlk =>
        have start : (update state file (state file).allocated) file =
            (state file).allocated := update_self _ _ _
        rcases lfSetlock_outcome view (start ▸ inv.allocated) call.proc
          (call.lock range (state file).heap.nextAddr) call.fl with ⟨here', reply, isSet, outcome⟩
        rw [start] at outcome
        rw [update_idem] at isSet
        exact ⟨here', reply, isSet, .set (.allocated isRange (isLock isOp)) outcome⟩
      | unlck =>
        rcases inv.allocated.lfClearlock_eq (call.lock range (state file).heap.nextAddr) with
          ⟨locks, heap, isCleared, cleared⟩
        refine ⟨⟨locks, heap⟩, .done call.fl, ?_, .cleared call.fl rfl isRange cleared⟩
        simp only [update_self, isCleared, bind_eq_bind, bind_some, update_idem]
        rfl
      | getlk =>
        have isSome : ∃ fl, lfGetlock (call.lock range (state file).heap.nextAddr)
            (state file).allocated.locks call.fl = some fl := by
          rcases lfGetlock_eq (call.lock range (state file).heap.nextAddr)
            (state file).allocated.locks call.fl with ⟨block, _, _, got⟩ | ⟨_, got⟩
          · exact ⟨_, got⟩
          · exact ⟨_, got⟩
        rcases isSome with ⟨fl, got⟩
        refine ⟨(state file).allocated, .done fl, ?_, .allocated fl⟩
        simp only [update_self, got, bind_eq_bind, bind_some]
        rfl

/-- A sleeper continues without panics. -/
theorem wakeUp_change (inv : (state file).Inv) (addr : Nat) (interrupted : Bool) (fl : Flock)
    (result : wakeUp view state file addr interrupted fl = some (state', reply)) :
    ∃ here', state' = update state file here' ∧
      Change (state file) (.wakeUp file addr interrupted fl) here' reply := by
  rcases bind_eq_some_iff.mp result with ⟨sleeper, isFound, continued⟩
  have prepared : Prepared (state file) (.wakeUp file addr interrupted fl) sleeper.request
      sleeper.proc (leaveList sleeper (state file)) := .of_find isFound
  cases interrupted with
  | true =>
    cases continued
    exact ⟨_, rfl, .interrupted prepared⟩
  | false =>
    have start : (update state file (leaveList sleeper (state file))) file =
        leaveList sleeper (state file) := update_self _ _ _
    rcases lfSetlock_outcome view (start ▸ (inv.prepared prepared).1) sleeper.proc sleeper.request
      fl with ⟨here', reply', isSet, outcome⟩
    rw [start] at outcome
    rw [update_idem] at isSet
    cases some.inj (isSet.symm.trans continued)
    exact ⟨here', rfl, .set prepared outcome⟩

/-- A step changes its file. -/
theorem lockReply_change (inv : (state label.file).Inv)
    (replied : lockReply view label state = some (state', reply)) :
    ∃ here', state' = update state label.file here' ∧
      Change (state label.file) label here' reply := by
  cases label with
  | call file call =>
    rcases bind_eq_some_iff.mp replied with ⟨_, asserted, called⟩
    rcases lfAdvlock_change view inv call ((kassert_eq_some_iff _ _).mp asserted) with
      ⟨here', reply', isCalled, change⟩
    cases some.inj (isCalled.symm.trans called)
    exact ⟨here', rfl, change⟩
  | wakeUp file addr interrupted fl => exact wakeUp_change view inv addr interrupted fl replied

/-- A step that goes to sleep runs `lf_setlock` for a prepared request, whatever
the check for deadlocks reads. -/
theorem lockReply_asleep (replied : lockReply view label state = some (state', .asleep)) :
    ∃ lock proc start fl, Prepared (state label.file) label lock proc start ∧
      ∀ view, lockReply view label state =
        lfSetlock view (update state label.file start) label.file proc lock fl := by
  cases label with
  | call file call =>
    rcases bind_eq_some_iff.mp replied with ⟨_, asserted, called⟩
    have isLock := (kassert_eq_some_iff _ _).mp asserted
    unfold lfAdvlock at called
    split at called
    · cases called
    · rename_i range isRange
      split at called
      · cases called
      · cases isOp : call.op with
        | setlk =>
          refine ⟨_, _, _, call.fl, .allocated isRange (isLock isOp), ?_⟩
          intro view
          rw [lockReply, asserted]
          simp only [lfAdvlock, isRange, isOp, ne_eq, not_true_eq_false, and_false, if_false]
          rfl
        | unlck | getlk =>
          simp only [isOp] at called
          rcases bind_eq_some_iff.mp called with ⟨_, _, done⟩
          cases done
  | wakeUp file addr interrupted fl =>
    rcases bind_eq_some_iff.mp replied with ⟨sleeper, isFound, continued⟩
    cases interrupted with
    | true => cases continued
    | false =>
      refine ⟨_, _, _, fl, .of_find isFound, ?_⟩
      intro view
      simp only [lockReply, wakeUp, isFound, bind_eq_bind, bind_some]
      rfl

/-- A step keeps the invariant of every file. -/
theorem inv_of_reply (inv : ∀ file, (state file).Inv)
    (replied : lockReply view label state = some (state', reply)) (file : φ) :
    (state' file).Inv := by
  rcases lockReply_change view (inv label.file) replied with ⟨here', rfl, change⟩
  by_cases same : file = label.file
  · subst same
    rw [update_self]
    exact (inv label.file).change change
  · rw [update_of_ne same]
    exact inv file

/-- Every file keeps the invariant in every run. -/
theorem inv_of_run (run : Run (lockNext view) anyStep (noLocks : LockState φ ι) state) (file : φ) :
    (state file).Inv := by
  refine Run.invariant (P := fun state => ∀ file, (state file).Inv) ?_ run
    (fun _ => FileLocks.Inv.empty) file
  intro label source target inv _ stepped
  rcases map_eq_some_iff.mp stepped with ⟨⟨_, reply⟩, replied, rfl⟩
  exact inv_of_reply view inv replied

end Functions

end Bitrig.Advlock
