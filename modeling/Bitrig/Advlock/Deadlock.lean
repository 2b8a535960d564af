import Bitrig.Advlock.WaitsFor
import Bitrig.Lib.Walk

/-!
# Deadlocks between fcntl locks

`sys_fcntl` locks files for single-threaded processes.  The identity it passes
points to the file descriptor table of the process (`struct filedesc`), while
`lf_setlock` reads it as a pointer to the process (`struct proc`) to see what the
owner of a lock waits for.

If the identity leads to the process, the check refuses every request that would
close a cycle.  As the code is, it refuses none, and there are no cycles if a
process that is ready to wait has no locks, or if no other process with a lock on
the same file sleeps.
-/

namespace Bitrig.Advlock

open Bitrig.Transition Bitrig.Walk Function List Option

/-! ## The system call -/

/-- What the lock commands read of a `struct file`. -/
structure OpenFile where
  /-- `f_type` is `DTYPE_VNODE`. -/
  fVnode : Bool
  /-- `FREAD` of `f_flag`. -/
  fRead : Bool
  /-- `FWRITE` of `f_flag`. -/
  fWrite : Bool
  fOffset : Int

/-- The lock commands of `fcntl`. -/
inductive FcntlCmd
  | setlkw
  | setlk
  | getlk
  deriving DecidableEq

/-- Pointers that may stand for the owner of a lock. -/
inductive KernelPtr (n : Nat)
  /-- The `struct proc` of a process. -/
  | proc (p : Fin n)
  /-- The `struct filedesc` of a process. -/
  | filedesc (p : Fin n)
  deriving DecidableEq

/-- The start of a range relative to the offset of the file. -/
def seekCur (fp : OpenFile) (fl : Flock) : Flock :=
  if fl.lWhence = .seekCur then
    if fl.lStart = 0 ∧ fl.lLen < 0 then
      { fl with lLen := -fl.lLen, lStart := fp.fOffset - -fl.lLen }
    else { fl with lStart := fl.lStart + fp.fOffset }
  else fl

/-- What `sys_fcntl` passes to `VOP_ADVLOCK` for a process that is the only user
of its file descriptor table, unless it returns `EBADF`. -/
def sysFcntl {n : Nat} (p : Fin n) (fp : OpenFile) (cmd : FcntlCmd) (fl : Flock) (size : Int) :
    Except LockError (LockCall (KernelPtr n)) :=
  let call : LockCall (KernelPtr n) :=
    { proc := p
      psPid := p
      id := .filedesc p
      op := .setlk
      fl := seekCur fp fl
      flags := { fPosix := true, fFlock := false, fWait := decide (cmd = .setlkw) }
      size := size }
  if fp.fVnode = false then .error .ebadf
  else
    match cmd with
    | .getlk => .ok { call with op := .getlk }
    | .setlkw | .setlk =>
      match fl.lType with
      | .rdlck => if fp.fRead = false then .error .ebadf else .ok call
      | .wrlck => if fp.fWrite = false then .error .ebadf else .ok call
      | .unlck =>
        .ok { call with op := .unlck, flags := { call.flags with fWait := false } }

/-! ## The system -/

section System

variable {m n : Nat}

/-- The locks of `m` files that `n` processes lock. -/
abbrev FcntlState (m n : Nat) :=
  LockState (Fin m) (KernelPtr n)

/-- A process has called `tsleep` and does not run yet. -/
def Asleep (state : FcntlState m n) (p : Fin n) : Prop :=
  ∃ file, ∃ sleeper ∈ (state file).heap.sleepers, sleeper.proc = p.val

instance (state : FcntlState m n) (p : Fin n) : Decidable (Asleep state p) :=
  inferInstanceAs (Decidable (∃ _, _))

/-- The request in `p_wchan` of a process whose `p_wmesg` says that it sleeps in
`lf_setlock`. -/
def procSleep (state : FcntlState m n) (p : Fin n) : Option (Fin m × Nat) :=
  (List.finRange m).findSome? fun file =>
    ((state file).heap.sleepers.find? fun sleeper =>
      sleeper.proc = p.val ∧ sleeper.lfNext ≠ none).map fun sleeper => (file, sleeper.request.addr)

/-- What `lf_setlock` reads through an identity.  In a file descriptor table, a
pointer to an open file or no pointer at all is in the place of `p_wmesg`, never
the string of `lf_setlock`. -/
def castView : WaitView (Fin m) (KernelPtr n) :=
  fun state pointer =>
    match pointer with
    | .proc p => procSleep state p
    | .filedesc _ => none

/-- What it would read if every identity led to the process of the owner. -/
def ownerView : WaitView (Fin m) (KernelPtr n) :=
  fun state pointer =>
    match pointer with
    | .proc p => procSleep state p
    | .filedesc p => procSleep state p

/-- A process calls `fcntl`, or continues behind `tsleep`. -/
inductive FcntlStep (m n : Nat)
  | fcntl (p : Fin n) (file : Fin m) (fp : OpenFile) (cmd : FcntlCmd) (fl : Flock) (size : Int)
  | wakeUp (file : Fin m) (addr : Nat) (interrupted : Bool) (fl : Flock)

/-- What a step asks of the locks, or the error of `sys_fcntl`.  A process that
sleeps makes no calls. -/
def FcntlStep.request (state : FcntlState m n) :
    FcntlStep m n → Option (Except LockError (LockStep (Fin m) (KernelPtr n)))
  | .fcntl p file fp cmd fl size => do
      kassert (¬Asleep state p)
      pure ((sysFcntl p fp cmd fl size).map (.call file))
  | .wakeUp file addr interrupted fl => pure (.ok (.wakeUp file addr interrupted fl))

/-- One step of the system, with its reply. -/
def fcntlReply (view : WaitView (Fin m) (KernelPtr n)) (label : FcntlStep m n)
    (state : FcntlState m n) : Option (FcntlState m n × Reply) := do
  match ← label.request state with
  | .error errno => pure (state, .error errno)
  | .ok step => lockReply view step state

/-- One step of the system. -/
def fcntlNext (view : WaitView (Fin m) (KernelPtr n)) (label : FcntlStep m n)
    (state : FcntlState m n) : Option (FcntlState m n) :=
  (fcntlReply view label state).map Prod.fst

/-- A sleeping request of the first owner has a lock of the second one in its
`lf_next`. -/
def WaitsFor (state : FcntlState m n) (owner other : KernelPtr n) : Prop :=
  ∃ file, (state file).WaitsFor owner other

end System

/-! ## Single-threaded processes -/

section Invariant

variable {m n : Nat} {state state' : FcntlState m n} {label : FcntlStep m n} {reply : Reply}
  {step : LockStep (Fin m) (KernelPtr n)} {here : FileLocks (KernelPtr n)}
  {view : WaitView (Fin m) (KernelPtr n)}

/-- Owner and flags of a lock that `sys_fcntl` sets. -/
def FcntlKind (id : KernelPtr n) (flags : LfFlags) : Prop :=
  flags.fPosix = true ∧ ∃ p, id = .filedesc p

/-- Locks and requests come from `sys_fcntl`, and a process has at most one
sleeping request. -/
structure FcntlInv (state : FcntlState m n) : Prop where
  files : ∀ file, (state file).Inv
  locks : ∀ file, ∀ lf ∈ (state file).locks, FcntlKind lf.lfId lf.lfFlags
  requests : ∀ file, ∀ key ∈ (state file).heap.keys, key.1.lfFlags.fPosix = true ∧
    ∃ p : Fin n, key.1.lfId = .filedesc p ∧ key.2 = p.val
  single : ∀ file file', ∀ key ∈ (state file).heap.keys, ∀ key' ∈ (state file').heap.keys,
    key.2 = key'.2 → file = file' ∧ key.1.addr = key'.1.addr

/-- A request on the locks is a sleeper that continues, or a call for a process
that does not sleep. -/
def FromFcntl (state : FcntlState m n) : LockStep (Fin m) (KernelPtr n) → Prop
  | .call _ call => call.flags.fPosix = true ∧
      ∃ p : Fin n, call.id = .filedesc p ∧ call.proc = p.val ∧ ¬Asleep state p
  | .wakeUp _ _ _ _ => True

theorem sysFcntl_ok {p : Fin n} {fp : OpenFile} {cmd : FcntlCmd} {fl : Flock} {size : Int}
    {call : LockCall (KernelPtr n)} (passed : sysFcntl p fp cmd fl size = .ok call) :
    call.flags.fPosix = true ∧ call.id = .filedesc p ∧ call.proc = p.val ∧
      (call.flags.fWait = true → cmd = .setlkw) := by
  unfold sysFcntl at passed
  rcases fl with ⟨type, whence, start, len, pid⟩
  -- every branch that passes a call passes the same owner
  cases cmd <;> cases type <;> simp only at passed <;> split_ifs at passed <;>
    (cases passed; exact ⟨rfl, rfl, rfl, by simp⟩)

theorem fromFcntl_of_request (isStep : label.request state = some (.ok step)) :
    FromFcntl state step := by
  cases label with
  | fcntl p file fp cmd fl size =>
    rcases bind_eq_some_iff.mp isStep with ⟨_, asserted, passed⟩
    have awake := (kassert_eq_some_iff _ _).mp asserted
    cases called : sysFcntl p fp cmd fl size with
    | error errno =>
      rw [called] at passed
      cases passed
    | ok call =>
      rw [called] at passed
      cases passed
      rcases sysFcntl_ok called with ⟨posix, id, proc, _⟩
      exact ⟨posix, p, id, proc, awake⟩
  | wakeUp file addr interrupted fl =>
    cases isStep
    trivial

theorem FcntlInv.start : FcntlInv (noLocks : FcntlState m n) where
  files _ := FileLocks.Inv.empty
  locks _ _ member := absurd member not_mem_nil
  requests _ _ isKey := absurd isKey not_mem_nil
  single _ _ _ isKey := absurd isKey not_mem_nil

/-- Nobody waits at the start. -/
theorem not_waitsFor_start (owner other : KernelPtr n) :
    ¬WaitsFor (noLocks : FcntlState m n) owner other := by
  rintro ⟨file, sleeper, isSleeper, _⟩
  exact absurd isSleeper not_mem_nil

variable (inv : FcntlInv state)
include inv

/-- The request of a step has the kind that `sys_fcntl` gives it. -/
theorem FcntlInv.kind_of_prepared (isFcntl : FromFcntl state step) {lock : Lockf (KernelPtr n)}
    {proc : Nat} {start : FileLocks (KernelPtr n)}
    (prepared : Prepared (state step.file) step lock proc start) :
    FcntlKind lock.lfId lock.lfFlags := by
  cases prepared with
  | allocated range type =>
    rcases isFcntl with ⟨posix, p, id, _⟩
    exact ⟨posix, p, id⟩
  | @awake _ _ _ _ sleeper member _ =>
    rcases inv.requests _ _ (mem_keys.mpr ⟨sleeper, member, rfl, rfl⟩) with ⟨posix, p, id, _⟩
    exact ⟨posix, p, id⟩

omit inv in
/-- A sleeping request after a step was asleep before, or it is that of a call
for a process that did not sleep. -/
theorem key_of_change (isFcntl : FromFcntl state step)
    (change : Change (state step.file) step here reply) {file : Fin m}
    {key : Lockf (KernelPtr n) × Nat} (isKey : key ∈ (update state step.file here file).heap.keys) :
    key ∈ (state file).heap.keys ∨ file = step.file ∧ key.1.addr = (state step.file).heap.nextAddr ∧
        key.1.lfFlags.fPosix = true ∧
        ∃ p : Fin n, key.1.lfId = .filedesc p ∧ key.2 = p.val ∧ ¬Asleep state p := by
  by_cases same : file = step.file
  · subst same
    rw [update_self] at isKey
    rcases change.keys isKey with isOld | ⟨_, call, range, rfl, _, rfl⟩
    · exact .inl isOld
    · exact .inr ⟨rfl, rfl, isFcntl⟩
  · rw [update_of_ne same] at isKey
    exact .inl isKey

theorem FcntlInv.change (isFcntl : FromFcntl state step)
    (change : Change (state step.file) step here reply) :
    FcntlInv (update state step.file here) where
  files file := by
    by_cases same : file = step.file
    · subst same
      rw [update_self]
      exact (inv.files step.file).change change
    · rw [update_of_ne same]
      exact inv.files file
  locks file := by
    by_cases same : file = step.file
    · subst same
      rw [update_self]
      refine (Inherited.of_kind FcntlKind).change (inv.files step.file) change
        (fun _ _ _ prepared => inv.kind_of_prepared isFcntl prepared) ?_ (inv.locks step.file)
      rintro _ _ _ rfl _
      obtain ⟨posix, p, id, _⟩ := isFcntl
      exact ⟨posix, p, id⟩
    · rw [update_of_ne same]
      exact inv.locks file
  requests file key isKey := by
    rcases key_of_change isFcntl change isKey with isOld | ⟨_, _, posix, p, id, proc, _⟩
    · exact inv.requests file key isOld
    · exact ⟨posix, p, id, proc⟩
  single file file' key isKey key' isKey' sameProc := by
    -- an old request of the process of a new one would have it asleep
    have clash : ∀ {file : Fin m} {key : Lockf (KernelPtr n) × Nat} {p : Fin n},
        key ∈ (state file).heap.keys → key.2 = p.val → Asleep state p := by
      rintro file ⟨request, proc⟩ p isOld rfl
      rcases mem_keys.mp isOld with ⟨sleeper, isSleeper, _, isProc⟩
      exact ⟨file, sleeper, isSleeper, isProc⟩
    rcases key_of_change isFcntl change isKey with isOld | ⟨isFile, addr, _, p, _, proc, awake⟩
    · rcases key_of_change isFcntl change isKey' with isOld' | ⟨_, _, _, p, _, proc, awake⟩
      · exact inv.single file file' key isOld key' isOld' sameProc
      · exact absurd (clash isOld (sameProc.trans proc)) awake
    · rcases key_of_change isFcntl change isKey' with isOld' | ⟨isFile', addr', _⟩
      · exact absurd (clash isOld' (sameProc.symm.trans proc)) awake
      · exact ⟨isFile.trans isFile'.symm, addr.trans addr'.symm⟩

/-- What a step of the system does. -/
theorem fcntlReply_cases (replied : fcntlReply view label state = some (state', reply)) :
    (state' = state ∧ reply ≠ .asleep) ∨
      ∃ step here, label.request state = some (.ok step) ∧ FromFcntl state step ∧
        lockReply view step state = some (state', reply) ∧
        state' = update state step.file here ∧
        Change (state step.file) step here reply := by
  rcases bind_eq_some_iff.mp replied with ⟨request, isRequest, result⟩
  cases request with
  | error errno =>
    cases result
    exact .inl ⟨rfl, nofun⟩
  | ok step =>
    rcases lockReply_change view (inv.files step.file) result with ⟨here, isState, change⟩
    exact .inr ⟨step, here, isRequest, fromFcntl_of_request isRequest, result, isState, change⟩

theorem FcntlInv.of_reply (replied : fcntlReply view label state = some (state', reply)) :
    FcntlInv state' := by
  rcases fcntlReply_cases inv replied with ⟨rfl, _⟩ | ⟨step, here, _, isFcntl, _, rfl, change⟩
  · exact inv
  · exact inv.change isFcntl change

end Invariant

/-! ## The walk of the check -/

section Check

variable {m n : Nat} {state state' : FcntlState m n} {label : FcntlStep m n} {reply : Reply}
  {file : Fin m} {view : WaitView (Fin m) (KernelPtr n)}

/-- The owner of the lock that an owner waits for. -/
def ownerNext (state : FcntlState m n) (owner : KernelPtr n) : Option (KernelPtr n) :=
  (ownerView state owner).bind fun place => (waitBlock (state place.1) place.2).map Lockf.lfId

section

variable (inv : FcntlInv state)
include inv

/-- The check walks along the owners, as every lock is one of `fcntl`. -/
theorem deadlockLoop_eq_walk (self : KernelPtr n) (depth : Nat) (owner : KernelPtr n) :
    deadlockLoop ownerView state self depth owner = walk (ownerNext state) self depth owner := by
  induction depth generalizing owner with
  | zero => rfl
  | succ depth ih =>
    rw [deadlockLoop, walk, ownerNext]
    cases ownerView state owner with
    | none => rfl
    | some place =>
      rcases place with ⟨file, addr⟩
      simp only [bind_some]
      cases isBlock : waitBlock (state file) addr with
      | none => rfl
      | some waitblock =>
        rcases bind_eq_some_iff.mp isBlock with ⟨sleeper, _, rest⟩
        rcases bind_eq_some_iff.mp rest with ⟨next, _, isFound⟩
        have posix := (inv.locks file waitblock (mem_of_find?_eq_some isFound)).1
        simp only [map_some, posix, Bool.true_eq_false, if_false, ih]

/-- The process of a sleeping request leads to that request. -/
theorem procSleep_eq {sleeper : Sleeper (KernelPtr n)}
    (isSleeper : sleeper ∈ (state file).heap.sleepers) (blocked : sleeper.lfNext ≠ none) {p : Fin n}
    (isProc : sleeper.proc = p.val) : procSleep state p = some (file, sleeper.request.addr) := by
  have isSome : (procSleep state p).isSome := by
    rw [procSleep, findSome?_isSome_iff]
    refine ⟨file, mem_finRange file, ?_⟩
    rw [isSome_map, find?_isSome]
    exact ⟨sleeper, isSleeper, by simp [isProc, blocked]⟩
  rcases isSome_iff_exists.mp isSome with ⟨place, isPlace⟩
  rcases exists_of_findSome?_eq_some isPlace with ⟨other, _, found⟩
  rcases map_eq_some_iff.mp found with ⟨waiter, isFound, rfl⟩
  have test := find?_some isFound
  have facts := of_decide_eq_true test
  have same := inv.single other file _
    (mem_keys.mpr ⟨waiter, mem_of_find?_eq_some isFound, rfl, rfl⟩) _
    (mem_keys.mpr ⟨sleeper, isSleeper, rfl, rfl⟩) (facts.1.trans isProc.symm)
  rw [isPlace, same.1, same.2]

/-- Every recorded edge is one that the check follows. -/
theorem ownerNext_of_waitsFor {owner other : KernelPtr n} (edge : WaitsFor state owner other) :
    ownerNext state owner = some other := by
  rcases edge with ⟨file, sleeper, isSleeper, rfl, lf, member, points, rfl⟩
  rcases inv.requests file _ (mem_keys.mpr ⟨sleeper, isSleeper, rfl, rfl⟩) with
    ⟨_, p, id, isProc⟩
  have waits := (inv.files file).waits
  have isBlock : waitBlock (state file) sleeper.request.addr = some lf := by
    simp only [waitBlock, waits.find_request isSleeper, points, waits.find_lock member,
      bind_eq_bind, bind_some]
  have isNext : ownerView state sleeper.request.lfId = some (file, sleeper.request.addr) := by
    rw [id]
    exact procSleep_eq inv isSleeper (by rw [points]; nofun) isProc
  rw [ownerNext, isNext, bind_some, isBlock, map_some]

omit inv in
/-- A walk that does not meet the requester has seen all that the owner waits
for. -/
theorem not_reaches_of_loop (few : n ≤ maxlockdepth) (inv : FcntlInv state)
    (acyclic : Acyclic (WaitsFor state)) {self owner : KernelPtr n}
    (missed : deadlockLoop ownerView state self maxlockdepth owner = false) :
    ¬Relation.TransGen (WaitsFor state) owner self := by
  intro path
  have ahead : ∀ other, Relation.TransGen (WaitsFor state) owner other →
      other ∈ Finset.univ.image (KernelPtr.filedesc : Fin n → KernelPtr n) := by
    intro other reaches
    rcases Relation.TransGen.tail'_iff.mp reaches with ⟨_, _, file, _, _, _, lf, member, _, rfl⟩
    rcases inv.locks file lf member with ⟨_, p, id⟩
    rw [id]
    exact Finset.mem_image_of_mem _ (Finset.mem_univ p)
  have short : (Finset.univ.image (KernelPtr.filedesc : Fin n → KernelPtr n)).card ≤ maxlockdepth :=
    calc
      _ ≤ (Finset.univ : Finset (Fin n)).card := Finset.card_image_le
      _ = n := by simp
      _ ≤ maxlockdepth := few
  have found := walk_of_transGen acyclic (fun _ _ => ownerNext_of_waitsFor inv) ahead short path
  rw [← deadlockLoop_eq_walk inv, missed] at found
  cases found

/-- A step whose request does not go to sleep adds no edge. -/
theorem FcntlInv.waitsFor_change {step : LockStep (Fin m) (KernelPtr n)}
    {here : FileLocks (KernelPtr n)} (change : Change (state step.file) step here reply)
    (awake : reply ≠ .asleep) {owner other : KernelPtr n}
    (edge : WaitsFor (update state step.file here) owner other) : WaitsFor state owner other := by
  rcases edge with ⟨file, edge⟩
  refine ⟨file, ?_⟩
  by_cases same : file = step.file
  · subst same
    rw [update_self] at edge
    exact (inv.files step.file).waitsFor_change change awake edge
  · rwa [update_of_ne same] at edge

/-- A request that goes to sleep closes no cycle, unless the owner of the lock that
blocks it waits for its own owner. -/
theorem FcntlInv.acyclic_setlock (acyclic : Acyclic (WaitsFor state)) {proc : Nat}
    {lock block : Lockf (KernelPtr n)} {released : FileLocks (KernelPtr n)}
    (found : lfGetblock lock (state file).locks = some (some block))
    (isReleased : Released lock (state file) released)
    (apart : ¬Relation.TransGen (WaitsFor state) block.lfId lock.lfId) :
    Acyclic (WaitsFor (update state file (sleepOn block lock proc released))) := by
  rcases lfGetblock_some found with ⟨member, blocks⟩
  have apart : ¬Relation.ReflTransGen (WaitsFor state) block.lfId lock.lfId := by
    rw [Relation.reflTransGen_iff_eq_or_transGen, not_or]
    exact ⟨blocks.1.symm, apart⟩
  apply acyclic.insert apart
  rintro owner other ⟨place, edge⟩
  by_cases same : place = file
  · subst same
    rw [update_self] at edge
    rcases isReleased with rfl | isCleared
    · exact (waitsFor_sleepOn (inv.files place).waits member edge).imp_left fun old => ⟨place, old⟩
    · have released := (inv.files place).cleared isCleared
      have still := isCleared.mem_of_other member blocks.1
      refine (waitsFor_sleepOn released.waits still edge).imp_left fun old => ⟨place, ?_⟩
      exact (inv.files place).waitsFor_cleared isCleared old
  · rw [update_of_ne same] at edge
    exact .inl ⟨place, edge⟩

end

/-- A step keeps the waits-for graph free of cycles, unless its request goes to
sleep for an owner that waits for its own. -/
theorem acyclic_of_reply (inv : FcntlInv state) (acyclic : Acyclic (WaitsFor state))
    (replied : fcntlReply view label state = some (state', reply))
    (apart : ∀ step lock proc start fl block, label.request state = some (.ok step) →
      FromFcntl state step → Prepared (state step.file) step lock proc start →
      lock.lfFlags.fWait = true → lfGetblock lock start.locks = some (some block) →
      lfSetlock view (update state step.file start) step.file proc lock fl =
        some (state', .asleep) →
      ¬Relation.TransGen (WaitsFor (update state step.file start)) block.lfId lock.lfId) :
    Acyclic (WaitsFor state') := by
  rcases fcntlReply_cases inv replied with
    ⟨rfl, _⟩ | ⟨step, here, isStep, isFcntl, locked, rfl, change⟩
  · exact acyclic
  · by_cases isAsleep : reply = .asleep
    · subst isAsleep
      rcases lockReply_asleep view locked with ⟨lock, proc, start, fl, prepared, runs⟩
      -- the state in which `lf_setlock` looks for a deadlock
      have before : Change (state step.file) step start (.error .eintr) := .interrupted prepared
      have startInv := inv.change isFcntl before
      have startAcyclic := acyclic.mono fun _ _ => inv.waitsFor_change before nofun
      have slept := (runs view).symm.trans locked
      rcases lfSetlock_outcome view (startInv.files step.file) proc lock fl with
        ⟨here', reply, isSet, outcome⟩
      obtain ⟨isState, rfl⟩ := Prod.mk.inj (some.inj (isSet.symm.trans slept))
      cases outcome with
      | asleep wait found isReleased =>
        rw [← isState]
        refine startInv.acyclic_setlock startAcyclic found isReleased ?_
        rw [update_self] at found
        exact apart step lock proc start fl _ isStep isFcntl prepared wait found slept
    · exact acyclic.mono fun _ _ => inv.waitsFor_change change isAsleep

/-- A request for which the check reads the processes of the owners closes no
cycle. -/
theorem acyclic_of_ownerView (few : n ≤ maxlockdepth) (inv : FcntlInv state)
    (acyclic : Acyclic (WaitsFor state))
    (replied : fcntlReply ownerView label state = some (state', reply)) :
    Acyclic (WaitsFor state') := by
  refine acyclic_of_reply inv acyclic replied ?_
  intro step lock proc start fl block _ isFcntl prepared wait found slept
  have before : Change (state step.file) step start (.error .eintr) := .interrupted prepared
  have startInv := inv.change isFcntl before
  refine not_reaches_of_loop few startInv
    (acyclic.mono fun _ _ => inv.waitsFor_change before nofun) ?_
  apply Bool.eq_false_of_not_eq_true
  intro met
  have kind := inv.kind_of_prepared isFcntl prepared
  have posix := startInv.locks step.file block
    (by rw [update_self]; exact (lfGetblock_some found).1)
  simp [lfSetlock, found, wait, kind.1, posix.1, met] at slept

end Check

/-! ## Waiting without a cycle -/

section Discipline

variable {m n : Nat} {state state' : FcntlState m n} {label : FcntlStep m n} {reply : Reply}

/-- A process has a lock on a file. -/
def HasLock (state : FcntlState m n) (p : Fin n) (file : Fin m) : Prop :=
  ∃ lf ∈ (state file).locks, lf.lfId = .filedesc p

/-- In a step, a process asks for a lock on a file and is ready to wait. -/
def Asks (state : FcntlState m n) (p : Fin n) (file : Fin m) : FcntlStep m n → Prop
  | .fcntl q place _ cmd _ _ => q = p ∧ place = file ∧ cmd = .setlkw
  | .wakeUp place addr _ _ => place = file ∧
      ∃ sleeper ∈ (state file).heap.sleepers, sleeper.request.addr = addr ∧ sleeper.proc = p.val

/-- A process is ready to wait for a lock on a file only if it has no locks, or if
no other process with a lock on that file sleeps. -/
def WaitsApart (label : FcntlStep m n) (state : FcntlState m n) : Prop :=
  ∀ p file, Asks state p file label →
    (∀ place, ¬HasLock state p place) ∨ ∀ q, q ≠ p → HasLock state q file → ¬Asleep state q

instance (p : Fin n) (file : Fin m) : Decidable (HasLock state p file) :=
  inferInstanceAs (Decidable (∃ lf ∈ _, _))

instance (p : Fin n) (file : Fin m) : Decidable (Asks state p file label) := by
  cases label <;> unfold Asks <;> infer_instance

instance : Decidable (WaitsApart label state) :=
  inferInstanceAs (Decidable (∀ _ _, _))

variable (inv : FcntlInv state)
include inv

/-- A request that may go to sleep is one of a process that is ready to wait. -/
theorem FcntlInv.asks {step : LockStep (Fin m) (KernelPtr n)}
    (isStep : label.request state = some (.ok step)) {lock : Lockf (KernelPtr n)} {proc : Nat}
    {start : FileLocks (KernelPtr n)} (prepared : Prepared (state step.file) step lock proc start)
    (wait : lock.lfFlags.fWait = true) :
    ∃ p, lock.lfId = .filedesc p ∧ Asks state p step.file label := by
  cases label with
  | fcntl p file fp cmd fl size =>
    rcases bind_eq_some_iff.mp isStep with ⟨_, _, passed⟩
    cases called : sysFcntl p fp cmd fl size with
    | error errno =>
      rw [called] at passed
      cases passed
    | ok call =>
      rw [called] at passed
      cases passed
      rcases sysFcntl_ok called with ⟨_, id, _, isWait⟩
      cases prepared with
      | allocated range type => exact ⟨p, id, rfl, rfl, isWait wait⟩
  | wakeUp file addr interrupted fl =>
    cases isStep
    cases prepared with
    | @awake _ _ _ _ sleeper member isAddr =>
      rcases inv.requests _ _ (mem_keys.mpr ⟨sleeper, member, rfl, rfl⟩) with ⟨_, p, id, isProc⟩
      exact ⟨p, id, rfl, sleeper, member, isAddr, isProc⟩

/-- A request of a process that waits apart closes no cycle. -/
theorem acyclic_of_waitsApart (acyclic : Acyclic (WaitsFor state))
    (apart : WaitsApart label state)
    (replied : fcntlReply castView label state = some (state', reply)) :
    Acyclic (WaitsFor state') := by
  refine acyclic_of_reply inv acyclic replied ?_
  intro step lock proc start fl block isStep isFcntl prepared wait found _ path
  have before : Change (state step.file) step start (.error .eintr) := .interrupted prepared
  obtain ⟨p, id, asks⟩ := inv.asks isStep prepared wait
  rcases apart p step.file asks with none | others
  · -- nobody waits for a process without locks
    obtain ⟨_, _, edge⟩ := Relation.TransGen.tail'_iff.mp path
    obtain ⟨place, _, _, _, lf, member, _, isOwner⟩ := inv.waitsFor_change before nofun edge
    exact none place ⟨lf, member, isOwner.trans id⟩
  · -- a process that does not sleep waits for nobody
    obtain ⟨_, edge, _⟩ := Relation.TransGen.head'_iff.mp path
    obtain ⟨place, sleeper, isSleeper, isOwner, _⟩ := inv.waitsFor_change before nofun edge
    obtain ⟨-, q, isRequest, isProc⟩ :=
      inv.requests place _ (mem_keys.mpr ⟨sleeper, isSleeper, rfl, rfl⟩)
    obtain ⟨member, blocks⟩ := lfGetblock_some found
    have owner : block.lfId = .filedesc q := isOwner.symm.trans isRequest
    have held : HasLock state q step.file := by
      have kept : ∃ lf ∈ (state step.file).locks, lf.lfId = block.lfId :=
        (Inherited.of_kind fun id _ => ∃ lf ∈ (state step.file).locks, lf.lfId = id).prepared
          prepared (inv.files step.file).waits (fun lf member => ⟨lf, member, rfl⟩) block member
      rwa [owner] at kept
    refine others q ?_ held ⟨place, sleeper, isSleeper, isProc⟩
    rintro rfl
    exact blocks.1 (owner.trans id.symm)

end Discipline

/-! ## Whole runs -/

section Runs

variable {m n : Nat} {view : WaitView (Fin m) (KernelPtr n)}
  {guard : FcntlStep m n → FcntlState m n → Prop} {state : FcntlState m n}

theorem acyclic_of_run (preserved : ∀ label state state' reply, FcntlInv state →
      Acyclic (WaitsFor state) → guard label state →
      fcntlReply view label state = some (state', reply) → Acyclic (WaitsFor state'))
    (run : Run (fcntlNext view) guard noLocks state) : Acyclic (WaitsFor state) := by
  have both : FcntlInv state ∧ Acyclic (WaitsFor state) := by
    refine Run.invariant (P := fun state => FcntlInv state ∧ Acyclic (WaitsFor state)) ?_ run
      ⟨FcntlInv.start, acyclic_of_isEmpty not_waitsFor_start⟩
    intro label source target inv guarded stepped
    rcases map_eq_some_iff.mp stepped with ⟨⟨_, reply⟩, replied, rfl⟩
    exact ⟨inv.1.of_reply replied, preserved label source _ reply inv.1 inv.2 guarded replied⟩
  exact both.2

end Runs

/-! ## Two processes and two files -/

/-- A process asks for an exclusive lock on a whole file and is ready to wait. -/
def exclusiveCall (p file : Fin 2) : FcntlStep 2 2 :=
  .fcntl p file ⟨true, true, true, 0⟩ .setlkw ⟨.wrlck, .seekSet, 0, 0, 0⟩ 0

/-- Each process locks its file, and the first one waits for the other. -/
def waitingRun : List (FcntlStep 2 2) :=
  [exclusiveCall 0 0, exclusiveCall 1 1, exclusiveCall 0 1]

instance (state : FcntlState 2 2) (owner other : KernelPtr 2) :
    Decidable (WaitsFor state owner other) :=
  inferInstanceAs (Decidable (∃ file, ∃ sleeper ∈ (state file).heap.sleepers,
    sleeper.request.lfId = owner ∧
      ∃ lf ∈ (state file).locks, sleeper.lfNext = some lf.addr ∧ lf.lfId = other))

end Bitrig.Advlock
