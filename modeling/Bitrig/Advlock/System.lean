import Bitrig.Advlock.Changes
import Bitrig.Lib.Transition

/-!
# Lock requests of processes

`lf_advlock` and `lf_setlock` over the lock lists of all files.  A request runs
without interruption until it returns or sleeps, so a step is one call, or one
sleeper that continues behind `tsleep`.

The check for deadlocks takes the identity of a lock for a pointer to the process
that holds it and reads there whether and on what the process sleeps.  What it
reads is a parameter, the view.
-/

namespace Bitrig.Advlock

open Bitrig.Transition Function

/-- The base of the start of a range in a `struct flock`. -/
inductive Whence
  | seekSet
  | seekCur
  | seekEnd
  | unknown
  deriving DecidableEq

/-- The lock description of a caller (`struct flock`). -/
structure Flock where
  lType : LfType
  lWhence : Whence
  lStart : Int
  lLen : Int
  lPid : Int
  deriving DecidableEq

/-- The operations of `lf_advlock`. -/
inductive LockOp
  | setlk
  | unlck
  | getlk
  deriving DecidableEq

/-- The errors of a lock request. -/
inductive LockError
  | einval
  | eagain
  | edeadlk
  | eintr
  | ebadf
  deriving DecidableEq

/-- How a call ends or pauses. -/
inductive Reply
  | done (fl : Flock)
  | error (errno : LockError)
  | asleep
  deriving DecidableEq

/-- A call of `lf_advlock` by a process. -/
structure LockCall (ι : Type) where
  proc : Nat
  psPid : Int
  id : ι
  op : LockOp
  fl : Flock
  flags : LfFlags
  /-- The size of the file. -/
  size : Int

/-- The locks of a file and the requests that sleep on them. -/
structure FileLocks (ι : Type) (ρ : Type := Span) where
  locks : List (Lockf ι ρ)
  heap : Heap ι ρ

/-- The locks of all files. -/
abbrev LockState (φ : Type) (ι : Type) (ρ : Type := Span) :=
  φ → FileLocks ι ρ

/-- The request on which the process at an identity sleeps in `lf_setlock`, if
`p_wchan` and `p_wmesg` say so: its file and its address. -/
abbrev WaitView (φ : Type) (ι : Type) (ρ : Type := Span) :=
  LockState φ ι ρ → ι → Option (φ × Nat)

section Functions

variable {φ : Type} {ι ρ : Type} [DecidableEq φ] [DecidableEq ι] [Bounds ρ]

/-- The bounds of a request with a given start and length. -/
def lfBounds (start len : Int) : Option ρ :=
  if start < 0 then none
  else if len = 0 then Bounds.of? start (-1)
  else if Bounds.sum ρ (start + len - 1) < start then none
  else Bounds.of? start (Bounds.sum ρ (start + len - 1))

/-- The bounds that `lf_advlock` computes, unless it returns `EINVAL`. -/
def lfRange (size : Int) (fl : Flock) : Option ρ :=
  match fl.lWhence with
  | .seekSet | .seekCur => lfBounds fl.lStart fl.lLen
  | .seekEnd => lfBounds (Bounds.sum ρ (size + fl.lStart)) fl.lLen
  | .unknown => none

/-- How `lf_getlock` describes a lock. -/
def Lockf.flock (block : Lockf ι ρ) : Flock where
  lType := block.lfType
  lWhence := .seekSet
  lStart := block.lfStart
  lLen := if block.lfEnd = -1 then 0 else Bounds.sum ρ (block.lfEnd - block.lfStart + 1)
  lPid := block.lfPid

/-- `lf_getlock`. -/
def lfGetlock (lock : Lockf ι ρ) (locks : List (Lockf ι ρ)) (fl : Flock) : Option Flock := do
  match ← lfGetblock lock locks with
  | some block => pure block.flock
  | none => pure { fl with lType := .unlck }

/-- The lock in `lf_next` of a sleeping request. -/
def waitBlock (here : FileLocks ι ρ) (addr : Nat) : Option (Lockf ι ρ) := do
  let sleeper ← here.heap.sleepers.find? (·.request.addr = addr)
  let next ← sleeper.lfNext
  here.locks.find? (·.addr = next)

/-- `MAXDEPTH`. -/
def maxlockdepth : Nat := 50

/-- The loop of `lf_setlock` that looks for a deadlock from `wproc` on. -/
def deadlockLoop (view : WaitView φ ι ρ) (state : LockState φ ι ρ) (self : ι) : Nat → ι → Bool
  | 0, _ => false
  | depth + 1, wproc =>
    match view state wproc with
    | none => false
    | some (file, addr) =>
      match waitBlock (state file) addr with
      | none => false
      | some waitblock =>
        if waitblock.lfFlags.fPosix = false then false
        else if waitblock.lfId = self then true
        else deadlockLoop view state self depth waitblock.lfId

/-- Change the lock at an address. -/
def updateLock (addr : Nat) (change : Lockf ι ρ → Lockf ι ρ) (locks : List (Lockf ι ρ)) :
    List (Lockf ι ρ) :=
  locks.map fun lf => if lf.addr = addr then change lf else lf

/-- A request goes to sleep on the list of the lock that blocks it. -/
def sleepOn (block lock : Lockf ι ρ) (proc : Nat) (here : FileLocks ι ρ) : FileLocks ι ρ where
  locks := updateLock block.addr
    (fun lf => { lf with lfBlkhd := lf.lfBlkhd ++ [lock.addr] }) here.locks
  heap :=
    { here.heap with
      sleepers := here.heap.sleepers ++ [⟨lock, proc, some block.addr⟩] }

/-- A flock request for an exclusive lock releases its shared one before it
sleeps. -/
def releaseShared (lock : Lockf ι ρ) (here : FileLocks ι ρ) : Option (FileLocks ι ρ) :=
  if lock.lfFlags.fFlock = true ∧ lock.lfType = .wrlck then do
    let (locks, heap) ← lfClearlock { lock with lfType := .unlck } here.locks here.heap
    pure ⟨locks, heap⟩
  else pure here

/-- `lf_setlock`, up to its return or to `tsleep`. -/
def lfSetlock (view : WaitView φ ι ρ) (state : LockState φ ι ρ) (file : φ) (proc : Nat)
    (lock : Lockf ι ρ) (fl : Flock) : Option (LockState φ ι ρ × Reply) := do
  match ← lfGetblock lock (state file).locks with
  | some block =>
    if lock.lfFlags.fWait = false then pure (state, .error .eagain)
    else if lock.lfFlags.fPosix = true ∧ block.lfFlags.fPosix = true ∧
        deadlockLoop view state lock.lfId maxlockdepth block.lfId = true then
      pure (state, .error .edeadlk)
    else do
      let here ← releaseShared lock (state file)
      pure (update state file (sleepOn block lock proc here), .asleep)
  | none => do
      let (locks, heap) ← lfAddlock lock (state file).locks (state file).heap
      pure (update state file ⟨locks, heap⟩, .done fl)

/-- The request that `lf_advlock` allocates. -/
def LockCall.lock (call : LockCall ι) (range : ρ) (addr : Nat) : Lockf ι ρ where
  addr := addr
  lfFlags := call.flags
  lfType := call.fl.lType
  range := range
  lfId := call.id
  lfPid := if call.flags.fPosix then call.psPid else -1
  lfBlkhd := []

/-- The locks of a file after an allocation. -/
def FileLocks.allocated (here : FileLocks ι ρ) : FileLocks ι ρ :=
  { here with heap := { here.heap with nextAddr := here.heap.nextAddr + 1 } }

/-- `lf_advlock`. -/
def lfAdvlock (view : WaitView φ ι ρ) (state : LockState φ ι ρ) (file : φ) (call : LockCall ι) :
    Option (LockState φ ι ρ × Reply) :=
  match (lfRange call.size call.fl : Option ρ) with
  | none => some (state, .error .einval)
  | some range =>
    if (state file).locks = [] ∧ call.op ≠ .setlk then
      some (state, .done { call.fl with lType := .unlck })
    else
      let lock := call.lock range (state file).heap.nextAddr
      let state := update state file (state file).allocated
      match call.op with
      | .setlk => lfSetlock view state file call.proc lock call.fl
      | .unlck => do
          let (locks, heap) ← lfClearlock lock (state file).locks (state file).heap
          pure (update state file ⟨locks, heap⟩, .done call.fl)
      | .getlk => do
          let fl ← lfGetlock lock (state file).locks call.fl
          pure (state, .done fl)

/-- A request leaves the list of the lock that blocks it, if it is on one. -/
def leaveList (sleeper : Sleeper ι ρ) (here : FileLocks ι ρ) : FileLocks ι ρ where
  locks :=
    match sleeper.lfNext with
    | some next =>
      updateLock next
        (fun lf => { lf with lfBlkhd := lf.lfBlkhd.filter (· ≠ sleeper.request.addr) }) here.locks
    | none => here.locks
  heap :=
    { here.heap with
      sleepers := here.heap.sleepers.filter (·.request.addr ≠ sleeper.request.addr) }

/-- A sleeper continues behind `tsleep`, which returns an error or not. -/
def wakeUp (view : WaitView φ ι ρ) (state : LockState φ ι ρ) (file : φ) (addr : Nat)
    (interrupted : Bool) (fl : Flock) : Option (LockState φ ι ρ × Reply) := do
  let sleeper ← (state file).heap.sleepers.find? (·.request.addr = addr)
  let state := update state file (leaveList sleeper (state file))
  if interrupted then pure (state, .error .eintr)
  else lfSetlock view state file sleeper.proc sleeper.request fl

/-- What happens to the locks. -/
inductive LockStep (φ : Type) (ι : Type)
  | call (file : φ) (call : LockCall ι)
  | wakeUp (file : φ) (addr : Nat) (interrupted : Bool) (fl : Flock)

/-- The file of a step. -/
def LockStep.file : LockStep φ ι → φ
  | .call file _ => file
  | .wakeUp file _ _ _ => file

/-- One step of the system, with its reply.  The callers of `lf_advlock` set only
shared and exclusive locks. -/
def lockReply (view : WaitView φ ι ρ) :
    LockStep φ ι → LockState φ ι ρ → Option (LockState φ ι ρ × Reply)
  | .call file call, state => do
      kassert (call.op = .setlk → call.fl.lType ≠ .unlck)
      lfAdvlock view state file call
  | .wakeUp file addr interrupted fl, state => wakeUp view state file addr interrupted fl

/-- One step of the system. -/
def lockNext (view : WaitView φ ι ρ) (label : LockStep φ ι) (state : LockState φ ι ρ) :
    Option (LockState φ ι ρ) :=
  (lockReply view label state).map Prod.fst

/-- No locks at all. -/
def noLocks : LockState φ ι ρ :=
  fun _ => ⟨[], ⟨[], 0, []⟩⟩

end Functions

end Bitrig.Advlock
