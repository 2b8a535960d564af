import Bitrig.Lib.Transition

/-!
# Reader/writer locks

A lock is one word: two flags for waiting processes, the flag of the write lock, and above them the
address of the writing process or the number of readers.  The word is changed by compare-and-swap.
Each process takes one atomic step at a time: it reads the word, swaps it, prepares to sleep,
sleeps, or wakes those who sleep.

The word is a number without bounds; a process is the address of its `struct proc`.
-/

namespace Bitrig.KernRwlock

open Bitrig.Transition

abbrev Proc := Nat

/-! ### The word -/

def rwlockWait : Nat := 1
def rwlockWrwant : Nat := 2
def rwlockWrlock : Nat := 4
def rwlockReadIncr : Nat := 8

/-- The word without the flags (`RWLOCK_OWNER`), or the address of a process (`RW_PROC`). -/
def rwProc (word : Nat) : Nat :=
  word >>> 3 <<< 3

/-- The number of readers. -/
def readCount (word : Nat) : Nat :=
  word >>> 3

inductive Op
  | write
  | read
  | downgrade
  deriving DecidableEq

namespace Op

def inc : Op → Int
  | .write => rwlockWrlock
  | .read => rwlockReadIncr
  | .downgrade => rwlockReadIncr - rwlockWrlock

/-- The bits of the word that keep the operation waiting; `ULONG_MAX` has all bits. -/
def check : Op → Nat → Nat
  | .write, o => o
  | .read, o => o &&& rwlockWrlock
  | .downgrade, _ => 0

def waitSet : Op → Nat
  | .write => rwlockWait ||| rwlockWrwant
  | .read => rwlockWait
  | .downgrade => 0

def procMult : Op → Int
  | .write => 1
  | .read => 0
  | .downgrade => -1

end Op

structure Flags where
  nosleep : Bool
  intr : Bool
  sleepfail : Bool

def noFlags : Flags := ⟨false, false, false⟩

/-! ### Where a process is -/

/-- The next step of a process.  In `rw_enter` it has read the word `o`; `finish` is in front of
`sleep_finish`, `awake` behind it, and `wake` in front of `wakeup`. -/
inductive Pc
  | out
  | enterRead
  | enterReadCas (owner : Nat)
  | enterWriteCas
  | enter (op : Op) (flags : Flags)
  | diag (op : Op) (flags : Flags) (o : Nat)
  | setup (op : Op) (flags : Flags) (o : Nat)
  | waitCas (op : Op) (flags : Flags) (o : Nat)
  | finish (op : Op) (flags : Flags) (doSleep : Bool)
  | asleep (op : Op) (flags : Flags)
  | awake (op : Op) (flags : Flags)
  | cas (op : Op) (flags : Flags) (o : Nat)
  | wake
  | exitRead
  | exitReadAssert (owner : Nat)
  | exitReadCas (owner : Nat)
  | exitWrite
  | exitWriteAssert (owner : Nat)
  | exitWriteCas (owner : Nat)
  | exit
  | exitAssert (wrlock : Bool)
  | exitLoop (wrlock : Bool)
  | exitCas (wrlock : Bool) (owner : Nat)

/-- The lock, the processes, and who has got the lock and not given it back: a process is listed as
often as it holds the lock. -/
structure Sys where
  owner : Nat
  pc : Proc → Pc
  onq : Proc → Bool
  readers : List Proc
  writers : List Proc

def Sys.goto (s : Sys) (p : Proc) (pc : Pc) : Sys :=
  { s with pc := Function.update s.pc p pc }

/-! ### Assertions -/

def rwEnterDiag (p : Proc) (op : Op) (owner : Nat) : Prop :=
  match op with
  | .write | .read => rwProc p ≠ rwProc owner
  | .downgrade => owner &&& rwlockWrlock ≠ 0 ∧ rwProc p = rwProc owner

instance (p : Proc) (op : Op) (owner : Nat) : Decidable (rwEnterDiag p op owner) := by
  cases op <;> unfold rwEnterDiag <;> infer_instance

def rwAssertWrlock (p : Proc) (owner : Nat) : Prop :=
  owner &&& rwlockWrlock ≠ 0 ∧ rwProc owner = rwProc p

instance (p : Proc) (owner : Nat) : Decidable (rwAssertWrlock p owner) := by
  unfold rwAssertWrlock
  infer_instance

def rwAssertRdlock (owner : Nat) : Prop :=
  rwProc owner ≠ 0 ∧ owner &&& rwlockWrlock = 0

instance (owner : Nat) : Decidable (rwAssertRdlock owner) := by
  unfold rwAssertRdlock
  infer_instance

/-! ### Steps -/

/-- The word after the operation. -/
def Op.add (op : Op) (p : Proc) (o : Nat) : Nat :=
  (o + (op.inc + rwProc p * op.procMult)).toNat

/-- Who has the lock after the operation. -/
def Sys.acquire (s : Sys) (p : Proc) : Op → Sys
  | .write => { s with writers := p :: s.writers }
  | .read => { s with readers := p :: s.readers }
  | .downgrade => { s with writers := s.writers.erase p, readers := p :: s.readers }

/-- All processes are taken off the queue, and those that sleep go on. -/
def wakeup (s : Sys) : Sys :=
  { s with
    onq := fun _ => false
    pc := fun q => match s.pc q with
      | .asleep op flags => .awake op flags
      | pc => pc }

/-- The word after a reader has gone: the flags are cleared. -/
def lastFlags (owner : Nat) : Nat :=
  (owner - rwlockReadIncr) >>> 2 <<< 2

/-- The next step of a process.  `signal` says whether there is a signal for it, and `diagnostic`
whether the assertions are compiled in. -/
def stepProc (diagnostic signal : Bool) (p : Proc) (s : Sys) : Option Sys :=
  match s.pc p with
  | .out | .asleep .. => none
  -- rw_enter_read
  | .enterRead =>
    some (s.goto p
      (if s.owner &&& rwlockWrlock ≠ 0 then .enter .read noFlags else .enterReadCas s.owner))
  | .enterReadCas owner =>
    if s.owner = owner then
      some (({ s with owner := owner + rwlockReadIncr }.acquire p .read).goto p .out)
    else some (s.goto p (.enter .read noFlags))
  -- rw_enter_write
  | .enterWriteCas =>
    if s.owner = 0 then
      some (({ s with owner := rwProc p ||| rwlockWrlock }.acquire p .write).goto p .out)
    else some (s.goto p (.enter .write noFlags))
  -- rw_enter
  | .enter op flags =>
    some (s.goto p (if op.check s.owner ≠ 0 then .diag op flags s.owner else .cas op flags s.owner))
  | .diag op flags o => do
      kassert (diagnostic = true → rwEnterDiag p op s.owner)
      some (s.goto p (if flags.nosleep then .out else .setup op flags o))
  | .setup op flags o =>
    some ({ s with onq := Function.update s.onq p !(flags.intr && signal) }.goto p
      (.waitCas op flags o))
  | .waitCas op flags o =>
    if s.owner = o then some ({ s with owner := o ||| op.waitSet }.goto p (.finish op flags true))
    else some (s.goto p (.finish op flags false))
  | .finish op flags doSleep =>
    if doSleep && s.onq p then some (s.goto p (.asleep op flags))
    else some ({ s with onq := Function.update s.onq p false }.goto p (.awake op flags))
  | .awake op flags =>
    some (s.goto p
      (if flags.intr && signal then .out else if flags.sleepfail then .out else .enter op flags))
  | .cas op flags o =>
    if s.owner = o then
      some (({ s with owner := op.add p o }.acquire p op).goto p
        (if o &&& (rwlockWrlock ||| rwlockWait) = rwlockWrlock ||| rwlockWait then .wake else .out))
    else some (s.goto p (.enter op flags))
  | .wake => some ((wakeup s).goto p .out)
  -- rw_exit_read
  | .exitRead => some (s.goto p (.exitReadAssert s.owner))
  | .exitReadAssert owner => do
      kassert (diagnostic = true → rwAssertRdlock s.owner)
      some (s.goto p (if owner &&& rwlockWait ≠ 0 then .exit else .exitReadCas owner))
  | .exitReadCas owner =>
    if s.owner = owner then
      some ({ s with owner := owner - rwlockReadIncr, readers := s.readers.erase p }.goto p .out)
    else some (s.goto p .exit)
  -- rw_exit_write
  | .exitWrite => some (s.goto p (.exitWriteAssert s.owner))
  | .exitWriteAssert owner => do
      kassert (diagnostic = true → rwAssertWrlock p s.owner)
      some (s.goto p (if owner &&& rwlockWait ≠ 0 then .exit else .exitWriteCas owner))
  | .exitWriteCas owner =>
    if s.owner = owner then some ({ s with owner := 0, writers := s.writers.erase p }.goto p .out)
    else some (s.goto p .exit)
  -- rw_exit
  | .exit => some (s.goto p (.exitAssert (s.owner &&& rwlockWrlock != 0)))
  | .exitAssert wrlock => do
      kassert (diagnostic = true →
        if wrlock then rwAssertWrlock p s.owner else rwAssertRdlock s.owner)
      some (s.goto p (.exitLoop wrlock))
  | .exitLoop wrlock => some (s.goto p (.exitCas wrlock s.owner))
  | .exitCas wrlock owner =>
    let pc := if owner &&& rwlockWait ≠ 0 then .wake else .out
    if s.owner = owner then
      if wrlock then some ({ s with owner := 0, writers := s.writers.erase p }.goto p pc)
      else some ({ s with owner := lastFlags owner, readers := s.readers.erase p }.goto p pc)
    else some (s.goto p (.exitLoop wrlock))

/-! ### Calls -/

inductive Call
  | enter (op : Op) (flags : Flags)
  | enterRead
  | enterWrite
  | exit
  | exitRead
  | exitWrite

def Call.pc : Call → Pc
  | .enter op flags => .enter op flags
  | .enterRead => .enterRead
  | .enterWrite => .enterWriteCas
  | .exit => .exit
  | .exitRead => .exitRead
  | .exitWrite => .exitWrite

/-- A process makes a call or its next step, or a signal ends its sleep. -/
inductive Label
  | call (p : Proc) (call : Call)
  | step (p : Proc) (signal : Bool)
  | interrupt (p : Proc)

def next (diagnostic : Bool) : Label → Sys → Option Sys
  | .call p call, s =>
    match s.pc p with
    | .out => some (s.goto p call.pc)
    | _ => none
  | .step p signal, s => stepProc diagnostic signal p s
  | .interrupt p, s =>
    match s.pc p with
    | .asleep op flags =>
      if flags.intr then
        some ({ s with onq := Function.update s.onq p false }.goto p (.awake op flags))
      else none
    | _ => none

/-- The address of a process is aligned.  The lock is given back by those who have it, and
downgraded by the writer. -/
def Legal : Label → Sys → Prop
  | .call p call, s => (0 < p ∧ p % 8 = 0) ∧ match call with
      | .enter .downgrade _ => p ∈ s.writers
      | .exit => p ∈ s.readers ∨ p ∈ s.writers
      | .exitRead => p ∈ s.readers
      | .exitWrite => p ∈ s.writers
      | _ => True
  | _, _ => True

instance (label : Label) (s : Sys) : Decidable (Legal label s) := by
  cases label with
  | call p call =>
    cases call with
    | enter op flags => cases op <;> unfold Legal <;> infer_instance
    | enterRead => unfold Legal; infer_instance
    | enterWrite => unfold Legal; infer_instance
    | exit => unfold Legal; infer_instance
    | exitRead => unfold Legal; infer_instance
    | exitWrite => unfold Legal; infer_instance
  | step p signal => unfold Legal; infer_instance
  | interrupt p => unfold Legal; infer_instance

/-- Nobody has the lock (`rw_init`). -/
def rwInit : Sys where
  owner := 0
  pc := fun _ => .out
  onq := fun _ => false
  readers := []
  writers := []

end Bitrig.KernRwlock
