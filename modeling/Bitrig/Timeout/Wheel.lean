import Bitrig.Lib.Queues
import Bitrig.Lib.Transition

/-!
# The timing wheel

`kern_timeout.c`: timeouts on a worklist and in four wheels of 256 buckets each.  The clock
interrupt moves buckets to the worklist, and `softclock` runs the timeouts of the worklist
that are due and puts the others into the wheels.  `ticks` is an `int` that wraps, and so is
the time of a timeout.
-/

namespace Bitrig.Timeout

open Transition Function
open Queues

/-- `int`, with wrapping arithmetic. -/
abbrev Ticks :=
  BitVec 32

/-- The queues: `timeout_todo`, and `timeout_wheel[index + wheel*WHEELSIZE]`. -/
inductive Queue where
  | todo
  | wheel (wheel : Fin 4) (index : BitVec 8)
  deriving DecidableEq

/-- `MASKWHEEL`.  An arithmetic shift has the same low byte. -/
def maskwheel (wheel : Fin 4) (time : Ticks) : BitVec 8 :=
  (time >>> (wheel.val * 8)).setWidth 8

/-- `BUCKET`. -/
def bucket (rel abs : Ticks) : Queue :=
  if rel.toInt ≤ 2 ^ 16 then
    if rel.toInt ≤ 2 ^ 8 then .wheel 0 (maskwheel 0 abs)
    else .wheel 1 (maskwheel 1 abs)
  else if rel.toInt ≤ 2 ^ 24 then .wheel 2 (maskwheel 2 abs)
  else .wheel 3 (maskwheel 3 abs)

section Model

variable {τ : Type} [DecidableEq τ]

/-- The clock, the queues and the fields of the timeouts. -/
structure State (τ : Type) where
  ticks : Ticks
  queue : Queue → List τ
  toTime : τ → Ticks
  onqueue : τ → Bool
  triggered : τ → Bool

/-- `timeout_startup`: no timeout is queued. -/
def timeoutStartup (ticks : Ticks) (toTime : τ → Ticks) : State τ where
  ticks := ticks
  queue := fun _ => []
  toTime := toTime
  onqueue := fun _ => false
  triggered := fun _ => false

/-- What a call returns, or what a turn of `softclock` does. -/
inductive Reply (τ : Type) where
  | returned (ret : Bool)
  | moved
  | ran (timeout : τ)
  deriving DecidableEq

/-- `timeout_add`, with the panic on a negative number of ticks. -/
def timeoutAdd (new : τ) (toTicks : Ticks) (s : State τ) : Option (State τ × Reply τ) :=
  if toTicks.toInt < 0 then none
  else
    let oldTime := s.toTime new
    let newTime := toTicks + s.ticks
    let s := { s with
      toTime := update s.toTime new newTime
      triggered := update s.triggered new false }
    if s.onqueue new then
      if (newTime - s.ticks).toInt < (oldTime - s.ticks).toInt then
        some ({ s with queue := insert (remove s.queue new) .todo new }, .returned false)
      else some (s, .returned false)
    else
      some ({ s with
        onqueue := update s.onqueue new true
        queue := insert s.queue .todo new }, .returned true)

/-- `timeout_del`. -/
def timeoutDel (to_ : τ) (s : State τ) : State τ × Reply τ :=
  if s.onqueue to_ then
    ({ s with
      queue := remove s.queue to_
      onqueue := update s.onqueue to_ false
      triggered := update s.triggered to_ false }, .returned true)
  else ({ s with triggered := update s.triggered to_ false }, .returned false)

/-- `MOVEBUCKET`. -/
def movebucket (wheel : Fin 4) (time : Ticks) (queue : Queue → List τ) : Queue → List τ :=
  append queue .todo (.wheel wheel (maskwheel wheel time))

/-- The buckets that the clock interrupt moves to the worklist. -/
def cascade (ticks : Ticks) (queue : Queue → List τ) : Queue → List τ :=
  let queue := movebucket 0 ticks queue
  if maskwheel 0 ticks = 0 then
    let queue := movebucket 1 ticks queue
    if maskwheel 1 ticks = 0 then
      let queue := movebucket 2 ticks queue
      if maskwheel 2 ticks = 0 then movebucket 3 ticks queue
      else queue
    else queue
  else queue

/-- `timeout_hardclock_update`. -/
def timeoutHardclockUpdate (s : State τ) : State τ × Reply τ :=
  let ticks := s.ticks + 1
  let queue := cascade ticks s.queue
  ({ s with ticks, queue }, .returned (!(queue .todo).isEmpty))

/-- One turn of the loop of `softclock`; none if the worklist is empty. -/
def softclock (s : State τ) : Option (State τ × Reply τ) :=
  match s.queue .todo with
  | [] => none
  | to_ :: _ =>
    let queue := remove s.queue to_
    let rel := s.toTime to_ - s.ticks
    if 0 < rel.toInt then
      some ({ s with queue := insert queue (bucket rel (s.toTime to_)) to_ }, .moved)
    else
      some ({ s with
        queue := queue
        onqueue := update s.onqueue to_ false
        triggered := update s.triggered to_ true }, .ran to_)

inductive Label (τ : Type) where
  | add (new : τ) (toTicks : Ticks)
  | del (to_ : τ)
  | hardclock
  | softclock

/-- One step. -/
def step (label : Label τ) (s : State τ) : Option (State τ × Reply τ) :=
  match label with
  | .add new toTicks => timeoutAdd new toTicks s
  | .del to_ => some (timeoutDel to_ s)
  | .hardclock => some (timeoutHardclockUpdate s)
  | .softclock => softclock s

/-! ### Notes on a run -/

/-- Notes on the calls of `timeout_add` that queue a timeout: their number, the last one of
each timeout, and those whose timeout `softclock` has run. -/
structure Notes (τ : Type) where
  count : Nat
  serial : τ → Nat
  ran : List Nat

def Notes.start : Notes τ :=
  ⟨0, fun _ => 0, []⟩

def Notes.note (notes : Notes τ) (label : Label τ) (reply : Reply τ) : Notes τ :=
  match label, reply with
  | .add new _, .returned true =>
    { notes with
      count := notes.count + 1
      serial := update notes.serial new notes.count }
  | .softclock, .ran to_ => { notes with ran := notes.serial to_ :: notes.ran }
  | _, _ => notes

/-- One step, with the notes on it. -/
def next (label : Label τ) (s : State τ × Notes τ) : Option (State τ × Notes τ) :=
  (step label s.1).map fun (t, reply) => (t, s.2.note label reply)

end Model

end Bitrig.Timeout
