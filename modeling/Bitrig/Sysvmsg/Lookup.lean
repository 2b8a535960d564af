import Mathlib

/-!
# System V messages (kern/sysv_msg.c)

A receiver says by a `long` which messages it wants.  `sys_msgrcv` looks for the first of them,
and sleeps as long as there is none.
-/

namespace Bitrig.Sysvmsg

/-- A `long`. -/
abbrev Long := BitVec 64

/-- `struct msg`, with the number of its bytes. -/
structure Msg where
  msgType : Long
  msgLen : Nat
  deriving DecidableEq

/-- `struct que`: the messages in the order of arrival, their counts, and the flags. -/
structure Que where
  queMsgs : List Msg
  msgCbytes : Nat
  msgQnum : Nat
  readers : Bool
  dying : Bool
  deriving DecidableEq

inductive Errno
  | efault
  | eidrm
  | eintr
  | enomsg
  deriving DecidableEq

/-- The test of `msg_lookup`: an `int` is compared with the type of a message as a `long`. -/
def isMatch (msgtyp : BitVec 32) (msg : Msg) : Bool :=
  msgtyp == 0 || msgtyp.signExtend 64 == msg.msgType ||
    (msgtyp.slt 0 && ((-msgtyp).signExtend 64).sle msg.msgType)

/-- The place of the first message that passes a test. -/
def firstMsg (test : Msg → Bool) (que : Que) : Option (Fin que.queMsgs.length) :=
  que.queMsgs.findFinIdx? test

def msgLookup (que : Que) (msgtyp : BitVec 32) : Option (Fin que.queMsgs.length) :=
  firstMsg (isMatch msgtyp) que

def msgDequeue (que : Que) (i : Fin que.queMsgs.length) : Que :=
  { que with
    queMsgs := que.queMsgs.eraseIdx i
    msgCbytes := que.msgCbytes - (que.queMsgs.get i).msgLen
    msgQnum := que.msgQnum - 1 }

inductive Outcome
  | took (msg : Msg) (que : Que)
  | failed (error : Errno)
  | waits (que : Que)
  deriving DecidableEq

section Receive

variable (lookup : (que : Que) → Option (Fin que.queMsgs.length)) (nowait : Bool)
  (faults : Msg → Bool)

/-- One turn of the loop of `sys_msgrcv`: how the call ends, unless it has to sleep.  The copy to
the caller may fault. -/
def turn (que : Que) : Option Outcome :=
  match lookup que with
  | some i =>
    if faults (que.queMsgs.get i) then some (.failed .efault)
    else some (.took (que.queMsgs.get i) (msgDequeue que i))
  | none => if nowait then some (.failed .enomsg) else none

/-- The loop.  A sleeper finds an error of `tsleep`, or the queue as it is then; the call waits
when nothing wakes it. -/
def receive (que : Que) : List (Except Errno Que) → Outcome
  | [] => (turn lookup nowait faults que).getD (.waits { que with readers := true })
  | wakeup :: wakeups =>
    (turn lookup nowait faults que).getD <|
      match wakeup with
      | .error error => .failed error
      | .ok que => if que.dying then .failed .eidrm else receive que wakeups

end Receive

/-- The type of the messages goes to `msg_lookup` as an `int`. -/
def sysMsgrcv (msgtyp : Long) : Bool → (Msg → Bool) → Que → List (Except Errno Que) → Outcome :=
  receive fun que => msgLookup que (msgtyp.setWidth 32)

/-- The messages that a receiver wants: all of them, those of a type, or those up to a type. -/
def wants (msgtyp : Long) (msg : Msg) : Bool :=
  if msgtyp.toInt = 0 then true
  else if 0 < msgtyp.toInt then msg.msgType.toInt = msgtyp.toInt
  else msg.msgType.toInt ≤ -msgtyp.toInt

/-- The types that are tested as they should be: those that are an `int` and not negative, and
the least `long`, with which all messages are wanted. -/
def TestedRight (msgtyp : Long) : Prop :=
  0 ≤ msgtyp.toInt ∧ msgtyp.toInt < 2 ^ 31 ∨ msgtyp.toInt = -2 ^ 63

section Wants

variable (msgtyp : Long)

theorem toInt_bounds : -2 ^ 63 ≤ msgtyp.toInt ∧ msgtyp.toInt < 2 ^ 63 :=
  ⟨BitVec.le_toInt msgtyp, BitVec.toInt_lt⟩

/-- The `int` that a `long` is passed as. -/
theorem toInt_narrow : ∃ k : Int, (msgtyp.setWidth 32).toInt = msgtyp.toInt + k * 2 ^ 32 ∧
    -2 ^ 31 ≤ (msgtyp.setWidth 32).toInt ∧ (msgtyp.setWidth 32).toInt < 2 ^ 31 := by
  have value := BitVec.toInt_eq_toNat_cond msgtyp
  refine ⟨-((msgtyp.toInt - (msgtyp.setWidth 32).toInt) / 2 ^ 32), ?_⟩
  rw [BitVec.toInt_setWidth, Int.bmod_def]
  omega

/-- The test in terms of integers; the opposite of the least `int` is that `int` again. -/
theorem isMatch_iff (msgtyp : BitVec 32) (msg : Msg) :
    isMatch msgtyp msg = true ↔ msgtyp.toInt = 0 ∨ msgtyp.toInt = msg.msgType.toInt ∨
      msgtyp.toInt < 0 ∧ (-msgtyp.toInt).bmod (2 ^ 32) ≤ msg.msgType.toInt := by
  unfold isMatch
  simp only [Bool.or_eq_true, Bool.and_eq_true, beq_iff_eq, BitVec.slt_iff_toInt_lt,
    BitVec.sle_iff_toInt_le, ← BitVec.toInt_inj, BitVec.toInt_neg,
    BitVec.toInt_signExtend_of_le (show 32 ≤ 64 by decide), or_assoc]
  rfl

theorem wants_iff (msg : Msg) :
    wants msgtyp msg = true ↔ msgtyp.toInt = 0 ∨ 0 < msgtyp.toInt ∧
      msg.msgType.toInt = msgtyp.toInt ∨ msgtyp.toInt < 0 ∧ msg.msgType.toInt ≤ -msgtyp.toInt := by
  unfold wants
  grind

theorem isMatch_eq_wants (right : TestedRight msgtyp) :
    isMatch (msgtyp.setWidth 32) = wants msgtyp := by
  obtain ⟨k, narrow, low, high⟩ := toInt_narrow msgtyp
  funext msg
  have bounds := toInt_bounds msg.msgType
  rw [Bool.eq_iff_iff, isMatch_iff, wants_iff]
  unfold TestedRight at right
  omega

/-- Any other type is tested wrongly, for a message that can be sent: one of type 1 or 2, of the
type that the `int` stands for, or of one of the two greatest types. -/
theorem isMatch_ne_wants (wrong : ¬TestedRight msgtyp) :
    ∃ msg : Msg, 0 < msg.msgType.toInt ∧ isMatch (msgtyp.setWidth 32) msg ≠ wants msgtyp msg := by
  obtain ⟨k, narrow, low, high⟩ := toInt_narrow msgtyp
  have bounds := toInt_bounds msgtyp
  have negated : (-(msgtyp.setWidth 32).toInt).bmod (2 ^ 32) < 2 ^ 62 := by
    have := @Int.bmod_lt (-(msgtyp.setWidth 32).toInt) (2 ^ 32) (by decide)
    omega
  unfold TestedRight at wrong
  suffices differs : ∃ type : Int, 0 < type ∧ type < 2 ^ 63 ∧
      ∀ msg : Msg, msg.msgType.toInt = type →
      ¬(isMatch (msgtyp.setWidth 32) msg = true ↔ wants msgtyp msg = true) by
    obtain ⟨type, sent, less, differs⟩ := differs
    have same : (BitVec.ofInt 64 type).toInt = type := by
      rw [BitVec.toInt_ofInt, Int.bmod_eq_of_le (by omega) (by omega)]
    exact ⟨⟨BitVec.ofInt 64 type, 0⟩, same.symm ▸ sent, fun equal => differs _ same (by rw [equal])⟩
  simp only [isMatch_iff, wants_iff]
  rcases lt_trichotomy (msgtyp.setWidth 32).toInt 0 with negative | zero | positive
  · by_cases greatest : msgtyp.toInt = 2 ^ 63 - 1
    · exact ⟨2 ^ 63 - 2, by decide, by decide, by omega⟩
    · exact ⟨2 ^ 63 - 1, by decide, by decide, by omega⟩
  · rcases lt_or_ge 0 msgtyp.toInt with up | down
    · exact ⟨1, by decide, by decide, by omega⟩
    · exact ⟨2 ^ 63 - 1, by decide, by decide, by omega⟩
  · rcases lt_or_ge 0 msgtyp.toInt with up | down
    · exact ⟨(msgtyp.setWidth 32).toInt, positive, by omega, by omega⟩
    · by_cases one : (msgtyp.setWidth 32).toInt = 1
      · exact ⟨2, by decide, by decide, by omega⟩
      · exact ⟨1, by decide, by decide, by omega⟩

/-- A receiver takes the first message that it wants, and sleeps or fails if there is none. -/
def Selects : Prop :=
  ∀ (nowait : Bool) (faults : Msg → Bool) (que : Que) (wakeups : List (Except Errno Que)),
    sysMsgrcv msgtyp nowait faults que wakeups =
        receive (firstMsg (wants msgtyp)) nowait faults que wakeups ∧
      (sysMsgrcv msgtyp nowait faults que [] =
          (if nowait then .failed .enomsg else .waits { que with readers := true }) ↔
        ∀ msg ∈ que.queMsgs, ¬wants msgtyp msg)

theorem receive_none_iff (test : Msg → Bool) (nowait : Bool) (faults : Msg → Bool) (que : Que) :
    receive (firstMsg test) nowait faults que [] =
        (if nowait then .failed .enomsg else .waits { que with readers := true }) ↔
      ∀ msg ∈ que.queMsgs, ¬test msg := by
  rw [receive, turn, firstMsg, ← List.findFinIdx?_eq_none_iff]
  split
  case h_1 i found =>
    simp only [found, reduceCtorEq, iff_false]
    split <;> cases nowait <;> simp
  case h_2 missed =>
    cases nowait <;> simp [missed]

/-- For just these types it does, whatever is queued. -/
theorem sysMsgrcv_selects : Selects msgtyp ↔ TestedRight msgtyp := by
  constructor
  · intro selects
    by_contra wrong
    obtain ⟨msg, -, differs⟩ := isMatch_ne_wants msgtyp wrong
    -- a queue with that message only
    have wanted := (selects true (fun _ => false) ⟨[msg], 1, 1, false, false⟩ []).2
    have matched := receive_none_iff (isMatch (msgtyp.setWidth 32)) true (fun _ => false)
      ⟨[msg], 1, 1, false, false⟩
    have same := matched.symm.trans wanted
    rw [List.forall_mem_singleton, List.forall_mem_singleton] at same
    exact differs (Bool.eq_iff_iff.mpr (not_iff_not.mp same))
  · intro right nowait faults que wakeups
    have same : sysMsgrcv msgtyp = receive (firstMsg (wants msgtyp)) := by
      unfold sysMsgrcv msgLookup
      rw [isMatch_eq_wants msgtyp right]
    rw [same]
    exact ⟨rfl, receive_none_iff _ nowait faults que⟩

end Wants

/-- A queue with messages of one byte. -/
def queOf (types : List Long) : Que where
  queMsgs := types.map fun msgType => ⟨msgType, 1⟩
  msgCbytes := types.length
  msgQnum := types.length
  readers := false
  dying := false

theorem sysMsgrcv_selects_five :
    sysMsgrcv 5 true (fun _ => false) (queOf [4, 5, 5]) [] = .took ⟨5, 1⟩ (queOf [4, 5]) :=
  ((sysMsgrcv_selects 5).mpr (.inl (by decide)) ..).1

/-- A receiver of types up to three is not given a message of type two, but one of type five. -/
theorem sysMsgrcv_selects_above :
    sysMsgrcv (-3) true (fun _ => false) (queOf [2, 5]) [] = .took ⟨5, 1⟩ (queOf [2]) ∧
      receive (firstMsg (wants (-3))) true (fun _ => false) (queOf [2, 5]) [] =
        .took ⟨2, 1⟩ (queOf [5]) := by
  decide

end Bitrig.Sysvmsg
