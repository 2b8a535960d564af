import Bitrig.Lib.Bitmap
import Bitrig.TtySubr.Clist

/-!
# The quote map

The bit functions of the quote map do what their names say, and stay inside the map.  A
character is a byte with its quote bit; as an `int` it has the bit above the byte.
-/

namespace Bitrig.TtySubr

open Bitrig.Bitmap Function

/-! ### Characters -/

/-- A byte, and whether it is quoted. -/
abbrev QChar := Byte × Bool

/-- A character as an `int`. -/
def code (x : QChar) : CInt :=
  if x.2 then x.1.setWidth 32 ||| ttyQuote else x.1.setWidth 32

/-- The character that `putc` takes an `int` for. -/
def decode (c : CInt) : QChar :=
  (c.setWidth 8, decide (c &&& ttyQuote ≠ 0))

theorem decode_code (x : QChar) : decode (code x) = x := by
  rcases x with ⟨byte, quoted⟩
  revert byte quoted
  decide +kernel

/-- No character is taken for the end of a list. -/
theorem code_ne_neg_one (x : QChar) : code x ≠ -1 := by
  rcases x with ⟨byte, quoted⟩
  revert byte quoted
  decide +kernel

/-! ### Masks -/

/-- The low bits of a byte. -/
theorem getLsbD_low : ∀ k < 8, ∀ i < 8, (1#8 <<< k - 1#8).getLsbD i = decide (i < k) := by
  decide +kernel

/-- A mask of some low bits, moved up. -/
theorem getLsbD_middle : ∀ start < 8, ∀ stop < 8, ∀ i < 8, start ≤ stop →
    ((1#8 <<< (stop - start) - 1#8) <<< start).getLsbD i = decide (start ≤ i ∧ i < stop) := by
  decide +kernel

theorem low_eq_zero : ∀ k < 8, 1#8 <<< k - 1#8 = 0 → k = 0 := by
  decide +kernel

/-! ### Bits -/

section Bits

variable {quotes : Nat → Byte} {cap size i m : Nat}

/-- The map has a bit for every character of the ring. -/
theorem div_lt_qmem (inside : i < cap) : i / NBBY < qmem cap := by
  unfold qmem NBBY
  omega

theorem isset_eq (inside : i / NBBY < size) : isset ⟨size, quotes⟩ i = some (bit quotes i) := by
  unfold isset
  rw [Buffer.read_of_lt inside]
  rfl

theorem setbit_eq (inside : i / NBBY < size) :
    setbit ⟨size, quotes⟩ i = some ⟨size, setBit quotes i⟩ :=
  Buffer.modify_of_lt inside

theorem clrbit_eq (inside : i / NBBY < size) :
    clrbit ⟨size, quotes⟩ i = some ⟨size, clearBit quotes i⟩ :=
  Buffer.modify_of_lt inside

/-- The second map has lost the bits of a range of the first one. -/
def Clears (quotes quotes' : Nat → Byte) (start stop : Nat) : Prop :=
  ∀ m, bit quotes' m = (bit quotes m && !decide (start ≤ m ∧ m < stop))

section Clears

variable {quotes' quotes'' : Nat → Byte} {start mid stop k : Nat}

theorem Clears.trans (first : Clears quotes quotes' start mid)
    (second : Clears quotes' quotes'' mid stop) (below : start ≤ mid) (above : mid ≤ stop) :
    Clears quotes quotes'' start stop := by
  intro m
  have range : start ≤ m ∧ m < stop ↔ (start ≤ m ∧ m < mid) ∨ (mid ≤ m ∧ m < stop) := by omega
  simp only [second m, first m, range, Bool.decide_or, Bool.not_or, Bool.and_assoc]

/-- A byte loses bits of its own. -/
theorem update_clears {byte : Byte} (low : 8 * k ≤ start) (high : stop ≤ 8 * k + 8)
    (lost : ∀ i < 8, byte.getLsbD i =
      ((quotes k).getLsbD i && !decide (start ≤ 8 * k + i ∧ 8 * k + i < stop))) :
    Clears quotes (update quotes k byte) start stop := by
  intro m
  unfold bit
  by_cases here : m / 8 = k
  · subst here
    rw [update_self, lost _ (Nat.mod_lt m (by decide)), Nat.div_add_mod]
  · rw [update_of_ne here, decide_eq_false (by omega), Bool.not_false, Bool.and_true]

/-- The first map and the range say what the second one is. -/
theorem Clears.unique (left : Clears quotes quotes' start stop)
    (right : Clears quotes quotes'' start stop) : quotes' = quotes'' := by
  funext k
  apply BitVec.eq_of_getLsbD_eq
  intro i less
  have same : bit quotes' (8 * k + i) = bit quotes'' (8 * k + i) := by rw [left, right]
  unfold bit at same
  rwa [Nat.mul_add_div (by decide), Nat.div_eq_of_lt less, Nat.mul_add_mod,
    Nat.mod_eq_of_lt less] at same

end Clears

end Bits

/-! ### The bytes that `clrbits` uses -/

section Modify

variable {M : Type} {modify : M → Nat → (Byte → Byte) → Option M} {low high off len i : Nat}
  {quotes : Nat → Byte} (view : (Nat → Byte) → M)

/-! The array has the bytes of a range. -/

variable (has : ∀ {quotes : Nat → Byte} {k f}, low ≤ k → k < high →
  modify (view quotes) k f = some (view (update quotes k (f (quotes k)))))
include has

theorem zeroBytesBy_clears {count : Nat} (above : low ≤ i) (inside : i + count ≤ high) :
    ∃ quotes', zeroBytesBy modify (view quotes) i count = some (view quotes') ∧
      Clears quotes quotes' (8 * i) (8 * (i + count)) := by
  induction count generalizing i quotes with
  | zero =>
    refine ⟨quotes, rfl, fun m => ?_⟩
    rw [decide_eq_false (by omega), Bool.not_false, Bool.and_true]
  | succ count ih =>
    have first : Clears quotes (update quotes i 0) (8 * i) (8 * (i + 1)) := by
      refine update_clears le_rfl le_rfl fun j less => ?_
      rw [decide_eq_true (by omega), Bool.not_true, Bool.and_false]
      exact BitVec.getLsbD_zero
    obtain ⟨quotes', zeroed, others⟩ := ih (i := i + 1) (by omega) (by omega)
    refine ⟨quotes', ?_, ?_⟩
    · rw [zeroBytesBy, has above (by omega)]
      exact zeroed
    · rw [← Nat.add_right_comm] at others
      exact first.trans others (by omega) (by omega)

/-- `clrbits` clears a range of bits. -/
theorem clrbitsBy_eq (positive : 0 < len) (above : low ≤ off / NBBY)
    (inside : off + len ≤ NBBY * high) :
    ∃ quotes', clrbitsBy modify (view quotes) off len = some (view quotes') ∧
      Clears quotes quotes' off (off + len) := by
  unfold clrbitsBy
  unfold NBBY at *
  split
  case isTrue single =>
    subst single
    refine ⟨_, has above (by omega), fun m => ?_⟩
    change bit (clearBit quotes off) m = _
    rw [bit_clearBit (by decide)]
    have same : m = off ↔ off ≤ m ∧ m < off + 1 := by omega
    simp only [same]
  case isFalse =>
    dsimp only
    have startLess := Nat.mod_lt off (y := 8) (by decide)
    have stopLess := Nat.mod_lt (off + len) (y := 8) (by decide)
    split
    case isTrue sameByte =>
      refine ⟨_, has above (by omega),
        update_clears (by omega) (by omega) fun i less => ?_⟩
      rw [BitVec.getLsbD_and, BitVec.getLsbD_not,
        getLsbD_middle _ startLess _ stopLess i less (by omega)]
      have range : off % 8 ≤ i ∧ i < (off + len) % 8 ↔
          off ≤ 8 * (off / 8) + i ∧ 8 * (off / 8) + i < off + len := by
        omega
      simp only [less, range, decide_true, Bool.true_and]
    case isFalse otherByte =>
      -- the first byte keeps its low bits, the bytes between are zero
      have first : Clears quotes (update quotes (off / 8)
          (quotes (off / 8) &&& (1#8 <<< (off % 8) - 1#8))) off (8 * (off / 8 + 1)) := by
        refine update_clears (by omega) le_rfl fun i less => ?_
        have range : i < off % 8 ↔
            ¬(off ≤ 8 * (off / 8) + i ∧ 8 * (off / 8) + i < 8 * (off / 8 + 1)) := by
          omega
        simp only [BitVec.getLsbD_and, getLsbD_low _ startLess i less, range, decide_not]
      obtain ⟨quotes', zeroed, between⟩ : ∃ quotes', zeroBytesBy modify (view _) (off / 8 + 1)
          ((off + len) / 8 - (off / 8 + 1)) = _ ∧ _ :=
        zeroBytesBy_clears view has (by omega) (by omega)
      rw [Nat.add_sub_cancel' (by omega)] at between
      have cleared := first.trans between (by omega) (by omega)
      rw [has above (by omega)]
      simp only [bind, Option.bind_some, zeroed]
      split
      case isTrue mask =>
        have last : (off + len) / 8 < high := by
          by_contra past
          have : (off + len) % 8 = 0 := by omega
          rw [this] at mask
          exact mask rfl
        refine ⟨_, has (by omega) last, cleared.trans
          (update_clears le_rfl (by omega) fun i less => ?_) (by omega) (by omega)⟩
        have range : i < (off + len) % 8 ↔ 8 * ((off + len) / 8) ≤ 8 * ((off + len) / 8) + i ∧
            8 * ((off + len) / 8) + i < off + len := by
          omega
        rw [BitVec.getLsbD_and, BitVec.getLsbD_not, getLsbD_low _ stopLess i less]
        simp only [less, range, decide_true, Bool.true_and]
      case isFalse mask =>
        have last : (off + len) % 8 = 0 := low_eq_zero _ stopLess (not_not.mp mask)
        rw [show 8 * ((off + len) / 8) = off + len by omega] at cleared
        exact ⟨_, rfl, cleared⟩

end Modify

section Range

variable {quotes : Nat → Byte} {size off len : Nat}

/-- `clrbits` clears a range of bits. -/
theorem clrbits_eq (positive : 0 < len) (inside : off + len ≤ NBBY * size) :
    ∃ quotes', clrbits ⟨size, quotes⟩ off len = some ⟨size, quotes'⟩ ∧
      Clears quotes quotes' off (off + len) := by
  exact clrbitsBy_eq (Buffer.mk size) (fun _ => Buffer.modify_of_lt (b := ⟨size, _⟩)) positive
    (Nat.zero_le _) inside

/-- The loop that `clrbits` stands for: clear the bits of the range one at a time. -/
def clrbitEach (cp : Buffer Byte) (off : Nat) : Nat → Option (Buffer Byte)
  | 0 => some cp
  | len + 1 => (clrbitEach cp off len).bind fun cp => clrbit cp (off + len)

theorem clrbitEach_eq (inside : off + len ≤ NBBY * size) :
    ∃ quotes', clrbitEach ⟨size, quotes⟩ off len = some ⟨size, quotes'⟩ ∧
      Clears quotes quotes' off (off + len) := by
  induction len with
  | zero =>
    refine ⟨quotes, rfl, fun m => ?_⟩
    rw [decide_eq_false (by omega), Bool.not_false, Bool.and_true]
  | succ len ih =>
    obtain ⟨quotes', cleared, range⟩ := ih (by omega)
    unfold NBBY at inside
    refine ⟨clearBit quotes' (off + len), ?_, range.trans (fun m => ?_) (by omega) (by omega)⟩
    · rw [clrbitEach, cleared]
      exact clrbit_eq (by unfold NBBY; omega)
    · rw [bit_clearBit (by decide)]
      have same : m = off + len ↔ off + len ≤ m ∧ m < off + (len + 1) := by omega
      simp only [same]

/-- Some bytes of an array: the others cannot be read or written. -/
def part (quotes : Nat → Byte) (low high : Nat) : Nat → Option Byte :=
  fun k => if low ≤ k ∧ k < high then some (quotes k) else none

def partModify (cp : Nat → Option Byte) (k : Nat) (f : Byte → Byte) :
    Option (Nat → Option Byte) :=
  (cp k).map fun byte => update cp k (some (f byte))

theorem partModify_eq {low high k : Nat} {f : Byte → Byte} (above : low ≤ k) (below : k < high) :
    partModify (part quotes low high) k f =
      some (part (update quotes k (f (quotes k))) low high) := by
  have inside : part quotes low high k = some (quotes k) := if_pos ⟨above, below⟩
  rw [partModify, inside, Option.map_some]
  congr 1
  funext j
  unfold part
  by_cases here : j = k
  · subst here
    rw [update_self, update_self, if_pos ⟨above, below⟩]
  · rw [update_of_ne here, update_of_ne here]

/-- `clrbits` does what its loop over the bits would do, and needs no byte of the array but those
from the byte of the first bit to the byte of the last one. -/
theorem clrbits_eq_clrbitEach (positive : 0 < len) (inside : off + len ≤ NBBY * size) :
    ∃ quotes', clrbits ⟨size, quotes⟩ off len = some ⟨size, quotes'⟩ ∧
      clrbitEach ⟨size, quotes⟩ off len = some ⟨size, quotes'⟩ ∧
      clrbitsBy Buffer.modify ⟨size, quotes⟩ off len = clrbits ⟨size, quotes⟩ off len ∧
      clrbitsBy partModify (part quotes (off / NBBY) ((off + len - 1) / NBBY + 1)) off len =
        some (part quotes' (off / NBBY) ((off + len - 1) / NBBY + 1)) := by
  obtain ⟨quotes', whole, cleared⟩ := clrbits_eq positive inside
  obtain ⟨each, loop, clearedEach⟩ := clrbitEach_eq inside
  obtain ⟨rest, used, clearedPart⟩ :=
    clrbitsBy_eq (fun quotes => part quotes (off / NBBY) ((off + len - 1) / NBBY + 1))
      partModify_eq positive le_rfl (by unfold NBBY; omega)
  rw [cleared.unique clearedEach] at whole
  rw [clearedPart.unique clearedEach] at used
  exact ⟨each, whole, loop, rfl, used⟩

theorem clrbits_eq_clrbitEach_two : ∃ quotes',
    clrbits ⟨2, fun _ => 0xff⟩ 6 10 = some ⟨2, quotes'⟩ ∧
      clrbitEach ⟨2, fun _ => 0xff⟩ 6 10 = some ⟨2, quotes'⟩ := by
  obtain ⟨quotes', whole, loop, -⟩ :
      ∃ quotes', clrbits ⟨2, fun _ => 0xff⟩ 6 10 = some ⟨2, quotes'⟩ ∧ _ :=
    clrbits_eq_clrbitEach (by decide) (by decide)
  exact ⟨quotes', whole, loop⟩

end Range

end Bitrig.TtySubr
