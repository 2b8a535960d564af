import Mathlib

/-!
# Sequence numbers

Numbers of a fixed width are compared by the sign of their difference.  Around a base, the
numbers have positions; as long as the positions are not too far from each other, the comparison
of the numbers is that of the positions.
-/

namespace Bitrig.SeqNum

variable {w : Nat}

/-- The difference of two numbers, with its sign. -/
def diff (a b : BitVec w) : Int :=
  (a - b).toInt

/-- The position of a number around a base. -/
def pos (base a : BitVec w) : Int :=
  diff a base

variable {base a b : BitVec w}

theorem diff_eq_bmod (base a b : BitVec w) : diff a b = (pos base a - pos base b).bmod (2 ^ w) := by
  have cancel : a - b = (a - base) - (b - base) := (sub_sub_sub_cancel_right a b base).symm
  rw [diff, cancel, BitVec.toInt_sub]
  rfl

/-- The difference of numbers is that of their positions. -/
theorem diff_eq (low : -(2 ^ w : Nat) ≤ (pos base a - pos base b) * 2)
    (high : (pos base a - pos base b) * 2 < (2 ^ w : Nat)) :
    diff a b = pos base a - pos base b := by
  rw [diff_eq_bmod base, Int.bmod_eq_of_le_mul_two low high]

/-- The position of a number by its difference from another one. -/
theorem pos_eq_sub (low : -(2 ^ w : Nat) ≤ (pos base a - diff a b) * 2)
    (high : (pos base a - diff a b) * 2 < (2 ^ w : Nat)) : pos base b = pos base a - diff a b := by
  have cancel : b - base = (a - base) - (a - b) := (sub_sub_sub_cancel_left base b a).symm
  rw [pos, diff, cancel, BitVec.toInt_sub]
  exact Int.bmod_eq_of_le_mul_two low high

theorem pos_self (base : BitVec w) : pos base base = 0 := by
  rw [pos, diff, BitVec.sub_self, BitVec.toInt_zero]

theorem pos_add {n : Nat} (low : -(2 ^ w : Nat) ≤ (pos base a + n) * 2)
    (high : (pos base a + n) * 2 < (2 ^ w : Nat)) :
    pos base (a + BitVec.ofNat w n) = pos base a + n := by
  have split : a + BitVec.ofNat w n - base = (a - base) + BitVec.ofNat w n :=
    add_sub_right_comm a _ base
  have number : (BitVec.ofNat w n).toInt = (n : Int).bmod (2 ^ w) := by
    rw [BitVec.toInt_ofNat']
  rw [pos, diff, split, BitVec.toInt_add, number, Int.add_bmod_bmod]
  exact Int.bmod_eq_of_le_mul_two low high

/-- Numbers with the same position are equal. -/
theorem eq_of_pos_eq (same : pos base a = pos base b) : a = b := by
  have equal : a - base = b - base := BitVec.eq_of_toInt_eq same
  exact sub_left_injective equal

end Bitrig.SeqNum
