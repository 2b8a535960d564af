import Mathlib.Logic.Function.Basic

/-!
# Bitmaps

A bitmap is a memory of words of `w` bits.  Bits are numbered through the words.  The search
for a zero bit goes word by word, and takes the lowest zero of the first word that is not all
ones.
-/

namespace Bitrig.Bitmap

open Function

variable {w : Nat} {map : Nat → BitVec w} {x : BitVec w} {m n off : Nat}

/-- The bit with the given number. -/
def bit (map : Nat → BitVec w) (n : Nat) : Bool :=
  (map (n / w)).getLsbD (n % w)

def setBit (map : Nat → BitVec w) (n : Nat) : Nat → BitVec w :=
  update map (n / w) (map (n / w) ||| 1#w <<< (n % w))

def clearBit (map : Nat → BitVec w) (n : Nat) : Nat → BitVec w :=
  update map (n / w) (map (n / w) &&& ~~~(1#w <<< (n % w)))

/-- The position of the lowest bit that is set, counted from one; zero if there is none. -/
def ffs (x : BitVec w) : Nat :=
  match (List.range w).find? x.getLsbD with
  | some i => i + 1
  | none => 0

/-! ### Single bits -/

theorem eq_of_div_mod (quot : m / w = n / w) (rem : m % w = n % w) : m = n := by
  rw [← Nat.div_add_mod m w, ← Nat.div_add_mod n w, quot, rem]

theorem getLsbD_one_shift (less : m < w) : (1#w <<< n).getLsbD m = decide (m = n) := by
  rw [BitVec.getLsbD_shiftLeft]
  by_cases same : m = n
  · subst same
    simp [less, Nat.zero_lt_of_lt less]
  · simp only [same, decide_false]
    by_cases below : m < n
    · simp [below]
    · have : m - n ≠ 0 := by omega
      simp [this]

theorem bit_setBit (positive : 0 < w) : bit (setBit map n) m = (bit map m || decide (m = n)) := by
  have less := Nat.mod_lt m positive
  unfold bit setBit
  by_cases word : m / w = n / w
  · rw [word, update_self, BitVec.getLsbD_or, getLsbD_one_shift less]
    have same : m % w = n % w ↔ m = n :=
      ⟨eq_of_div_mod word, fun equal => by rw [equal]⟩
    simp only [same]
  · have other : m ≠ n := fun equal => word (by rw [equal])
    rw [update_of_ne word]
    simp [other]

theorem bit_clearBit (positive : 0 < w) :
    bit (clearBit map n) m = (bit map m && !decide (m = n)) := by
  have less := Nat.mod_lt m positive
  unfold bit clearBit
  by_cases word : m / w = n / w
  · rw [word, update_self, BitVec.getLsbD_and, BitVec.getLsbD_not, getLsbD_one_shift less]
    have same : m % w = n % w ↔ m = n :=
      ⟨eq_of_div_mod word, fun equal => by rw [equal]⟩
    simp only [same, less, decide_true, Bool.true_and]
  · have other : m ≠ n := fun equal => word (by rw [equal])
    rw [update_of_ne word]
    simp [other]

/-! ### Words -/

theorem eq_allOnes_iff : x = BitVec.allOnes w ↔ ∀ i < w, x.getLsbD i = true := by
  constructor
  · rintro rfl i less
    simp [less]
  · intro all
    apply BitVec.eq_of_getLsbD_eq
    intro i less
    rw [all i less]
    simp [less]

/-- A bit of a word. -/
theorem bit_word (less : m < w) : bit map (off * w + m) = (map off).getLsbD m := by
  have positive : 0 < w := Nat.zero_lt_of_lt less
  unfold bit
  rw [Nat.mul_comm, Nat.mul_add_div positive, Nat.div_eq_of_lt less, Nat.add_zero,
    Nat.mul_add_mod, Nat.mod_eq_of_lt less]

/-- A word is all ones if all its bits are set. -/
theorem word_eq_allOnes_iff (positive : 0 < w) :
    map off = BitVec.allOnes w ↔ ∀ m, m / w = off → bit map m = true := by
  rw [eq_allOnes_iff]
  constructor
  · rintro all m rfl
    exact all _ (Nat.mod_lt m positive)
  · intro all i less
    rw [← bit_word less]
    apply all
    rw [Nat.mul_comm, Nat.mul_add_div positive, Nat.div_eq_of_lt less, Nat.add_zero]

/-- The lowest zero of a word that is not all ones. -/
theorem ffs_not (zero : x ≠ BitVec.allOnes w) :
    ∃ i < w, ffs (~~~x) = i + 1 ∧ x.getLsbD i = false ∧ ∀ j < i, x.getLsbD j = true := by
  unfold ffs
  cases found : (List.range w).find? (~~~x).getLsbD with
  | none =>
    rw [List.find?_range_eq_none] at found
    apply absurd _ zero
    rw [eq_allOnes_iff]
    intro i less
    have := found i less
    simpa [less] using this
  | some i =>
    rw [List.find?_range_eq_some] at found
    obtain ⟨set, member, before⟩ := found
    have less := List.mem_range.mp member
    refine ⟨i, less, rfl, by simpa [less] using set, ?_⟩
    intro j below
    have := before j below
    simpa [Nat.lt_trans below less] using this

/-! ### Searching -/

/-- The first zero bit at or behind a position. -/
structure FirstZero (map : Nat → BitVec w) (start n : Nat) : Prop where
  least : start ≤ n
  zero : bit map n = false
  ones : ∀ m, start ≤ m → m < n → bit map m = true

/-- The first zero bit in a number of words. -/
def scanWords (map : Nat → BitVec w) (off : Nat) : Nat → Option Nat
  | 0 => none
  | count + 1 =>
    if map off ≠ BitVec.allOnes w then some (off * w + (ffs (~~~map off) - 1))
    else scanWords map (off + 1) count

/-- A zero of a word is the first one from a position on, if there are only ones between. -/
theorem FirstZero.of_word {start : Nat} (other : x ≠ BitVec.allOnes w)
    (before : ∀ m, start ≤ m → m < off * w → bit map m = true)
    (same : ∀ i < w, start ≤ off * w + i → x.getLsbD i = (map off).getLsbD i)
    (masked : ∀ i < w, off * w + i < start → x.getLsbD i = true) :
    FirstZero map start (off * w + (ffs (~~~x) - 1)) := by
  obtain ⟨i, less, position, zero, ones⟩ := ffs_not other
  rw [position, Nat.add_sub_cancel]
  have reached : start ≤ off * w + i := by
    by_contra earlier
    rw [masked i less (by omega)] at zero
    cases zero
  refine ⟨reached, ?_, ?_⟩
  · rw [bit_word less, ← same i less reached]
    exact zero
  · intro m from_ below
    by_cases earlier : m < off * w
    · exact before m from_ earlier
    · obtain ⟨j, rfl⟩ := Nat.exists_eq_add_of_le (Nat.not_lt.mp earlier)
      have inWord : j < w := by omega
      rw [bit_word inWord, ← same j inWord from_]
      exact ones j (by omega)

theorem scanWords_eq_some {count : Nat} (positive : 0 < w)
    (found : scanWords map off count = some n) : FirstZero map (off * w) n := by
  induction count generalizing off with
  | zero => cases found
  | succ count ih =>
    unfold scanWords at found
    split at found
    case isTrue other =>
      cases found
      exact .of_word other (fun m low high => absurd high (by omega))
        (fun _ _ _ => rfl) (fun i _ early => absurd early (by omega))
    case isFalse full =>
      have later := ih found
      rw [not_not, word_eq_allOnes_iff positive] at full
      rw [Nat.add_one_mul] at later
      refine ⟨by have := later.least; omega, later.zero, ?_⟩
      intro m low high
      by_cases here : m < off * w + w
      · apply full m
        rw [Nat.div_eq_iff positive]
        omega
      · exact later.ones m (by omega) high

theorem scanWords_eq_none {count : Nat} (positive : 0 < w)
    (found : scanWords map off count = none) :
    ∀ m, off * w ≤ m → m < (off + count) * w → bit map m = true := by
  induction count generalizing off with
  | zero =>
    intro m low high
    rw [Nat.add_zero] at high
    omega
  | succ count ih =>
    unfold scanWords at found
    split at found
    case isTrue => cases found
    case isFalse full =>
      intro m low high
      rw [not_not, word_eq_allOnes_iff positive] at full
      by_cases here : m < off * w + w
      · apply full m
        rw [Nat.div_eq_iff positive]
        omega
      · apply ih found m
        · rw [Nat.add_one_mul]
          omega
        · rw [Nat.add_assoc, Nat.add_comm 1 count]
          exact high

end Bitrig.Bitmap
