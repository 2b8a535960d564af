import Mathlib.Data.List.Basic

/-!
# Windows of an area of memory

An area is a function from offsets to its elements.  A window is the list of what stands in a
part of it.
-/

namespace Bitrig.Window

open Function List

universe u

variable {α : Type u} {area area' : Nat → α} {off off' len m n : Nat} {src : List α}

/-- What stands in an area from an offset on. -/
def window (area : Nat → α) (off len : Nat) : List α :=
  (List.range len).map fun i => area (off + i)

/-- An area with a list copied to an offset. -/
def copyIn (area : Nat → α) (off : Nat) (src : List α) : Nat → α :=
  fun i => if off ≤ i then src[i - off]?.getD (area i) else area i

@[simp]
theorem length_window : (window area off len).length = len := by
  simp [window]

@[simp]
theorem window_zero : window area off 0 = [] :=
  rfl

theorem window_shift (same : ∀ i < len, area' (off' + i) = area (off + i)) :
    window area' off' len = window area off len :=
  map_congr_left fun i member => same i (mem_range.mp member)

theorem window_update {k : Nat} {x : α} (outside : k < off ∨ off + len ≤ k) :
    window (update area k x) off len = window area off len :=
  window_shift fun i below => update_of_ne (by omega) _ _

theorem window_add : window area off (m + n) = window area off m ++ window area (off + m) n := by
  unfold window
  rw [range_add, map_append, map_map]
  simp only [comp_def, Nat.add_assoc]

theorem drop_window : (window area off n).drop m = window area (off + m) (n - m) := by
  rcases Nat.le_total m n with fewer | all
  · obtain ⟨k, rfl⟩ := Nat.exists_eq_add_of_le fewer
    rw [window_add, drop_left' length_window, Nat.add_sub_cancel_left]
  · rw [drop_eq_nil_of_le (by rw [length_window]; exact all), Nat.sub_eq_zero_of_le all,
      window_zero]

theorem window_copyIn (area : Nat → α) (off : Nat) (src : List α) :
    window (copyIn area off src) off src.length = src := by
  apply ext_getElem length_window
  intro i _ below
  simp [window, copyIn, getElem?_eq_getElem below]

theorem copyIn_of_outside {i : Nat} (outside : i < off ∨ off + src.length ≤ i) :
    copyIn area off src i = area i := by
  unfold copyIn
  split_ifs with inside
  · rw [getElem?_eq_none (by omega)]
    rfl
  · rfl

theorem copyIn_update {x : α} :
    copyIn (update area off x) (off + 1) src = copyIn area off (x :: src) := by
  funext i
  unfold copyIn
  rcases Nat.lt_trichotomy i off with below | rfl | above
  · rw [if_neg (by omega), if_neg (by omega), update_of_ne (by omega)]
  · rw [if_neg (by omega), if_pos (Nat.le_refl _), update_self, Nat.sub_self]
    rfl
  · rw [if_pos (by omega), if_pos (by omega), update_of_ne (by omega),
      show i - off = i - (off + 1) + 1 by omega, getElem?_cons_succ]

end Bitrig.Window
