import Mathlib.Data.List.Basic

/-!
# Ring buffers and bounded queues

A ring has a number of slots; behind the last one comes the first one again.  The window of a
ring is the list of what stands in a number of slots from a given one on.  A bounded queue
takes as much of what it is offered as it has room for.
-/

namespace Bitrig.Ring

open List

universe u

variable {α : Type u} {mem mem' : Nat → α} {cap head i j m n : Nat}

/-- The slot a number of places behind the head. -/
def slot (cap head i : Nat) : Nat :=
  if head + i < cap then head + i else head + i - cap

/-- What stands in the slots from the head on. -/
def window (mem : Nat → α) (cap head n : Nat) : List α :=
  (List.range n).map fun i => mem (slot cap head i)

/-! ### Slots -/

theorem slot_of_lt (straight : head + i < cap) : slot cap head i = head + i :=
  if_pos straight

theorem slot_of_le (wraps : cap ≤ head + i) : slot cap head i = head + i - cap :=
  if_neg (Nat.not_lt.mpr wraps)

section

variable (inside : head < cap)
include inside

theorem slot_zero : slot cap head 0 = head :=
  slot_of_lt inside

theorem slot_lt (once : i ≤ cap) : slot cap head i < cap := by
  unfold slot
  split <;> omega

theorem slot_slot (once : i + j ≤ cap) : slot cap (slot cap head i) j = slot cap head (i + j) := by
  unfold slot
  split <;> split <;> split <;> omega

/-- Going on without passing the end of the ring. -/
theorem slot_advance (once : i + m ≤ cap) (straight : slot cap head i + m ≤ cap) :
    (if slot cap head i + m = cap then 0 else slot cap head i + m) = slot cap head (i + m) := by
  rcases Nat.lt_or_ge (head + i) cap with before | behind
  · rw [slot_of_lt before] at straight ⊢
    unfold slot
    split <;> split <;> omega
  · rw [slot_of_le behind] at straight ⊢
    unfold slot
    split <;> split <;> omega

/-- Going back by one slot. -/
theorem slot_pred (once : i < cap) :
    (if slot cap head (i + 1) = 0 then cap - 1 else slot cap head (i + 1) - 1) =
      slot cap head i := by
  rcases Nat.lt_or_ge (head + (i + 1)) cap with before | behind
  · rw [slot_of_lt before, slot_of_lt (by omega), if_neg (by omega)]
    omega
  · rw [slot_of_le behind]
    unfold slot
    split <;> split <;> omega

end

theorem slot_ne (first : i < cap) (second : j < cap) (ne : i ≠ j) :
    slot cap head i ≠ slot cap head j := by
  unfold slot
  split <;> split <;> omega

/-- The slots of a window are not among those behind it. -/
theorem slot_not_behind (less : i < n) (once : n + m ≤ cap) :
    ¬(slot cap head n ≤ slot cap head i ∧ slot cap head i < slot cap head n + m) := by
  unfold slot
  split <;> split <;> omega

/-! ### Windows -/

@[simp]
theorem length_window : (window mem cap head n).length = n := by
  simp [window]

@[simp]
theorem window_zero : window mem cap head 0 = [] :=
  rfl

theorem window_congr (same : ∀ i < n, mem (slot cap head i) = mem' (slot cap head i)) :
    window mem cap head n = window mem' cap head n := by
  apply map_congr_left
  intro i member
  exact same i (mem_range.mp member)

/-- The last slot of a window. -/
theorem window_succ :
    window mem cap head (n + 1) = window mem cap head n ++ [mem (slot cap head n)] := by
  simp [window, range_succ]

/-- A window in two parts. -/
theorem window_add (inside : head < cap) (once : m + n ≤ cap) : window mem cap head (m + n) =
      window mem cap head m ++ window mem cap (slot cap head m) n := by
  unfold window
  rw [range_add, map_append, map_map]
  congr 1
  apply map_congr_left
  intro i member
  have less := mem_range.mp member
  simp only [Function.comp_apply]
  rw [slot_slot inside (by omega)]

/-- A window that does not go round. -/
theorem window_straight (straight : head + n ≤ cap) :
    window mem cap head n = (List.range n).map fun i => mem (head + i) := by
  apply map_congr_left
  intro i member
  have less := mem_range.mp member
  rw [slot_of_lt (by omega)]

theorem window_take (fewer : m ≤ n) (inside : head < cap) (once : n ≤ cap) :
    (window mem cap head n).take m = window mem cap head m := by
  obtain ⟨rest, rfl⟩ := Nat.exists_eq_add_of_le fewer
  rw [window_add inside once]
  exact take_left' length_window

theorem window_drop (fewer : m ≤ n) (inside : head < cap) (once : n ≤ cap) :
    (window mem cap head n).drop m = window mem cap (slot cap head m) (n - m) := by
  obtain ⟨rest, rfl⟩ := Nat.exists_eq_add_of_le fewer
  rw [window_add inside once, Nat.add_sub_cancel_left]
  exact drop_left' length_window

/-! ### Bounded queues -/

/-- Append what there is room for. -/
def offer (cap : Nat) (queue items : List α) : List α :=
  queue ++ items.take (cap - queue.length)

variable {queue items more : List α}

theorem offer_nil : offer cap queue [] = queue := by
  simp [offer]

/-- What fits is appended. -/
theorem offer_of_le (fits : queue.length + items.length ≤ cap) :
    offer cap queue items = queue ++ items := by
  unfold offer
  rw [take_of_length_le (by omega)]

/-- A full queue takes nothing. -/
theorem offer_of_full (full : cap ≤ queue.length) : offer cap queue items = queue := by
  unfold offer
  rw [Nat.sub_eq_zero_of_le full, take_zero, append_nil]

/-- Items may be offered in parts. -/
theorem offer_offer : offer cap (offer cap queue items) more = offer cap queue (items ++ more) := by
  have room : cap - (queue.length + min (cap - queue.length) items.length) =
      cap - queue.length - items.length := by
    omega
  simp only [offer, length_append, length_take, append_assoc, room, take_append]

end Bitrig.Ring
