import Mathlib

/-!
# Fixed-width fields in a byte memory

A memory is a function from addresses to bytes.  A field is a little-endian
number of a fixed width: `peek` reads one and `poke` stores one.  A layout
describes a table of rows with two such fields each, which `fill` stores row by
row.
-/

namespace Bitrig.Bytes

universe u

/-- A byte for every address. -/
abbrev Memory := Nat → UInt8

/-- The number in the `width` bytes at `off`, least significant byte first. -/
def peek (memory : Memory) (off : Nat) : Nat → Nat
  | 0 => 0
  | width + 1 => (memory off).toNat + 256 * peek memory (off + 1) width

/-- Store a number in the `width` bytes at `off`. -/
def poke (memory : Memory) (off : Nat) : Nat → Nat → Memory
  | 0, _ => memory
  | width + 1, value =>
    Function.update (poke memory (off + 1) width (value / 256)) off (UInt8.ofNat value)

variable {memory memory' : Memory} {off off' width value : Nat}

/-- A field is what its bytes are, wherever they stand. -/
theorem peek_shift (same : ∀ i < width, memory' (off' + i) = memory (off + i)) :
    peek memory' off' width = peek memory off width := by
  induction width generalizing off off' with
  | zero => rfl
  | succ width ih =>
    have first : memory' off' = memory off := same 0 (Nat.succ_pos _)
    simp only [peek]
    rw [first, ih]
    intro i below
    rw [Nat.add_assoc, Nat.add_assoc, Nat.add_comm 1 i]
    exact same (i + 1) (Nat.succ_lt_succ below)

/-- A field depends on its own bytes only. -/
theorem peek_congr (same : ∀ i, off ≤ i → i < off + width → memory i = memory' i) :
    peek memory off width = peek memory' off width :=
  peek_shift fun i below => same (off + i) (Nat.le_add_right _ _) (Nat.add_lt_add_left below off)

/-- A stored field leaves the other bytes alone. -/
theorem poke_of_outside {i : Nat} (outside : i < off ∨ off + width ≤ i) :
    poke memory off width value i = memory i := by
  induction width generalizing off value with
  | zero => rfl
  | succ width ih =>
    simp only [poke]
    rw [Function.update_of_ne (by omega)]
    apply ih
    omega

theorem peek_poke_of_disjoint {width' : Nat} (disjoint : off' + width' ≤ off ∨ off + width ≤ off') :
    peek (poke memory off width value) off' width' = peek memory off' width' := by
  apply peek_congr
  intro i lower upper
  apply poke_of_outside
  omega

/-- A stored field reads back, up to its width. -/
theorem peek_poke (memory : Memory) (off width value : Nat) :
    peek (poke memory off width value) off width = value % 256 ^ width := by
  induction width generalizing off value with
  | zero => simp [peek, Nat.mod_one]
  | succ width ih =>
    have above : peek (poke memory off (width + 1) value) (off + 1) width =
        peek (poke memory (off + 1) width (value / 256)) (off + 1) width := by
      apply peek_congr
      intro i lower _
      exact Function.update_of_ne (by omega) _ _
    simp only [peek]
    rw [above, ih, pow_succ', Nat.mod_mul]
    simp [poke]

/-! ## Tables -/

/-- The place of two fields in every row of a table. -/
structure Layout (α : Type u) where
  stride : Nat
  firstOff : Nat
  firstWidth : Nat
  first : α → Nat
  secondOff : Nat
  secondWidth : Nat
  second : α → Nat
  apart : firstOff + firstWidth ≤ secondOff
  inside : secondOff + secondWidth ≤ stride

namespace Layout

variable {α : Type u}

/-- Store one row at `base`. -/
def pokeRow (layout : Layout α) (memory : Memory) (base : Nat) (row : α) : Memory :=
  poke (poke memory (base + layout.firstOff) layout.firstWidth (layout.first row))
    (base + layout.secondOff) layout.secondWidth (layout.second row)

/-- Store rows one after the other from `base` on. -/
def fill (layout : Layout α) (memory : Memory) (base : Nat) : List α → Memory
  | [] => memory
  | row :: rows => fill layout (layout.pokeRow memory base row) (base + layout.stride) rows

variable {layout : Layout α} {off width : Nat}

theorem fill_below {base i : Nat} {rows : List α} (below : i < base) :
    layout.fill memory base rows i = memory i := by
  induction rows generalizing memory base with
  | nil => rfl
  | cons row rows ih =>
    simp only [fill]
    rw [ih (by omega), pokeRow, poke_of_outside (by omega), poke_of_outside (by omega)]

theorem peek_fill_below {base : Nat} {rows : List α} (below : off + width ≤ base) :
    peek (layout.fill memory base rows) off width = peek memory off width := by
  apply peek_congr
  intro i _ upper
  exact fill_below (by omega)

variable {memory : Memory} {base k : Nat} {rows : List α} {row : α} (found : rows[k]? = some row)
include found

/-- The bytes of a row are those that are stored for it. -/
theorem peek_fill (inside : off + width ≤ layout.stride) :
    ∃ memory', peek (layout.fill memory base rows) (base + k * layout.stride + off) width =
      peek (layout.pokeRow memory' (base + k * layout.stride) row)
        (base + k * layout.stride + off) width := by
  induction rows generalizing memory base k with
  | nil => simp at found
  | cons head rows ih =>
    cases k with
    | zero =>
      simp only [List.getElem?_cons_zero, Option.some.injEq] at found
      subst head
      rw [fill, Nat.zero_mul, Nat.add_zero, peek_fill_below (by omega)]
      exact ⟨memory, rfl⟩
    | succ k =>
      rw [fill, Nat.succ_mul, show base + (k * layout.stride + layout.stride) =
        base + layout.stride + k * layout.stride by omega]
      exact ih found

theorem peek_fill_first :
    peek (layout.fill memory base rows) (base + k * layout.stride + layout.firstOff)
        layout.firstWidth = layout.first row % 256 ^ layout.firstWidth := by
  have apart := layout.apart
  have inside := layout.inside
  obtain ⟨memory', stored⟩ : ∃ memory', peek (layout.fill memory base rows) _ _ = _ :=
    peek_fill found (show layout.firstOff + layout.firstWidth ≤ _ by omega)
  rw [stored, pokeRow, peek_poke_of_disjoint (by omega), peek_poke]

theorem peek_fill_second :
    peek (layout.fill memory base rows) (base + k * layout.stride + layout.secondOff)
        layout.secondWidth = layout.second row % 256 ^ layout.secondWidth := by
  obtain ⟨memory', stored⟩ := peek_fill found layout.inside
  rw [stored, pokeRow, peek_poke]

end Layout

end Bitrig.Bytes
