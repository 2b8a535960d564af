import Bitrig.Lib.Transition

/-!
# Space arithmetic of the circular log

The log is a circular area of `circSize` bytes that starts `circOff` bytes into
the journal.  The offsets `head` and `tail` either both are zero, for the empty
log, or both lie inside the area; an equal nonzero pair is the full log.

The functions are those of `vfs_wapbl.c`, with every `KASSERT` of theirs.  The
predicate `LiveLog` is the meaning of a `head`/`tail` pair: how many bytes of
the area are in use, counted from the tail.
-/

namespace Bitrig.Wapbl

open Bitrig.Transition Option

/-- The read-only geometry of a log, with what `wapbl_start` checks or
computes: the block size lies between `DEV_BSIZE` and `MAXBSIZE`, two blocks
are kept for the commit headers, and the circular area is a whole positive
number of blocks whose offsets fit the type `off_t`. -/
structure Geometry where
  /-- Logarithm of the block size of the log device. -/
  logDevBshift : Nat
  /-- Physical block number of the start of the log. -/
  logpbn : Nat
  /-- Number of bytes in the circular area. -/
  circSize : Nat
  /-- Number of bytes reserved at the start for the commit headers. -/
  circOff : Nat
  devBshift_le : 9 ≤ logDevBshift
  logDevBshift_le : logDevBshift ≤ 16
  circOff_eq : circOff = 2 * 2 ^ logDevBshift
  blocklen_dvd : 2 ^ logDevBshift ∣ circSize
  circSize_pos : 0 < circSize
  circ_lt : circOff + circSize < 2 ^ 63

/-- The smallest log of 512-byte blocks that `wapbl_start` admits: `MAXPHYS`
bytes, two blocks of which hold the commit headers. -/
def minimalLog : Geometry where
  logDevBshift := 9
  logpbn := 0
  circSize := 126 * 512
  circOff := 1024
  devBshift_le := by decide
  logDevBshift_le := by decide
  circOff_eq := by decide
  blocklen_dvd := by decide
  circSize_pos := by decide
  circ_lt := by decide

namespace Geometry

variable (g : Geometry)

/-- The block size of the log device. -/
def blocklen : Nat :=
  2 ^ g.logDevBshift

theorem blocklen_pos : 0 < g.blocklen :=
  Nat.two_pow_pos _

theorem le_blocklen : 512 ≤ g.blocklen :=
  calc
    512 = 2 ^ 9 := by decide
    _ ≤ g.blocklen := Nat.pow_le_pow_right (by decide) g.devBshift_le

/-- Number of blocks described by one block-list record: a header of 16 bytes
and 16 bytes for each block. -/
def bph : Nat :=
  (g.blocklen - 16) / 16

/-- Number of inodes described by one inode-list record: a header of 16 bytes
and 8 bytes for each inode. -/
def iph : Nat :=
  (g.blocklen - 16) / 8

theorem bph_pos : 0 < g.bph := by
  have lower := g.le_blocklen
  unfold bph
  omega

theorem iph_pos : 0 < g.iph := by
  have lower := g.le_blocklen
  unfold iph
  omega

theorem circOff_pos : 0 < g.circOff := by
  have positive := g.blocklen_pos
  rw [g.circOff_eq]
  simp only [blocklen] at positive
  omega

/-- Offsets of bytes of the circular area. -/
def InArea (off : Nat) : Prop :=
  g.circOff ≤ off ∧ off < g.circOff + g.circSize

instance (off : Nat) : Decidable (g.InArea off) :=
  inferInstanceAs (Decidable (_ ∧ _))

/-- The offset `n` bytes after `off`, for at most one turn of the area. -/
def circAdd (off n : Nat) : Nat :=
  if off + n < g.circOff + g.circSize then off + n else off + n - g.circSize

/-- Bytes from `origin` forward to `off` around the area. -/
def circDist (origin off : Nat) : Nat :=
  if origin ≤ off then off - origin else off + g.circSize - origin

theorem inArea_circOff : g.InArea g.circOff := by
  have positive := g.circSize_pos
  exact ⟨le_refl _, by omega⟩

variable {g} {off n : Nat}

variable (area : g.InArea off)
include area

theorem InArea.pos : 0 < off :=
  lt_of_lt_of_le g.circOff_pos area.1

theorem InArea.circAdd (turn : n ≤ g.circSize) : g.InArea (g.circAdd off n) := by
  rcases area with ⟨lower, upper⟩
  unfold Geometry.InArea Geometry.circAdd
  split <;> constructor <;> omega

theorem circAdd_zero : g.circAdd off 0 = off := by
  simp [Geometry.circAdd, area.2]

theorem circAdd_circSize : g.circAdd off g.circSize = off := by
  rcases area with ⟨lower, upper⟩
  unfold Geometry.circAdd
  split <;> omega

theorem circAdd_circAdd {m : Nat} (turn : m + n ≤ g.circSize) :
    g.circAdd (g.circAdd off m) n = g.circAdd off (m + n) := by
  rcases area with ⟨lower, upper⟩
  unfold Geometry.circAdd
  split <;> split <;> split <;> omega

theorem circDist_circAdd (short : n < g.circSize) : g.circDist off (g.circAdd off n) = n := by
  rcases area with ⟨lower, upper⟩
  unfold Geometry.circDist Geometry.circAdd
  split <;> split <;> omega

end Geometry

/-! ## The functions of the source -/

/-- `wapbl_advance`: the pointer `old` moved forward by `delta`. -/
def wapblAdvance (size off old delta : Nat) : Option Nat := do
  kassert (delta ≤ size)
  kassert (old = 0 ∨ off ≤ old)
  kassert (old < size + off)
  let new :=
    if old = 0 ∧ delta ≠ 0 then off + delta
    else if old + delta < size + off then old + delta
    else old + delta - size
  kassert (delta ≠ 0 ∨ new = old)
  kassert (delta = 0 ∨ new ≠ 0)
  kassert (delta ≠ size ∨ new = old)
  kassert (new = 0 ∨ off ≤ new)
  kassert (new < size + off)
  pure new

/-- `wapbl_space_used`. -/
def wapblSpaceUsed (avail head tail : Nat) : Option Nat :=
  if tail = 0 then do
    kassert (head = 0)
    pure 0
  else
    pure ((head + (avail - 1) - tail) % avail + 1)

/-- `wapbl_space_free`. -/
def wapblSpaceFree (avail head tail : Nat) : Option Nat := do
  let used ← wapblSpaceUsed avail head tail
  pure (avail - used)

/-- `wapbl_advance_head`: the new head and tail. -/
def wapblAdvanceHead (size off delta head tail : Nat) : Option (Nat × Nat) := do
  let free ← wapblSpaceFree size head tail
  kassert (delta ≤ free)
  let head ← wapblAdvance size off head delta
  let tail := if tail = 0 ∧ head ≠ 0 then off else tail
  pure (head, tail)

/-- `wapbl_advance_tail`: the new head and tail. -/
def wapblAdvanceTail (size off delta head tail : Nat) : Option (Nat × Nat) := do
  let used ← wapblSpaceUsed size head tail
  kassert (delta ≤ used)
  let tail ← wapblAdvance size off tail delta
  if head = tail then pure (0, 0) else pure (head, tail)

/-- Where the records of the next transaction start. -/
def startOff (g : Geometry) (head : Nat) : Nat :=
  if head = 0 then g.circOff else head

/-! ## The bytes in use -/

/-- A `head`/`tail` pair with `used` bytes in use: the empty log, or a nonempty
run of bytes from the tail up to the head. -/
inductive LiveLog (g : Geometry) : Nat → Nat → Nat → Prop
  | empty : LiveLog g 0 0 0
  | run {tail used : Nat} (area : g.InArea tail) (positive : 0 < used)
      (fits : used ≤ g.circSize) : LiveLog g (g.circAdd tail used) tail used

namespace LiveLog

variable {g : Geometry} {head tail used : Nat}

variable (live : LiveLog g head tail used)
include live

theorem used_le : used ≤ g.circSize := by
  cases live with
  | empty => exact Nat.zero_le _
  | run _ _ fits => exact fits

theorem eq_zero (zero : used = 0) : head = 0 ∧ tail = 0 := by
  cases live with
  | empty => exact ⟨rfl, rfl⟩
  | run _ positive _ => omega

theorem head_eq (positive : 0 < used) : g.circAdd tail used = head := by
  cases live with
  | empty => omega
  | run _ _ _ => rfl

theorem tail_inArea (positive : 0 < used) : g.InArea tail := by
  cases live with
  | empty => omega
  | run area _ _ => exact area

theorem head_inArea : head = 0 ∨ g.InArea head := by
  cases live with
  | empty => exact .inl rfl
  | run area _ fits => exact .inr (area.circAdd fits)

/-- A full log is exactly an equal pair of nonzero offsets. -/
theorem full_iff : used = g.circSize ↔ head = tail ∧ head ≠ 0 := by
  have sizePos := g.circSize_pos
  cases live with
  | empty => simp; omega
  | @run tail used area positive fits =>
    have tailPos := area.pos
    rcases area with ⟨lower, upper⟩
    unfold Geometry.circAdd
    split <;> omega

/-- `wapbl_space_used` counts the bytes in use. -/
theorem spaceUsed : wapblSpaceUsed g.circSize head tail = some used := by
  cases live with
  | empty => simp [wapblSpaceUsed, kassert]
  | @run tail used area positive fits =>
    have tailPos := area.pos
    rcases area with ⟨lower, upper⟩
    have nonzero : tail ≠ 0 := by omega
    simp only [wapblSpaceUsed, nonzero, if_false, pure_def, some.injEq]
    unfold Geometry.circAdd
    split
    · -- no wrap: one whole turn too much stands under the modulus
      rw [show tail + used + (g.circSize - 1) - tail = (used - 1) + g.circSize by omega,
        Nat.add_mod_right, Nat.mod_eq_of_lt (by omega)]
      omega
    · rw [Nat.mod_eq_of_lt (by omega)]
      omega

theorem spaceFree : wapblSpaceFree g.circSize head tail = some (g.circSize - used) := by
  simp [wapblSpaceFree, live.spaceUsed]

end LiveLog

variable {g : Geometry}

/-- Inside the area, and for less than a whole turn from the start of an empty
log, `wapbl_advance` passes its assertions and is circular addition. -/
theorem wapblAdvance_eq {old n : Nat} (area : g.InArea old) (turn : n ≤ g.circSize) :
    wapblAdvance g.circSize g.circOff old n = some (g.circAdd old n) := by
  have offPos := g.circOff_pos
  rcases area with ⟨lower, upper⟩
  have nonzero : old ≠ 0 := by omega
  unfold wapblAdvance Geometry.circAdd
  simp only [nonzero, false_and, if_false, false_or, add_comm g.circSize]
  split <;>
    simp only [kassert, bind_eq_bind, turn, lower, upper, if_true, bind_some, pure_def]
  all_goals
    rw [if_pos (by omega), if_pos (by omega), if_pos (by omega), if_pos (by omega),
      if_pos (by omega)]
    simp

theorem wapblAdvance_zero (g : Geometry) : wapblAdvance g.circSize g.circOff 0 0 = some 0 := by
  have sizePos := g.circSize_pos
  have bound : 0 < g.circSize + g.circOff := by omega
  simp [wapblAdvance, kassert, bound]

theorem wapblAdvance_start {delta : Nat} (positive : 0 < delta) (short : delta < g.circSize) :
    wapblAdvance g.circSize g.circOff 0 delta = some (g.circAdd g.circOff delta) := by
  have offPos := g.circOff_pos
  have nonzero : delta ≠ 0 := by omega
  have notSize : delta ≠ g.circSize := by omega
  have sum : g.circOff + delta < g.circSize + g.circOff := by omega
  have sum' : g.circOff + delta < g.circOff + g.circSize := by omega
  simp [wapblAdvance, kassert, Geometry.circAdd, nonzero, notSize, sum, sum', offPos,
    le_of_lt short]

namespace LiveLog

variable {g : Geometry} {head tail used : Nat} {delta : Nat}

variable (live : LiveLog g head tail used)
include live

/-- Advancing the head of a log puts `delta` more bytes in use after the old
head; the tail of an empty log moves to the start of the area. -/
theorem advanceHead (fits : delta ≤ g.circSize - used) (short : used = 0 → delta < g.circSize) :
    ∃ head' tail', wapblAdvanceHead g.circSize g.circOff delta head tail = some (head', tail') ∧
        LiveLog g head' tail' (used + delta) ∧
        (0 < used → tail' = tail) ∧ (0 < used + delta → used = 0 → tail' = g.circOff) := by
  cases live with
  | empty =>
    have below := short rfl
    by_cases zero : delta = 0
    · subst delta
      refine ⟨0, 0, ?_, .empty, by omega, by omega⟩
      simp [wapblAdvanceHead, LiveLog.empty.spaceFree, wapblAdvance_zero, kassert]
    · have positive : 0 < delta := Nat.pos_of_ne_zero zero
      have area := g.inArea_circOff.circAdd (le_of_lt below)
      refine ⟨g.circAdd g.circOff delta, g.circOff, ?_, ?_, by omega, fun _ _ => rfl⟩
      · have nonzero : g.circAdd g.circOff delta ≠ 0 := Nat.ne_of_gt area.pos
        simp [wapblAdvanceHead, LiveLog.empty.spaceFree, wapblAdvance_start positive below,
          kassert, le_of_lt below, nonzero]
      · rw [zero_add]
        exact .run g.inArea_circOff positive (le_of_lt below)
  | @run tail used area positive usedFits =>
    have headArea := area.circAdd usedFits
    have tailNe : tail ≠ 0 := Nat.ne_of_gt area.pos
    refine ⟨g.circAdd tail (used + delta), tail, ?_, .run area (by omega) (by omega),
      fun _ => rfl, by omega⟩
    have free := (LiveLog.run area positive usedFits).spaceFree
    have moved := wapblAdvance_eq headArea (n := delta) (by omega)
    rw [Geometry.circAdd_circAdd area (by omega)] at moved
    simp [wapblAdvanceHead, free, kassert, fits, moved, tailNe]

/-- Advancing the tail releases the oldest `delta` bytes, unless it is asked to
release nothing of a full log. -/
theorem advanceTail (bound : delta ≤ used) (proper : 0 < delta ∨ used < g.circSize) :
    ∃ head' tail', wapblAdvanceTail g.circSize g.circOff delta head tail = some (head', tail') ∧
        LiveLog g head' tail' (used - delta) ∧
        (delta < used → head' = head ∧ tail' = g.circAdd tail delta) := by
  cases live with
  | empty =>
    have zero : delta = 0 := by omega
    subst delta
    refine ⟨0, 0, ?_, .empty, by omega⟩
    simp [wapblAdvanceTail, LiveLog.empty.spaceUsed, wapblAdvance_zero, kassert]
  | @run tail used area positive fits =>
    have count := (LiveLog.run area positive fits).spaceUsed
    have moved := wapblAdvance_eq area (n := delta) (by omega)
    by_cases all : delta = used
    · subst delta
      refine ⟨0, 0, ?_, by simpa using LiveLog.empty, by omega⟩
      simp [wapblAdvanceTail, count, kassert, moved]
    · -- the head is reached only after the remaining bytes
      have split : g.circAdd tail used = g.circAdd (g.circAdd tail delta) (used - delta) := by
        rw [Geometry.circAdd_circAdd area (by omega), Nat.add_sub_cancel' bound]
      have tailArea := area.circAdd (show delta ≤ g.circSize by omega)
      have rest : LiveLog g (g.circAdd tail used) (g.circAdd tail delta) (used - delta) := by
        rw [split]
        exact .run tailArea (by omega) (by omega)
      have apart : g.circAdd tail used ≠ g.circAdd tail delta := by
        intro equal
        have isFull := rest.full_iff.mpr ⟨equal, Nat.ne_of_gt (area.circAdd fits).pos⟩
        omega
      refine ⟨g.circAdd tail used, g.circAdd tail delta, ?_, rest, fun _ => ⟨rfl, rfl⟩⟩
      simp [wapblAdvanceTail, count, kassert, bound, moved, apart]

/-- The boundary that `advanceTail` leaves out: releasing nothing of a full log
gives the empty log. -/
theorem advanceTail_full (full : used = g.circSize) :
    wapblAdvanceTail g.circSize g.circOff 0 head tail = some (0, 0) := by
  have equal := live.full_iff.mp full
  have count := live.spaceUsed
  cases live with
  | empty => omega
  | @run tail used area positive fits =>
    have moved := wapblAdvance_eq area (n := 0) (by omega)
    rw [Geometry.circAdd_zero area] at moved
    rw [equal.1] at count ⊢
    simp [wapblAdvanceTail, count, kassert, moved]

end LiveLog

end Bitrig.Wapbl
