import Bitrig.Descrip.Table

/-!
# The maps of a descriptor table

What the two bitmaps, the counter and the two hints say about the descriptors in use, and
how `fd_used` and `fd_unused` keep it.
-/

namespace Bitrig.Descrip

open Transition Function
open Bitmap

variable {φ : Type}

/-- The table describes the set of descriptors in use. -/
structure Maps (fd : Filedesc φ) (used : Nat → Bool) : Prop where
  lo : ∀ i < ndloslots fd.nfiles * 32, bit fd.lomap i = used i
  hi : ∀ j < ndloslots fd.nfiles, bit fd.himap j = decide (fd.lomap j = BitVec.allOnes 32)
  bound : ∀ i, used i = true → i ≤ fd.lastfile
  last : fd.lastfile < fd.nfiles
  free : ∀ i < fd.freefile, used i = true
  count : fd.openfd = ((Finset.range fd.nfiles).filter (used · = true)).card

section Sizes

theorem le_ndreduce (x : Nat) : x ≤ ndreduce x * 32 := by
  unfold ndreduce
  omega

/-- The bitmap has a bit for each descriptor. -/
theorem le_ndloslots (x : Nat) : x ≤ ndloslots x * 32 := by
  have first := le_ndreduce x
  have second := le_ndreduce (ndreduce x)
  unfold ndloslots ndhislots
  omega

/-- The number of a word of a descriptor in the table. -/
theorem word_lt_ndloslots {i x : Nat} (less : i < x) : i / 32 < ndloslots x := by
  have := le_ndloslots x
  omega

end Sizes

section Use

variable {fd : Filedesc φ} {used : Nat → Bool} {i : Nat} {lomap himap bitmap : Nat → Word}
  {j n : Nat}

/-- A descriptor in use is one of the table. -/
theorem Maps.lt_nfiles (maps : Maps fd used) (isUsed : used i = true) : i < fd.nfiles :=
  lt_of_le_of_lt (maps.bound i isUsed) maps.last

/-- The bits of the word of a descriptor, and of the other words, when one bit changes. -/
theorem word_of_ne (other : j ≠ i / 32) :
    setBit lomap i j = lomap j ∧ clearBit lomap i j = lomap j := by
  unfold setBit clearBit
  rw [update_of_ne other, update_of_ne other]
  exact ⟨rfl, rfl⟩

theorem card_update_true (less : i < n) (isFree : used i = false) :
    ((Finset.range n).filter (update used i true · = true)).card =
      ((Finset.range n).filter (used · = true)).card + 1 := by
  have shape : (Finset.range n).filter (update used i true · = true) =
      insert i ((Finset.range n).filter (used · = true)) := by
    ext j
    by_cases same : j = i
    · subst same
      simp [less]
    · simp [same]
  rw [shape, Finset.card_insert_of_notMem (by simp [isFree])]

theorem card_update_false (less : i < n) (isUsed : used i = true) :
    ((Finset.range n).filter (used · = true)).card =
      ((Finset.range n).filter (update used i false · = true)).card + 1 := by
  have before : used = update (update used i false) i true := by
    simp [← isUsed]
  rw [← card_update_true less (update_self ..), ← before]

/-- A word is not all ones if one of its bits is zero. -/
theorem word_ne_allOnes (zero : bit lomap i = false) : lomap (i / 32) ≠ BitVec.allOnes 32 := by
  intro full
  rw [(word_eq_allOnes_iff (by decide)).mp full i rfl] at zero
  cases zero

/-- The bit of a full word, when a bit of the word is set. -/
theorem hi_setBit (before : bit himap j = decide (lomap j = BitVec.allOnes 32))
    (zero : bit lomap i = false) :
    bit (if setBit lomap i (i / 32) = BitVec.allOnes 32 then setBit himap (i / 32) else himap) j =
      decide (setBit lomap i j = BitVec.allOnes 32) := by
  by_cases here : j = i / 32
  · subst here
    split
    case isTrue full => rw [bit_setBit (by decide), decide_eq_true full]; simp
    case isFalse other =>
      rw [before, decide_eq_false other, decide_eq_false (word_ne_allOnes zero)]
  · rw [(word_of_ne here).1, ← before]
    split
    · simp [bit_setBit, here]
    · rfl

/-- The bit of a full word, when a bit of the word is cleared. -/
theorem hi_clearBit (before : bit himap j = decide (lomap j = BitVec.allOnes 32)) :
    bit (if lomap (i / 32) = BitVec.allOnes 32 then clearBit himap (i / 32) else himap) j =
      decide (clearBit lomap i j = BitVec.allOnes 32) := by
  by_cases here : j = i / 32
  · subst here
    have cleared : bit (clearBit lomap i) i = false := by simp [bit_clearBit]
    rw [decide_eq_false (word_ne_allOnes cleared)]
    split
    case isTrue => simp [bit_clearBit]
    case isFalse other => rw [before, decide_eq_false other]
  · rw [(word_of_ne here).2, ← before]
    split
    · simp [bit_clearBit, here]
    · rfl

theorem Maps.fdUsed (maps : Maps fd used) (less : i < fd.nfiles) (isFree : used i = false) :
    Maps (fdUsed fd i) (update used i true) := by
  have wasFree : bit fd.lomap i = false := by
    rw [maps.lo i (lt_of_lt_of_le less (le_ndloslots _)), isFree]
  constructor
  · intro j inMap
    change bit (setBit fd.lomap i) j = _
    rw [bit_setBit (by decide), maps.lo j inMap]
    by_cases same : j = i
    · subst same
      simp
    · simp [same]
  · intro j inMap
    exact hi_setBit (maps.hi j inMap) wasFree
  · intro j isUsed
    change j ≤ max fd.lastfile i
    by_cases same : j = i
    · omega
    · rw [update_of_ne same] at isUsed
      have := maps.bound j isUsed
      omega
  · have := maps.last
    change max fd.lastfile i < fd.nfiles
    omega
  · intro j below
    by_cases same : j = i
    · simp [same]
    · rw [update_of_ne same]
      exact maps.free j below
  · change fd.openfd + 1 = _
    rw [maps.count]
    exact_mod_cast (card_update_true less isFree).symm

/-! ### The last file -/

theorem lastWord_eq_none (result : lastWord bitmap n = none) : ∀ off < n, bitmap off = 0 := by
  induction n with
  | zero =>
    intro off less
    omega
  | succ n ih =>
    unfold lastWord at result
    split at result
    case isTrue zero =>
      intro off less
      by_cases top : off = n
      · rw [top, zero]
      · exact ih result off (by omega)
    case isFalse => cases result

theorem lastWord_eq_some {off : Nat} (result : lastWord bitmap n = some off) :
    ∀ k, off < k → k < n → bitmap k = 0 := by
  induction n with
  | zero => cases result
  | succ n ih =>
    unfold lastWord at result
    split at result
    case isTrue zero =>
      intro k above below
      by_cases top : k = n
      · rw [top, zero]
      · exact ih result k above (by omega)
    case isFalse =>
      cases result
      intro k above below
      omega

/-- The loop stops at the last descriptor with a file, or at zero. -/
theorem lastFile_spec (ofiles : Nat → Option φ) (n : Nat) :
    lastFile ofiles n ≤ n ∧ ∀ j ≤ n, (ofiles j).isSome = true → j ≤ lastFile ofiles n := by
  induction n with
  | zero => exact ⟨le_refl 0, fun j le _ => le⟩
  | succ n ih =>
    unfold lastFile
    split
    case isTrue => exact ⟨le_refl _, fun j le _ => le⟩
    case isFalse absent =>
      refine ⟨Nat.le_succ_of_le ih.1, ?_⟩
      intro j le present
      by_cases top : j = n + 1
      · subst top
        exact absurd present absent
      · exact ih.2 j (by omega) present

/-- `find_last_set` gives an upper bound for the descriptors in use below `last`. -/
theorem findLastSet_spec {last : Nat} (files : ∀ j, (fd.ofiles j).isSome = used j)
    (lo : ∀ j < last, bit fd.lomap j = used j) :
    findLastSet fd last ≤ last - 1 ∧ ∀ j < last, used j = true → j ≤ findLastSet fd last := by
  unfold findLastSet
  cases found : lastWord fd.lomap (if last = 0 then 0 else (last - 1) / 32 + 1) with
  | none =>
    refine ⟨Nat.zero_le _, ?_⟩
    intro j below isUsed
    have zero := lastWord_eq_none found (j / 32) (by rw [if_neg (by omega)]; omega)
    rw [← lo j below, bit, zero] at isUsed
    simp at isUsed
  | some off =>
    obtain ⟨upper, spec⟩ := lastFile_spec fd.ofiles (min ((off + 1) * 32 - 1) (last - 1))
    refine ⟨by dsimp only; omega, ?_⟩
    intro j below isUsed
    have inWord : j / 32 ≤ off := by
      by_contra beyond
      have zero := lastWord_eq_some found (j / 32) (by omega)
        (by rw [if_neg (by omega)]; omega)
      rw [← lo j below, bit, zero] at isUsed
      simp at isUsed
    exact spec j (by omega) ((files j).trans isUsed)

theorem Maps.fdUnused (maps : Maps fd used) (isUsed : used i = true)
    (files : ∀ j, (fd.ofiles j).isSome = update used i false j) :
    ∃ fd', fdUnused fd i = some fd' ∧ Maps fd' (update used i false) ∧
      fd'.ofiles = fd.ofiles ∧ fd'.nfiles = fd.nfiles := by
  have less := maps.lt_nfiles isUsed
  have lo : ∀ j < ndloslots fd.nfiles * 32,
      bit (clearBit fd.lomap i) j = update used i false j := by
    intro j inMap
    rw [bit_clearBit (by decide), maps.lo j inMap]
    by_cases same : j = i
    · subst same
      simp
    · simp [same]
  -- for the table with the bit cleared
  have search (after : Filedesc φ) (same : after.ofiles = fd.ofiles)
      (lomap : after.lomap = clearBit fd.lomap i) : findLastSet after i ≤ i - 1 ∧
        ∀ j < i, update used i false j = true → j ≤ findLastSet after i := by
    apply findLastSet_spec
    · rw [same]
      exact files
    · intro j below
      have := le_ndloslots fd.nfiles
      rw [lomap]
      exact lo j (by omega)
  unfold Descrip.fdUnused
  dsimp only
  rw [if_neg (not_lt.mpr (maps.bound i isUsed))]
  refine ⟨_, rfl, ?_, rfl, rfl⟩
  constructor
  · exact lo
  · intro j inMap
    exact hi_clearBit (maps.hi j inMap)
  · intro j stillUsed
    have other : j ≠ i := by
      rintro rfl
      simp at stillUsed
    have wasUsed : used j = true := by
      rwa [update_of_ne other] at stillUsed
    have bound := maps.bound j wasUsed
    dsimp only
    split
    · refine (search _ ?_ ?_).2 j (by omega) stillUsed <;> rfl
    · exact bound
  · dsimp only
    split
    · refine lt_of_le_of_lt (search _ ?_ ?_).1 (by omega) <;> rfl
    · exact maps.last
  · intro j below
    change j < min fd.freefile i at below
    rw [update_of_ne (by omega)]
    exact maps.free j (by omega)
  · change fd.openfd - 1 = _
    rw [maps.count, card_update_false less isUsed]
    push_cast
    ring

end Use

end Bitrig.Descrip
