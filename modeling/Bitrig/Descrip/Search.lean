import Bitrig.Descrip.Maps

/-!
# The search for a descriptor

`find_next_zero` gives the first zero bit of a bitmap, and `fdalloc` the lowest descriptor
that is not in use, whatever the memory behind the bitmaps holds.
-/

namespace Bitrig.Descrip

open Transition
open Bitmap

variable {φ : Type}

/-! ### One bitmap -/

section Bits

variable {bitmap : Nat → Word} {want bits n : Nat}

/-- The mask that hides the bits below `i`. -/
theorem getLsbD_mask {i j : Nat} (small : i ≤ 32) :
    (BitVec.allOnes 32 >>> (32 - i)).getLsbD j = decide (j < i) := by
  rw [BitVec.getLsbD_ushiftRight, BitVec.getLsbD_allOnes]
  congr 1
  apply propext
  omega

/-- The rest of a word is all ones. -/
theorem masked_full (full : bitmap (want / 32) ||| BitVec.allOnes 32 >>> (32 - want % 32) =
      BitVec.allOnes 32) :
    ∀ m, want ≤ m → m < (want / 32 + 1) * 32 → bit bitmap m = true := by
  intro m low high
  have set := eq_allOnes_iff.mp full (m % 32) (Nat.mod_lt m (by decide))
  have word : m / 32 = want / 32 := by omega
  rw [BitVec.getLsbD_or, getLsbD_mask (by omega), decide_eq_false (by omega), Bool.or_false] at set
  unfold bit
  rw [word]
  exact set

theorem findNextZero_eq_some (found : findNextZero bitmap want bits = some n) :
    want ≤ bits ∧ FirstZero bitmap want n := by
  unfold findNextZero at found
  split at found
  case isTrue => cases found
  case isFalse inside =>
    refine ⟨not_lt.mp inside, ?_⟩
    dsimp only at found
    split_ifs at found with offset other
    · cases found
      apply FirstZero.of_word other
      · intro m low high
        omega
      · intro i less reached
        rw [BitVec.getLsbD_or, getLsbD_mask (by omega), decide_eq_false (by omega), Bool.or_false]
      · intro i less early
        rw [BitVec.getLsbD_or, getLsbD_mask (by omega), decide_eq_true (by omega), Bool.or_true]
    · have later := scanWords_eq_some (by decide) found
      have least := later.least
      refine ⟨by omega, later.zero, ?_⟩
      intro m low high
      by_cases here : m < (want / 32 + 1) * 32
      · exact masked_full (not_not.mp other) m low here
      · exact later.ones m (by omega) high
    · have whole : want / 32 * 32 = want := by omega
      have first := scanWords_eq_some (by decide) found
      rwa [whole] at first

theorem findNextZero_eq_none (found : findNextZero bitmap want bits = none) :
    bits < want ∨ ∀ m, want ≤ m → m < ndloslots bits * 32 → bit bitmap m = true := by
  unfold findNextZero at found
  split at found
  case isTrue outside => exact .inl outside
  case isFalse =>
    right
    intro m low high
    dsimp only at found
    split_ifs at found with offset other
    · by_cases here : m < (want / 32 + 1) * 32
      · exact masked_full (not_not.mp other) m low here
      · exact scanWords_eq_none (by decide) found m (by omega) (by omega)
    · exact scanWords_eq_none (by decide) found m (by omega) (by omega)

end Bits

/-! ### Both bitmaps -/

section Search

variable {fd : Filedesc φ} {used : Nat → Bool} {junk : Junk} {i j last want new k : Nat}

variable (maps : Maps fd used)
include maps

/-- A bit of the first bitmap, as it is read. -/
theorem Maps.bit_readLo (junk : Junk) (less : j < fd.nfiles) : bit (fd.readLo junk) j = used j := by
  have word := word_lt_ndloslots less
  rw [← maps.lo j (lt_of_lt_of_le less (le_ndloslots _))]
  unfold bit Filedesc.readLo
  rw [if_pos word]

/-- A bit of the second bitmap that is read as one tells that descriptors are in use. -/
theorem Maps.used_of_readHi (less : j < fd.nfiles) (set : bit (fd.readHi junk) (j / 32) = true) :
    used j = true := by
  have word := word_lt_ndloslots less
  have slot : j / 32 / 32 < ndhislots fd.nfiles := by
    unfold ndloslots at word
    omega
  have hiBit : bit fd.himap (j / 32) = true := by
    unfold bit Filedesc.readHi at set
    rw [if_pos slot] at set
    exact set
  rw [maps.hi _ word, decide_eq_true_eq, word_eq_allOnes_iff (by decide)] at hiBit
  rw [← maps.lo j (lt_of_lt_of_le less (le_ndloslots _))]
  exact hiBit j rfl

omit maps in
/-- A bit of the part of the bitmap that begins with a word. -/
theorem bit_shift (map : Nat → Word) : bit (fun j => map (new + j)) k = bit map (new * 32 + k) := by
  unfold bit
  have quot : (new * 32 + k) / 32 = new + k / 32 := by omega
  have rem : (new * 32 + k) % 32 = k % 32 := by omega
  rw [quot, rem]

/-- What the search of `fdalloc` has found out. -/
structure Found (fd : Filedesc φ) (used : Nat → Bool) (last want : Nat) (result : Nat × Nat) :
    Prop where
  least : want ≤ result.2
  before : ∀ j, want ≤ j → j < result.2 → j < last → used j = true
  isFree : result.2 < last → used result.2 = false
  hint : result.2 < last → result.1 ≤ fd.freefile → ∀ j < result.2, used j = true

/-- Between the start of the search and the word that the second bitmap gives, all
descriptors are in use. -/
theorem Maps.used_before_word (inTable : last ≤ fd.nfiles)
    (hi : FirstZero (fd.readHi junk) (i / 32) new) (low : i ≤ j) (high : j < new * 32)
    (below : j < last) : used j = true :=
  maps.used_of_readHi (lt_of_lt_of_le below inTable)
    (hi.ones (j / 32) (by omega) (by omega))

/-- In the word that the second bitmap gives, and behind it, the search goes bit by bit. -/
theorem Maps.used_of_shift (inTable : last ≤ fd.nfiles)
    (ones : ∀ m, (if i / 32 < new then 0 else i % 32) ≤ m → m < k →
      bit (fun j => fd.readLo junk (new + j)) m = true)
    (hi : FirstZero (fd.readHi junk) (i / 32) new) (low : i ≤ j) (high : j < new * 32 + k)
    (below : j < last) : used j = true := by
  by_cases earlier : j < new * 32
  · exact maps.used_before_word inTable hi low earlier below
  · obtain ⟨m, rfl⟩ := Nat.exists_eq_add_of_le (not_lt.mp earlier)
    rw [← maps.bit_readLo junk (lt_of_lt_of_le below inTable), ← bit_shift (fd.readLo junk)]
    exact ones m (by split <;> omega) (by omega)

theorem fdallocSearch_spec (inTable : last ≤ fd.nfiles) (junk : Junk) (fuel want : Nat)
    (enough : (last + 31) / 32 + 1 < fuel + max want fd.freefile / 32) :
    match fdallocSearch fd junk last fuel want with
    | none => ∀ j, want ≤ j → j < last → used j = true
    | some result => Found fd used last want result := by
  induction fuel generalizing want with
  | zero =>
    intro j low high
    exact maps.free j (by omega)
  | succ fuel ih =>
    have start : ∀ j, want ≤ j → j < max want fd.freefile → used j = true :=
      fun j low high => maps.free j (by omega)
    unfold fdallocSearch
    dsimp only
    generalize origin : max want fd.freefile = i at enough start ⊢
    cases hiFound : findNextZero (fd.readHi junk) (i / 32) ((last + 31) / 32) with
    | none =>
      intro j low high
      by_cases early : j < i
      · exact start j low early
      · rcases findNextZero_eq_none hiFound with outside | ones
        · omega
        · have room := le_ndloslots ((last + 31) / 32)
          exact maps.used_of_readHi (lt_of_lt_of_le high inTable)
            (ones (j / 32) (by omega) (by omega))
    | some new =>
      have hi := (findNextZero_eq_some hiFound).2
      have least := hi.least
      dsimp only
      cases loFound : findNextZero (fun j => fd.readLo junk (new + j))
          (if i / 32 < new then 0 else i % 32) 32 with
      | none =>
        -- the zero bits of the word are below the start, and the next words are full
        have ones := (findNextZero_eq_none loFound).resolve_left (by split <;> omega)
        have restarted (j : Nat) (low : want ≤ j) (high : j < (new + 1) * 32)
            (below : j < last) : used j = true := by
          by_cases early : j < i
          · exact start j low early
          · exact maps.used_of_shift inTable ones hi (not_lt.mp early)
              (by unfold ndloslots ndhislots ndreduce; omega) below
        have later := ih ((new + 1) * 32) (by omega)
        generalize fdallocSearch fd junk last fuel ((new + 1) * 32) = result at later ⊢
        cases result with
        | none =>
          intro j low high
          by_cases early : j < (new + 1) * 32
          · exact restarted j low early high
          · exact later j (not_lt.mp early) high
        | some result =>
          have reached := later.least
          refine ⟨by omega, ?_, later.isFree, later.hint⟩
          intro j low high below
          by_cases early : j < (new + 1) * 32
          · exact restarted j low early below
          · exact later.before j (not_lt.mp early) high below
      | some k =>
        have lo := (findNextZero_eq_some loFound).2
        have reached := lo.least
        have between (j : Nat) (low : i ≤ j) (high : j < k + new * 32)
            (below : j < last) : used j = true :=
          maps.used_of_shift inTable lo.ones hi low (by omega) below
        constructor
        · split at reached <;> omega
        · intro j low high below
          by_cases early : j < i
          · exact start j low early
          · exact between j (not_lt.mp early) high below
        · intro below
          rw [← maps.bit_readLo junk (lt_of_lt_of_le below inTable), add_comm, ← bit_shift]
          exact lo.zero
        · intro below low j high
          by_cases early : j < fd.freefile
          · exact maps.free j early
          · exact between j (by omega) high (by omega)

/-- A descriptor that `fdalloc` may give. -/
def Eligible (fd : Filedesc φ) (used : Nat → Bool) (lim want i : Nat) : Prop :=
  want ≤ i ∧ i < min fd.nfiles lim ∧ used i = false

/-- `fdalloc` gives the lowest descriptor that it may give, and fails if there is none. -/
theorem fdalloc_spec (junk : Junk) (lim want : Nat) : match fdalloc fd junk lim want with
    | .ok (fd', i) =>
      Eligible fd used lim want i ∧ (∀ j, Eligible fd used lim want j → i ≤ j) ∧
        Maps fd' (Function.update used i true) ∧ fd'.ofiles = fd.ofiles ∧
        fd'.nfiles = fd.nfiles
    | .error errno =>
      (∀ j, ¬Eligible fd used lim want j) ∧
        errno = if lim ≤ fd.nfiles then .emfile else .enospc := by
  have search := fdallocSearch_spec maps (min_le_left fd.nfiles lim) junk
    (min fd.nfiles lim + 2) want (by omega)
  unfold fdalloc
  dsimp only
  generalize fdallocSearch fd junk (min fd.nfiles lim) (min fd.nfiles lim + 2) want = result
    at search ⊢
  cases result with
  | none =>
    refine ⟨?_, rfl⟩
    rintro j ⟨low, high, isFree⟩
    rw [search j low high] at isFree
    cases isFree
  | some result =>
    obtain ⟨want', i⟩ := result
    dsimp only
    by_cases below : i < min fd.nfiles lim
    · rw [if_pos below]
      have isFree : used i = false := search.isFree below
      have marked := maps.fdUsed (by omega) isFree
      refine ⟨⟨search.least, below, isFree⟩, ?_, ?_, ?_⟩
      · rintro j ⟨low, high, isFree'⟩
        by_contra earlier
        rw [search.before j low (not_le.mp earlier) high] at isFree'
        cases isFree'
      · split
        case isTrue hinted =>
          refine ⟨marked.lo, marked.hi, marked.bound, marked.last, ?_, marked.count⟩
          intro j lower
          rw [Function.update_of_ne (ne_of_lt lower)]
          exact search.hint below hinted j lower
        case isFalse => exact marked
      · split <;> exact ⟨rfl, rfl⟩
    · rw [if_neg below]
      refine ⟨?_, rfl⟩
      rintro j ⟨low, high, isFree⟩
      have reached : min fd.nfiles lim ≤ i := not_lt.mp below
      rw [search.before j low (lt_of_lt_of_le high reached) high] at isFree
      cases isFree

end Search

end Bitrig.Descrip
