import Bitrig.Descrip.Search

/-!
# The lowest free descriptor

The maps of a table describe its files in every state that the callers lead to, if no caller
removes a descriptor that is not in use any more.
-/

namespace Bitrig.Descrip

open Transition Function Option
open Bitmap

variable {φ : Type}

/-- The sizes of tables. -/
def IsSize (n : Nat) : Prop :=
  n = ndfile ∨ ∃ k, n = ndextent * 2 ^ k

/-- The maps describe the files of a table. -/
structure Inv (fd : Filedesc φ) : Prop where
  maps : Maps fd fd.inUse
  size : IsSize fd.nfiles

section Changes

variable {fd fd' : Filedesc φ} {used : Nat → Bool} {i : Nat} {fp : φ} {m n lim want new : Nat}
  {drops : φ → Bool} {junk : Junk} {deadlk : Bool}

/-- The maps do not depend on the files. -/
theorem Maps.setFiles (maps : Maps fd used) (ofiles : Nat → Option φ) :
    Maps { fd with ofiles } used :=
  ⟨maps.lo, maps.hi, maps.bound, maps.last, maps.free, maps.count⟩

theorem isSome_update (ofiles : Nat → Option φ) (file : Option φ) :
    (fun j => (update ofiles i file j).isSome) =
      update (fun j => (ofiles j).isSome) i file.isSome := by
  funext j
  by_cases same : j = i
  · subst same
    simp
  · simp [same]

/-- A file is stored for a descriptor that is marked as used. -/
theorem Inv.store (size : IsSize fd.nfiles) (maps : Maps fd (update fd.inUse i true)) :
    Inv { fd with ofiles := update fd.ofiles i (some fp) } := by
  refine ⟨?_, size⟩
  have inUse : { fd with ofiles := update fd.ofiles i (some fp) }.inUse =
      update fd.inUse i true :=
    isSome_update fd.ofiles (some fp)
  rw [inUse]
  exact maps.setFiles _

/-- The file of a descriptor in use is taken away. -/
theorem Inv.remove (inv : Inv fd) (isUsed : fd.inUse i = true) :
    ∃ fd', fdUnused { fd with ofiles := update fd.ofiles i none } i = some fd' ∧
      Inv fd' := by
  have files := isSome_update (i := i) fd.ofiles none
  obtain ⟨fd', result, maps, ofiles, nfiles⟩ :=
    (inv.maps.setFiles (update fd.ofiles i none)).fdUnused isUsed
      (fun j => congrFun files j)
  refine ⟨fd', result, ?_, by rw [nfiles]; exact inv.size⟩
  have inUse : fd'.inUse = update fd.inUse i false := by
    unfold Filedesc.inUse
    rw [ofiles]
    exact files
  rw [inUse]
  exact maps

theorem Inv.fdremove (inv : Inv fd) (isUsed : fd.inUse i = true)
    (removed : fdremove fd i = some fd') : Inv fd' := by
  obtain ⟨result, equal, kept⟩ := inv.remove isUsed
  obtain rfl := some.inj (removed.symm.trans equal)
  exact kept

theorem Inv.fdrelease (inv : Inv fd) (released : fdrelease fd i = some fd') : Inv fd' := by
  unfold Descrip.fdrelease at released
  split at released
  case isTrue =>
    cases released
    exact inv
  case isFalse present =>
    have isUsed : fd.inUse i = true := by
      rw [Filedesc.inUse, isSome_iff_ne_none]
      simpa using present
    exact inv.fdremove isUsed released

/-! ### Tables of another size -/

theorem ndhislots_mono (le : m ≤ n) : ndhislots m ≤ ndhislots n := by
  unfold ndhislots ndreduce
  omega

theorem ndloslots_mono (le : m ≤ n) : ndloslots m ≤ ndloslots n :=
  Nat.mul_le_mul_right 32 (ndhislots_mono le)

/-- The number of descriptors in use does not depend on the size of the table. -/
theorem Maps.card_eq (maps : Maps fd used) (fits : fd.lastfile < n) :
    ((Finset.range n).filter (used · = true)).card =
      ((Finset.range fd.nfiles).filter (used · = true)).card := by
  congr 1
  ext j
  simp only [Finset.mem_filter, Finset.mem_range]
  constructor
  · rintro ⟨_, isUsed⟩
    exact ⟨maps.lt_nfiles isUsed, isUsed⟩
  · rintro ⟨_, isUsed⟩
    exact ⟨lt_of_le_of_lt (maps.bound j isUsed) fits, isUsed⟩

/-- A bit of a bitmap that is copied and filled up with zeros. -/
theorem bit_copy (map : Nat → Word) (size j : Nat) :
    bit (fun i => if i < size then map i else 0) j = (decide (j / 32 < size) && bit map j) := by
  unfold bit
  by_cases inside : j / 32 < size
  · simp [inside]
  · simp [inside]

/-- A table of another size with the same descriptors in use. -/
theorem Inv.resize (inv : Inv fd) (size : IsSize n) (fits : fd.lastfile < n)
    {himap lomap : Nat → Word} {ofiles : Nat → Option φ}
    (same : (fun j => (ofiles j).isSome) = fd.inUse)
    (lo : ∀ j < ndloslots n * 32, bit lomap j = fd.inUse j)
    (hi : ∀ j < ndloslots n, bit himap j = decide (lomap j = BitVec.allOnes 32)) :
    Inv { fd with nfiles := n, himap, lomap, ofiles } := by
  refine ⟨?_, size⟩
  have inUse : { fd with nfiles := n, himap, lomap, ofiles }.inUse = fd.inUse := same
  rw [inUse]
  exact
    { lo := lo
      hi := hi
      bound := inv.maps.bound
      last := fits
      free := inv.maps.free
      count := inv.maps.count.trans (by rw [inv.maps.card_eq fits]) }

/-- The files of a table that has room for them. -/
theorem Inv.inUse_clip (inv : Inv fd) (fits : fd.lastfile < n) :
    (fun j => (if j < n then fd.ofiles j else none).isSome) = fd.inUse := by
  funext j
  by_cases inside : j < n
  · simp [inside, Filedesc.inUse]
  · have unused : fd.inUse j = false := by
      rw [← Bool.not_eq_true]
      intro isUsed
      have := inv.maps.bound j isUsed
      omega
    simp [inside, unused]

/-- A copy of a table of a size for all descriptors in use. -/
theorem Inv.copy (inv : Inv fd) (size : IsSize n) (fits : fd.lastfile < n)
    (smaller : n ≤ fd.nfiles) :
    Inv { fd with
      nfiles := n
      ofiles := fun i => if i < n then fd.ofiles i else none
      himap := fun i => if i < ndhislots n then fd.himap i else 0
      lomap := fun i => if i < ndloslots n then fd.lomap i else 0 } := by
  have slots := ndloslots_mono smaller
  apply inv.resize size fits (inv.inUse_clip fits)
  · intro j inside
    rw [bit_copy, decide_eq_true (by omega)]
    exact inv.maps.lo j (by omega)
  · intro j inside
    have word : j / 32 < ndhislots n := by
      unfold ndloslots at inside
      omega
    rw [bit_copy, decide_eq_true word, if_pos inside]
    exact inv.maps.hi j (by omega)

/-- An expanded table has a size and is not smaller. -/
theorem expanded_size (size : IsSize n) : IsSize (if n < ndextent then ndextent else 2 * n) ∧
      n ≤ if n < ndextent then ndextent else 2 * n := by
  split
  case isTrue small => exact ⟨.inr ⟨0, rfl⟩, le_of_lt small⟩
  case isFalse large =>
    refine ⟨?_, by omega⟩
    rcases size with rfl | ⟨k, rfl⟩
    · exact absurd (by decide) large
    · exact .inr ⟨k + 1, by rw [Nat.pow_succ]; ring⟩

theorem Inv.fdexpand (inv : Inv fd) : Inv (fdexpand fd) := by
  obtain ⟨size, larger⟩ := expanded_size inv.size
  unfold Descrip.fdexpand
  dsimp only
  generalize (if fd.nfiles < ndextent then ndextent else 2 * fd.nfiles) = n at size larger ⊢
  have fits : fd.lastfile < n := lt_of_lt_of_le inv.maps.last larger
  have inUse := inv.inUse_clip inv.maps.last
  split
  case isTrue grows =>
    apply inv.resize size fits inUse
    · intro j _
      rw [bit_copy]
      by_cases inside : j / 32 < ndloslots fd.nfiles
      · rw [decide_eq_true inside, Bool.true_and]
        exact inv.maps.lo j (by omega)
      · rw [decide_eq_false inside, Bool.false_and, eq_comm, ← Bool.not_eq_true]
        intro isUsed
        exact inside (word_lt_ndloslots (inv.maps.lt_nfiles isUsed))
    · intro j _
      have word : j / 32 < ndhislots fd.nfiles ↔ j < ndloslots fd.nfiles := by
        unfold ndloslots
        omega
      rw [bit_copy]
      by_cases inside : j < ndloslots fd.nfiles
      · rw [decide_eq_true (word.mpr inside), Bool.true_and, if_pos inside]
        exact inv.maps.hi j inside
      · rw [decide_eq_false (mt word.mp inside), Bool.false_and, if_neg inside]
        rfl
  case isFalse same =>
    have slots : ndloslots n = ndloslots fd.nfiles := by
      have := ndhislots_mono larger
      unfold ndloslots
      omega
    apply inv.resize size fits inUse
    · rw [slots]
      exact inv.maps.lo
    · rw [slots]
      exact inv.maps.hi

/-- Halving a table keeps it large enough. -/
theorem shrink_spec {lastfile : Nat} (size : IsSize n) (fits : lastfile < n) :
    IsSize (shrink lastfile n) ∧ lastfile < shrink lastfile n ∧ shrink lastfile n ≤ n := by
  induction n using Nat.strong_induction_on with
  | _ n ih =>
    unfold shrink
    split
    case isTrue large =>
      have half : ∃ m, n = 2 * m ∧ IsSize m := by
        rcases size with rfl | ⟨k, rfl⟩
        · exact absurd large.1 (by decide)
        · cases k with
          | zero => exact absurd large.1 (by decide)
          | succ k => exact ⟨ndextent * 2 ^ k, by rw [Nat.pow_succ]; ring, .inr ⟨k, rfl⟩⟩
      obtain ⟨m, rfl, size'⟩ := half
      rw [Nat.mul_div_cancel_left m (by decide)]
      obtain ⟨size'', fits', upper⟩ := ih m (by omega) size' (by omega)
      exact ⟨size'', fits', by omega⟩
    case isFalse => exact ⟨size, fits, le_refl n⟩

theorem Inv.dropFiles {fuel : Nat} (inv : Inv fd) (result : dropFiles drops fuel i fd = some fd') :
    Inv fd' := by
  induction fuel generalizing i fd with
  | zero =>
    cases result
    exact inv
  | succ fuel ih =>
    unfold Descrip.dropFiles at result
    split_ifs at result with done dropped
    · cases result
      exact inv
    · obtain ⟨middle, removed, rest⟩ := bind_eq_some_iff.mp result
      have isUsed : fd.inUse i = true := by
        obtain ⟨file, present, _⟩ := (any_eq_true _ _).mp dropped
        simp [Filedesc.inUse, present]
      exact ih (inv.fdremove isUsed removed) rest
    · exact ih inv result

theorem Inv.fdcopy (inv : Inv fd) (copied : fdcopy drops fd = some fd') : Inv fd' := by
  have last := inv.maps.last
  unfold Descrip.fdcopy at copied
  dsimp only at copied
  split at copied
  case isTrue few =>
    apply (inv.copy (.inl rfl) few _).dropFiles copied
    rcases inv.size with nfiles | ⟨k, nfiles⟩
    · exact Nat.le_of_eq nfiles.symm
    · rw [nfiles]
      exact le_trans (by decide) (Nat.le_mul_of_pos_right ndextent (Nat.two_pow_pos k))
  case isFalse =>
    obtain ⟨size, fits, smaller⟩ := shrink_spec inv.size last
    exact (inv.copy size fits smaller).dropFiles copied

/-! ### Callers -/

section

variable (inv : Inv fd)
include inv

theorem Inv.failed (errno : Errno) : Inv (failed fd errno) := by
  cases errno with
  | enospc => exact inv.fdexpand
  | emfile | enfile | ebadf => exact inv

/-- A descriptor that `fdalloc` has given. -/
theorem Inv.allocated (result : fdalloc fd junk lim want = .ok (fd', i)) :
    Eligible fd fd.inUse lim want i ∧ Maps fd' (update fd'.inUse i true) ∧
      fd'.inUse i = false ∧ IsSize fd'.nfiles := by
  have spec := fdalloc_spec inv.maps junk lim want
  rw [result] at spec
  obtain ⟨eligible, _, maps, ofiles, nfiles⟩ := spec
  have inUse : fd'.inUse = fd.inUse := by
    unfold Filedesc.inUse
    rw [ofiles]
  rw [inUse, nfiles]
  exact ⟨eligible, maps, eligible.2.2, inv.size⟩

theorem Inv.falloc {full : Bool} (done : falloc fd fp full lim junk = some fd') : Inv fd' := by
  unfold Descrip.falloc at done
  split at done
  case h_1 =>
    cases done
    exact inv.failed _
  case h_2 middle j result =>
    obtain ⟨_, maps, unused, size⟩ := inv.allocated result
    split at done
    case isTrue =>
      -- the descriptor is given back before it has a file
      have again : update (update middle.inUse j true) j false =
          middle.inUse := by
        rw [update_idem, ← unused, update_eq_self]
      obtain ⟨after, equal, maps', ofiles, nfiles⟩ := maps.fdUnused (update_self ..)
        (fun k => by rw [again]; rfl)
      obtain rfl := some.inj (done.symm.trans equal)
      rw [again] at maps'
      refine ⟨?_, by rw [nfiles]; exact size⟩
      have inUse : fd'.inUse = middle.inUse := by
        unfold Filedesc.inUse
        rw [ofiles]
      rw [inUse]
      exact maps'
    case isFalse =>
      cases done
      exact .store size maps

theorem Inv.dup : Inv (dup fd fp false want lim junk) := by
  unfold Descrip.dup
  split
  case h_1 => exact inv.failed _
  case h_2 middle j result =>
    obtain ⟨_, maps, _, size⟩ := inv.allocated result
    exact .store size maps

theorem Inv.finishdup (inTable : new < fd.nfiles) : Inv (finishdup fd fp deadlk new true) := by
  unfold Descrip.finishdup
  dsimp only
  split_ifs with dead fresh
  · exact inv
  · have unused : fd.inUse new = false := by
      simpa [Filedesc.inUse] using fresh.2
    have kept : Inv { fdUsed fd new with
        ofiles := update (fdUsed fd new).ofiles new (some fp) } :=
      .store inv.size (inv.maps.fdUsed inTable unused)
    exact kept
  · have isUsed : fd.inUse new = true := by
      rw [Filedesc.inUse, isSome_iff_ne_none]
      simpa using fresh
    refine .store inv.size ?_
    rw [← isUsed, update_eq_self]
    exact inv.maps

theorem Inv.dodup3 (done : dodup3 fd fp deadlk new lim junk = some fd') : Inv fd' := by
  unfold Descrip.dodup3 at done
  split_ifs at done with outside large
  · cases done
    exact inv
  · split at done
    case h_1 =>
      cases done
      exact inv.failed _
    case h_2 middle j result =>
      -- no descriptor behind the table is ever given
      obtain ⟨⟨low, high, _⟩, _⟩ := inv.allocated result
      omega
  · cases done
    exact inv.finishdup (not_le.mp large)

end

/-- A descriptor that is removed is in use, and a file is not duplicated to a new descriptor
when it has too many references. -/
def stillUsed (label : Label φ) (fd : Filedesc φ) : Prop :=
  match label with
  | .fdremove i => fd.inUse i = true
  | .dup _ deadlk _ _ _ => deadlk = false
  | _ => True

instance (label : Label φ) (fd : Filedesc φ) : Decidable (stillUsed label fd) := by
  cases label <;> simp only [stillUsed] <;> infer_instance

theorem Inv.next {label : Label φ} (inv : Inv fd) (guarded : stillUsed label fd)
    (stepped : next label fd = some fd') : Inv fd' := by
  cases label with
  | falloc fp full lim junk => exact inv.falloc stepped
  | dup fp deadlk want lim junk =>
    obtain rfl : deadlk = false := guarded
    cases stepped
    exact inv.dup
  | dup2 fp deadlk new lim junk => exact inv.dodup3 stepped
  | fdremove i =>
    unfold Descrip.next at stepped
    dsimp only at stepped
    split at stepped
    case isTrue => exact inv.fdremove guarded stepped
    case isFalse => cases stepped
  | fdrelease i =>
    unfold Descrip.next at stepped
    dsimp only at stepped
    split at stepped
    case isTrue => exact inv.fdrelease stepped
    case isFalse => cases stepped
  | fdexpand =>
    cases stepped
    exact inv.fdexpand
  | fdcopy drops => exact inv.fdcopy stepped

theorem fdinit_inv : Inv (fdinit : Filedesc φ) where
  maps :=
    { lo := fun i _ => by simp [fdinit, bit, Filedesc.inUse]
      hi := fun j _ => by
        change (0 : Word).getLsbD _ = decide ((0 : Word) = BitVec.allOnes 32)
        simp
      bound := nofun
      last := show 0 < 20 by decide
      free := nofun
      count := by simp [fdinit, Filedesc.inUse] }
  size := .inl rfl

/-- In every table that the callers make of a new one, as long as they remove only
descriptors in use: the first bitmap tells which descriptors are in use, the second which of
its words are all ones; the descriptors below the hint are in use; the counter is right; and
`fdalloc` gives the lowest descriptor that is not in use, from `want` on and below the limit
and the size of the table, and fails only if there is none. -/
theorem lowest_free_descriptor (run : Run next stillUsed (fdinit : Filedesc φ) fd) :
    (∀ i < ndloslots fd.nfiles * 32, bit fd.lomap i = fd.inUse i) ∧
    (∀ j < ndloslots fd.nfiles, bit fd.himap j = true ↔ fd.lomap j = BitVec.allOnes 32) ∧
    (∀ i < fd.freefile, fd.inUse i = true) ∧
    fd.openfd = ((Finset.range fd.nfiles).filter (fd.inUse · = true)).card ∧
    ∀ junk lim want, match fdalloc fd junk lim want with
      | .ok (_, i) =>
        Eligible fd fd.inUse lim want i ∧ ∀ j, Eligible fd fd.inUse lim want j → i ≤ j
      | .error errno =>
        (∀ j, ¬Eligible fd fd.inUse lim want j) ∧
          errno = if lim ≤ fd.nfiles then .emfile else .enospc := by
  have inv : Inv fd :=
    run.invariant (fun _ _ _ inv guarded stepped => inv.next guarded stepped) fdinit_inv
  refine ⟨inv.maps.lo, ?_, inv.maps.free, inv.maps.count, ?_⟩
  · intro j inside
    rw [inv.maps.hi j inside, decide_eq_true_eq]
  · intro junk lim want
    have spec := fdalloc_spec inv.maps junk lim want
    cases result : fdalloc fd junk lim want with
    | ok value =>
      rw [result] at spec
      exact ⟨spec.1, spec.2.1⟩
    | error errno =>
      rw [result] at spec
      exact spec

end Changes

def noJunk : Junk :=
  ⟨fun _ => 0, fun _ => 0⟩

/-- The lowest descriptor is given again after it was closed. -/
theorem sampleRun_lowest_free :
    ∃ fd : Filedesc Nat, Run next stillUsed fdinit fd ∧ fd.ofiles 0 = some 9 ∧
      fd.ofiles 1 = some 8 ∧ fd.lastfile = 5 ∧ fd.openfd = 3 ∧
      ∀ i < fd.freefile, fd.inUse i = true := by
  refine exec_implies (Q := fun fd =>
      fd.ofiles 0 = some 9 ∧ fd.ofiles 1 = some 8 ∧ fd.lastfile = 5 ∧ fd.openfd = 3)
    [.falloc 7 false 128 noJunk, .falloc 8 false 128 noJunk, .dup2 8 false 5 128 noJunk,
      .fdrelease 0, .falloc 9 false 128 noJunk] (by decide +kernel) ?_
  rintro fd run ⟨first, second, last, count⟩
  exact ⟨first, second, last, count, (lowest_free_descriptor run).2.2.1⟩

/-- A call that fails late removes a descriptor of which it does not know that it was
duplicated over and closed in the meantime: two descriptors are in use, one is counted. -/
theorem removed_twice_miscounts :
    ∃ fd : Filedesc Nat, Run next anyStep fdinit fd ∧ fd.inUse 0 = true ∧ fd.inUse 2 = true ∧
      fd.openfd = 1 := by
  exact exec_reaches [.falloc 6 false 128 noJunk, .falloc 7 false 128 noJunk,
    .falloc 8 false 128 noJunk, .dup2 6 false 1 128 noJunk, .fdrelease 1, .fdremove 1]
    (by decide +kernel)

end Bitrig.Descrip
