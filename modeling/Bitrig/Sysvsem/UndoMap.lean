import Bitrig.Sysvsem.Undo
import Mathlib.Data.BitVec

/-!
# Adjustments as a map

What the undo list means: for each process a map from semaphores to adjustments,
zero where there is no entry.  A call of `semundo_adjust` on a list in good order
adds to the map at one point.

The numbers of semaphores have to be below `2^15`: entries hold them as shorts,
and a greater one is never found again.
-/

namespace Bitrig.Sysvsem

open Bitrig.KeyedList List

/-- The semaphore of an entry: the index of its set and its number there. -/
abbrev SemKey :=
  Nat × BitVec 16

/-- The semaphore to which an entry belongs. -/
def Undo.key (u : Undo) : SemKey :=
  (u.unId, u.unNum)

theorem Undo.isFor_iff {u : Undo} {semid : Nat} {semnum : BitVec 16}
    (small : semnum.toNat < 2 ^ 15) : u.IsFor semid semnum ↔ u.key = (semid, semnum) := by
  have signed : semnum.toInt = semnum.toNat := BitVec.toInt_eq_toNat_of_lt (by omega)
  rw [Undo.IsFor, Undo.key, ← signed, BitVec.toInt_inj, Prod.mk.injEq]

theorem Undo.ext_key (u v : Undo) (sameKey : u.key = v.key) (sameVal : u.unAdjval = v.unAdjval) :
    u = v := by
  cases u
  cases v
  simp_all [Undo.key]

/-- The adjustment in a list of entries. -/
abbrev entryAdj (ents : List Undo) (k : SemKey) : BitVec 16 :=
  lookup Undo.key Undo.unAdjval 0 ents k

/-- Distinct keys, non-zero adjustments and at most `SEMUME` entries. -/
structure EntsOk (info : Seminfo) (ents : List Undo) : Prop where
  sparse : Sparse Undo.key Undo.unAdjval 0 ents
  fits : ents.length ≤ info.semume

/-- The entry of a semaphore, if it needs one. -/
def entryOf (k : SemKey) (adjval : BitVec 16) : List Undo :=
  if adjval = 0 then [] else [⟨adjval, k.2, k.1⟩]

section Entries

variable {info : Seminfo} {semid : Nat} {semnum adjval : BitVec 16} {ents result : List Undo}
  {k : SemKey} {others : List Undo}

theorem entryAdj_entryOf_append (a : BitVec 16) (new : k ∉ others.map Undo.key) (other : SemKey) :
    entryAdj (entryOf k a ++ others) other = if other = k then a else entryAdj others other := by
  by_cases zero : a = 0
  · have absent : entryAdj others k = 0 := lookup_of_notMem new
    simp only [entryOf, zero, if_true, nil_append]
    split
    · next same => rw [same, absent]
    · rfl
  · rw [entryOf, if_neg zero, singleton_append, entryAdj, KeyedList.lookup_cons]
    exact if_congr eq_comm rfl rfl

theorem sparse_entryOf_append (a : BitVec 16) (new : k ∉ others.map Undo.key)
    (sparse : Sparse Undo.key Undo.unAdjval 0 others) :
    Sparse Undo.key Undo.unAdjval 0 (entryOf k a ++ others) := by
  rw [entryOf]
  split
  · exact sparse
  · next nonzero => exact sparse.cons new nonzero

/-- What the loop of `semundo_adjust` does to the entries: it changes the one of the
semaphore, and the others stay in some order. -/
theorem adjustLoop_some (front : List Undo) (small : semnum.toNat < 2 ^ 15) (nonzero : adjval ≠ 0)
    (ok : EntsOk info (front ++ ents)) (passed : (semid, semnum) ∉ front.map Undo.key)
    (adjusted : adjustLoop info semid semnum adjval front ents = some result) :
    result.length ≤ info.semume ∧ ∃ others, (semid, semnum) ∉ others.map Undo.key ∧
      (front ++ ents).Perm
        (entryOf (semid, semnum) (entryAdj (front ++ ents) (semid, semnum)) ++ others) ∧
      result.Perm
        (entryOf (semid, semnum) (entryAdj (front ++ ents) (semid, semnum) + adjval) ++
          others) := by
  induction ents generalizing front with
  | nil =>
    simp only [adjustLoop, nonzero, if_false] at adjusted
    split at adjusted
    · contradiction
    · next notFull =>
        cases adjusted
        have length := ok.fits
        rw [append_nil] at length ⊢
        have absent : entryAdj front (semid, semnum) = 0 := lookup_of_notMem passed
        refine ⟨by rw [length_append, length_singleton]; omega, front, passed, ?_, ?_⟩
        · rw [absent, entryOf, if_pos rfl, nil_append]
        · rw [absent, zero_add, entryOf, if_neg nonzero]
          exact perm_append_singleton _ front
  | cons u back ih =>
    rw [adjustLoop] at adjusted
    split at adjusted
    · next skipped =>
        have rest : front ++ u :: back = (front ++ [u]) ++ back := by simp
        rw [rest] at ok ⊢
        refine ih _ ok ?_ adjusted
        rw [Undo.isFor_iff small] at skipped
        simpa using ⟨fun a aMem sameKey => passed (mem_map.mpr ⟨a, aMem, sameKey⟩),
          fun same => skipped same.symm⟩
    · next found =>
        rw [not_not, Undo.isFor_iff small] at found
        have old : entryAdj (front ++ u :: back) (semid, semnum) = u.unAdjval := by
          rw [← found]
          exact lookup_of_mem ok.sparse.nodup (by simp)
        have present : u.unAdjval ≠ 0 := ok.sparse.present u (by simp)
        have isEntry : entryOf (semid, semnum) u.unAdjval = [u] := by
          rw [entryOf, if_neg present, ← found]
          rfl
        have split : (front ++ u :: back).Perm (u :: (front ++ back)) := perm_middle
        have fresh : (semid, semnum) ∉ (front ++ back).map Undo.key := by
          rw [← found]
          exact (nodup_cons.mp (ok.sparse.perm split).nodup).1
        rw [old, isEntry]
        dsimp only at adjusted
        split at adjusted
        · next stays =>
            cases adjusted
            refine ⟨by simpa using ok.fits, front ++ back, fresh, split, ?_⟩
            rw [entryOf, if_neg stays, ← found]
            exact perm_middle
        · next goes =>
            rw [not_not] at goes
            cases adjusted
            have removed := (perm_swapRemove front back u).symm.trans split
            have length := removed.length_eq
            have fits := ok.fits
            simp only [length_cons, length_append] at length fits
            refine ⟨by omega, front ++ back, fresh, split, ?_⟩
            rw [goes, entryOf, if_pos rfl]
            exact removed.cons_inv

/-- The loop of `semundo_adjust` adds to the map at one point. -/
theorem adjustLoop_spec (small : semnum.toNat < 2 ^ 15) (nonzero : adjval ≠ 0)
    (ok : EntsOk info ents) (adjusted : adjustLoop info semid semnum adjval [] ents = some result) :
    EntsOk info result ∧ ∀ k, entryAdj result k =
      if k = (semid, semnum) then entryAdj ents k + adjval else entryAdj ents k := by
  obtain ⟨fits, others, fresh, before, after⟩ :=
    adjustLoop_some [] small nonzero ok not_mem_nil adjusted
  rw [nil_append] at before after
  have othersSparse : Sparse Undo.key Undo.unAdjval 0 others := by
    have sparse := ok.sparse.perm before
    rw [entryOf] at sparse
    split at sparse
    · exact sparse
    · exact sparse.tail
  have resultSparse := (sparse_entryOf_append _ fresh othersSparse).perm after.symm
  refine ⟨⟨resultSparse, fits⟩, fun k => ?_⟩
  have oldValue : entryAdj ents k = _ := (lookup_perm before ok.sparse.nodup k).trans
    (entryAdj_entryOf_append _ fresh k)
  have newValue : entryAdj result k = _ := (lookup_perm after resultSparse.nodup k).trans
    (entryAdj_entryOf_append _ fresh k)
  rw [newValue]
  split
  · next same => rw [same]
  · next differs => rw [oldValue, if_neg differs]

/-- There is no room only behind `SEMUME` entries. -/
theorem adjustLoop_full (front : List Undo)
    (failed : adjustLoop info semid semnum adjval front ents = none) :
    (front ++ ents).length = info.semume := by
  induction ents generalizing front with
  | nil =>
    rw [adjustLoop] at failed
    split_ifs at failed with zero full
    rwa [append_nil]
  | cons u back ih =>
    rw [adjustLoop] at failed
    dsimp only at failed
    generalize (if adjval = 0 then 0 else u.unAdjval + adjval) = new at failed
    split_ifs at failed
    simpa using ih _ failed

/-- There is no room only for a semaphore without an entry. -/
theorem adjustLoop_none (front : List Undo) (small : semnum.toNat < 2 ^ 15)
    (failed : adjustLoop info semid semnum adjval front ents = none) :
    (semid, semnum) ∉ ents.map Undo.key := by
  induction ents generalizing front with
  | nil => exact not_mem_nil
  | cons u back ih =>
    rw [adjustLoop] at failed
    split at failed
    · next skipped =>
        rw [Undo.isFor_iff small] at skipped
        rw [map_cons, mem_cons, not_or]
        exact ⟨fun same => skipped same.symm, ih _ failed⟩
    · dsimp only at failed
      generalize (if adjval = 0 then 0 else u.unAdjval + adjval) = new at failed
      split at failed <;> contradiction

/-- Each call makes at most one entry. -/
theorem adjustLoop_length (front : List Undo)
    (adjusted : adjustLoop info semid semnum adjval front ents = some result) :
    result.length ≤ (front ++ ents).length + 1 := by
  induction ents generalizing front with
  | nil =>
    rw [adjustLoop] at adjusted
    split_ifs at adjusted with zero full
    · cases adjusted
      simp
    · cases adjusted
      simp
  | cons u back ih =>
    by_cases found : u.IsFor semid semnum
    · rw [adjustLoop] at adjusted
      dsimp only at adjusted
      generalize (if adjval = 0 then 0 else u.unAdjval + adjval) = new at adjusted
      split_ifs at adjusted with stays
      · cases adjusted
        simp
      · cases adjusted
        have removed := (perm_swapRemove front back u).length_eq
        rw [length_cons] at removed
        omega
    · rw [adjustLoop, if_pos found] at adjusted
      simpa using ih _ adjusted

end Entries

section Tables

variable {π : Type} [DecidableEq π] {info : Seminfo}

/-- The entries of a process. -/
abbrev ownEnts (list : List (SemUndo π)) (pr : π) : List Undo :=
  lookup SemUndo.unProc SemUndo.unEnt [] list pr

/-- The adjustment that a process owes to a semaphore. -/
def adjOf (list : List (SemUndo π)) (pr : π) (k : SemKey) : BitVec 16 :=
  entryAdj (ownEnts list pr) k

/-- The list has at most one `sem_undo` for each process, with one to `SEMUME` entries
in good order. -/
structure ListOk (info : Seminfo) (list : List (SemUndo π)) : Prop where
  sparse : Sparse SemUndo.unProc SemUndo.unEnt [] list
  ents : ∀ su ∈ list, EntsOk info su.unEnt

/-- A list on which the `sem_undo` of a process may be new. -/
structure ListReady (info : Seminfo) (pr : π) (list : List (SemUndo π)) : Prop where
  nodup : (list.map SemUndo.unProc).Nodup
  present : ∀ su ∈ list, su.unProc ≠ pr → su.unEnt ≠ []
  ents : ∀ su ∈ list, EntsOk info su.unEnt
  own : pr ∈ list.map SemUndo.unProc

variable {pr : π} {list : List (SemUndo π)} {ents : List Undo} {su : SemUndo π}
  {table table' : UndoTable π} {semid : Nat} {semnum adjval : BitVec 16}

omit [DecidableEq π] in
theorem ListOk.ready (ok : ListOk info list) (own : pr ∈ list.map SemUndo.unProc) :
    ListReady info pr list where
  nodup := ok.sparse.nodup
  present su member _ := ok.sparse.present su member
  ents := ok.ents
  own := own

theorem entsOk_nil : EntsOk info [] where
  sparse := ⟨nodup_nil, fun _ member => absurd member not_mem_nil⟩
  fits := Nat.zero_le _

omit [DecidableEq π] in
theorem ListOk.ready_insert (ok : ListOk info list) (new : pr ∉ list.map SemUndo.unProc) :
    ListReady info pr (⟨pr, []⟩ :: list) where
  nodup := nodup_cons.mpr ⟨new, ok.sparse.nodup⟩
  present su member other := by
    rcases mem_cons.mp member with rfl | member
    · exact absurd rfl other
    · exact ok.sparse.present su member
  ents su member := by
    rcases mem_cons.mp member with rfl | member
    · exact entsOk_nil
    · exact ok.ents su member
  own := mem_cons_self

theorem adjOf_insert (new : pr ∉ list.map SemUndo.unProc) (q : π) (k : SemKey) :
    adjOf (⟨pr, []⟩ :: list) q k = adjOf list q k := by
  have own : ownEnts (⟨pr, []⟩ :: list) q = ownEnts list q := by
    rw [ownEnts, KeyedList.lookup_cons]
    split
    · next same => exact (lookup_of_notMem (same ▸ new)).symm
    · rfl
  rw [adjOf, own, adjOf]

theorem ListReady.entsOk_own (ready : ListReady info pr list) (q : π) :
    EntsOk info (ownEnts list q) := by
  by_cases member : q ∈ list.map SemUndo.unProc
  · rcases mem_map.mp member with ⟨su, suMem, rfl⟩
    rw [ownEnts, lookup_of_mem ready.nodup suMem]
    exact ready.ents su suMem
  · rw [ownEnts, lookup_of_notMem member]
    exact entsOk_nil

theorem mem_updateOwn (nodup : (list.map SemUndo.unProc).Nodup)
    (member : su ∈ updateOwn pr ents list) :
    su ∈ list ∧ su.unProc ≠ pr ∨ su = ⟨pr, ents⟩ ∧ ents ≠ [] := by
  induction list with
  | nil => exact absurd member not_mem_nil
  | cons first rest ih =>
    rw [map_cons, nodup_cons] at nodup
    rw [updateOwn] at member
    split at member
    · next isOwn =>
        have fromRest : su ∈ rest → su ∈ first :: rest ∧ su.unProc ≠ pr := fun inRest =>
          ⟨mem_cons_of_mem _ inRest, fun same =>
            nodup.1 (isOwn ▸ same ▸ mem_map_of_mem inRest)⟩
        split at member
        · exact Or.inl (fromRest member)
        · next some =>
            rcases mem_cons.mp member with rfl | inRest
            · exact Or.inr ⟨by rw [← isOwn], some⟩
            · exact Or.inl (fromRest inRest)
    · next other =>
        rcases mem_cons.mp member with rfl | inRest
        · exact Or.inl ⟨mem_cons_self, other⟩
        · rcases ih nodup.2 inRest with ⟨inOld, differs⟩ | isNew
          · exact Or.inl ⟨mem_cons_of_mem _ inOld, differs⟩
          · exact Or.inr isNew

theorem updateOwn_sublist (pr : π) (ents : List Undo) (list : List (SemUndo π)) :
    ((updateOwn pr ents list).map SemUndo.unProc).Sublist (list.map SemUndo.unProc) := by
  induction list with
  | nil => exact List.Sublist.refl _
  | cons first rest ih =>
    rw [updateOwn]
    split
    · split
      · exact sublist_cons_self _ _
      · exact List.Sublist.refl _
    · exact ih.cons_cons _

theorem ownEnts_updateOwn (nodup : (list.map SemUndo.unProc).Nodup)
    (own : pr ∈ list.map SemUndo.unProc) (q : π) :
    ownEnts (updateOwn pr ents list) q = if q = pr then ents else ownEnts list q := by
  induction list with
  | nil => exact absurd own not_mem_nil
  | cons first rest ih =>
    rw [map_cons, nodup_cons] at nodup
    rw [updateOwn]
    split
    · next isOwn =>
        have notRest : ownEnts rest pr = [] := lookup_of_notMem (isOwn ▸ nodup.1)
        simp only [ownEnts] at notRest
        split_ifs with empty same same
        · rw [ownEnts, same, notRest, empty]
        · rw [ownEnts, ownEnts, KeyedList.lookup_cons,
            if_neg (fun eq => same (eq.symm.trans isOwn))]
        · rw [ownEnts, KeyedList.lookup_cons, if_pos (isOwn.trans same.symm)]
        · rw [ownEnts, KeyedList.lookup_cons, if_neg (fun eq => same (eq.symm.trans isOwn)),
            ownEnts, KeyedList.lookup_cons, if_neg (fun eq => same (eq.symm.trans isOwn))]
    · next other =>
        have inRest : pr ∈ rest.map SemUndo.unProc :=
          (mem_cons.mp own).resolve_left (fun same => other same.symm)
        have rest := ih nodup.2 inRest
        simp only [ownEnts] at rest
        rw [ownEnts, KeyedList.lookup_cons, ownEnts, KeyedList.lookup_cons, rest]
        split_ifs with isFirst same
        · exact absurd (isFirst.trans same) other
        · rfl
        · rfl
        · rfl

theorem length_updateOwn (ents : List Undo) (own : pr ∈ list.map SemUndo.unProc) :
    (updateOwn pr ents list).length + (if ents = [] then 1 else 0) = list.length := by
  induction list with
  | nil => exact absurd own not_mem_nil
  | cons first rest ih =>
    rw [updateOwn]
    split
    · split <;> rfl
    · next other =>
        have inRest : pr ∈ rest.map SemUndo.unProc :=
          (mem_cons.mp own).resolve_left (fun same => other same.symm)
        rw [length_cons, length_cons, ← ih inRest]
        omega

theorem ListReady.updateOwn (ready : ListReady info pr list) (entsOk : EntsOk info ents) :
    ListOk info (updateOwn pr ents list) where
  sparse :=
    { nodup := ready.nodup.sublist (updateOwn_sublist pr ents list)
      present := by
        intro su member
        rcases mem_updateOwn ready.nodup member with ⟨old, other⟩ | ⟨rfl, some⟩
        · exact ready.present su old other
        · exact some }
  ents := by
    intro su member
    rcases mem_updateOwn ready.nodup member with ⟨old, _⟩ | ⟨rfl, _⟩
    · exact ready.ents su old
    · exact entsOk

/-- How a call of `semundo_adjust` through a pointer to a `sem_undo` of the list ends. -/
inductive Adjusts (info : Seminfo) (pr : π) (k : SemKey) (adjval : BitVec 16)
    (table : UndoTable π) : Adjusted π → Prop
  | kept {table' : UndoTable π} (ok : ListOk info table'.semuList)
      (adds : adjOf table'.semuList = adjOf table.semuList + Pi.single pr (Pi.single k adjval))
      (others : ∀ q, q ≠ pr → ownEnts table'.semuList q = ownEnts table.semuList q)
      (left : ownEnts table'.semuList pr ≠ [])
      (grown : (ownEnts table'.semuList pr).length ≤ (ownEnts table.semuList pr).length + 1) :
      Adjusts info pr k adjval table (.done table' .listed)
  | emptied {table' : UndoTable π} (ok : ListOk info table'.semuList)
      (adds : adjOf table'.semuList = adjOf table.semuList + Pi.single pr (Pi.single k adjval))
      (others : ∀ q, q ≠ pr → ownEnts table'.semuList q = ownEnts table.semuList q)
      (none : ownEnts table'.semuList pr = []) :
      Adjusts info pr k adjval table (.done table' (.freed []))
  | full (length : (ownEnts table.semuList pr).length = info.semume)
      (absent : adjOf table.semuList pr k = 0) :
      Adjusts info pr k adjval table (.error .einval .listed)

theorem adjustListed_spec (small : semnum.toNat < 2 ^ 15) (nonzero : adjval ≠ 0)
    (ready : ListReady info pr table.semuList) : Adjusts info pr (semid, semnum) adjval table
      (adjustListed info pr table semid semnum adjval) := by
  rcases mem_map.mp ready.own with ⟨su, suMem, isOwn⟩
  have found := (find?_eq_some_iff ready.nodup).mpr ⟨suMem, isOwn⟩
  have own : ownEnts table.semuList pr = su.unEnt := by
    rw [← isOwn]
    exact lookup_of_mem ready.nodup suMem
  rw [adjustListed, found]
  dsimp only
  split
  · next failed =>
      have full := adjustLoop_full [] failed
      have absent := adjustLoop_none [] small failed
      refine .full (by rw [own]; exact full) ?_
      rw [adjOf, own]
      exact lookup_of_notMem absent
  · next ents adjusted =>
      obtain ⟨entsOk, value⟩ := adjustLoop_spec small nonzero (ready.ents su suMem) adjusted
      have ok := ready.updateOwn entsOk
      have newOwn : ∀ q, ownEnts (updateOwn pr ents table.semuList) q =
          if q = pr then ents else ownEnts table.semuList q :=
        ownEnts_updateOwn ready.nodup ready.own
      have adds : adjOf (updateOwn pr ents table.semuList) =
          adjOf table.semuList + Pi.single pr (Pi.single (semid, semnum) adjval) := by
        funext q j
        rw [adjOf, newOwn, Pi.add_apply, Pi.add_apply, adjOf]
        by_cases same : q = pr
        · subst same
          rw [if_pos rfl, value, own, Pi.single_eq_same, Pi.single_apply]
          split
          · rfl
          · exact (add_zero _).symm
        · rw [if_neg same, Pi.single_eq_of_ne same, Pi.zero_apply, add_zero]
      have others : ∀ q, q ≠ pr → ownEnts (updateOwn pr ents table.semuList) q =
          ownEnts table.semuList q := fun q other => (newOwn q).trans (if_neg other)
      split
      · next empty =>
          refine .emptied ok adds others ?_
          rw [newOwn, if_pos rfl, empty]
      · next some =>
          refine .kept ok adds others ?_ ?_
          · rw [newOwn, if_pos rfl]
            exact some
          · rw [newOwn, if_pos rfl, own]
            exact adjustLoop_length [] adjusted

theorem adjustListed_ne_wait : adjustListed info pr table semid semnum adjval ≠ .wait table' := by
  rw [adjustListed]
  split
  · nofun
  · split
    · nofun
    · split <;> nofun

/-! ### The count of the list -/

/-- By how much `semutot` exceeds the length of the list. -/
def UndoTable.slack (table : UndoTable π) : Int :=
  table.semutot - table.semuList.length

theorem adjustListed_slack {suptr : Cached}
    (adjusted : adjustListed info pr table semid semnum adjval = .done table' suptr) :
    table'.slack = table.slack := by
  rw [adjustListed] at adjusted
  split at adjusted
  · contradiction
  · next su found =>
      have isOwn := find?_some found
      have own : pr ∈ table.semuList.map SemUndo.unProc :=
        mem_map.mpr ⟨su, mem_of_find?_eq_some found, of_decide_eq_true isOwn⟩
      split at adjusted
      · contradiction
      · next ents _ =>
          have length := length_updateOwn ents own
          split at adjusted
          · next empty =>
              cases adjusted
              rw [if_pos empty] at length
              rw [UndoTable.slack, UndoTable.slack]
              dsimp only
              omega
          · next some =>
              cases adjusted
              rw [if_neg some] at length
              rw [UndoTable.slack, UndoTable.slack]
              dsimp only
              omega

theorem semundoAdjust_slack {suptr suptr' : Cached} {nowait : Bool}
    (adjusted : semundoAdjust info pr nowait table suptr semid semnum adjval =
      .done table' suptr') : table'.slack = table.slack := by
  cases suptr with
  | null =>
    rw [semundoAdjust] at adjusted
    split_ifs at adjusted with found zero full memory
    · exact adjustListed_slack adjusted
    · cases adjusted
      rfl
    · have inserted := adjustListed_slack adjusted
      rw [inserted, UndoTable.slack, UndoTable.slack, semuInsert]
      simp
  | listed => exact adjustListed_slack adjusted
  | freed ents =>
    rw [semundoAdjust] at adjusted
    split at adjusted
    · contradiction
    · split_ifs at adjusted
      cases adjusted
      rfl

/-! ### Clearing -/

/-- The loop of `semundo_clear` only removes entries. -/
theorem clearLoop_subperm (semid : Nat) (semnum : Option (BitVec 16)) (fuel : Nat)
    (front ents : List Undo) :
    (clearLoop semid semnum fuel front ents).Subperm (front ++ ents) := by
  induction fuel generalizing front ents with
  | zero => exact List.Subperm.refl _
  | succ fuel ih =>
    cases ents with
    | nil =>
      rw [clearLoop, append_nil]
    | cons u back =>
      have removed : (swapRemove (front ++ u :: back) front.length).Subperm
          (front ++ u :: back) :=
        (subperm_cons_self).trans (perm_swapRemove front back u).symm.subperm
      have rest := ih (front ++ [u]) back
      rw [append_assoc, singleton_append] at rest
      cases semnum with
      | none =>
        rw [clearLoop]
        split
        · exact rest
        · refine (ih front _).trans ?_
          rwa [swapRemove_split]
      | some num =>
        rw [clearLoop]
        split
        · exact rest
        · split
          · exact removed
          · exact List.Subperm.refl _

/-- Without a semaphore number `semundo_clear` removes all entries of the set. -/
theorem clearLoop_none {fuel : Nat} {front : List Undo} (enough : ents.length < fuel)
    (passed : ∀ u ∈ front, u.unId ≠ semid) :
    ∀ u ∈ clearLoop semid none fuel front ents, u.unId ≠ semid := by
  induction fuel generalizing front ents with
  | zero => exact absurd enough (Nat.not_lt_zero _)
  | succ fuel ih =>
    cases ents with
    | nil => exact passed
    | cons u back =>
      have fewer : back.length < fuel := Nat.lt_of_succ_lt_succ enough
      rw [clearLoop]
      split
      · next other =>
          refine ih fewer fun v member => ?_
          rcases mem_append.mp member with inFront | isU
          · exact passed v inFront
          · rwa [mem_singleton.mp isU]
      · refine ih ?_ passed
        have removed := (perm_swapRemove front back u).length_eq
        simp only [length_append, length_cons] at removed
        rw [length_drop]
        omega

omit [DecidableEq π] in
theorem EntsOk.subperm {left : List Undo} (ok : EntsOk info ents) (fewer : left.Subperm ents) :
    EntsOk info left := by
  obtain ⟨middle, same, sub⟩ := fewer
  have middleOk : EntsOk info middle :=
    { sparse :=
        { nodup := ok.sparse.nodup.sublist (sub.map Undo.key)
          present := fun u member => ok.sparse.present u (sub.subset member) }
      fits := sub.length_le.trans ok.fits }
  exact ⟨middleOk.sparse.perm same, same.length_eq ▸ middleOk.fits⟩

omit [DecidableEq π] in
theorem mem_semundoClear {semnum : Option (BitVec 16)}
    (member : su ∈ (semundoClear semid semnum table).semuList) :
    su.unEnt ≠ [] ∧ ∃ old ∈ table.semuList, su = { old with
      unEnt := clearLoop semid semnum (old.unEnt.length + 1) [] old.unEnt } := by
  obtain ⟨mapped, some⟩ := mem_filter.mp member
  obtain ⟨old, oldMem, rfl⟩ := mem_map.mp mapped
  exact ⟨of_decide_eq_true some, old, oldMem, rfl⟩

omit [DecidableEq π] in
theorem ListOk.clear (ok : ListOk info table.semuList) (semid : Nat) (semnum : Option (BitVec 16)) :
    ListOk info (semundoClear semid semnum table).semuList where
  sparse :=
    { nodup := by
        have kept : ((table.semuList.map fun su => { su with
            unEnt := clearLoop semid semnum (su.unEnt.length + 1) [] su.unEnt }).map
              SemUndo.unProc).Nodup := by
          rw [map_map]
          exact ok.sparse.nodup
        exact kept.sublist (filter_sublist.map _)
      present := fun su member => (mem_semundoClear member).1 }
  ents := by
    intro su member
    obtain ⟨_, old, oldMem, rfl⟩ := mem_semundoClear member
    exact (ok.ents old oldMem).subperm (clearLoop_subperm semid semnum _ [] old.unEnt)

omit [DecidableEq π] in
theorem semundoClear_slack (table : UndoTable π) (semid : Nat) (semnum : Option (BitVec 16)) :
    (semundoClear semid semnum table).slack = table.slack := by
  have fewer : (semundoClear semid semnum table).semuList.length ≤ table.semuList.length := by
    have sub := length_filter_le (fun su : SemUndo π => decide (su.unEnt ≠ []))
      (table.semuList.map fun su => { su with
        unEnt := clearLoop semid semnum (su.unEnt.length + 1) [] su.unEnt })
    rwa [length_map] at sub
  have total : (semundoClear semid semnum table).semutot = table.semutot -
      (table.semuList.length - (semundoClear semid semnum table).semuList.length : Nat) := by
    simp [semundoClear]
  rw [UndoTable.slack, UndoTable.slack, total]
  omega

end Tables

end Bitrig.Sysvsem
