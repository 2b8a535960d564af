import Bitrig.Uipc.Rights

/-!
# The references of files

The count of a file is the number of its descriptors and of the pointers to it in messages, of
which those that are being discarded are still counted.
-/

namespace Bitrig.Uipc

open Bitrig.Transition Bitrig.Descrip List

/-- The descriptors of a table that are for a file. -/
def slots (fd : Filedesc FileId) (f : FileId) : Nat :=
  ((Finset.range fd.nfiles).filter (fun i => decide (fd.ofiles i = some f) = true)).card

/-- The descriptors for a file. -/
def Unp.descriptors (s : Unp) (f : FileId) : Nat :=
  (s.tables.map fun t => slots (s.fd t) f).sum

/-- The counts are exact.  Some pointers are in no message any more, and are going to be discarded;
and there may be further references. -/
structure Refs (s : Unp) (pending extra : List FileId) : Prop where
  nodup : s.filehead.Nodup
  apart : s.tables.Nodup
  held : ∀ t ∈ s.tables, ∀ i f, (s.fd t).ofiles i = some f → f ∈ s.filehead
  flight : ∀ f ∈ s.inFlight ++ pending ++ extra, f ∈ s.filehead
  count : ∀ f ∈ s.filehead, (s.file f).fCount =
    s.descriptors f + (s.inFlight ++ pending).count f + extra.count f
  msgcount : ∀ f ∈ s.filehead, (s.file f).fMsgcount = (s.inFlight ++ pending).count f
  rights : s.unpRights = (s.inFlight ++ pending).length
  tables : ∀ t ∈ s.tables, Inv (s.fd t)

section Counts

variable {s s' : Unp} {f g : FileId} {pending pending' extra : List FileId} {so : SockId}

/-! ### Counts -/

theorem addCounts_fCount (s : Unp) (f g : FileId) (count msgcount : Int) :
    ((s.addCounts f count msgcount).file g).fCount =
      (s.file g).fCount + if g = f then count else 0 := by
  by_cases same : g = f
  · subst same
    simp [Unp.addCounts]
  · simp [Unp.addCounts, same]

theorem addCounts_fMsgcount (s : Unp) (f g : FileId) (count msgcount : Int) :
    ((s.addCounts f count msgcount).file g).fMsgcount =
      (s.file g).fMsgcount + if g = f then msgcount else 0 := by
  by_cases same : g = f
  · subst same
    simp [Unp.addCounts]
  · simp [Unp.addCounts, same]

theorem addCounts_sock (s : Unp) (f g : FileId) (count msgcount : Int) :
    ((s.addCounts f count msgcount).file g).sock = (s.file g).sock := by
  by_cases same : g = f
  · subst same
    simp [Unp.addCounts, File.sock]
  · simp [Unp.addCounts, same]

theorem addCounts_add (s : Unp) (f : FileId) (c m c' m' : Int) :
    (s.addCounts f c m).addCounts f c' m' = s.addCounts f (c + c') (m + m') := by
  simp [Unp.addCounts, Int.add_assoc]

/-- Messages are moved. -/
theorem Refs.perm (refs : Refs s pending extra) {transit : List (List FileId)}
    {bufs : List (SockId × Record)}
    (same : ({ s with transit, bufs }.inFlight ++ pending').Perm (s.inFlight ++ pending)) :
    Refs { s with transit, bufs } pending' extra := by
  constructor
  · exact refs.nodup
  · exact refs.apart
  · exact refs.held
  · obtain ⟨flight, others⟩ := forall_mem_append.mp refs.flight
    exact forall_mem_append.mpr ⟨fun f mem => flight f (same.mem_iff.mp mem), others⟩
  · intro f mem
    rw [same.count_eq]
    exact refs.count f mem
  · intro f mem
    rw [same.count_eq]
    exact refs.msgcount f mem
  · rw [same.length_eq]
    exact refs.rights
  · exact refs.tables

/-- The pointers of a receive buffer are pending when it has been emptied. -/
theorem buffered_sorflush (s : Unp) (so : SockId) :
    ((s.sorflush so).1 ++ (s.sorflush so).2.buffered).Perm s.buffered := by
  have rights : (s.sorflush so).1 = (s.bufs.filter (·.1 = so)).flatMap (·.2.rights) := by
    rw [Unp.sorflush, Unp.rcv, flatMap_map]
  rw [rights, Unp.buffered, ← flatMap_append]
  refine List.Perm.flatMap_right _ ?_
  have split := filter_append_perm (fun b : SockId × Record => decide (b.1 = so)) s.bufs
  simp only [← decide_not] at split
  exact split

theorem Refs.sorflush (refs : Refs s pending extra) (so : SockId) :
    Refs (s.sorflush so).2 ((s.sorflush so).1 ++ pending) extra := by
  refine refs.perm ?_
  have flushed := buffered_sorflush s so
  change (s.transit.flatten ++ (s.sorflush so).2.buffered ++ _).Perm
    (s.transit.flatten ++ s.buffered ++ _)
  rw [append_assoc, append_assoc]
  refine List.Perm.append_left _ ?_
  rw [← append_assoc]
  exact (perm_append_comm.trans flushed).append_right _

/-! ### Discarding -/

theorem unpDiscard_eq (positive : 1 ≤ (s.file f).fCount) :
    s.unpDiscard f = some (if (s.file f).fCount = 1 then (s.addCounts f (-1) (-1)).fdrop f
      else ([], s.addCounts f (-1) (-1))) := by
  have first : ((s.addCounts f 1 (-1)).file f).fCount = (s.file f).fCount + 1 := by
    rw [addCounts_fCount, if_pos rfl]
  have last : ((s.addCounts f (-1) (-1)).file f).fCount = (s.file f).fCount - 1 := by
    rw [addCounts_fCount, if_pos rfl]
    rfl
  rw [Unp.unpDiscard, Unp.closef, kassert_of_holds (by rw [first]; omega)]
  change some _ = _
  rw [addCounts_add]
  norm_num only
  by_cases one : (s.file f).fCount = 1
  · rw [if_pos one, if_pos (by omega)]
  · rw [if_neg one, if_neg (by omega)]

/-- The counts of a file are changed, with the pointers to it and its further references. -/
theorem Refs.recount {extra' : List FileId} {c m : Int} (refs : Refs s pending extra)
    (flight : ∀ g ∈ s.inFlight ++ pending' ++ extra', g ∈ s.filehead)
    (pointers : ∀ g, ((s.inFlight ++ pending').count g : Int) =
      (s.inFlight ++ pending).count g + if g = f then m else 0)
    (total : ((s.inFlight ++ pending').length : Int) = (s.inFlight ++ pending).length + m)
    (others : ∀ g, (extra'.count g : Int) = extra.count g + if g = f then c - m else 0) :
    Refs (s.addCounts f c m) pending' extra' := by
  refine ⟨refs.nodup, refs.apart, refs.held, flight, fun g mem => ?_, fun g mem => ?_, ?_,
    refs.tables⟩
  · rw [addCounts_fCount, refs.count g mem]
    change _ = (s.descriptors g : Int) + ((s.inFlight ++ pending').count g : Int) + _
    rw [pointers, others]
    split_ifs <;> omega
  · rw [addCounts_fMsgcount, refs.msgcount g mem]
    exact (pointers g).symm
  · change s.unpRights + m = ((s.inFlight ++ pending').length : Int)
    rw [refs.rights, total]

theorem count_append_cons (l rest : List FileId) (f g : FileId) :
    ((l ++ f :: rest).count g : Int) = (l ++ rest).count g + if g = f then 1 else 0 := by
  rw [count_append, count_append, count_cons]
  simp only [beq_iff_eq, eq_comm (a := g)]
  split_ifs <;> push_cast <;> omega

theorem length_append_cons (l rest : List FileId) (f : FileId) :
    ((l ++ f :: rest).length : Int) = (l ++ rest).length + 1 := by
  rw [length_append, length_append, length_cons]
  omega

/-- A reference and a pointer are gone. -/
theorem Refs.discarded (refs : Refs s (f :: pending) extra) :
    Refs (s.addCounts f (-1) (-1)) pending extra := by
  refine refs.recount (fun g mem => refs.flight g ?_) (fun g => ?_) ?_ (fun g => ?_)
  · rw [mem_append, mem_append] at mem ⊢
    exact mem.imp_left (Or.imp_right (mem_cons_of_mem f))
  · rw [count_append_cons]
    split_ifs <;> omega
  · rw [length_append_cons]
    omega
  · rw [sub_self, ite_self, add_zero]

/-- What a file with no references leaves. -/
theorem Refs.unreferenced (refs : Refs s pending extra) (mem : f ∈ s.filehead)
    (zero : (s.file f).fCount = 0) :
    (∀ t ∈ s.tables, ∀ i, (s.fd t).ofiles i ≠ some f) ∧ f ∉ s.inFlight ++ pending ++ extra := by
  have count := refs.count f mem
  have noDescriptors : s.descriptors f = 0 := by omega
  have noPointers : (s.inFlight ++ pending).count f = 0 := by omega
  have noExtra : extra.count f = 0 := by omega
  constructor
  · intro t inTables i is
    have each : slots (s.fd t) f = 0 :=
      sum_eq_zero_iff.mp noDescriptors _ (mem_map_of_mem inTables)
    rw [slots, Finset.card_eq_zero, Finset.filter_eq_empty_iff] at each
    have used : (s.fd t).inUse i = true := by
      rw [Filedesc.inUse, is]
      rfl
    exact each (Finset.mem_range.mpr ((refs.tables t inTables).maps.lt_nfiles used))
      (decide_eq_true is)
  · intro mem
    rcases mem_append.mp mem with mem | mem
    · exact count_eq_zero.mp noPointers mem
    · exact count_eq_zero.mp noExtra mem

/-- The file is freed. -/
theorem Refs.erase (refs : Refs s pending extra) (mem : f ∈ s.filehead)
    (zero : (s.file f).fCount = 0) (queue : SockId → List SockId) :
    Refs { s with filehead := s.filehead.erase f, queue := queue } pending extra := by
  obtain ⟨notHeld, notFlight⟩ := refs.unreferenced mem zero
  have kept : ∀ g, g ∈ s.filehead → g ≠ f → g ∈ s.filehead.erase f :=
    fun g mem ne => (mem_erase_of_ne ne).mpr mem
  constructor
  · exact refs.nodup.erase f
  · exact refs.apart
  · intro t inTables i g is
    refine kept g (refs.held t inTables i g is) ?_
    rintro rfl
    exact notHeld t inTables i is
  · intro g mem
    refine kept g (refs.flight g mem) ?_
    rintro rfl
    exact notFlight mem
  · exact fun g mem => refs.count g (mem_of_mem_erase mem)
  · exact fun g mem => refs.msgcount g (mem_of_mem_erase mem)
  · exact refs.rights
  · exact refs.tables

theorem buffered_fdrop (s : Unp) (f : FileId) :
    ((s.fdrop f).1 ++ (s.fdrop f).2.buffered).Perm s.buffered := by
  unfold Unp.fdrop
  cases (s.file f).sock with
  | none => exact List.Perm.refl _
  | some so => exact buffered_sorflush _ so

/-- What holds when all pointers have been discarded, if each of them keeps it. -/
theorem discardAll_rule {P : List FileId → Unp → Prop}
    (step : ∀ f rest s, P (f :: rest) s → ∃ more s', s.unpDiscard f = some (more, s') ∧
      P (more ++ rest) s' ∧ (more ++ s'.buffered).Perm s.buffered)
    {fuel : Nat} (enough : pending.length + s.buffered.length ≤ fuel) (holds : P pending s) :
    ∃ s', Unp.discardAll fuel pending s = some s' ∧ P [] s' := by
  induction fuel generalizing pending s with
  | zero =>
    obtain rfl := eq_nil_of_length_eq_zero (show pending.length = 0 by omega)
    exact ⟨s, rfl, holds⟩
  | succ fuel ih =>
    cases pending with
    | nil => exact ⟨s, rfl, holds⟩
    | cons f rest =>
      obtain ⟨more, s₁, run, holds₁, moved⟩ := step f rest s holds
      have lengths := moved.length_eq
      rw [length_append] at lengths
      rw [length_cons] at enough
      obtain ⟨s', run', holds'⟩ := ih (by rw [length_append]; omega) holds₁
      refine ⟨s', ?_, holds'⟩
      rw [Unp.discardAll, run]
      exact run'

end Counts

end Bitrig.Uipc
