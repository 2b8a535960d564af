import Bitrig.Sysvsem.Invariant

/-!
# Undo entries name live semaphores

Calls look at the table of sets, then may wait for memory or sleep, and then act on what
they have seen.  If what they rely on still holds when they go on, every undo entry names
a semaphore of an allocated set, `semexit` does not panic, and `semtot` is the number of
allocated semaphores and at most `semmns`.
-/

variable {ents : List Undo}

namespace Bitrig.Sysvsem

open Bitrig.Transition List

/-! ### The keys of the entries -/

/-- All entries of a list belong to semaphores with a property. -/
def EntriesIn {π : Type} (P : SemKey → Prop) (list : List (SemUndo π)) : Prop :=
  ∀ su ∈ list, ∀ u ∈ su.unEnt, P u.key

/-- The table with which the loop over the `SEM_UNDO` operations ends or waits. -/
def Recorded.after {π : Type} : Recorded π → Option (UndoTable π)
  | .finished undo | .failed _ undo | .wait undo _ _ => some undo
  | .crash => none

section Entries

variable {π : Type} [DecidableEq π] {P : SemKey → Prop} {info : Seminfo} {pr : π} {nowait : Bool}
  {semid : Nat} {semnum adjval : BitVec 16} {table table' : UndoTable π} {suptr suptr' : Cached}
  {done rest : List Sembuf} {list : List (SemUndo π)}

theorem mem_adjustLoop (front : List Undo) {result : List Undo} (here : P (semid, semnum))
    (all : ∀ u ∈ front ++ ents, P u.key)
    (adjusted : adjustLoop info semid semnum adjval front ents = some result) :
    ∀ u ∈ result, P u.key := by
  induction ents generalizing front with
  | nil =>
    rw [adjustLoop] at adjusted
    rw [append_nil] at all
    split_ifs at adjusted
    · cases adjusted
      exact all
    · cases adjusted
      exact forall_mem_append.mpr ⟨all, forall_mem_singleton.mpr here⟩
  | cons first back ih =>
    rw [adjustLoop] at adjusted
    split at adjusted
    · refine ih (front ++ [first]) ?_ adjusted
      rwa [append_assoc]
    · dsimp only at adjusted
      generalize (if adjval = 0 then 0 else first.unAdjval + adjval) = new at adjusted
      split_ifs at adjusted
      · cases adjusted
        obtain ⟨inFront, inBack⟩ := forall_mem_append.mp all
        exact forall_mem_append.mpr ⟨inFront, forall_mem_cons.mpr (forall_mem_cons.mp inBack)⟩
      · cases adjusted
        intro u member
        have perm := KeyedList.perm_swapRemove front back first
        exact all u (perm.mem_iff.mpr (mem_cons_of_mem _ member))

theorem EntriesIn.updateOwn (all : EntriesIn P list) (new : ∀ u ∈ ents, P u.key) :
    EntriesIn P (updateOwn pr ents list) := by
  induction list with
  | nil => exact all
  | cons first list ih =>
    have later : EntriesIn P list := fun su member => all su (mem_cons_of_mem _ member)
    rw [Sysvsem.updateOwn]
    split
    · split
      · exact later
      · exact forall_mem_cons.mpr ⟨new, later⟩
    · exact forall_mem_cons.mpr ⟨all first mem_cons_self, ih later⟩

omit [DecidableEq π] in
theorem EntriesIn.insert (all : EntriesIn P list) : EntriesIn P (⟨pr, []⟩ :: list) :=
  forall_mem_cons.mpr ⟨fun _ none => absurd none not_mem_nil, all⟩

section

variable (all : EntriesIn P table.semuList)
include all

theorem EntriesIn.adjustListed (here : P (semid, semnum))
    (adjusted : adjustListed info pr table semid semnum adjval = .done table' suptr') :
    EntriesIn P table'.semuList := by
  rw [Sysvsem.adjustListed] at adjusted
  split at adjusted
  · contradiction
  · next su found =>
      split at adjusted
      · contradiction
      · next ents result =>
          have new : ∀ u ∈ ents, P u.key :=
            mem_adjustLoop [] here (all su (mem_of_find?_eq_some found)) result
          split at adjusted <;> cases adjusted <;> exact all.updateOwn new

theorem EntriesIn.semundoAdjust (here : P (semid, semnum))
    (adjusted : semundoAdjust info pr nowait table suptr semid semnum adjval =
      .done table' suptr') :
    EntriesIn P table'.semuList := by
  cases suptr with
  | null =>
    rw [Sysvsem.semundoAdjust] at adjusted
    split_ifs at adjusted
    · exact all.adjustListed here adjusted
    · cases adjusted
      exact all
    · exact EntriesIn.adjustListed all.insert here adjusted
  | listed => exact all.adjustListed here adjusted
  | freed ents =>
    rw [Sysvsem.semundoAdjust] at adjusted
    split at adjusted
    · contradiction
    · split_ifs at adjusted
      cases adjusted
      exact all

theorem EntriesIn.rollbackUndos (here : ∀ sop ∈ done, sop.Undoes → P (semid, sop.semNum))
    (rolledBack : rollbackUndos info pr nowait semid table suptr done = some table') :
    EntriesIn P table'.semuList := by
  induction done generalizing table suptr with
  | nil =>
    cases rolledBack
    exact all
  | cons sop done ih =>
    have later : ∀ op ∈ done, op.Undoes → P (semid, op.semNum) := fun op member =>
      here op (mem_cons_of_mem _ member)
    rw [Sysvsem.rollbackUndos] at rolledBack
    split at rolledBack
    · next undoes =>
        split at rolledBack
        · next adjusted =>
            exact ih (all.semundoAdjust (here sop mem_cons_self undoes) adjusted) later
              rolledBack
        · contradiction
    · exact ih all later rolledBack

end

theorem semundoAdjust_wait
    (waits : semundoAdjust info pr nowait table suptr semid semnum adjval = .wait table') :
    table'.semuList = table.semuList := by
  cases suptr with
  | null =>
    rw [semundoAdjust] at waits
    split_ifs at waits
    · exact absurd waits adjustListed_ne_wait
    · exact absurd waits adjustListed_ne_wait
    · cases waits
      rfl
  | listed => exact absurd waits adjustListed_ne_wait
  | freed ents =>
    rw [semundoAdjust] at waits
    split at waits
    · contradiction
    · split_ifs at waits

theorem EntriesIn.recordUndos (all : EntriesIn P table.semuList)
    (here : ∀ sop ∈ done ++ rest, sop.Undoes → P (semid, sop.semNum))
    (ends : (recordUndos info pr nowait semid table suptr done rest).after = some table') :
    EntriesIn P table'.semuList := by
  induction rest generalizing table suptr done with
  | nil =>
    cases ends
    exact all
  | cons sop rest ih =>
    have shifted : ∀ op ∈ done ++ [sop] ++ rest, op.Undoes → P (semid, op.semNum) := by
      rwa [append_assoc, singleton_append]
    rw [Sysvsem.recordUndos] at ends
    split at ends
    · next undoes =>
        split at ends
        · next adjusted =>
            refine ih (all.semundoAdjust (here sop ?_ undoes) adjusted) shifted ends
            exact mem_append_right _ mem_cons_self
        · next waits =>
            cases ends
            rwa [semundoAdjust_wait waits]
        · contradiction
        · split at ends
          · contradiction
          · next rolledBack =>
              cases ends
              refine all.rollbackUndos (fun op member => here op ?_) rolledBack
              exact mem_append_left _ (mem_reverse.mp member)
    · exact ih all shifted ends

omit [DecidableEq π] in
theorem EntriesIn.clear (all : EntriesIn P table.semuList) (semnum : Option (BitVec 16)) :
    EntriesIn P (semundoClear semid semnum table).semuList := by
  intro su member u inEnts
  obtain ⟨_, old, oldMem, rfl⟩ := mem_semundoClear member
  exact all old oldMem u ((clearLoop_subperm semid semnum _ [] old.unEnt).subset inEnts)

omit [DecidableEq π] in
/-- Clearing a set leaves only entries of other sets. -/
theorem EntriesIn.clear_set (all : EntriesIn P table.semuList) :
    EntriesIn (fun k => P k ∧ k.1 ≠ semid) (semundoClear semid none table).semuList := by
  intro su member u inEnts
  refine ⟨all.clear none su member u inEnts, ?_⟩
  obtain ⟨_, old, oldMem, rfl⟩ := mem_semundoClear member
  exact clearLoop_none (Nat.lt_succ_self _) (fun _ none => absurd none not_mem_nil) u inEnts

end Entries

/-! ### Live semaphores -/

section Definitions

variable {π τ : Type}

/-- The key of a semaphore of an allocated set. -/
def State.Live (s : State π τ) (k : SemKey) : Prop :=
  ∃ a, s.sema k.1 = some a ∧ 0 ≤ k.2.toInt ∧ k.2.toInt < (s.baseAt a).length

/-- The number of semaphores of the set at an index. -/
def State.nsemsAt (s : State π τ) (ix : Nat) : Int :=
  match s.sema ix with
  | none => 0
  | some a => (s.baseAt a).length

/-- What a waiting call relies on still holds. -/
def stillHolds (info : Seminfo) (s : State π τ) : Place → Prop
  | .sopsMalloc call | .semuAlloc call _ _ => s.sema call.semid = some call.semaptr
  | .tsleep call _ _ => s.sema call.semid = none ∨ s.sema call.semid = some call.semaptr
  | .semgetAlloc args => args.nsems ≤ info.semmns - s.semtot
  | .setallMalloc .. => True

instance (info : Seminfo) (s : State π τ) (place : Place) :
    Decidable (stillHolds info s place) := by
  cases place <;> simp only [stillHolds] <;> infer_instance

variable [DecidableEq τ]

/-- The conditions of this module. -/
def liveGuard (info : Seminfo) (label : Label π τ) (s : State π τ) : Prop :=
  fitGuard label s ∧
    match label with
    | .resume tid _ => ∀ w ∈ s.calls.find? (·.tid = tid), stillHolds info s w.place
    | _ => True

instance (info : Seminfo) (label : Label π τ) (s : State π τ) :
    Decidable (liveGuard info label s) :=
  match label with
  | .semget .. | .semop .. | .rmid .. | .setval .. | .setall .. | .resume .. | .exit _ => by
    dsimp only [liveGuard]
    infer_instance

/-- Every entry names a live semaphore, and `semtot` counts the semaphores. -/
structure LiveInv (info : Seminfo) (s : State π τ) : Prop where
  inv : Inv info s
  live : EntriesIn s.Live s.undo.semuList
  outside : ∀ ix, info.semmni ≤ ix → s.sema ix = none
  total : s.semtot = ∑ ix ∈ Finset.range info.semmni, s.nsemsAt ix
  limit : s.semtot ≤ info.semmns

end Definitions

section Steps

variable {π τ : Type} {info : Seminfo} {tid : τ} {pr : π} {env : Env} {nowait : Bool}
  {call : SemopCall} {s s' : State π τ} {reply : Reply} {label : Label π τ} {ix a : Nat}

/-- A sum over the table changes by what changes at one index. -/
theorem sum_change_one {f g : Nat → Int} {n : Nat} (inTable : ix < n)
    (others : ∀ j, j ≠ ix → g j = f j) :
    ∑ j ∈ Finset.range n, g j = ∑ j ∈ Finset.range n, f j - f ix + g ix := by
  have member : ix ∈ Finset.range n := Finset.mem_range.mpr inTable
  have rest : ∑ j ∈ (Finset.range n).erase ix, g j = ∑ j ∈ (Finset.range n).erase ix, f j :=
    Finset.sum_congr rfl fun j inErase => others j (Finset.ne_of_mem_erase inErase)
  rw [← Finset.add_sum_erase _ g member, ← Finset.add_sum_erase _ f member, rest]
  ring

/-- A step that leaves the table of sets alone. -/
structure SetsFrame (s s' : State π τ) : Prop where
  frame : Frame s s'
  sema : s'.sema = s.sema
  semtot : s'.semtot = s.semtot

theorem SetsFrame.trans {s'' : State π τ} (first : SetsFrame s s') (second : SetsFrame s' s'') :
    SetsFrame s s'' where
  frame := first.frame.trans second.frame
  sema := second.sema.trans first.sema
  semtot := second.semtot.trans first.semtot

theorem SetsFrame.setBase {base : List Sem} (length : base.length = (s.baseAt a).length) :
    SetsFrame s (s.setBase a base) :=
  ⟨Frame.setBase length, rfl, rfl⟩

theorem SetsFrame.live (sets : SetsFrame s s') (known : ∀ ix a, s.sema ix = some a → a < s.nextSet)
    {k : SemKey} (live : s.Live k) : s'.Live k := by
  obtain ⟨a, isSet, low, high⟩ := live
  refine ⟨a, by rw [sets.sema, isSet], low, ?_⟩
  rwa [sets.frame.length a (known _ a isSet)]

theorem SetsFrame.nsemsAt (sets : SetsFrame s s')
    (known : ∀ ix a, s.sema ix = some a → a < s.nextSet) (ix : Nat) :
    s'.nsemsAt ix = s.nsemsAt ix := by
  rw [State.nsemsAt, State.nsemsAt, sets.sema]
  split
  · rfl
  · next a isSet => rw [sets.frame.length a (known ix a isSet)]

/-- The invariant after a step that leaves the table of sets alone. -/
theorem LiveInv.update (liveInv : LiveInv info s) (sets : SetsFrame s s') (inv : Inv info s')
    (live : EntriesIn s.Live s'.undo.semuList) : LiveInv info s' where
  inv := inv
  live su member u inEnts := sets.live liveInv.inv.known (live su member u inEnts)
  outside ix out := by rw [sets.sema, liveInv.outside ix out]
  total := by
    rw [sets.semtot, liveInv.total]
    exact Finset.sum_congr rfl fun ix _ => (sets.nsemsAt liveInv.inv.known ix).symm
  limit := sets.semtot ▸ liveInv.limit

theorem LiveInv.create (liveInv : LiveInv info s) {args : SemgetArgs} (positive : 0 < args.nsems)
    (room : args.nsems ≤ info.semmns - s.semtot) (inTable : ix < info.semmni)
    (free : s.sema ix = none) : LiveInv info (s.create ix args) := by
  have known := liveInv.inv.known
  have frame : Frame s (s.create ix args) := Frame.create ix args
  have elsewhere : ∀ j, j ≠ ix → (s.create ix args).sema j = s.sema j := by
    intro j other
    simp [State.create, other]
  have here : (s.create ix args).nsemsAt ix = args.nsems := by
    simp [State.nsemsAt, State.create, State.baseAt]
    omega
  have others : ∀ j, j ≠ ix → (s.create ix args).nsemsAt j = s.nsemsAt j := by
    intro j other
    rw [State.nsemsAt, State.nsemsAt, elsewhere j other]
    split
    · rfl
    · next a isSet => rw [frame.length a (known j a isSet)]
  have before : s.nsemsAt ix = 0 := by rw [State.nsemsAt, free]
  refine ⟨liveInv.inv.create ix args, ?_, ?_, ?_, ?_⟩
  · intro su member u inEnts
    obtain ⟨a, isSet, low, high⟩ := liveInv.live su member u inEnts
    have other : u.key.1 ≠ ix := by
      intro same
      rw [same, free] at isSet
      contradiction
    refine ⟨a, (elsewhere _ other).trans isSet, low, ?_⟩
    rwa [frame.length a (known _ a isSet)]
  · intro j out
    rw [elsewhere j (by omega)]
    exact liveInv.outside j out
  · rw [sum_change_one inTable others, here, before, ← liveInv.total, sub_zero]
    rfl
  · change s.semtot + args.nsems ≤ info.semmns
    omega

variable [DecidableEq π]

omit [DecidableEq π] in
theorem LiveInv.remove (liveInv : LiveInv info s) (inTable : ix < info.semmni)
    (isSet : s.sema ix = some a) (inv : Inv info (s.remove a ix)) :
    LiveInv info (s.remove a ix) := by
  have elsewhere : ∀ j, j ≠ ix → (s.remove a ix).sema j = s.sema j := fun j other =>
    Function.update_of_ne other ..
  have before : s.nsemsAt ix = (s.baseAt a).length := by rw [State.nsemsAt, isSet]
  have after : (s.remove a ix).nsemsAt ix = 0 := by simp [State.nsemsAt, State.remove]
  have others : ∀ j, j ≠ ix → (s.remove a ix).nsemsAt j = s.nsemsAt j := by
    intro j other
    rw [State.nsemsAt, elsewhere j other]
    rfl
  refine ⟨inv, ?_, ?_, ?_, ?_⟩
  · intro su member u inEnts
    -- an entry that is left belongs to another set
    obtain ⟨⟨b, isOther, low, high⟩, other⟩ := liveInv.live.clear_set su member u inEnts
    exact ⟨b, (elsewhere _ other).trans isOther, low, high⟩
  · intro j out
    rw [elsewhere j (by omega)]
    exact liveInv.outside j out
  · rw [sum_change_one inTable others, after, before, ← liveInv.total, add_zero]
    rfl
  · have limit := liveInv.limit
    change s.semtot - (s.baseAt a).length ≤ info.semmns
    omega

theorem RecordTo.entries (all : EntriesIn P s.undo.semuList)
    (here : ∀ sop ∈ done ++ rest, sop.Undoes → P (call.semid, sop.semNum))
    (recorded : RecordTo info tid pr nowait call suptr done rest s s' reply) :
    SetsFrame s s' ∧ EntriesIn P s'.undo.semuList := by
  have frame := recorded.frame
  cases recorded with
  | finished result | failed result | waits result =>
    exact ⟨⟨frame, rfl, rfl⟩, all.recordUndos here (congrArg Recorded.after result)⟩

omit [DecidableEq π] in
/-- A `SEM_UNDO` operation on a semaphore of the set at an index names a live one. -/
theorem live_of_inRange {sop : Sembuf} (fits : UndoNumsFit call.sops) (member : sop ∈ call.sops)
    (undoes : sop.Undoes) (inRange : sop.InRange (s.baseAt call.semaptr).length)
    (current : s.sema call.semid = some call.semaptr) : s.Live (call.semid, sop.semNum) := by
  have small := fits sop member undoes.1
  have signed : sop.semNum.toInt = sop.semNum.toNat := BitVec.toInt_eq_toNat_of_lt (by omega)
  refine ⟨call.semaptr, current, ?_, ?_⟩
  · rw [signed]
    exact Int.natCast_nonneg _
  · rw [signed]
    exact Int.ofNat_lt.mpr inRange

theorem Attempt.live (live : EntriesIn s.Live s.undo.semuList) (fits : UndoNumsFit call.sops)
    (current : s.sema call.semid = some call.semaptr)
    (attempt : Attempt info tid pr nowait call s s' reply) :
    SetsFrame s s' ∧ EntriesIn s.Live s'.undo.semuList := by
  have frame := attempt.frame
  cases attempt with
  | restored | efbig | sleeps | passed => exact ⟨⟨frame, rfl, rfl⟩, live⟩
  | records inRange count recorded applies =>
    have later := RecordTo.entries (P := s.Live) (s := s.setBase call.semaptr _) live
      (fun sop member undoes => live_of_inRange fits member undoes (inRange sop member) current)
      recorded
    exact ⟨(SetsFrame.setBase (length_applyOps ..)).trans later.1, later.2⟩

theorem Resumed.liveInv {place : Place} (liveInv : LiveInv info s) (placeOk : PlaceOk info s place)
    (holds : stillHolds info s place) (resumed : Resumed info tid pr env s place s' reply) :
    LiveInv info s' := by
  have inv := resumed.inv liveInv.inv placeOk
  cases resumed with
  | sopsFault | removed | semgetSame | setallSame => exact liveInv
  | sops attempt =>
    cases placeOk with
    | sopsMalloc callOk =>
      obtain ⟨sets, live⟩ := attempt.live liveInv.live callOk.fits holds
      exact liveInv.update sets inv live
  | interrupted => exact liveInv.update (SetsFrame.setBase (length_addWaiter ..)) inv liveInv.live
  | @awake call sop doUndos _ _ allocated attempt =>
    cases placeOk with
    | tsleep callOk inRange =>
      have current := holds.resolve_left allocated
      have counted : SetsFrame s (s.setBase call.semaptr
          (addWaiter sop (-1) (s.baseAt call.semaptr))) := SetsFrame.setBase (length_addWaiter ..)
      have before := liveInv.update counted (liveInv.inv.setBase (length_addWaiter ..)) liveInv.live
      obtain ⟨sets, live⟩ := attempt.live before.live callOk.fits current
      exact before.update sets inv live
  | undo recorded =>
    cases placeOk with
    | semuAlloc callOk inRange split none undoes room =>
      have all : EntriesIn s.Live (semuAwake pr s.undo).semuList := by
        rw [semuAwake]
        split
        · exact liveInv.live
        · exact liveInv.live.insert
      obtain ⟨sets, live⟩ := RecordTo.entries (P := s.Live)
        (s := s.withUndo (semuAwake pr s.undo)) all
        (fun op member undoesOp => live_of_inRange callOk.fits (split ▸ member) undoesOp
          (inRange op (split ▸ member)) holds) recorded
      have frame : Frame s s' := ⟨sets.frame.nextSet, sets.frame.length⟩
      exact liveInv.update ⟨frame, sets.sema, sets.semtot⟩ inv live
  | semget inTable free =>
    cases placeOk with
    | semgetAlloc positive => exact liveInv.create positive holds inTable free
  | setall copied =>
    refine liveInv.update ?_ inv (liveInv.live.clear none)
    exact ⟨(Frame.setBase (length_assignValues copied)).withUndo _, rfl, rfl⟩

omit [DecidableEq π] in
/-- The entries of an exiting process can be applied. -/
theorem exitEntries_ok (known : ∀ ix a, s.sema ix = some a → a < s.nextSet)
    (live : ∀ u ∈ ents, s.Live u.key) : ∃ s', ents.foldlM exitAdjust s = .ok s' := by
  induction ents generalizing s with
  | nil => exact ⟨s, rfl⟩
  | cons u ents ih =>
    obtain ⟨a, isSet, low, high⟩ := live u mem_cons_self
    obtain ⟨middle, first⟩ : ∃ middle, exitAdjust s u = .ok middle := by
      have inRange : ¬((s.sets a).base.length : Int) ≤ u.unNum.toInt := Int.not_le.mpr high
      have notNegative : ¬u.unNum.toInt < 0 := Int.not_lt.mpr low
      rw [exitAdjust, show s.sema u.unId = some a from isSet]
      dsimp only
      rw [if_neg inRange, if_neg notNegative]
      exact ⟨_, rfl⟩
    have frame := exitAdjust_frame first
    have sets : SetsFrame s middle := ⟨frame.frame, frame.sema, frame.semtot⟩
    obtain ⟨s', rest⟩ := ih (s := middle)
      (fun ix b isOther => by
        rw [frame.sema] at isOther
        rw [frame.nextSet]
        exact known ix b isOther)
      (fun v member => sets.live known (live v (mem_cons_of_mem _ member)))
    refine ⟨s', ?_⟩
    rw [foldlM_cons, first]
    exact rest

/-- `semexit` does not panic. -/
theorem LiveInv.semexit_ok (liveInv : LiveInv info s) (pr : π) : ∃ s', semexit pr s = .ok s' := by
  rw [semexit]
  split
  · exact ⟨s, rfl⟩
  · next su found =>
      obtain ⟨adjusted, isAdjusted⟩ := exitEntries_ok liveInv.inv.known
        (liveInv.live su (mem_of_find?_eq_some found))
      rw [isAdjusted]
      exact ⟨_, rfl⟩

variable [DecidableEq τ]

/-- Each step keeps the invariant. -/
theorem Moved.liveInv (liveInv : LiveInv info s) (guarded : liveGuard info label s)
    (moved : Moved info s label s' reply) : LiveInv info s' := by
  have inv := moved.inv liveInv.inv guarded.1
  have frame := moved.frame
  cases moved with
  | failed | semgetSame | empty => exact liveInv
  | waitSops | waitSemget | waitSetall =>
    exact liveInv.update ⟨frame, rfl, rfl⟩ inv liveInv.live
  | semget positive room inTable free => exact liveInv.create positive room inTable free
  | semop found attempt =>
    have fits : UndoNumsFit _ := guarded.1
    obtain ⟨sets, live⟩ := attempt.live liveInv.live fits (lookup_cases found).2.2
    exact liveInv.update sets inv live
  | rmid found => exact liveInv.remove (lookup_cases found).2.1 (lookup_cases found).2.2 inv
  | setval | setall => exact liveInv.update ⟨frame, rfl, rfl⟩ inv (liveInv.live.clear _)
  | @resume tid _ _ _ _ found resumed =>
    have placeOk := liveInv.inv.places _ (mem_of_find?_eq_some found)
    have leaves : LiveInv info (s.leave tid) :=
      liveInv.update ⟨⟨le_rfl, fun _ _ => rfl⟩, rfl, rfl⟩ (liveInv.inv.leave _) liveInv.live
    exact resumed.liveInv leaves (placeOk.frame ⟨le_rfl, fun _ _ => rfl⟩) (guarded.2 _ found)
  | exit exited =>
    rcases semexit_cases exited with ⟨rfl, _⟩ | ⟨su, adjusted, found, isAdjusted, rfl⟩
    · exact liveInv
    · have exitFrame := exitEntries_frame isAdjusted
      refine liveInv.update ⟨frame, exitFrame.sema, exitFrame.semtot⟩ inv ?_
      intro other member
      rw [exitFrame.undo] at member
      exact liveInv.live other (mem_of_mem_eraseP member)

theorem run_liveInv (run : Run (next info) (liveGuard info) seminit s) : LiveInv info s := by
  apply run.invariant (P := LiveInv info)
  · intro label source target liveInv guarded stepped
    obtain ⟨reply, moved⟩ := next_cases stepped
    exact moved.liveInv liveInv guarded
  · refine ⟨seminit_inv, fun _ member => absurd member not_mem_nil, fun _ _ => rfl, ?_,
      Int.natCast_nonneg _⟩
    exact (Finset.sum_eq_zero fun _ _ => rfl).symm

end Steps

end Bitrig.Sysvsem
