import Bitrig.Sysvsem.Vector

/-!
# Recording a vector

What the loop of `sys_semop` over the `SEM_UNDO` operations does to the adjustments.
If it fails, it has restored them: it fails at once, with no room for a new
`sem_undo`, or on a full `sem_undo` that was there before; entries of a vector
alone never fill one, since a vector has at most `SEMUME` operations to undo.
-/

namespace Bitrig.Sysvsem

open Bitrig.KeyedList List

/-- What a vector adds to the adjustments of a process, with the opposite sign. -/
def Sembuf.undoChange (semid : Nat) (sop : Sembuf) : SemKey → BitVec 16 :=
  if sop.Undoes then Pi.single (semid, sop.semNum) sop.semOp else 0

/-- The sum of the `SEM_UNDO` operations of a vector on each semaphore. -/
def undoChanges (semid : Nat) (sops : List Sembuf) : SemKey → BitVec 16 :=
  (sops.map (Sembuf.undoChange semid)).sum

/-- The numbers of semaphores in `SEM_UNDO` operations fit into a short. -/
def UndoNumsFit (sops : List Sembuf) : Prop :=
  ∀ sop ∈ sops, sop.semUndo = true → sop.semNum.toNat < 2 ^ 15

instance (sops : List Sembuf) : Decidable (UndoNumsFit sops) :=
  inferInstanceAs (Decidable (∀ sop ∈ sops, _))

variable {π : Type} [DecidableEq π] {info : Seminfo} {pr : π} {nowait : Bool} {semid : Nat}
  {table : UndoTable π} {suptr : Cached} {sop : Sembuf} {done rest : List Sembuf}
  {list : List (SemUndo π)}

/-- A process on the list owes something. -/
theorem ListOk.own_ne_nil_iff (ok : ListOk info list) :
    ownEnts list pr ≠ [] ↔ adjOf list pr ≠ 0 := by
  constructor
  · intro some none
    rcases exists_mem_of_ne_nil _ some with ⟨u, uMem⟩
    have member : pr ∈ list.map SemUndo.unProc := ok.sparse.mem_iff_lookup.mpr some
    have entsOk := (ok.ready member).entsOk_own pr
    have value := congrFun none u.key
    rw [adjOf, entryAdj, lookup_of_mem entsOk.sparse.nodup uMem] at value
    exact entsOk.sparse.present u uMem value
  · intro owes none
    apply owes
    funext k
    rw [adjOf, none]
    rfl

theorem ListOk.mem_iff_own (ok : ListOk info list) :
    pr ∈ list.map SemUndo.unProc ↔ ownEnts list pr ≠ [] :=
  ok.sparse.mem_iff_lookup

theorem ownEnts_semuInsert : ownEnts (semuInsert pr table).semuList pr = [] := by
  rw [semuInsert, ownEnts, KeyedList.lookup_cons, if_pos rfl]

/-- How a call of `semundo_adjust` ends. -/
inductive AdjustCase (info : Seminfo) (pr : π) (k : SemKey) (adjval : BitVec 16)
    (table : UndoTable π) : Cached → Adjusted π → Prop
  | onList {suptr : Cached} {result : Adjusted π} (own : ownEnts table.semuList pr ≠ [])
      (set : ∀ ents, suptr ≠ .freed ents) (adjusts : Adjusts info pr k adjval table result) :
      AdjustCase info pr k adjval table suptr result
  | onNew {result : Adjusted π} (new : pr ∉ table.semuList.map SemUndo.unProc)
      (adjusts : Adjusts info pr k adjval
        (semuInsert pr { table with semutot := table.semutot + 1 }) result) :
      AdjustCase info pr k adjval table .null result
  | noSpace : AdjustCase info pr k adjval table .null (.error .enospc .null)
  | waits (new : pr ∉ table.semuList.map SemUndo.unProc) :
      AdjustCase info pr k adjval table .null (.wait { table with semutot := table.semutot + 1 })
  | freed {ents left : List Undo} (grown : left.length ≤ ents.length + 1) :
      AdjustCase info pr k adjval table (.freed ents) (.done table (.freed left))
  | freedFull {ents : List Undo} (full : ents.length = info.semume) :
      AdjustCase info pr k adjval table (.freed ents) (.error .einval (.freed ents))
  | freedCrash {ents : List Undo} : AdjustCase info pr k adjval table (.freed ents) .crash

theorem isSome_find?_iff :
    (list.find? (·.unProc = pr)).isSome = true ↔ pr ∈ list.map SemUndo.unProc := by
  simp [find?_isSome]

theorem semundoAdjust_spec (semid : Nat) (nowait : Bool) {semnum adjval : BitVec 16}
    (small : semnum.toNat < 2 ^ 15) (nonzero : adjval ≠ 0) (ok : ListOk info table.semuList)
    (listed : suptr = .listed → ownEnts table.semuList pr ≠ []) :
    AdjustCase info pr (semid, semnum) adjval table suptr
      (semundoAdjust info pr nowait table suptr semid semnum adjval) := by
  cases suptr with
  | null =>
    rw [semundoAdjust]
    split
    · next found =>
        have member := isSome_find?_iff.mp found
        exact .onList (ok.mem_iff_own.mp member) (by simp)
          (adjustListed_spec small nonzero (ok.ready member))
    · next notFound =>
        have new : pr ∉ table.semuList.map SemUndo.unProc := fun member =>
          notFound (isSome_find?_iff.mpr member)
        split
        · exact .noSpace
        · split
          · exact .onNew new (adjustListed_spec small nonzero (ok.ready_insert new))
          · exact .waits new
  | listed =>
    have own := listed rfl
    exact .onList own (by simp)
      (adjustListed_spec small nonzero (ok.ready (ok.mem_iff_own.mpr own)))
  | freed ents =>
    rw [semundoAdjust]
    split
    · next failed => exact .freedFull (adjustLoop_full [] failed)
    · next left adjusted =>
        split
        · exact .freedCrash
        · exact .freed (adjustLoop_length [] adjusted)

/-- Taking back the operations in `done` from any list with the adjustments of
`table` leads to the adjustments `start`. -/
def Restores (info : Seminfo) (pr : π) (nowait : Bool) (semid : Nat)
    (start : π → SemKey → BitVec 16) (done : List Sembuf) (list : List (SemUndo π)) : Prop :=
  ∀ now : UndoTable π, ListOk info now.semuList → adjOf now.semuList = adjOf list →
    ∃ back, rollbackUndos info pr nowait semid now .listed done.reverse = some back ∧
      ListOk info back.semuList ∧ adjOf back.semuList = start

/-- A state of the loop: nothing is recorded yet, or there is a way back, or there
is room for all that is still to be recorded. -/
inductive Recording (info : Seminfo) (pr : π) (nowait : Bool) (semid : Nat)
    (start : π → SemKey → BitVec 16) (done : List Sembuf) (left : Nat) :
    UndoTable π → Cached → Prop
  | unset {table : UndoTable π} (ok : ListOk info table.semuList)
      (none : ∀ sop ∈ done, ¬sop.Undoes) (same : adjOf table.semuList = start)
      (room : left ≤ info.semume) : Recording info pr nowait semid start done left table .null
  | old {table : UndoTable π} (ok : ListOk info table.semuList)
      (own : ownEnts table.semuList pr ≠ [])
      (restores : Restores info pr nowait semid start done table.semuList)
      (room : left ≤ info.semume) : Recording info pr nowait semid start done left table .listed
  | new {table : UndoTable π} (ok : ListOk info table.semuList)
      (own : ownEnts table.semuList pr ≠ [])
      (room : (ownEnts table.semuList pr).length + left ≤ info.semume) :
      Recording info pr nowait semid start done left table .listed
  | freed {table : UndoTable π} {ents : List Undo} (ok : ListOk info table.semuList)
      (room : ents.length + left ≤ info.semume) :
      Recording info pr nowait semid start done left table (.freed ents)

section Steps

variable {start : π → SemKey → BitVec 16} {left : Nat} {table' : UndoTable π} {suptr' : Cached}

theorem Recording.ok (recording : Recording info pr nowait semid start done left table suptr) :
    ListOk info table.semuList := by
  cases recording <;> assumption

theorem rollbackUndos_none (none : ∀ sop ∈ done, ¬sop.Undoes) :
    rollbackUndos info pr nowait semid table suptr done = some table := by
  induction done with
  | nil => rfl
  | cons sop before ih =>
    rw [rollbackUndos, if_neg (none sop mem_cons_self)]
    exact ih fun other member => none other (mem_cons_of_mem _ member)

theorem restores_nil (none : ∀ sop ∈ done, ¬sop.Undoes) (same : adjOf list = start) :
    Restores info pr nowait semid start done list := by
  intro now ok sameNow
  refine ⟨now, rollbackUndos_none fun sop member => none sop (mem_reverse.mp member), ok, ?_⟩
  rw [sameNow, same]

/-- A recorded operation can be taken back. -/
theorem Restores.snoc (restores : Restores info pr nowait semid start done table.semuList)
    (ok : ListOk info table.semuList) (own : ownEnts table.semuList pr ≠ [])
    (ok' : ListOk info table'.semuList) (own' : ownEnts table'.semuList pr ≠ [])
    (undoes : sop.Undoes) (small : sop.semNum.toNat < 2 ^ 15) (adds : adjOf table'.semuList =
      adjOf table.semuList + Pi.single pr (Pi.single (semid, sop.semNum) (-sop.semOp))) :
    Restores info pr nowait semid start (done ++ [sop]) table'.semuList := by
  intro now nowOk same
  have nowOwn : ownEnts now.semuList pr ≠ [] := by
    rw [nowOk.own_ne_nil_iff, same, ← ok'.own_ne_nil_iff]
    exact own'
  have cancels : adjOf now.semuList + Pi.single pr (Pi.single (semid, sop.semNum) sop.semOp) =
      adjOf table.semuList := by
    rw [same, adds, add_assoc, ← Pi.single_add, ← Pi.single_add, neg_add_cancel, Pi.single_zero,
      Pi.single_zero, add_zero]
  have case : Adjusts info pr (semid, sop.semNum) sop.semOp now _ :=
    adjustListed_spec small undoes.2 (nowOk.ready (nowOk.mem_iff_own.mpr nowOwn))
  rw [reverse_append, reverse_singleton, singleton_append, rollbackUndos,
    if_pos undoes, semundoAdjust]
  generalize adjustListed info pr now semid sop.semNum sop.semOp = result at case
  cases case with
  | kept backOk backAdds =>
    exact restores _ backOk (backAdds.trans cancels)
  | emptied backOk backAdds backOthers none =>
    -- the process owed something before the operation was recorded
    have owes := ok.own_ne_nil_iff.mp own
    rw [← cancels, ← backAdds, ← backOk.own_ne_nil_iff] at owes
    exact absurd none owes
  | full length absent =>
    -- the entry that recording removed left room for it
    exfalso
    have atKey : adjOf table.semuList pr (semid, sop.semNum) = sop.semOp := by
      rw [← cancels, Pi.add_apply, Pi.add_apply, absent, Pi.single_eq_same, Pi.single_eq_same,
        zero_add]
    have entsOk := (ok.ready (ok.mem_iff_own.mpr own)).entsOk_own pr
    have nowEntsOk := (nowOk.ready (nowOk.mem_iff_own.mpr nowOwn)).entsOk_own pr
    have notMem : (semid, sop.semNum) ∉ (ownEnts now.semuList pr).map Undo.key := by
      rw [nowEntsOk.sparse.mem_iff_lookup, not_not]
      exact absent
    have longer : (ownEnts table.semuList pr).Perm
        (⟨sop.semOp, sop.semNum, semid⟩ :: ownEnts now.semuList pr) := by
      refine entsOk.sparse.perm_of_lookup (nowEntsOk.sparse.cons notMem undoes.2) Undo.ext_key ?_
      intro k
      rw [KeyedList.lookup_cons]
      change adjOf table.semuList pr k = if (semid, sop.semNum) = k then sop.semOp else
        adjOf now.semuList pr k
      split
      · next here => rw [← here, atKey]
      · next elsewhere =>
          rw [← cancels, Pi.add_apply, Pi.add_apply, Pi.single_eq_same,
            Pi.single_eq_of_ne (Ne.symm elsewhere), add_zero]
    have fits := entsOk.fits
    rw [longer.length_eq, length_cons] at fits
    omega

/-- The first operation that a new `sem_undo` records. -/
theorem Adjusts.new_own {k : SemKey} {adjval : BitVec 16} {result : Adjusted π}
    (nonzero : adjval ≠ 0) (empty : ownEnts table.semuList pr = [])
    (adjusts : Adjusts info pr k adjval table result) :
    ∃ table', result = .done table' .listed ∧ ListOk info table'.semuList ∧
      adjOf table'.semuList = adjOf table.semuList + Pi.single pr (Pi.single k adjval) ∧
      (∀ q, q ≠ pr → ownEnts table'.semuList q = ownEnts table.semuList q) ∧
      ownEnts table'.semuList pr ≠ [] ∧ (ownEnts table'.semuList pr).length ≤ 1 := by
  have before : adjOf table.semuList pr = 0 := by
    funext j
    rw [adjOf, empty]
    rfl
  cases adjusts with
  | kept ok adds others own grown =>
    rw [empty] at grown
    exact ⟨_, rfl, ok, adds, others, own, grown⟩
  | emptied ok adds others none =>
    refine absurd none (ok.own_ne_nil_iff.mpr fun zero => nonzero ?_)
    have here := congrFun zero k
    rwa [adds, Pi.add_apply, before, Pi.single_eq_same, zero_add, Pi.single_eq_same] at here
  | full length =>
    rw [empty] at length
    exact absurd length (ne_of_lt info.semume_pos)

theorem Recording.adjustCase
    (recording : Recording info pr nowait semid start done left table suptr)
    (undoes : sop.Undoes) (small : sop.semNum.toNat < 2 ^ 15) :
    AdjustCase info pr (semid, sop.semNum) (-sop.semOp) table suptr
      (semundoAdjust info pr nowait table suptr semid sop.semNum (-sop.semOp)) := by
  refine semundoAdjust_spec semid nowait small (neg_ne_zero.mpr undoes.2) recording.ok ?_
  rintro rfl
  cases recording <;> assumption

/-- One operation is recorded. -/
theorem Recording.step (undoes : sop.Undoes) (small : sop.semNum.toNat < 2 ^ 15)
    (recording : Recording info pr nowait semid start done (left + 1) table suptr)
    (adjusted : semundoAdjust info pr nowait table suptr semid sop.semNum (-sop.semOp) =
      .done table' suptr') :
    Recording info pr nowait semid start (done ++ [sop]) left table' suptr' := by
  have case := recording.adjustCase undoes small
  rw [adjusted] at case
  cases case with
  | onList own set adjusts =>
    cases adjusts with
    | kept ok adds others own' grown =>
      cases recording with
      | unset ok₀ none same room =>
        exact .old ok own' ((restores_nil none same).snoc ok₀ own ok own' undoes small adds)
          (Nat.le_of_succ_le room)
      | old ok₀ own₀ restores room =>
        exact .old ok own' (restores.snoc ok₀ own ok own' undoes small adds)
          (Nat.le_of_succ_le room)
      | new ok₀ own₀ room => exact .new ok own' (by omega)
      | freed => exact absurd rfl (set _)
    | emptied ok adds others none =>
      have room : left ≤ info.semume := by
        cases recording with
        | unset ok₀ none same room => omega
        | old ok₀ own₀ restores room => omega
        | new ok₀ own₀ room => omega
        | freed => exact absurd rfl (set _)
      exact .freed ok (by simpa using room)
  | onNew new adjusts =>
    obtain ⟨found, isDone, ok, adds, others, own', short⟩ :=
      adjusts.new_own (neg_ne_zero.mpr undoes.2) ownEnts_semuInsert
    injection isDone with sameTable samePtr
    subst sameTable samePtr
    cases recording with
    | unset ok₀ none same room => exact .new ok own' (by omega)
  | freed grown =>
    cases recording with
    | freed ok room => exact .freed ok (by omega)

/-- Where the loop fails, the adjustments are those of the start again. -/
theorem Recording.failed {errno : SemError} {back : UndoTable π} (undoes : sop.Undoes)
    (small : sop.semNum.toNat < 2 ^ 15)
    (recording : Recording info pr nowait semid start done (left + 1) table suptr)
    (adjusted : semundoAdjust info pr nowait table suptr semid sop.semNum (-sop.semOp) =
      .error errno suptr')
    (rolledBack : rollbackUndos info pr nowait semid table suptr' done.reverse = some back) :
    ListOk info back.semuList ∧ adjOf back.semuList = start := by
  have case := recording.adjustCase undoes small
  rw [adjusted] at case
  cases case with
  | onList own set adjusts =>
    cases adjusts with
    | full length absent =>
      have restored : Restores info pr nowait semid start done table.semuList →
          ListOk info back.semuList ∧ adjOf back.semuList = start := by
        intro restores
        obtain ⟨result, isResult, ok, same⟩ := restores table recording.ok rfl
        obtain rfl := Option.some.inj (rolledBack.symm.trans isResult)
        exact ⟨ok, same⟩
      cases recording with
      | unset ok₀ none same room => exact restored (restores_nil none same)
      | old ok₀ own₀ restores room => exact restored restores
      | new ok₀ own₀ room => omega
      | freed => exact absurd rfl (set _)
  | onNew new adjusts =>
    obtain ⟨_, isDone, _⟩ := adjusts.new_own (neg_ne_zero.mpr undoes.2) ownEnts_semuInsert
    cases isDone
  | noSpace =>
    cases recording with
    | unset ok₀ none same room =>
      rw [rollbackUndos_none fun op member => none op (mem_reverse.mp member)] at rolledBack
      cases rolledBack
      exact ⟨ok₀, same⟩
  | freedFull full =>
    cases recording with
    | freed ok room => omega

theorem undoCount_cons_eq_zero {sops : List Sembuf} :
    undoCount (sop :: sops) = 0 ↔ ¬sop.Undoes ∧ undoCount sops = 0 := by
  by_cases undoes : sop.Undoes <;> simp [undoCount, undoes]

/-- A vector without undo entries records nothing. -/
theorem recordUndos_of_none (none : undoCount rest = 0) :
    recordUndos info pr nowait semid table suptr done rest = .finished table := by
  induction rest generalizing done with
  | nil => rfl
  | cons sop rest ih =>
    have both := undoCount_cons_eq_zero.mp none
    rw [recordUndos, if_neg both.1]
    exact ih both.2

/-- What the loop leaves. -/
inductive RecordedTo (info : Seminfo) (start : π → SemKey → BitVec 16) (sops : List Sembuf) :
    Recorded π → Prop
  | finished {table : UndoTable π} (ok : ListOk info table.semuList) :
      RecordedTo info start sops (.finished table)
  | failed {errno : SemError} {table : UndoTable π} (ok : ListOk info table.semuList)
      (same : adjOf table.semuList = start) : RecordedTo info start sops (.failed errno table)
  | wait {table : UndoTable π} {sop : Sembuf} {done rest : List Sembuf}
      (split : sops = done ++ sop :: rest) (ok : ListOk info table.semuList)
      (same : adjOf table.semuList = start) (none : ∀ before ∈ done, ¬before.Undoes)
      (undoes : sop.Undoes)
      (room : undoCount (sop :: rest) ≤ info.semume) :
      RecordedTo info start sops (.wait table done (sop :: rest))
  | crash : RecordedTo info start sops .crash

theorem recordUndos_spec (small : UndoNumsFit rest)
    (recording : Recording info pr nowait semid start done (undoCount rest) table suptr) :
    RecordedTo info start (done ++ rest)
      (recordUndos info pr nowait semid table suptr done rest) := by
  induction rest generalizing table suptr done with
  | nil => exact .finished recording.ok
  | cons sop rest ih =>
    have restSmall : UndoNumsFit rest := fun other member =>
      small other (mem_cons_of_mem _ member)
    have shifted : done ++ sop :: rest = done ++ [sop] ++ rest := by simp
    rw [recordUndos]
    split
    · next undoes =>
        have sopSmall := small sop mem_cons_self undoes.1
        have counted : undoCount (sop :: rest) = undoCount rest + 1 := by
          simp [undoCount, undoes]
        have now := recording
        rw [counted] at now
        split
        · next adjusted =>
            rw [shifted]
            exact ih restSmall (now.step undoes sopSmall adjusted)
        · next table' adjusted =>
            have case := recording.adjustCase undoes sopSmall
            rw [adjusted] at case
            cases case with
            | onList own set adjusts => cases adjusts
            | onNew new adjusts => cases adjusts
            | waits new =>
              cases recording with
              | unset ok none same room => exact .wait rfl ok same none undoes room
        · exact .crash
        · next adjusted =>
            split
            · exact .crash
            · next rolledBack =>
                obtain ⟨ok, same⟩ := now.failed undoes sopSmall adjusted rolledBack
                exact .failed ok same
    · next skipped =>
        have counted : undoCount (sop :: rest) = undoCount rest := by
          simp [undoCount, skipped]
        rw [counted] at recording
        rw [shifted]
        refine ih restSmall ?_
        have noRecord : ∀ list : List (SemUndo π),
            Restores info pr nowait semid start done list →
            Restores info pr nowait semid start (done ++ [sop]) list := by
          intro list restores now ok same
          rw [reverse_append, reverse_singleton, singleton_append, rollbackUndos, if_neg skipped]
          exact restores now ok same
        cases recording with
        | unset ok none same room =>
          exact .unset ok (forall_mem_append.mpr ⟨none, forall_mem_singleton.mpr skipped⟩) same room
        | old ok own restores room => exact .old ok own (noRecord _ restores) room
        | new ok own room => exact .new ok own room
        | freed ok room => exact .freed ok room

/-- The loop from its start. -/
theorem recordUndos_start (small : UndoNumsFit rest) (ok : ListOk info table.semuList)
    (count : undoCount rest ≤ info.semume) :
    RecordedTo info (adjOf table.semuList) rest
      (recordUndos info pr nowait semid table .null [] rest) :=
  recordUndos_spec small
    (.unset ok (fun _ member => absurd member not_mem_nil) rfl count)

/-- The loop behind `semu_alloc`, when that had to wait. -/
theorem recordUndos_awake (small : UndoNumsFit (sop :: rest)) (ok : ListOk info table.semuList)
    (none : ∀ before ∈ done, ¬before.Undoes) (undoes : sop.Undoes)
    (count : undoCount (sop :: rest) ≤ info.semume) :
    RecordedTo info (adjOf table.semuList) (done ++ sop :: rest)
      (recordUndos info pr nowait semid (semuAwake pr table) .listed done (sop :: rest)) := by
  rw [semuAwake]
  split
  · next found =>
      have own := ok.mem_iff_own.mp (isSome_find?_iff.mp found)
      exact recordUndos_spec small (.old ok own (restores_nil none rfl) count)
  · next notFound =>
      have new : pr ∉ table.semuList.map SemUndo.unProc := fun member =>
        notFound (isSome_find?_iff.mpr member)
      have nonzero : -sop.semOp ≠ 0 := neg_ne_zero.mpr undoes.2
      have counted : undoCount (sop :: rest) = undoCount rest + 1 := by
        simp [undoCount, undoes]
      have case : Adjusts info pr (semid, sop.semNum) (-sop.semOp) (semuInsert pr table) _ :=
        adjustListed_spec (small sop mem_cons_self undoes.1) nonzero (ok.ready_insert new)
      obtain ⟨table', isDone, ok', adds, others, own', short⟩ :=
        case.new_own nonzero ownEnts_semuInsert
      have adjusted : semundoAdjust info pr nowait (semuInsert pr table) .listed semid sop.semNum
          (-sop.semOp) = .done table' .listed := isDone
      have shifted : done ++ sop :: rest = done ++ [sop] ++ rest := by simp
      rw [recordUndos, if_pos undoes, adjusted, shifted]
      exact recordUndos_spec (fun other member => small other (mem_cons_of_mem _ member))
        (.new ok' own' (by omega))

end Steps

end Bitrig.Sysvsem
