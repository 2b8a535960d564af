import Bitrig.Sysvsem.Moves

/-!
# Values of semaphores

The value of a semaphore stays in `0..semvmx` as long as nothing brings it out that is
not checked.  `SETALL` checks its values, but

* `SETVAL` takes a negative value, which becomes a great one;
* an operation of `semop` and an adjustment of `semexit` add without a check;
* a call of `semop` that waits in `semu_alloc` and fails afterwards takes its operations
  back from values that others may have changed meanwhile.
-/

namespace Bitrig.Sysvsem

open Bitrig.Transition List

/-- All values are at most `semvmx`. -/
def Legal (vals : List (BitVec 16)) : Prop :=
  ∀ semval ∈ vals, semval.toNat ≤ semvmx

instance (vals : List (BitVec 16)) : Decidable (Legal vals) :=
  inferInstanceAs (Decidable (∀ semval ∈ vals, _))

/-- The most that a list of changes adds to the value at `k`. -/
def raised {κ : Type} [DecidableEq κ] (k : κ) (adds : List (κ × BitVec 16)) : Nat :=
  (adds.map fun add => if add.1 = k then add.2.toInt.toNat else 0).sum

/-- The values that are raised have room up to `semvmx` for all that is added to them. -/
def Room {κ : Type} [DecidableEq κ] (value : κ → Option (BitVec 16))
    (adds : List (κ × BitVec 16)) : Prop :=
  ∀ add ∈ adds, 0 < add.2.toInt →
    ∀ semval ∈ value add.1, semval.toNat + raised add.1 adds ≤ semvmx

instance {κ : Type} [DecidableEq κ] (value : κ → Option (BitVec 16))
    (adds : List (κ × BitVec 16)) : Decidable (Room value adds) :=
  inferInstanceAs (Decidable (∀ add ∈ adds, _ → ∀ semval ∈ value add.1, _))

/-- What a vector adds to the semaphores of a set. -/
def vectorAdds (sops : List Sembuf) : List (Nat × BitVec 16) :=
  sops.map fun sop => (sop.semNum.toNat, sop.semOp)

section Definitions

variable {π τ : Type}

/-- The value of the semaphore with a number in the set at an address. -/
def State.valueAt (s : State π τ) (place : Nat × Nat) : Option (BitVec 16) :=
  (values (s.baseAt place.1))[place.2]?

/-- What the undo entries of a process add when it exits. -/
def exitAdds (sema : Nat → Option Nat) (ents : List Undo) : List ((Nat × Nat) × BitVec 16) :=
  ents.filterMap fun u => (sema u.unId).map fun a => ((a, u.unNum.toNat), u.unAdjval)

variable [DecidableEq π]

/-- A call that goes on finds room for what it adds.  If it has added already and waits in
`semu_alloc`, its process has room for the undo entries. -/
def resumeRoom (info : Seminfo) (pr : π) (s : State π τ) : Place → Prop
  | .sopsMalloc call | .tsleep call _ _ =>
    Room (fun num => (values (s.baseAt call.semaptr))[num]?) (vectorAdds call.sops)
  | .semuAlloc _ _ rest => (ownEnts s.undo.semuList pr).length + undoCount rest ≤ info.semume
  | .semgetAlloc _ | .setallMalloc .. => True

variable [DecidableEq τ]

/-- The conditions of this module. -/
def legalGuard (info : Seminfo) (label : Label π τ) (s : State π τ) : Prop :=
  match label with
  | .semop _ _ id sops _ =>
    ∀ found ∈ s.lookup info id,
      Room (fun num => (values (s.baseAt found.2))[num]?) (vectorAdds sops)
  | .setval _ _ _ val _ => 0 ≤ val
  | .resume tid _ => ∀ w ∈ s.calls.find? (·.tid = tid), resumeRoom info w.pr s w.place
  | .exit pr =>
    ∀ su ∈ s.undo.semuList.find? (·.unProc = pr), Room s.valueAt (exitAdds s.sema su.unEnt)
  | .semget .. | .rmid .. | .setall .. => True

instance (info : Seminfo) (pr : π) (s : State π τ) (place : Place) :
    Decidable (resumeRoom info pr s place) :=
  match place with
  | .sopsMalloc _ | .tsleep .. | .semuAlloc .. | .semgetAlloc _ | .setallMalloc .. => by
    dsimp only [resumeRoom]
    infer_instance

instance (info : Seminfo) (label : Label π τ) (s : State π τ) :
    Decidable (legalGuard info label s) :=
  match label with
  | .semget .. | .semop .. | .rmid .. | .setval .. | .setall .. | .resume .. | .exit _ => by
    dsimp only [legalGuard]
    infer_instance

/-- Every semaphore has a legal value. -/
def LegalState (s : State π τ) : Prop :=
  ∀ a, Legal (values (s.baseAt a))

end Definitions

/-! ### Values -/

variable {semval adjval : BitVec 16} {vals : List (BitVec 16)}

theorem Legal.modify (legal : Legal vals) {num : Nat} {change : BitVec 16 → BitVec 16}
    (here : ∀ semval, vals[num]? = some semval → (change semval).toNat ≤ semvmx) :
    Legal (vals.modify num change) := by
  intro semval member
  obtain ⟨n, isValue⟩ := mem_iff_getElem?.mp member
  rw [getElem?_modify] at isValue
  obtain ⟨old, isOld, rfl⟩ := Option.map_eq_some_iff.mp isValue
  split
  · next same => exact here old (same ▸ isOld)
  · exact legal old (mem_of_getElem? isOld)

section Bounded

variable {κ : Type} [DecidableEq κ] {value value' : κ → Option (BitVec 16)}
  {adds : List (κ × BitVec 16)} {k : κ}

/-- No value can be raised above `semvmx` by a list of changes. -/
def Bounded (value : κ → Option (BitVec 16)) (adds : List (κ × BitVec 16)) : Prop :=
  ∀ k semval, value k = some semval → semval.toNat + raised k adds ≤ semvmx

theorem raised_cons (k : κ) (add : κ × BitVec 16) :
    raised k (add :: adds) = (if add.1 = k then add.2.toInt.toNat else 0) + raised k adds := by
  rw [raised, map_cons, sum_cons]
  rfl

theorem raised_eq_zero (none : ∀ add ∈ adds, add.1 = k → add.2.toInt ≤ 0) : raised k adds = 0 := by
  refine sum_eq_zero fun n member => ?_
  obtain ⟨add, inAdds, rfl⟩ := mem_map.mp member
  split
  · next same => exact Int.toNat_of_nonpos (none add inAdds same)
  · rfl

/-- Legal values are bounded when those that are raised have room. -/
theorem bounded_of_room (legal : ∀ k semval, value k = some semval → semval.toNat ≤ semvmx)
    (room : Room value adds) : Bounded value adds := by
  intro k semval isValue
  by_cases some : ∃ add ∈ adds, add.1 = k ∧ 0 < add.2.toInt
  · obtain ⟨add, member, rfl, positive⟩ := some
    exact room add member positive semval isValue
  · rw [raised_eq_zero]
    · exact legal k semval isValue
    · intro add member same
      by_contra positive
      exact some ⟨add, member, same, Int.not_le.mp positive⟩

/-- One change is made. -/
theorem Bounded.step {adjval : BitVec 16} (bounded : Bounded value ((k, adjval) :: adds))
    (here : ∀ new, value' k = some new →
      ∃ semval, value k = some semval ∧ new.toNat ≤ semval.toNat + adjval.toInt.toNat)
    (other : ∀ k', k' ≠ k → value' k' = value k') : Bounded value' adds := by
  intro k' new isNew
  by_cases same : k' = k
  · subst same
    obtain ⟨semval, isValue, atMost⟩ := here new isNew
    have bound := bounded k' semval isValue
    rw [raised_cons, if_pos rfl] at bound
    dsimp only at bound
    omega
  · rw [other k' same] at isNew
    have bound := bounded k' new isNew
    rw [raised_cons, if_neg (Ne.symm same)] at bound
    omega

end Bounded

theorem toNat_add_le (low : 0 ≤ (semval.toNat : Int) + adjval.toInt) :
    (semval + adjval).toNat ≤ semval.toNat + adjval.toInt.toNat := by
  rw [BitVec.toInt_eq_toNat_cond] at low ⊢
  rw [BitVec.toNat_add]
  split at low <;> split <;> omega

/-- Operations that can be done leave room for the others. -/
theorem bounded_applyOps {done rest : List Sembuf}
    (bounded : Bounded (fun num => vals[num]?) (vectorAdds (done ++ rest)))
    (applies : Applies vals done) :
    Bounded (fun num => (done.foldl addValue vals)[num]?) (vectorAdds rest) := by
  induction done generalizing vals with
  | nil => exact bounded
  | cons sop done ih =>
    obtain ⟨free, appliesRest⟩ := applies
    refine ih (bounded.step (fun new isNew => ?_) fun num other => ?_) appliesRest
    · rw [addValue, getElem?_modify_eq] at isNew
      obtain ⟨semval, isValue, rfl⟩ := Option.map_eq_some_iff.mp isNew
      refine ⟨semval, isValue, toNat_add_le ?_⟩
      by_contra less
      exact free semval isValue (Or.inl (Int.not_le.mp less))
    · rw [addValue, getElem?_modify_ne _ _ (Ne.symm other)]

theorem exitSemval_le (adjval semval : BitVec 16) :
    (exitSemval adjval semval).toNat ≤ semval.toNat + adjval.toInt.toNat := by
  rw [exitSemval]
  split
  · exact Nat.zero_le _
  · next enough =>
      refine toNat_add_le ?_
      by_contra negative
      exact enough ⟨by omega, by omega⟩

theorem legal_copyinValues {nsems : Nat} {semval : List (BitVec 16)}
    (copied : copyinValues nsems vals = .ok semval) : Legal semval := by
  induction nsems generalizing vals semval with
  | zero =>
    cases copied
    exact fun _ member => absurd member not_mem_nil
  | succ nsems ih =>
    cases vals with
    | nil => contradiction
    | cons value vals =>
      rw [copyinValues] at copied
      split at copied
      · contradiction
      · next small =>
          split at copied
          · contradiction
          · next rest restCopied =>
              cases copied
              exact forall_mem_cons.mpr ⟨Nat.le_of_not_lt small, ih restCopied⟩

theorem values_assignValues {base : List Sem} {semval : List (BitVec 16)}
    (copied : copyinValues base.length vals = .ok semval) :
    values (assignValues base semval) = semval := by
  have length := length_copyinValues copied
  clear copied
  induction base generalizing semval with
  | nil =>
    cases eq_nil_of_length_eq_zero length
    rfl
  | cons sem base ih =>
    cases semval with
    | nil => contradiction
    | cons value semval =>
      have rest := ih (Nat.succ.inj length)
      rw [values, assignValues] at rest
      rw [values, assignValues, zipWith_cons_cons, map_cons, rest]

theorem values_modify (base : List Sem) (num : Nat) (change : BitVec 16 → BitVec 16) :
    values (base.modify num fun sem => { sem with semval := change sem.semval }) =
      (values base).modify num change := by
  refine ext_getElem? fun n => ?_
  simp only [values, getElem?_map, getElem?_modify]
  cases base[n]? with
  | none => rfl
  | some sem => by_cases here : num = n <;> simp [here]

/-! ### Steps -/

section Steps

variable {π τ : Type} {info : Seminfo} {tid : τ} {pr : π} {env : Env} {nowait : Bool}
  {call : SemopCall} {s s' : State π τ} {reply : Reply} {label : Label π τ}

section

variable (legal : LegalState s)
include legal

theorem LegalState.setBase {a : Nat} {base : List Sem} (here : Legal (values base)) :
    LegalState (s.setBase a base) := by
  intro b
  by_cases same : b = a
  · rwa [same, State.setBase_baseAt]
  · rw [State.setBase_baseAt_of_ne s a same]
    exact legal b

theorem LegalState.addWaiter (a : Nat) (sop : Sembuf) (count : BitVec 16) :
    LegalState (s.setBase a (addWaiter sop count (s.baseAt a))) := by
  apply legal.setBase
  rw [values_addWaiter]
  exact legal a

theorem LegalState.create (ix : Nat) (args : SemgetArgs) : LegalState (s.create ix args) := by
  intro a semval member
  by_cases new : a = s.nextSet
  · subst new
    obtain ⟨sem, inBase, rfl⟩ := mem_map.mp member
    have zero : sem ∈ List.replicate args.nsems.toNat (⟨0, 0, 0⟩ : Sem) := by
      simpa [State.create, State.baseAt] using inBase
    rw [eq_of_mem_replicate zero]
    exact Nat.zero_le _
  · refine legal a semval ?_
    simpa [State.create, State.baseAt, new] using member

end

theorem legalState_of_bounded {adds : List ((Nat × Nat) × BitVec 16)}
    (bounded : Bounded s.valueAt adds) : LegalState s := by
  intro a semval member
  obtain ⟨num, isValue⟩ := mem_iff_getElem?.mp member
  exact (Nat.le_add_right _ _).trans (bounded (a, num) semval isValue)

theorem LegalState.bounded {adds : List ((Nat × Nat) × BitVec 16)} (legal : LegalState s)
    (room : Room s.valueAt adds) : Bounded s.valueAt adds :=
  bounded_of_room (fun place semval isValue => legal place.1 semval (mem_of_getElem? isValue)) room

theorem legal_exit {ents : List Undo} (bounded : Bounded s.valueAt (exitAdds s.sema ents))
    (adjusted : ents.foldlM exitAdjust s = .ok s') : LegalState s' := by
  induction ents generalizing s with
  | nil =>
    cases adjusted
    exact legalState_of_bounded bounded
  | cons u ents ih =>
    rw [foldlM_cons] at adjusted
    cases first : exitAdjust s u with
    | error fault =>
      rw [first] at adjusted
      contradiction
    | ok middle =>
      rw [first] at adjusted
      refine ih ?_ adjusted
      rw [exitAdjust] at first
      split at first
      · contradiction
      · next a isSet =>
          split_ifs at first
          cases first
          have added : exitAdds s.sema (u :: ents) =
              ((a, u.unNum.toNat), u.unAdjval) :: exitAdds s.sema ents := by
            rw [exitAdds, filterMap_cons, isSet]
            rfl
          rw [added] at bounded
          refine bounded.step (fun new isNew => ?_) fun place other => ?_
          · rw [State.valueAt, State.setBase_baseAt, values_modify, getElem?_modify_eq] at isNew
            obtain ⟨semval, isValue, rfl⟩ := Option.map_eq_some_iff.mp isNew
            exact ⟨semval, isValue, exitSemval_le _ _⟩
          · by_cases same : place.1 = a
            · have apart : u.unNum.toNat ≠ place.2 := fun equal =>
                other (Prod.ext same equal.symm)
              rw [State.valueAt, State.valueAt, same, State.setBase_baseAt, values_modify,
                getElem?_modify_ne _ _ apart]
            · rw [State.valueAt, State.valueAt, State.setBase_baseAt_of_ne s a same]

variable [DecidableEq π]

/-- `semu_alloc` puts a `sem_undo` without entries on the list, if the process has none. -/
theorem ownEnts_semuAwake (pr : π) (table : UndoTable π) :
    ownEnts (semuAwake pr table).semuList pr = ownEnts table.semuList pr := by
  unfold semuAwake
  split
  · rfl
  · next none =>
      rw [ownEnts_semuInsert]
      have absent := Option.not_isSome_iff_eq_none.mp none
      simp [KeyedList.lookup, absent]

theorem ownEnts_updateOwn_of_find {list : List (SemUndo π)} {su : SemUndo π} {ents : List Undo}
    (found : list.find? (·.unProc = pr) = some su) (some : ents ≠ []) :
    ownEnts (updateOwn pr ents list) pr = ents := by
  induction list with
  | nil => cases found
  | cons first list ih =>
    rw [updateOwn]
    by_cases own : first.unProc = pr
    · rw [if_pos own, if_neg some]
      simp [KeyedList.lookup, own]
    · rw [find?_cons_of_neg (by simpa using own)] at found
      rw [if_neg own]
      simpa [KeyedList.lookup, own] using ih found

/-- The entries that `suptr` points to. -/
def Cached.ents (pr : π) (list : List (SemUndo π)) : Cached → List Undo
  | null => []
  | listed => ownEnts list pr
  | freed ents => ents

/-- With room for one more entry `semundo_adjust` does not fail, and makes one at most. -/
theorem semundoAdjust_room {table : UndoTable π} {suptr : Cached} (set : suptr ≠ .null)
    (nowait : Bool) (semid : Nat) (semnum adjval : BitVec 16)
    (room : (suptr.ents pr table.semuList).length < info.semume) :
    (∀ errno suptr',
      semundoAdjust info pr nowait table suptr semid semnum adjval ≠ .error errno suptr') ∧
    ∀ table' suptr',
      semundoAdjust info pr nowait table suptr semid semnum adjval = .done table' suptr' →
      suptr' ≠ .null ∧
        (suptr'.ents pr table'.semuList).length ≤ (suptr.ents pr table.semuList).length + 1 := by
  cases suptr with
  | null => exact absurd rfl set
  | listed =>
    rw [semundoAdjust, adjustListed]
    cases found : table.semuList.find? (·.unProc = pr) with
    | none => exact ⟨by simp, by simp⟩
    | some su =>
      have own : ownEnts table.semuList pr = su.unEnt := by simp [KeyedList.lookup, found]
      simp only [Cached.ents, own] at room ⊢
      cases adjusted : adjustLoop info semid semnum adjval [] su.unEnt with
      | none => exact absurd (adjustLoop_full [] adjusted) room.ne
      | some ents =>
        have length := adjustLoop_length [] adjusted
        dsimp only
        split
        · refine ⟨by simp, fun table' suptr' done => ?_⟩
          cases done
          exact ⟨by simp, Nat.zero_le _⟩
        · next some =>
            refine ⟨by simp, fun table' suptr' done => ?_⟩
            cases done
            refine ⟨by simp, ?_⟩
            change (ownEnts (updateOwn pr ents table.semuList) pr).length ≤ _
            rw [ownEnts_updateOwn_of_find found some]
            exact length
  | freed ents =>
    rw [semundoAdjust]
    cases adjusted : adjustLoop info semid semnum adjval [] ents with
    | none => exact absurd (adjustLoop_full [] adjusted) room.ne
    | some left =>
      have length := adjustLoop_length [] adjusted
      dsimp only
      split
      · exact ⟨by simp, by simp⟩
      · refine ⟨by simp, fun table' suptr' done => ?_⟩
        cases done
        exact ⟨by simp, length⟩

/-- With room for all entries the loop over the `SEM_UNDO` operations does not fail. -/
theorem recordUndos_room {table undo : UndoTable π} {suptr : Cached} {semid : Nat}
    {done rest : List Sembuf} {errno : SemError} (set : suptr ≠ .null)
    (room : (suptr.ents pr table.semuList).length + undoCount rest ≤ info.semume) :
    recordUndos info pr nowait semid table suptr done rest ≠ .failed errno undo := by
  induction rest generalizing table suptr done with
  | nil => exact nofun
  | cons sop rest ih =>
    rw [undoCount, countP_cons] at room
    rw [recordUndos]
    split
    · next undoes =>
        rw [if_pos (by simpa using undoes)] at room
        have one : (suptr.ents pr table.semuList).length < info.semume := by omega
        obtain ⟨noError, adjusts⟩ :=
          semundoAdjust_room set nowait semid sop.semNum (-sop.semOp) one
        split
        · next table' suptr' adjusted =>
            obtain ⟨set', length⟩ := adjusts _ _ adjusted
            refine ih set' ?_
            rw [undoCount]
            omega
        · simp
        · simp
        · next errno' suptr' failed => exact absurd failed (noError _ _)
    · refine ih set ?_
      rw [undoCount]
      omega

theorem Attempt.legal (legal : LegalState s)
    (room : Room (fun num => (values (s.baseAt call.semaptr))[num]?) (vectorAdds call.sops))
    (attempt : Attempt info tid pr nowait call s s' reply) : LegalState s' := by
  have applied {done rest : List Sembuf} (split : call.sops = done ++ rest)
      (applies : Applies (values (s.baseAt call.semaptr)) done) :
      LegalState (s.setBase call.semaptr (applyOps done (s.baseAt call.semaptr))) := by
    apply legal.setBase
    rw [values_applyOps]
    have bounded := bounded_of_room
      (fun num semval isValue => legal _ semval (mem_of_getElem? isValue)) room
    rw [split] at bounded
    intro semval member
    obtain ⟨num, isValue⟩ := mem_iff_getElem?.mp member
    exact (Nat.le_add_right _ _).trans (bounded_applyOps bounded applies num semval isValue)
  have whole : call.sops = call.sops ++ [] := (append_nil _).symm
  cases attempt with
  | restored => exact legal
  | efbig split inRange outOfRange applies => exact applied split applies
  | sleeps => exact legal.addWaiter _ _ _
  | passed inRange none applies => exact applied whole applies
  | records inRange count recorded applies =>
    cases recorded with
    | finished | waits => exact applied whole applies
    | failed =>
      rw [State.setBase_setBase, State.setBase_baseAt, rollback_applyOps inRange,
        State.setBase_self]
      exact legal

theorem Resumed.legal {place : Place} (legal : LegalState s) (room : resumeRoom info pr s place)
    (resumed : Resumed info tid pr env s place s' reply) : LegalState s' := by
  cases resumed with
  | sopsFault | removed | semgetSame | setallSame => exact legal
  | sops attempt => exact attempt.legal legal room
  | interrupted => exact legal.addWaiter _ _ _
  | awake allocated attempt =>
    refine attempt.legal (legal.addWaiter _ _ _) ?_
    rw [State.setBase_baseAt, values_addWaiter]
    exact room
  | undo recorded =>
    cases recorded with
    | finished | waits => exact legal
    | failed result =>
      -- the condition excludes that the call takes its operations back here
      refine absurd result (recordUndos_room nofun ?_)
      rw [Cached.ents, State.withUndo, ownEnts_semuAwake]
      exact room
  | semget => exact legal.create _ _
  | setall copied =>
    have here := legal_copyinValues copied
    rw [← values_assignValues copied] at here
    exact legal.setBase here

variable [DecidableEq τ]

/-- Each step keeps all values legal. -/
theorem Moved.legal (legal : LegalState s) (guarded : legalGuard info label s)
    (moved : Moved info s label s' reply) : LegalState s' := by
  cases moved with
  | failed | semgetSame | empty | waitSops | waitSemget | waitSetall | rmid => exact legal
  | semget => exact legal.create _ _
  | semop found attempt => exact attempt.legal legal (guarded _ found)
  | @setval tid id ix semaptr semnum val env found small =>
    have nonneg : 0 ≤ val := guarded
    refine LegalState.setBase legal ?_
    rw [values_modify _ _ fun _ => BitVec.ofInt 16 val]
    refine (legal semaptr).modify fun _ _ => ?_
    rw [BitVec.toNat_ofInt]
    omega
  | setall found copied =>
    have here := legal_copyinValues copied
    rw [← values_assignValues copied] at here
    exact legal.setBase here
  | resume found resumed =>
    exact Resumed.legal (s := s.leave _) legal (guarded _ found) resumed
  | exit exited =>
    rcases semexit_cases exited with ⟨rfl, _⟩ | ⟨su, adjusted, found, isAdjusted, rfl⟩
    · exact legal
    · have after := legal_exit (legal.bounded (guarded su found)) isAdjusted
      exact after

end Steps

end Bitrig.Sysvsem
