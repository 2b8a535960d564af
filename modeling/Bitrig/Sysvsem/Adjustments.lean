import Bitrig.Sysvsem.Invariant

/-!
# The bookkeeping of SEM_UNDO

A call of `semop` that succeeds takes the sum of its `SEM_UNDO` operations on each
semaphore off the adjustment of its process, and leaves the entries of the other
processes alone.  This is so when

* the process does not run out of adjustments in the middle of the vector: its
  `sem_undo` is freed then, and what the rest of the vector records goes to the freed
  memory;
* no adjustment leaves the range of a short;
* `semu_alloc` does not have to wait: `semutot` is ahead of the list while it does.
-/

namespace Bitrig.Sysvsem

open Bitrig.Transition Bitrig.KeyedList List

/-- The sum of the `SEM_UNDO` operations of a vector on a semaphore. -/
def undoSum (semid : Nat) (sops : List Sembuf) (k : SemKey) : Int :=
  (sops.map fun sop =>
    if sop.semUndo = true ∧ (semid, sop.semNum) = k then sop.semOp.toInt else 0).sum

section Definitions

variable {π τ : Type} [DecidableEq π] [DecidableEq τ]

/-- Between its first and its last `SEM_UNDO` operation a vector leaves the process some
adjustment. -/
def KeepsOwn (list : List (SemUndo π)) (pr : π) (semid : Nat) (sops : List Sembuf) : Prop :=
  ∀ i < sops.length, undoCount (sops.take i) ≠ 0 → undoCount (sops.drop i) ≠ 0 →
    ∃ k ∈ (ownEnts list pr).map Undo.key ++ sops.map fun sop => (semid, sop.semNum),
      adjOf list pr k - undoChanges semid (sops.take i) k ≠ 0

/-- The adjustments that a vector leads to are shorts. -/
def SumsFit (list : List (SemUndo π)) (pr : π) (semid : Nat) (sops : List Sembuf) : Prop :=
  ∀ sop ∈ sops,
    -2 ^ 15 ≤ (adjOf list pr (semid, sop.semNum)).toInt - undoSum semid sops (semid, sop.semNum) ∧
    (adjOf list pr (semid, sop.semNum)).toInt - undoSum semid sops (semid, sop.semNum) < 2 ^ 15

instance (list : List (SemUndo π)) (pr : π) (semid : Nat) (sops : List Sembuf) :
    Decidable (KeepsOwn list pr semid sops) :=
  inferInstanceAs (Decidable (∀ i < sops.length, _))

instance (list : List (SemUndo π)) (pr : π) (semid : Nat) (sops : List Sembuf) :
    Decidable (SumsFit list pr semid sops) :=
  inferInstanceAs (Decidable (∀ sop ∈ sops, _))

/-- The vector on which a call waits. -/
def Place.vector : Place → Option (Nat × List Sembuf)
  | .sopsMalloc call | .tsleep call _ _ | .semuAlloc call _ _ => some (call.semid, call.sops)
  | .semgetAlloc _ | .setallMalloc .. => none

omit [DecidableEq π] in
/-- The process, the index of the set and the vector of a step of `semop`. -/
def Label.vector (label : Label π τ) (s : State π τ) : Option (π × Nat × List Sembuf) :=
  match label with
  | .semop _ pr id sops _ => some (pr, ipcidToIx id, sops)
  | .resume tid _ =>
    (s.calls.find? (·.tid = tid)).bind fun waiting =>
      waiting.place.vector.map fun (semid, sops) => (waiting.pr, semid, sops)
  | _ => none

/-- `pool_get` finds memory for a `sem_undo` without waiting. -/
def Label.hasMemory : Label π τ → Prop
  | .semop _ _ _ _ env | .resume _ env => env.nowait = true
  | _ => True

/-- The conditions of this module. -/
def bookGuard (label : Label π τ) (s : State π τ) : Prop :=
  fitGuard label s ∧ label.hasMemory ∧ ∀ call ∈ label.vector s,
    KeepsOwn s.undo.semuList call.1 call.2.1 call.2.2 ∧
      SumsFit s.undo.semuList call.1 call.2.1 call.2.2

omit [DecidableEq π] [DecidableEq τ] in
instance (label : Label π τ) : Decidable label.hasMemory :=
  match label with
  | .semget .. | .semop .. | .rmid .. | .setval .. | .setall .. | .resume .. | .exit _ => by
    dsimp only [Label.hasMemory]
    infer_instance

instance (label : Label π τ) (s : State π τ) : Decidable (bookGuard label s) :=
  inferInstanceAs (Decidable (_ ∧ _))

end Definitions

/-! ### Sums in integers -/

theorem undoChanges_cons (semid : Nat) (sop : Sembuf) (sops : List Sembuf) :
    undoChanges semid (sop :: sops) = sop.undoChange semid + undoChanges semid sops := by
  rw [undoChanges, map_cons, sum_cons, undoChanges]

theorem undoSum_cons (semid : Nat) (sop : Sembuf) (sops : List Sembuf) (k : SemKey) :
    undoSum semid (sop :: sops) k =
      (if sop.semUndo = true ∧ (semid, sop.semNum) = k then sop.semOp.toInt else 0) +
        undoSum semid sops k := by
  rw [undoSum, map_cons, sum_cons, undoSum]

theorem undoChanges_eq_ofInt (semid : Nat) (sops : List Sembuf) (k : SemKey) :
    undoChanges semid sops k = BitVec.ofInt 16 (undoSum semid sops k) := by
  induction sops with
  | nil => rfl
  | cons sop sops ih =>
    rw [undoChanges_cons, Pi.add_apply, undoSum_cons, BitVec.ofInt_add]
    congr 1
    rw [Sembuf.undoChange]
    by_cases here : (semid, sop.semNum) = k
    · subst here
      by_cases undoes : sop.Undoes
      · rw [if_pos undoes, if_pos ⟨undoes.1, rfl⟩, Pi.single_eq_same, BitVec.ofInt_toInt]
      · rw [if_neg undoes]
        split
        · next flagged =>
            have zero : sop.semOp = 0 := by
              by_contra nonzero
              exact undoes ⟨flagged.1, nonzero⟩
            rw [zero]
            rfl
        · rfl
    · rw [if_neg (fun both : _ ∧ (semid, sop.semNum) = k => here both.2)]
      split
      · exact Pi.single_eq_of_ne (Ne.symm here) _
      · rfl

theorem toInt_sub_ofInt {adjval : BitVec 16} {sum : Int} (low : -2 ^ 15 ≤ adjval.toInt - sum)
    (high : adjval.toInt - sum < 2 ^ 15) :
    (adjval - BitVec.ofInt 16 sum).toInt = adjval.toInt - sum := by
  rw [BitVec.toInt_sub, BitVec.toInt_ofInt, Int.sub_bmod_bmod]
  exact Int.bmod_eq_of_le (by simpa using low) (by simpa using high)

theorem undoSum_of_notMem {semid : Nat} {sops : List Sembuf} {k : SemKey}
    (notMem : k ∉ sops.map fun sop => (semid, sop.semNum)) : undoSum semid sops k = 0 := by
  refine sum_eq_zero fun x member => ?_
  obtain ⟨sop, sopMem, rfl⟩ := mem_map.mp member
  exact if_neg fun both => notMem (mem_map.mpr ⟨sop, sopMem, both.2⟩)

/-! ### The loop -/

section Loop

variable {π : Type} [DecidableEq π] {info : Seminfo} {pr : π} {semid : Nat} {nowait : Bool}
  {table table' : UndoTable π} {suptr : Cached} {done rest : List Sembuf}
  {semnum adjval : BitVec 16}

theorem undoChanges_of_none (none : undoCount rest = 0) : undoChanges semid rest = 0 := by
  induction rest with
  | nil => rfl
  | cons sop rest ih =>
    have both := undoCount_cons_eq_zero.mp none
    rw [undoChanges_cons, Sembuf.undoChange, if_neg both.1, ih both.2, add_zero]

theorem rollbackUndos_slack
    (rolledBack : rollbackUndos info pr nowait semid table suptr done = some table') :
    table'.slack = table.slack := by
  induction done generalizing table suptr with
  | nil =>
    cases rolledBack
    rfl
  | cons sop done ih =>
    rw [rollbackUndos] at rolledBack
    split at rolledBack
    · split at rolledBack
      · next adjusted => exact (ih rolledBack).trans (semundoAdjust_slack adjusted)
      · contradiction
    · exact ih rolledBack

/-- The loop over the `SEM_UNDO` operations keeps the count of the list, unless it
waits. -/
theorem recordUndos_slack
    (ends : recordUndos info pr nowait semid table suptr done rest = .finished table' ∨
      ∃ errno, recordUndos info pr nowait semid table suptr done rest = .failed errno table') :
    table'.slack = table.slack := by
  induction rest generalizing table suptr done with
  | nil =>
    rcases ends with finished | ⟨errno, failed⟩
    · cases finished
      rfl
    · contradiction
  | cons sop rest ih =>
    rw [recordUndos] at ends
    split at ends
    · split at ends
      · next adjusted => exact (ih ends).trans (semundoAdjust_slack adjusted)
      · rcases ends with finished | ⟨errno, failed⟩ <;> contradiction
      · rcases ends with finished | ⟨errno, failed⟩ <;> contradiction
      · split at ends
        · rcases ends with finished | ⟨errno, failed⟩ <;> contradiction
        · next rolledBack =>
            rcases ends with finished | ⟨errno, failed⟩
            · contradiction
            · cases failed
              exact rollbackUndos_slack rolledBack
    · exact ih ends

theorem semundoAdjust_ne_wait :
    semundoAdjust info pr true table suptr semid semnum adjval ≠ .wait table' := by
  cases suptr with
  | null =>
    rw [semundoAdjust]
    split
    · exact adjustListed_ne_wait
    · split
      · simp
      · split
        · simp
        · exact adjustListed_ne_wait
  | listed => exact adjustListed_ne_wait
  | freed ents =>
    rw [semundoAdjust]
    split
    · simp
    · split <;> simp

theorem recordUndos_ne_wait {done' rest' : List Sembuf} :
    recordUndos info pr true semid table suptr done rest ≠ .wait table' done' rest' := by
  induction rest generalizing table suptr done with
  | nil => simp [recordUndos]
  | cons sop rest ih =>
    rw [recordUndos]
    split
    · split
      · exact ih
      · next waits => exact absurd waits semundoAdjust_ne_wait
      · simp
      · split <;> simp
    · exact ih

/-- An operation is recorded through a pointer that is not stale. -/
theorem semundoAdjust_done {middle : UndoTable π} {suptr' : Cached} (small : semnum.toNat < 2 ^ 15)
    (nonzero : adjval ≠ 0) (ok : ListOk info table.semuList)
    (listed : suptr = .listed → ownEnts table.semuList pr ≠ []) (set : ∀ ents, suptr ≠ .freed ents)
    (adjusted : semundoAdjust info pr nowait table suptr semid semnum adjval =
      .done middle suptr') : ListOk info middle.semuList ∧
      adjOf middle.semuList pr = adjOf table.semuList pr + Pi.single (semid, semnum) adjval ∧
      (∀ q, q ≠ pr → ownEnts middle.semuList q = ownEnts table.semuList q) ∧
      (suptr' = .listed ∧ ownEnts middle.semuList pr ≠ [] ∨ adjOf middle.semuList pr = 0) := by
  have case := semundoAdjust_spec semid nowait small nonzero ok listed
  rw [adjusted] at case
  have atOwn : ∀ before : π → SemKey → BitVec 16,
      adjOf middle.semuList = before + Pi.single pr (Pi.single (semid, semnum) adjval) →
      adjOf middle.semuList pr = before pr + Pi.single (semid, semnum) adjval := by
    intro before adds
    rw [adds, Pi.add_apply, Pi.single_eq_same]
  cases case with
  | onList own isSet adjusts =>
    cases adjusts with
    | kept middleOk adds others own' => exact ⟨middleOk, atOwn _ adds, others, Or.inl ⟨rfl, own'⟩⟩
    | emptied middleOk adds others none =>
      refine ⟨middleOk, atOwn _ adds, others, Or.inr ?_⟩
      funext k
      rw [adjOf, none]
      rfl
  | onNew new adjusts =>
    obtain ⟨_, isDone, middleOk, adds, others, own', _⟩ := adjusts.new_own nonzero
      (by rw [semuInsert, ownEnts, KeyedList.lookup_cons, if_pos rfl])
    cases isDone
    have inserted : adjOf (semuInsert pr { table with semutot := table.semutot + 1 }).semuList =
        adjOf table.semuList := by
      funext q k
      exact adjOf_insert new q k
    rw [inserted] at adds
    refine ⟨middleOk, atOwn _ adds, fun q other => (others q other).trans ?_, Or.inl ⟨rfl, own'⟩⟩
    rw [semuInsert, ownEnts, KeyedList.lookup_cons, if_neg (Ne.symm other)]
  | freed => exact absurd rfl (set _)

/-- A vector that leaves the process some adjustment on its way is recorded as a whole. -/
theorem recordUndos_finished (small : UndoNumsFit rest) (ok : ListOk info table.semuList)
    (listed : suptr = .listed → ownEnts table.semuList pr ≠ [])
    (set : ∀ ents, suptr ≠ .freed ents)
    (keeps : ∀ before after, rest = before ++ after → undoCount before ≠ 0 →
      undoCount after ≠ 0 → adjOf table.semuList pr - undoChanges semid before ≠ 0)
    (finished : recordUndos info pr nowait semid table suptr done rest = .finished table') :
    adjOf table'.semuList pr = adjOf table.semuList pr - undoChanges semid rest ∧
      ∀ q, q ≠ pr → ownEnts table'.semuList q = ownEnts table.semuList q := by
  induction rest generalizing table suptr done with
  | nil =>
    cases finished
    exact ⟨(sub_zero _).symm, fun _ _ => rfl⟩
  | cons sop rest ih =>
    have restSmall : UndoNumsFit rest := fun other member =>
      small other (mem_cons_of_mem _ member)
    rw [recordUndos] at finished
    split at finished
    · next undoes =>
        have change : sop.undoChange semid = Pi.single (semid, sop.semNum) sop.semOp :=
          if_pos undoes
        split at finished
        · next middle suptr' adjusted =>
            obtain ⟨middleOk, adds, others, pointer⟩ :=
              semundoAdjust_done (small sop mem_cons_self undoes.1)
                (neg_ne_zero.mpr undoes.2) ok listed set adjusted
            rw [Pi.single_neg, ← sub_eq_add_neg, ← change] at adds
            rw [undoChanges_cons, ← sub_sub, ← adds]
            rcases pointer with ⟨rfl, own'⟩ | none
            · obtain ⟨value, unchanged⟩ := ih restSmall middleOk (fun _ => own') (by rintro ents ⟨⟩)
                (fun before after split _ later => by
                  rw [adds, sub_sub]
                  exact keeps (sop :: before) after (by rw [split, cons_append])
                    (fun zero => (undoCount_cons_eq_zero.mp zero).1 undoes) later) finished
              exact ⟨value, fun q other => (unchanged q other).trans (others q other)⟩
            · -- the pointer is stale now, but there is nothing left to record
              have nothing : undoCount rest = 0 := by
                by_contra more
                apply keeps [sop] rest rfl
                  (fun zero => (undoCount_cons_eq_zero.mp zero).1 undoes) more
                rw [undoChanges_cons, ← sub_sub, ← adds, none]
                exact sub_zero _
              rw [recordUndos_of_none nothing] at finished
              cases finished
              rw [undoChanges_of_none nothing, sub_zero]
              exact ⟨rfl, others⟩
        · contradiction
        · contradiction
        · split at finished <;> contradiction
    · next skipped =>
        have change : sop.undoChange semid = 0 := if_neg skipped
        rw [undoChanges_cons, change, zero_add]
        refine ih restSmall ok listed set (fun before after split some later => ?_) finished
        have whole := keeps (sop :: before) after (by rw [split, cons_append])
          (fun zero => some (undoCount_cons_eq_zero.mp zero).2) later
        rwa [undoChanges_cons, change, zero_add] at whole

end Loop

/-! ### Runs -/

section Runs

variable {π τ : Type} [DecidableEq π] {info : Seminfo} {tid : τ} {pr : π} {nowait : Bool}
  {call : SemopCall} {s s' : State π τ} {reply : Reply} {semid retval : Nat} {sops : List Sembuf}
  {label : Label π τ}

theorem KeepsOwn.split {list : List (SemUndo π)} (keeps : KeepsOwn list pr semid sops)
    (before after : List Sembuf) (split : sops = before ++ after) (some : undoCount before ≠ 0)
    (later : undoCount after ≠ 0) : adjOf list pr - undoChanges semid before ≠ 0 := by
  have nonempty : after ≠ [] := by
    rintro rfl
    exact later rfl
  have inside : before.length < sops.length := by
    rw [split, length_append]
    exact Nat.lt_add_of_pos_right (length_pos_of_ne_nil nonempty)
  obtain ⟨k, _, nonzero⟩ := keeps before.length inside (by rwa [split, take_left])
    (by rwa [split, drop_left])
  rw [split, take_left] at nonzero
  exact fun zero => nonzero (congrFun zero k)

/-- What a successful turn of the main loop records. -/
theorem Attempt.records_vector (ok : ListOk info s.undo.semuList) (fits : UndoNumsFit call.sops)
    (keeps : KeepsOwn s.undo.semuList pr call.semid call.sops)
    (attempt : Attempt info tid pr nowait call s s' (.done retval)) :
    adjOf s'.undo.semuList pr = adjOf s.undo.semuList pr - undoChanges call.semid call.sops ∧
      ∀ q, q ≠ pr → ownEnts s'.undo.semuList q = ownEnts s.undo.semuList q := by
  cases attempt with
  | passed inRange none =>
    rw [undoChanges_of_none none, sub_zero]
    exact ⟨rfl, fun _ _ => rfl⟩
  | records inRange count recorded =>
    cases recorded with
    | @finished undo result =>
      have fromStart : recordUndos info pr nowait call.semid s.undo .null [] call.sops =
        .finished undo := result
      exact recordUndos_finished fits ok (by rintro ⟨⟩) (by rintro ents ⟨⟩) keeps.split fromStart

/-- The call does not wait in `semu_alloc`. -/
def Place.NotAlloc (place : Place) : Prop :=
  ∀ call done rest, place ≠ .semuAlloc call done rest

/-- A step that keeps the count of the undo list and does not wait in `semu_alloc`. -/
structure Keeps (s s' : State π τ) : Prop where
  slack : s'.undo.slack = s.undo.slack
  calls : ∀ w ∈ s'.calls, w ∈ s.calls ∨ w.place.NotAlloc

omit [DecidableEq π] in
theorem Keeps.of_same (undo : s'.undo = s.undo) (calls : s'.calls = s.calls) : Keeps s s' :=
  ⟨by rw [undo], fun w member => Or.inl (calls ▸ member)⟩

theorem RecordTo.keeps (recorded : RecordTo info tid pr true call suptr done rest s s' reply) :
    Keeps s s' := by
  cases recorded with
  | finished result =>
    exact ⟨recordUndos_slack (Or.inl result), fun w member => Or.inl member⟩
  | failed result =>
    exact ⟨recordUndos_slack (Or.inr ⟨_, result⟩), fun w member => Or.inl member⟩
  | waits result => exact absurd result recordUndos_ne_wait

theorem Attempt.keeps (attempt : Attempt info tid pr true call s s' reply) : Keeps s s' := by
  cases attempt with
  | restored | efbig | passed => exact .of_same rfl rfl
  | sleeps =>
    refine ⟨rfl, fun w member => ?_⟩
    rcases mem_cons.mp member with rfl | old
    · exact Or.inr fun _ _ _ => nofun
    · exact Or.inl old
  | records inRange count recorded =>
    have after := recorded.keeps
    exact ⟨after.slack, after.calls⟩

theorem Resumed.keeps {env : Env} {place : Place} (memory : env.nowait = true)
    (notAlloc : place.NotAlloc) (resumed : Resumed info tid pr env s place s' reply) :
    Keeps s s' := by
  cases resumed with
  | sopsFault | removed | interrupted | semgetSame | semget | setallSame => exact .of_same rfl rfl
  | sops attempt =>
    rw [memory] at attempt
    exact attempt.keeps
  | awake allocated attempt =>
    rw [memory] at attempt
    have after := attempt.keeps
    exact ⟨after.slack, after.calls⟩
  | undo => exact absurd rfl (notAlloc _ _ _)
  | setall => exact ⟨semundoClear_slack .., fun w member => Or.inl member⟩

theorem semexit_keeps (exited : semexit pr s = .ok s') : Keeps s s' := by
  rcases semexit_cases exited with ⟨rfl, _⟩ | ⟨su, adjusted, found, isAdjusted, rfl⟩
  · exact .of_same rfl rfl
  · have frame := exitEntries_frame isAdjusted
    refine ⟨?_, fun w member => Or.inl (frame.calls ▸ member)⟩
    have isOwn := find?_some found
    have length : (s.undo.semuList.eraseP (·.unProc = pr)).length = s.undo.semuList.length - 1 :=
      length_eraseP_of_mem (mem_of_find?_eq_some found) isOwn
    have nonempty := length_pos_of_mem (mem_of_find?_eq_some found)
    change (UndoTable.slack ⟨adjusted.undo.semuList.eraseP _, adjusted.undo.semutot - 1⟩) = _
    rw [frame.undo, UndoTable.slack, UndoTable.slack]
    dsimp only
    omega

variable [DecidableEq τ]

theorem Moved.keeps (memory : label.hasMemory) (noAlloc : ∀ w ∈ s.calls, w.place.NotAlloc)
    (moved : Moved info s label s' reply) : Keeps s s' := by
  have waits : ∀ {tid : τ} {pr : π} {place : Place}, place.NotAlloc →
      Keeps s (s.wait tid pr place) := by
    intro tid pr place notAlloc
    refine ⟨rfl, fun w member => ?_⟩
    rcases mem_cons.mp member with rfl | old
    · exact Or.inr notAlloc
    · exact Or.inl old
  cases moved with
  | failed | semgetSame | empty | semget => exact .of_same rfl rfl
  | waitSops | waitSemget | waitSetall => exact waits fun _ _ _ => nofun
  | semop found attempt =>
    rw [show _ = true from memory] at attempt
    exact attempt.keeps
  | rmid | setval | setall => exact ⟨semundoClear_slack .., fun w member => Or.inl member⟩
  | resume found resumed =>
    have after := resumed.keeps memory (noAlloc _ (mem_of_find?_eq_some found))
    refine ⟨after.slack, fun w member => ?_⟩
    rcases after.calls w member with old | notAlloc
    · exact Or.inl (mem_of_mem_filter old)
    · exact Or.inr notAlloc
  | exit exited => exact semexit_keeps exited

/-- The invariant of runs in which `semu_alloc` never waits. -/
structure BookInv (info : Seminfo) (s : State π τ) : Prop where
  inv : Inv info s
  counted : s.undo.slack = 0
  noAlloc : ∀ w ∈ s.calls, w.place.NotAlloc

theorem run_bookInv (run : Run (next info) bookGuard seminit s) : BookInv info s := by
  apply run.invariant (P := BookInv info)
  · intro label source target book guarded stepped
    obtain ⟨reply, moved⟩ := next_cases stepped
    have keeps := moved.keeps guarded.2.1 book.noAlloc
    refine ⟨moved.inv book.inv guarded.1, keeps.slack.trans book.counted, fun w member => ?_⟩
    rcases keeps.calls w member with old | notAlloc
    · exact book.noAlloc w old
    · exact notAlloc
  · exact ⟨seminit_inv, rfl, fun _ member => absurd member not_mem_nil⟩

/-- What a step of `semop` that succeeds records. -/
theorem BookInv.records (book : BookInv info s) (guarded : bookGuard label s)
    (vector : label.vector s = some (pr, semid, sops))
    (stepped : step info label s = some (s', .done retval)) :
    adjOf s'.undo.semuList pr = adjOf s.undo.semuList pr - undoChanges semid sops ∧
      ∀ q, q ≠ pr → ownEnts s'.undo.semuList q = ownEnts s.undo.semuList q := by
  obtain ⟨fits, memory, conditions⟩ := guarded
  have keeps : KeepsOwn s.undo.semuList pr semid sops := (conditions _ vector).1
  have moved := step_cases stepped
  cases label with
  | semop tid pr' id sops' env =>
    obtain ⟨rfl, rest⟩ := Prod.mk.inj (Option.some.inj vector)
    obtain ⟨isIx, rfl⟩ := Prod.mk.inj rest
    cases moved with
    | empty => exact ⟨(sub_zero _).symm, fun _ _ => rfl⟩
    | semop found attempt =>
      have sameIx := (lookup_cases found).1.trans isIx
      subst sameIx
      have sopsFit : UndoNumsFit sops' := fits
      have recorded := attempt.records_vector book.inv.undo sopsFit keeps
      exact recorded
  | resume tid env =>
    cases moved with
    | @resume _ _ waiting _ _ found resumed =>
      have member := mem_of_find?_eq_some found
      have placeOk := book.inv.places waiting member
      have notAlloc := book.noAlloc waiting member
      rw [Label.vector, found, Option.bind_some] at vector
      generalize waiting.place = place at vector resumed placeOk notAlloc
      cases placeOk with
      | sopsMalloc callOk =>
        cases vector
        cases resumed with
        | sops attempt =>
          exact Attempt.records_vector (s := s.leave tid) book.inv.undo callOk.fits keeps
            attempt
      | tsleep callOk inRange =>
        cases vector
        cases resumed with
        | awake allocated attempt =>
          exact Attempt.records_vector (s := (s.leave tid).setBase _ _) book.inv.undo
            callOk.fits keeps attempt
      | semuAlloc => exact absurd rfl (notAlloc _ _ _)
      | semgetAlloc | setallMalloc => contradiction
  | semget | rmid | setval | setall | exit => contradiction

/-- In every run that meets the conditions, the undo list is in order and counted, and
a call of `semop` that succeeds takes the sum of its `SEM_UNDO` operations off the
adjustments of its process and leaves the other processes alone. -/
theorem semop_books_undo (run : Run (next info) bookGuard seminit s) :
    ListOk info s.undo.semuList ∧ s.undo.semutot = s.undo.semuList.length ∧
    ∀ (label : Label π τ) (s' : State π τ) (retval : Nat) (pr : π) (semid : Nat)
      (sops : List Sembuf), bookGuard label s → label.vector s = some (pr, semid, sops) →
      step info label s = some (s', .done retval) →
      (∀ k, (adjOf s'.undo.semuList pr k).toInt =
        (adjOf s.undo.semuList pr k).toInt - undoSum semid sops k) ∧
      ∀ q, q ≠ pr → ownEnts s'.undo.semuList q = ownEnts s.undo.semuList q := by
  have book := run_bookInv run
  refine ⟨book.inv.undo, Int.sub_eq_zero.mp book.counted, ?_⟩
  intro label s' retval pr semid sops guarded vector stepped
  obtain ⟨value, others⟩ := book.records guarded vector stepped
  refine ⟨fun k => ?_, others⟩
  rw [value, Pi.sub_apply, undoChanges_eq_ofInt]
  by_cases member : k ∈ sops.map fun sop => (semid, sop.semNum)
  · obtain ⟨sop, sopMem, rfl⟩ := mem_map.mp member
    have fit := (guarded.2.2 _ vector).2 sop sopMem
    exact toInt_sub_ofInt fit.1 fit.2
  · rw [undoSum_of_notMem member]
    exact congrArg BitVec.toInt (sub_zero _) |>.trans (sub_zero _).symm

end Runs

/-- A vector that raises a semaphore by three and lowers it by one. -/
theorem sampleRun_books_undo :
    ∃ s s' : State Nat Nat, Run (next defaultSeminfo) bookGuard seminit s ∧ step defaultSeminfo
        (.semop 1 1 0x10000 [⟨0, 3, true, false⟩, ⟨0, -1, true, false⟩] plainEnv) s =
          some (s', .done 0) ∧
      (adjOf s'.undo.semuList 1 (0, 0)).toInt = (adjOf s.undo.semuList 1 (0, 0)).toInt -
        undoSum 0 [⟨0, 3, true, false⟩, ⟨0, -1, true, false⟩] (0, 0) := by
  refine exec_replies (Q := fun s _ => bookGuard
      (.semop 1 1 0x10000 [⟨0, 3, true, false⟩, ⟨0, -1, true, false⟩] plainEnv) s)
    [.semget 1 1 ⟨0, 1, true, false⟩ plainEnv] (by decide +kernel) ?_
  intro s s' run stepped guarded
  exact ((semop_books_undo run).2.2 _ s' 0 1 0 _ guarded rfl stepped).1 (0, 0)

/-- The first operation of a vector uses up the adjustments of the process, and its
`sem_undo` is freed; the adjustment for the second is lost. -/
theorem stale_pointer_loses_adjustment :
    ∃ s s' : State Nat Nat, Run (next defaultSeminfo) anyStep seminit s ∧ step defaultSeminfo
        (.semop 1 1 0x10000 [⟨0, -1, true, false⟩, ⟨1, 1, true, false⟩] plainEnv) s =
          some (s', .done 0) ∧
      (adjOf s'.undo.semuList 1 (0, 1)).toInt ≠ (adjOf s.undo.semuList 1 (0, 1)).toInt -
        undoSum 0 [⟨0, -1, true, false⟩, ⟨1, 1, true, false⟩] (0, 1) := by
  exact exec_replies [.semget 1 1 ⟨0, 2, true, false⟩ plainEnv,
    .semop 1 1 0x10000 [⟨0, 1, true, false⟩] plainEnv] (by decide +kernel) fun _ _ _ _ => id

end Bitrig.Sysvsem
