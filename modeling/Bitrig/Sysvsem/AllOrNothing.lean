import Bitrig.Sysvsem.Invariant

/-!
# All or nothing

The net effect of a call of `semop` is the sum of what its steps change: in every
value and count of sleepers, and in every adjustment.  Other calls may change the
same values between the steps.  A call that returns an error has no effect, provided
that no operation of its vector stands behind a non-zero one and names a semaphore
that the set does not have: the exit with `EFBIG` does not take back what is done.
-/

namespace Bitrig.Sysvsem

open Bitrig.Transition Function List Option

/-- A change of what all semaphores hold and of all adjustments. -/
abbrev Effect (π : Type) :=
  (Nat → Nat → Cell) × (π → SemKey → BitVec 16)

section Definitions

variable {π τ : Type} [DecidableEq π]

/-- What all semaphores hold, and all adjustments. -/
def State.view (s : State π τ) : Effect π :=
  (fun a => cells (s.baseAt a), adjOf s.undo.semuList)

/-- A state, with the effect of the call that each thread has last made. -/
structure Tracked (π τ : Type) where
  state : State π τ
  effect : τ → Effect π

variable [DecidableEq τ]

/-- The effects after a step: a call of `semop` starts with none. -/
def Label.account (label : Label π τ) (s s' : State π τ) (effect : τ → Effect π) : τ → Effect π :=
  match label with
  | .semop tid .. => update effect tid (s'.view - s.view)
  | .resume tid _ => update effect tid (effect tid + (s'.view - s.view))
  | _ => effect

/-- A step that keeps account of the effects. -/
def trackedStep (info : Seminfo) (label : Label π τ) (t : Tracked π τ) :
    Option (Tracked π τ × Reply) :=
  (step info label t.state).map fun (s', reply) =>
    (⟨s', label.account t.state s' t.effect⟩, reply)

def trackedNext (info : Seminfo) (label : Label π τ) (t : Tracked π τ) : Option (Tracked π τ) :=
  (trackedStep info label t).map Prod.fst

/-- The call waits in `sys_semop`. -/
def Place.isSemop : Place → Bool
  | .sopsMalloc _ | .tsleep .. | .semuAlloc .. => true
  | .semgetAlloc _ | .setallMalloc .. => false

omit [DecidableEq π] in
/-- The thread whose call of `semop` a step begins or goes on with. -/
def Label.semopThread (label : Label π τ) (s : State π τ) : Option τ :=
  match label with
  | .semop tid .. => some tid
  | .resume tid _ =>
    match s.calls.find? (·.tid = tid) with
    | some waiting => if waiting.place.isSemop then some tid else none
    | none => none
  | _ => none

/-- No operation behind a non-zero one is out of range. -/
def HarmlessEfbig (nsems : Nat) (sops : List Sembuf) : Prop :=
  sops.Pairwise fun before sop => nsems ≤ sop.semNum.toNat → before.semOp = 0

instance (nsems : Nat) (sops : List Sembuf) : Decidable (HarmlessEfbig nsems sops) :=
  inferInstanceAs (Decidable (List.Pairwise _ _))

/-- The vectors of all calls have no operation out of range behind a non-zero one, and
the numbers in their `SEM_UNDO` operations fit into a short. -/
def rangeGuard (info : Seminfo) (label : Label π τ) (t : Tracked π τ) : Prop :=
  match label with
  | .semop _ _ id sops _ =>
    UndoNumsFit sops ∧ ∀ found ∈ t.state.lookup info id,
      HarmlessEfbig (t.state.baseAt found.2).length sops
  | _ => True

omit [DecidableEq π] [DecidableEq τ] in
instance (info : Seminfo) (label : Label π τ) (t : Tracked π τ) :
    Decidable (rangeGuard info label t) :=
  match label with
  | .semget .. | .semop .. | .rmid .. | .setval .. | .setall .. | .resume .. | .exit _ => by
    dsimp only [rangeGuard]
    infer_instance

end Definitions

section Views

variable {π τ : Type} [DecidableEq π] {s : State π τ} {a : Nat} {base : List Sem}

theorem State.view_setBase {change : Nat → Cell} (adds : cells base = cells (s.baseAt a) + change) :
    (s.setBase a base).view = s.view + (Pi.single a change, 0) := by
  refine Prod.ext ?_ (add_zero _).symm
  funext b
  change cells ((s.setBase a base).baseAt b) =
    cells (s.baseAt b) + (Pi.single a change : Nat → Nat → Cell) b
  by_cases same : b = a
  · rw [same, State.setBase_baseAt, Pi.single_eq_same, adds]
  · rw [State.setBase_baseAt_of_ne s a same, Pi.single_eq_of_ne same, add_zero]

theorem State.view_withUndo {undo : UndoTable π}
    (same : adjOf undo.semuList = adjOf s.undo.semuList) : (s.withUndo undo).view = s.view :=
  Prod.ext rfl same

/-- What a waiting call of `semop` has changed so far, and what it can rely on. -/
def PlaceEffect (s : State π τ) (effect : Effect π) : Place → Prop
  | .sopsMalloc call => HarmlessEfbig (s.baseAt call.semaptr).length call.sops ∧ effect = 0
  | .tsleep call sop _ =>
    HarmlessEfbig (s.baseAt call.semaptr).length call.sops ∧
      effect = (Pi.single call.semaptr sop.waiting, 0)
  | .semuAlloc call _ _ => effect = (Pi.single call.semaptr (changes call.sops), 0)
  | .semgetAlloc _ | .setallMalloc .. => True

omit [DecidableEq π] in
theorem PlaceEffect.frame {info : Seminfo} {s' : State π τ} {effect : Effect π} {place : Place}
    (here : PlaceEffect s effect place) (ok : PlaceOk info s place) (frame : Frame s s') :
    PlaceEffect s' effect place := by
  cases ok with
  | sopsMalloc callOk =>
    obtain ⟨harmless, none⟩ := here
    rw [← frame.length _ callOk.known] at harmless
    exact ⟨harmless, none⟩
  | tsleep callOk inRange =>
    obtain ⟨harmless, waiting⟩ := here
    rw [← frame.length _ callOk.known] at harmless
    exact ⟨harmless, waiting⟩
  | semuAlloc => exact here
  | semgetAlloc | setallMalloc => trivial

end Views

section Steps

variable {π τ : Type} [DecidableEq π] {info : Seminfo} {tid : τ} {pr : π} {env : Env}
  {nowait : Bool} {call : SemopCall} {s s' : State π τ} {reply : Reply} {done rest : List Sembuf}

/-- A step of a call of `semop` for which everything was as in `origin` before it: it
returns an error only with everything as before, or its waiting place says what it has
changed. -/
structure CallEffect (tid : τ) (origin : Effect π) (s s' : State π τ) (reply : Reply) : Prop where
  error : ∀ errno, reply = .error errno → errno ≠ .eidrm → s'.view = origin
  calls : ∀ w ∈ s'.calls, w ∈ s.calls ∨ w.tid = tid ∧ PlaceEffect s' (s'.view - origin) w.place

theorem RecordTo.callEffect {table : UndoTable π} {suptr : Cached} {origin : Effect π}
    (inRange : ∀ sop ∈ call.sops, sop.InRange (s.baseAt call.semaptr).length)
    (applied : s.view = origin + (Pi.single call.semaptr (changes call.sops), 0))
    (recorded : RecordTo info tid pr nowait call suptr done rest (s.withUndo table) s' reply)
    (spec : RecordedTo info (adjOf s.undo.semuList) call.sops
      (recordUndos info pr nowait call.semid table suptr done rest)) :
    CallEffect tid origin s s' reply := by
  cases recorded with
  | finished result => exact ⟨fun _ => nofun, fun w member => Or.inl member⟩
  | failed result =>
    rw [show recordUndos info pr nowait call.semid table suptr done rest = _ from result] at spec
    cases spec with
    | failed ok same =>
      refine ⟨fun _ _ _ => ?_, fun w member => Or.inl member⟩
      -- the values are taken back here, the adjustments by the loop
      have values := (cells_rollback inRange).trans (sub_eq_add_neg _ _)
      have adjustments := State.view_withUndo
        (s := s.setBase call.semaptr (rollback call.sops (s.baseAt call.semaptr))) same
      refine adjustments.trans ((State.view_setBase values).trans ?_)
      have cancels : ((Pi.single call.semaptr (changes call.sops), 0) : Effect π) +
          (Pi.single call.semaptr (-changes call.sops), 0) = 0 := by
        rw [Prod.mk_add_mk, ← Pi.single_add, add_neg_cancel, Pi.single_zero]
        rfl
      rw [applied, add_assoc, cancels, add_zero]
  | waits result =>
    rw [show recordUndos info pr nowait call.semid table suptr done rest = _ from result] at spec
    cases spec with
    | wait split ok same none undoes room =>
      refine ⟨fun _ => nofun, fun w member => ?_⟩
      rcases mem_cons.mp member with rfl | old
      · refine Or.inr ⟨rfl, ?_⟩
        have view := (State.view_withUndo same).trans applied
        exact (congrArg (· - origin) view).trans (add_sub_cancel_left _ _)
      · exact Or.inl old

/-- Operations before one out of range change nothing. -/
theorem applyOps_of_harmless {sop : Sembuf} {base : List Sem}
    (harmless : HarmlessEfbig base.length (done ++ sop :: rest))
    (outOfRange : ¬sop.InRange base.length) : applyOps done base = base := by
  have zero : ∀ before ∈ done, before.semOp = 0 := by
    intro before member
    exact (pairwise_append.mp harmless).2.2 before member sop mem_cons_self
      (Nat.le_of_not_lt outOfRange)
  clear harmless
  induction done with
  | nil => rfl
  | cons first done ih =>
    have here : addSemval base first = base := addSemval_zero (zero first mem_cons_self)
    change applyOps done (addSemval base first) = base
    rw [here]
    exact ih fun before member => zero before (mem_cons_of_mem _ member)

theorem Attempt.callEffect (inv : Inv info s) (callOk : CallOk s call)
    (harmless : HarmlessEfbig (s.baseAt call.semaptr).length call.sops)
    (attempt : Attempt info tid pr nowait call s s' reply) : CallEffect tid s.view s s' reply := by
  cases attempt with
  | restored => exact ⟨fun _ _ _ => rfl, fun w member => Or.inl member⟩
  | efbig split inRange outOfRange =>
    rw [split] at harmless
    rw [applyOps_of_harmless harmless outOfRange, State.setBase_self]
    exact ⟨fun _ _ _ => rfl, fun w member => Or.inl member⟩
  | @sleeps sop doUndos member inRange =>
    refine ⟨fun _ => nofun, fun w inCalls => ?_⟩
    rcases mem_cons.mp inCalls with rfl | old
    · have view := State.view_setBase (cells_addWaiter inRange)
      refine Or.inr ⟨rfl, ?_, (congrArg (· - s.view) view).trans (add_sub_cancel_left _ _)⟩
      change HarmlessEfbig ((s.setBase _ _).baseAt call.semaptr).length call.sops
      rwa [State.setBase_baseAt, length_addWaiter]
    · exact Or.inl old
  | passed inRange none => exact ⟨fun _ => nofun, fun w member => Or.inl member⟩
  | records inRange count recorded =>
    have applied := State.view_setBase (cells_applyOps inRange)
    have after := RecordTo.callEffect (by rwa [State.setBase_baseAt, length_applyOps]) applied
      recorded (recordUndos_start callOk.fits inv.undo count)
    exact ⟨after.error, after.calls⟩

theorem Resumed.callEffect {place : Place} {effect : Effect π} (inv : Inv info s)
    (placeOk : PlaceOk info s place) (here : PlaceEffect s effect place)
    (isSemop : place.isSemop = true) (resumed : Resumed info tid pr env s place s' reply) :
    CallEffect tid (s.view - effect) s s' reply := by
  cases resumed with
  | sopsFault =>
    obtain ⟨_, rfl⟩ := here
    exact ⟨fun _ _ _ => (sub_zero _).symm, fun w member => Or.inl member⟩
  | sops attempt =>
    obtain ⟨harmless, rfl⟩ := here
    rw [sub_zero]
    cases placeOk with
    | sopsMalloc callOk => exact attempt.callEffect inv callOk harmless
  | removed => exact ⟨fun errno isError other => absurd (Reply.error.inj isError).symm other,
      fun w member => Or.inl member⟩
  | interrupted =>
    obtain ⟨harmless, rfl⟩ := here
    cases placeOk with
    | tsleep callOk inRange =>
      refine ⟨fun _ _ _ => ?_, fun w member => Or.inl member⟩
      rw [State.view_setBase ((cells_subWaiter inRange).trans (sub_eq_add_neg _ _)),
        sub_eq_add_neg, Prod.neg_mk, neg_zero, Pi.single_neg]
  | @awake call sop doUndos _ _ allocated attempt =>
    obtain ⟨harmless, rfl⟩ := here
    cases placeOk with
    | tsleep callOk inRange =>
      have length : (addWaiter sop (-1) (s.baseAt call.semaptr)).length =
          (s.baseAt call.semaptr).length := length_addWaiter ..
      have counted : (s.setBase call.semaptr (addWaiter sop (-1) (s.baseAt call.semaptr))).view =
          s.view - (Pi.single call.semaptr sop.waiting, 0) := by
        rw [State.view_setBase ((cells_subWaiter inRange).trans (sub_eq_add_neg _ _)),
          sub_eq_add_neg, Prod.neg_mk, neg_zero, Pi.single_neg]
      have after := attempt.callEffect (inv.setBase length) ⟨callOk.known, callOk.fits⟩
        (by rwa [State.setBase_baseAt, length])
      rw [counted] at after
      exact ⟨after.error, after.calls⟩
  | undo recorded =>
    cases placeOk with
    | semuAlloc callOk inRange split none undoes room =>
      have fits := callOk.fits
      rw [split] at fits
      refine recorded.callEffect inRange ?_
        (split ▸ recordUndos_awake ?_ inv.undo none undoes room)
      · rw [← show effect = _ from here, sub_add_cancel]
      · exact fun op member => fits op (mem_append_right _ member)
  | semgetSame | semget | setallSame | setall => contradiction

variable [DecidableEq τ]

/-- The invariant of runs with account of the effects. -/
structure TrackedInv (info : Seminfo) (t : Tracked π τ) : Prop where
  inv : Inv info t.state
  effects : ∀ w ∈ t.state.calls, PlaceEffect t.state (t.effect w.tid) w.place

variable {label : Label π τ} {t : Tracked π τ}

/-- What a step of a call of `semop` does to its effect. -/
theorem TrackedInv.semop_step (tracked : TrackedInv info t) (guarded : rangeGuard info label t)
    (isSemop : label.semopThread t.state = some tid)
    (stepped : step info label t.state = some (s', reply)) :
    ∃ origin, CallEffect tid origin (t.state.leave tid) s' reply ∧
      label.account t.state s' t.effect = update t.effect tid (s'.view - origin) := by
  have moved := step_cases stepped
  cases label with
  | semop thread pr id sops env =>
    obtain rfl := some.inj isSemop
    refine ⟨t.state.view, ?_, rfl⟩
    -- a thread that makes a call waits nowhere
    have idle : t.state.leave thread = t.state := by
      have others : ∀ w ∈ t.state.calls, w.tid ≠ thread := step_idle stepped rfl
      have all : t.state.calls.filter (·.tid ≠ thread) = t.state.calls :=
        filter_eq_self.mpr fun w member => decide_eq_true (others w member)
      rw [State.leave, all]
    rw [idle]
    cases moved with
    | failed | empty => exact ⟨fun _ _ _ => rfl, fun w member => Or.inl member⟩
    | waitSops found =>
      refine ⟨fun _ => nofun, fun w member => ?_⟩
      rcases mem_cons.mp member with rfl | old
      · exact Or.inr ⟨rfl, guarded.2 _ found, sub_self _⟩
      · exact Or.inl old
    | semop found attempt =>
      exact attempt.callEffect tracked.inv ⟨tracked.inv.lookup found, guarded.1⟩
        (guarded.2 _ found)
  | resume thread env =>
    cases moved with
    | failed starts => exact absurd rfl (starts thread env)
    | @resume _ _ waiting _ _ found resumed =>
      rw [Label.semopThread, found] at isSemop
      dsimp only at isSemop
      split at isSemop
      · next atSemop =>
          obtain rfl := some.inj isSemop
          have member := mem_of_find?_eq_some found
          have isTid := find?_some found
          have here := tracked.effects waiting member
          rw [of_decide_eq_true isTid] at here
          have frame : Frame t.state (t.state.leave thread) := ⟨le_rfl, fun _ _ => rfl⟩
          have placeOk := tracked.inv.places waiting member
          refine ⟨_, resumed.callEffect (tracked.inv.leave thread) (placeOk.frame frame)
            (here.frame placeOk frame) atSemop, ?_⟩
          rw [Label.account]
          congr 1
          abel
      · contradiction
  | semget | rmid | setval | setall | exit => contradiction

omit [DecidableEq π] in
theorem mem_leave {w : Waiting π τ} (member : w ∈ (s.leave tid).calls) :
    w ∈ s.calls ∧ w.tid ≠ tid := by
  obtain ⟨old, other⟩ := mem_filter.mp member
  exact ⟨old, of_decide_eq_true other⟩

/-- Steps of other calls leave waiting calls of `semop` as they are. -/
theorem Moved.other_calls (moved : Moved info s label s' reply)
    (notSemop : label.semopThread s = none) (w : Waiting π τ) (member : w ∈ s'.calls) :
    (w ∈ s.calls ∧ ∀ env, label ≠ .resume w.tid env) ∨ w.place.isSemop = false := by
  cases moved with
  | failed starts => exact Or.inl ⟨member, fun env => starts w.tid env⟩
  | empty | waitSops | semop => contradiction
  | waitSemget | waitSetall =>
    rcases mem_cons.mp member with rfl | old
    · exact Or.inr rfl
    · exact Or.inl ⟨old, by simp⟩
  | semgetSame | semget | rmid | setval | setall => exact Or.inl ⟨member, by simp⟩
  | @resume tid env waiting _ _ found resumed =>
    have stays : w ∈ (s.leave tid).calls → w ∈ s.calls ∧
        ∀ env', Label.resume tid env ≠ (Label.resume w.tid env' : Label π τ) := by
      intro inLeave
      obtain ⟨old, other⟩ := mem_leave inLeave
      exact ⟨old, fun env' same => other (Label.resume.inj same).1.symm⟩
    rw [Label.semopThread, found] at notSemop
    cases w' : waiting.place with
    | sopsMalloc | tsleep | semuAlloc => simp [w', Place.isSemop] at notSemop
    | semgetAlloc args =>
      rw [w'] at resumed
      cases resumed with
      | semgetSame | semget => exact Or.inl (stays member)
    | setallMalloc ix semaptr values =>
      rw [w'] at resumed
      cases resumed with
      | setallSame | setall => exact Or.inl (stays member)
  | exit exited =>
    rcases semexit_cases exited with ⟨rfl, _⟩ | ⟨su, adjusted, _, isAdjusted, rfl⟩
    · exact Or.inl ⟨member, by simp⟩
    · have same := (exitEntries_frame isAdjusted).calls
      exact Or.inl ⟨same ▸ member, by simp⟩

/-- Each step keeps the account. -/
theorem TrackedInv.step (tracked : TrackedInv info t) (guarded : rangeGuard info label t)
    (stepped : step info label t.state = some (s', reply)) :
    TrackedInv info ⟨s', label.account t.state s' t.effect⟩ := by
  have moved := step_cases stepped
  have fits : fitGuard label t.state := by
    cases label with
    | semop => exact guarded.1
    | semget | rmid | setval | setall | resume | exit => trivial
  have old : ∀ w ∈ t.state.calls, PlaceEffect s' (t.effect w.tid) w.place := fun w member =>
    (tracked.effects w member).frame (tracked.inv.places w member) moved.frame
  refine ⟨moved.inv tracked.inv fits, fun w member => ?_⟩
  cases isSemop : label.semopThread t.state with
  | some tid =>
    obtain ⟨origin, callEffect, account⟩ := tracked.semop_step guarded isSemop stepped
    change PlaceEffect s' (label.account t.state s' t.effect w.tid) w.place
    rw [account]
    rcases callEffect.calls w member with inLeave | ⟨rfl, here⟩
    · obtain ⟨before, other⟩ := mem_leave inLeave
      rw [update_of_ne other]
      exact old w before
    · rwa [update_self]
  | none =>
    rcases moved.other_calls isSemop w member with ⟨before, notResumed⟩ | notSemop
    · have same : label.account t.state s' t.effect w.tid = t.effect w.tid := by
        cases label with
        | semop => contradiction
        | resume tid env =>
          exact update_of_ne
            (fun isTid : w.tid = tid => notResumed env (by rw [isTid])) ..
        | semget | rmid | setval | setall | exit => rfl
      change PlaceEffect s' (label.account t.state s' t.effect w.tid) w.place
      rw [same]
      exact old w before
    · generalize w.place = place at notSemop
      cases place with
      | sopsMalloc | tsleep | semuAlloc => contradiction
      | semgetAlloc | setallMalloc => trivial

/-- The state after `seminit`, with no effects. -/
def trackedInit : Tracked π τ where
  state := seminit
  effect _ := 0

theorem run_trackedInv (run : Run (trackedNext info) (rangeGuard info) trackedInit t) :
    TrackedInv info t := by
  apply run.invariant (P := TrackedInv info)
  · intro label source target tracked guarded stepped
    obtain ⟨⟨_, reply⟩, stepTo, rfl⟩ := map_eq_some_iff.mp stepped
    obtain ⟨⟨s', reply'⟩, inner, isResult⟩ := map_eq_some_iff.mp stepTo
    cases isResult
    exact tracked.step guarded inner
  · exact ⟨seminit_inv, fun _ member => absurd member not_mem_nil⟩

end Steps

end Bitrig.Sysvsem
