import Bitrig.Sysvsem.Moves

/-!
# The undo list stays in order

An invariant of all runs in which the numbers in `SEM_UNDO` operations fit into a
short: the undo list has at most one `sem_undo` for each process, with one to `SEMUME`
entries for distinct semaphores and non-zero adjustments, and a waiting call knows an
address at which there is or was a set.
-/

namespace Bitrig.Sysvsem

open Bitrig.Transition List

variable {π τ : Type} [DecidableEq π] [DecidableEq τ]

/-- The numbers in the `SEM_UNDO` operations of a call fit into a short. -/
def fitGuard : Label π τ → State π τ → Prop
  | .semop _ _ _ sops _, _ => UndoNumsFit sops
  | _, _ => True

omit [DecidableEq π] [DecidableEq τ] in
instance (label : Label π τ) (s : State π τ) : Decidable (fitGuard label s) :=
  match label with
  | .semget .. | .semop .. | .rmid .. | .setval .. | .setall .. | .resume .. | .exit _ => by
    dsimp only [fitGuard]
    infer_instance

/-- A call of `semop` that waits. -/
structure CallOk (s : State π τ) (call : SemopCall) : Prop where
  known : call.semaptr < s.nextSet
  fits : UndoNumsFit call.sops

/-- What a waiting call relies on. -/
inductive PlaceOk (info : Seminfo) (s : State π τ) : Place → Prop
  | sopsMalloc {call : SemopCall} (callOk : CallOk s call) : PlaceOk info s (.sopsMalloc call)
  | tsleep {call : SemopCall} {sop : Sembuf} {doUndos : Nat} (callOk : CallOk s call)
      (inRange : sop.InRange (s.baseAt call.semaptr).length) :
      PlaceOk info s (.tsleep call sop doUndos)
  | semuAlloc {call : SemopCall} {done : List Sembuf} {sop : Sembuf} {rest : List Sembuf}
      (callOk : CallOk s call)
      (inRange : ∀ op ∈ call.sops, op.InRange (s.baseAt call.semaptr).length)
      (split : call.sops = done ++ sop :: rest) (none : ∀ before ∈ done, ¬before.Undoes)
      (undoes : sop.Undoes) (room : undoCount (sop :: rest) ≤ info.semume) :
      PlaceOk info s (.semuAlloc call done (sop :: rest))
  | semgetAlloc {args : SemgetArgs} (positive : 0 < args.nsems) :
      PlaceOk info s (.semgetAlloc args)
  | setallMalloc {ix semaptr : Nat} {values : List (BitVec 16)} (known : semaptr < s.nextSet) :
      PlaceOk info s (.setallMalloc ix semaptr values)

/-- The invariant. -/
structure Inv (info : Seminfo) (s : State π τ) : Prop where
  undo : ListOk info s.undo.semuList
  known : ∀ ix a, s.sema ix = some a → a < s.nextSet
  places : ∀ w ∈ s.calls, PlaceOk info s w.place

section Steps

variable {info : Seminfo} {tid : τ} {pr : π} {env : Env} {nowait : Bool} {call : SemopCall}
  {s s' : State π τ} {reply : Reply} {label : Label π τ} {place : Place} {id ix semaptr : Nat}

omit [DecidableEq π] [DecidableEq τ]

theorem CallOk.frame (callOk : CallOk s call) (frame : Frame s s') : CallOk s' call where
  known := callOk.known.trans_le frame.nextSet
  fits := callOk.fits

theorem PlaceOk.frame (ok : PlaceOk info s place) (frame : Frame s s') : PlaceOk info s' place := by
  cases ok with
  | sopsMalloc callOk => exact .sopsMalloc (callOk.frame frame)
  | tsleep callOk inRange =>
    refine .tsleep (callOk.frame frame) ?_
    rwa [frame.length _ callOk.known]
  | semuAlloc callOk inRange split none undoes room =>
    refine .semuAlloc (callOk.frame frame) ?_ split none undoes room
    rwa [frame.length _ callOk.known]
  | semgetAlloc positive => exact .semgetAlloc positive
  | setallMalloc known => exact .setallMalloc (known.trans_le frame.nextSet)

theorem seminit_inv : Inv info (seminit : State π τ) where
  undo := ⟨⟨nodup_nil, fun _ member => absurd member not_mem_nil⟩,
    fun _ member => absurd member not_mem_nil⟩
  known _ _ := nofun
  places _ member := absurd member not_mem_nil

section

variable (inv : Inv info s)
include inv

/-- The invariant holds after a step that keeps the table of sets and adds at most
one waiting call. -/
theorem Inv.update (frame : Frame s s') (undo : ListOk info s'.undo.semuList)
    (sema : ∀ ix a, s'.sema ix = some a → s.sema ix = some a)
    (calls : ∀ w ∈ s'.calls, w ∈ s.calls ∨ PlaceOk info s' w.place) : Inv info s' where
  undo := undo
  known ix a found := (inv.known ix a (sema ix a found)).trans_le frame.nextSet
  places w member := by
    rcases calls w member with old | ok
    · exact (inv.places w old).frame frame
    · exact ok

theorem Inv.leave [DecidableEq τ] (tid : τ) : Inv info (s.leave tid) :=
  inv.update ⟨le_rfl, fun _ _ => rfl⟩ inv.undo (fun _ _ found => found)
    fun _ member => Or.inl (mem_of_mem_filter member)

theorem Inv.setBase {a : Nat} {base : List Sem} (length : base.length = (s.baseAt a).length) :
    Inv info (s.setBase a base) :=
  inv.update (Frame.setBase length) inv.undo (fun _ _ found => found) fun _ member => Or.inl member

theorem Inv.withUndo {undo : UndoTable π} (ok : ListOk info undo.semuList) :
    Inv info (s.withUndo undo) :=
  inv.update ((Frame.refl s).withUndo undo) ok (fun _ _ found => found)
    fun _ member => Or.inl member

theorem Inv.wait (ok : PlaceOk info s place) : Inv info (s.wait tid pr place) := by
  have frame : Frame s (s.wait tid pr place) := (Frame.refl s).wait tid pr place
  refine inv.update frame inv.undo (fun _ _ found => found) fun w member => ?_
  rcases mem_cons.mp member with rfl | old
  · exact Or.inr (ok.frame frame)
  · exact Or.inl old

theorem Inv.create (ix : Nat) (args : SemgetArgs) : Inv info (s.create ix args) where
  undo := inv.undo
  known j a found := by
    change a < s.nextSet + 1
    by_cases here : j = ix
    · subst here
      have isNew : s.nextSet = a := by simpa [State.create] using found
      omega
    · have old : s.sema j = some a := by simpa [State.create, here] using found
      exact (inv.known j a old).trans (Nat.lt_succ_self _)
  places w member := (inv.places w member).frame (Frame.create ix args)

end

theorem lookup_cases (found : s.lookup info id = some (ix, semaptr)) :
    ix = ipcidToIx id ∧ ix < info.semmni ∧ s.sema ix = some semaptr := by
  rw [State.lookup] at found
  split_ifs at found with outside
  split at found
  · contradiction
  · next isSet =>
      split_ifs at found
      cases found
      exact ⟨rfl, Nat.lt_of_not_le outside, isSet⟩

theorem Inv.lookup (inv : Inv info s) (found : s.lookup info id = some (ix, semaptr)) :
    semaptr < s.nextSet :=
  inv.known ix semaptr (lookup_cases found).2.2

variable [DecidableEq π]

/-- What the recording of a vector leaves keeps the invariant.  The list it starts
with may have a new `sem_undo` without entries. -/
theorem RecordTo.inv {table : UndoTable π} {suptr : Cached} {done rest : List Sembuf}
    {start : π → SemKey → BitVec 16} (inv : Inv info s) (callOk : CallOk s call)
    (inRange : ∀ sop ∈ call.sops, sop.InRange (s.baseAt call.semaptr).length)
    (recorded : RecordTo info tid pr nowait call suptr done rest (s.withUndo table) s' reply)
    (spec : RecordedTo info start call.sops
      (recordUndos info pr nowait call.semid table suptr done rest)) : Inv info s' := by
  cases recorded with
  | finished result =>
    rw [show recordUndos info pr nowait call.semid table suptr done rest = _ from result] at spec
    cases spec with
    | finished ok => exact inv.withUndo ok
  | failed result =>
    rw [show recordUndos info pr nowait call.semid table suptr done rest = _ from result] at spec
    cases spec with
    | failed ok same => exact (inv.setBase (length_rollback ..)).withUndo ok
  | waits result =>
    rw [show recordUndos info pr nowait call.semid table suptr done rest = _ from result] at spec
    cases spec with
    | wait split ok same none undoes room =>
      exact (inv.withUndo ok).wait
        (.semuAlloc ⟨callOk.known, callOk.fits⟩ inRange split none undoes room)

theorem Attempt.inv (inv : Inv info s) (callOk : CallOk s call)
    (attempt : Attempt info tid pr nowait call s s' reply) : Inv info s' := by
  cases attempt with
  | restored => exact inv
  | efbig => exact inv.setBase (length_applyOps ..)
  | sleeps member inRange =>
    refine (inv.setBase (length_addWaiter ..)).wait (.tsleep ⟨callOk.known, callOk.fits⟩ ?_)
    rwa [State.setBase_baseAt, length_addWaiter]
  | passed => exact inv.setBase (length_applyOps ..)
  | records inRange count recorded =>
    refine RecordTo.inv (inv.setBase (length_applyOps ..)) ⟨callOk.known, callOk.fits⟩ ?_ recorded
      (recordUndos_start callOk.fits inv.undo count)
    rwa [State.setBase_baseAt, length_applyOps]

theorem Resumed.inv (inv : Inv info s) (placeOk : PlaceOk info s place)
    (resumed : Resumed info tid pr env s place s' reply) : Inv info s' := by
  cases resumed with
  | sopsFault | removed | semgetSame | setallSame => exact inv
  | sops attempt =>
    cases placeOk with
    | sopsMalloc callOk => exact attempt.inv inv callOk
  | interrupted => exact inv.setBase (length_addWaiter ..)
  | awake allocated attempt =>
    cases placeOk with
    | tsleep callOk =>
      exact attempt.inv (inv.setBase (length_addWaiter ..)) ⟨callOk.known, callOk.fits⟩
  | undo recorded =>
    cases placeOk with
    | semuAlloc callOk inRange split none undoes room =>
      have fits := callOk.fits
      rw [split] at fits
      refine recorded.inv inv callOk inRange
        (split ▸ recordUndos_awake ?_ inv.undo none undoes room)
      exact fun op member => fits op (mem_append_right _ member)
  | semget => exact inv.create _ _
  | setall copied => exact (inv.setBase (length_assignValues copied)).withUndo (inv.undo.clear _ _)

omit [DecidableEq π] in
theorem listOk_eraseP {list : List (SemUndo π)} (ok : ListOk info list) (p : SemUndo π → Bool) :
    ListOk info (list.eraseP p) where
  sparse :=
    { nodup := ok.sparse.nodup.sublist (eraseP_sublist.map _)
      present := fun su member => ok.sparse.present su (mem_of_mem_eraseP member) }
  ents su member := ok.ents su (mem_of_mem_eraseP member)

theorem Inv.exit (inv : Inv info s) (exited : semexit pr s = .ok s') : Inv info s' := by
  have frame := semexit_frame exited
  rcases semexit_cases exited with ⟨rfl, _⟩ | ⟨su, adjusted, _, isAdjusted, rfl⟩
  · exact inv
  · have exitFrame := exitEntries_frame isAdjusted
    refine inv.update frame ?_ ?_ ?_
    · rw [exitFrame.undo]
      exact listOk_eraseP inv.undo _
    · intro ix a found
      rw [← exitFrame.sema]
      exact found
    · intro w member
      rw [← exitFrame.calls]
      exact Or.inl member

variable [DecidableEq τ]

/-- Each step keeps the invariant. -/
theorem Moved.inv (inv : Inv info s) (fits : fitGuard label s)
    (moved : Moved info s label s' reply) : Inv info s' := by
  cases moved with
  | failed | semgetSame | empty => exact inv
  | waitSops found => exact inv.wait (.sopsMalloc ⟨inv.lookup found, fits⟩)
  | waitSemget positive => exact inv.wait (.semgetAlloc positive)
  | waitSetall found => exact inv.wait (.setallMalloc (inv.lookup found))
  | semget => exact inv.create _ _
  | semop found attempt =>
    have sopsFit : UndoNumsFit _ := fits
    exact attempt.inv inv ⟨inv.lookup found, sopsFit⟩
  | rmid found =>
    refine inv.update ⟨le_rfl, fun _ _ => rfl⟩ (inv.undo.clear _ _) ?_ fun _ member => Or.inl member
    intro ix a isSet
    change Function.update s.sema _ none ix = some a at isSet
    rw [Function.update_apply] at isSet
    split at isSet
    · contradiction
    · exact isSet
  | setval => exact (inv.setBase (length_modify ..)).withUndo (inv.undo.clear _ _)
  | setall found copied =>
    exact (inv.setBase (length_assignValues copied)).withUndo (inv.undo.clear _ _)
  | resume found resumed =>
    have placeOk := inv.places _ (mem_of_find?_eq_some found)
    exact resumed.inv (inv.leave _) (placeOk.frame ⟨le_rfl, fun _ _ => rfl⟩)
  | exit exited => exact inv.exit exited

end Steps

end Bitrig.Sysvsem
