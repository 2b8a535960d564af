import Bitrig.Sysvsem.System

/-!
# What a step does

Every step of the system is one of a few moves.  All invariants are proved move by
move, without going back to the code.
-/

namespace Bitrig.Sysvsem

open Bitrig.Transition List Option

variable {π τ : Type}

namespace State

variable (s : State π τ) (a : Nat)

/-- The semaphores at an address. -/
abbrev baseAt : List Sem :=
  (s.sets a).base

/-- The state with other undo entries. -/
def withUndo (undo : UndoTable π) : State π τ :=
  { s with undo := undo }

/-- The state after the removal of a set. -/
def remove (ix : Nat) : State π τ :=
  { s with
    semtot := s.semtot - (s.baseAt a).length
    sema := Function.update s.sema ix none
    undo := semundoClear ix none s.undo }

@[simp]
theorem setBase_baseAt (base : List Sem) : (s.setBase a base).baseAt a = base := by
  simp [setBase, baseAt]

theorem setBase_baseAt_of_ne {b : Nat} (other : b ≠ a) (base : List Sem) :
    (s.setBase a base).baseAt b = s.baseAt b := by
  simp [setBase, baseAt, other]

@[simp]
theorem setBase_setBase (base base' : List Sem) :
    (s.setBase a base).setBase a base' = s.setBase a base' := by
  simp [setBase]

@[simp]
theorem setBase_self : s.setBase a (s.baseAt a) = s := by
  simp [setBase]

end State

variable [DecidableEq π]

/-- What `sys_semop` does from the loop over the `SEM_UNDO` operations on. -/
inductive RecordTo (info : Seminfo) (tid : τ) (pr : π) (nowait : Bool) (call : SemopCall)
    (suptr : Cached) (done rest : List Sembuf) (s : State π τ) : State π τ → Reply → Prop
  | finished {undo : UndoTable π}
      (recorded : recordUndos info pr nowait call.semid s.undo suptr done rest = .finished undo) :
      RecordTo info tid pr nowait call suptr done rest s (s.withUndo undo) (.done 0)
  | failed {errno : SemError} {undo : UndoTable π}
      (recorded : recordUndos info pr nowait call.semid s.undo suptr done rest =
        .failed errno undo) :
      RecordTo info tid pr nowait call suptr done rest s
        ((s.setBase call.semaptr (rollback call.sops (s.baseAt call.semaptr))).withUndo undo)
        (.error errno)
  | waits {undo : UndoTable π} {done' rest' : List Sembuf}
      (recorded : recordUndos info pr nowait call.semid s.undo suptr done rest =
        .wait undo done' rest') :
      RecordTo info tid pr nowait call suptr done rest s
        ((s.withUndo undo).wait tid pr (.semuAlloc call done' rest')) .waits

/-- What one turn of the main loop of `sys_semop` does. -/
inductive Attempt (info : Seminfo) (tid : τ) (pr : π) (nowait : Bool) (call : SemopCall)
    (s : State π τ) : State π τ → Reply → Prop
  | restored {errno : SemError} : Attempt info tid pr nowait call s s (.error errno)
  | efbig {done : List Sembuf} {sop : Sembuf} {rest : List Sembuf}
      (split : call.sops = done ++ sop :: rest)
      (inRange : ∀ before ∈ done, before.InRange (s.baseAt call.semaptr).length)
      (outOfRange : ¬sop.InRange (s.baseAt call.semaptr).length)
      (applies : Applies (values (s.baseAt call.semaptr)) done) :
      Attempt info tid pr nowait call s
        (s.setBase call.semaptr (applyOps done (s.baseAt call.semaptr))) (.error .efbig)
  | sleeps {sop : Sembuf} {doUndos : Nat} (member : sop ∈ call.sops)
      (inRange : sop.InRange (s.baseAt call.semaptr).length) :
      Attempt info tid pr nowait call s
        ((s.setBase call.semaptr (addWaiter sop 1 (s.baseAt call.semaptr))).wait tid pr
          (.tsleep call sop doUndos)) .waits
  | passed (inRange : ∀ sop ∈ call.sops, sop.InRange (s.baseAt call.semaptr).length)
      (none : undoCount call.sops = 0)
      (applies : Applies (values (s.baseAt call.semaptr)) call.sops) :
      Attempt info tid pr nowait call s
        (s.setBase call.semaptr (applyOps call.sops (s.baseAt call.semaptr))) (.done 0)
  | records {s' : State π τ} {reply : Reply}
      (inRange : ∀ sop ∈ call.sops, sop.InRange (s.baseAt call.semaptr).length)
      (count : undoCount call.sops ≤ info.semume)
      (recorded : RecordTo info tid pr nowait call .null [] call.sops
        (s.setBase call.semaptr (applyOps call.sops (s.baseAt call.semaptr))) s' reply)
      (applies : Applies (values (s.baseAt call.semaptr)) call.sops) :
      Attempt info tid pr nowait call s s' reply

/-- What a call does where it goes on. -/
inductive Resumed (info : Seminfo) (tid : τ) (pr : π) (env : Env) (s : State π τ) :
    Place → State π τ → Reply → Prop
  | sopsFault {call : SemopCall} :
      Resumed info tid pr env s (.sopsMalloc call) s (.error .efault)
  | sops {call : SemopCall} {s' : State π τ} {reply : Reply}
      (attempt : Attempt info tid pr env.nowait call s s' reply) :
      Resumed info tid pr env s (.sopsMalloc call) s' reply
  | removed {call : SemopCall} {sop : Sembuf} {doUndos : Nat} :
      Resumed info tid pr env s (.tsleep call sop doUndos) s (.error .eidrm)
  | interrupted {call : SemopCall} {sop : Sembuf} {doUndos : Nat} :
      Resumed info tid pr env s (.tsleep call sop doUndos)
        (s.setBase call.semaptr (addWaiter sop (-1) (s.baseAt call.semaptr))) (.error .eintr)
  | awake {call : SemopCall} {sop : Sembuf} {doUndos : Nat} {s' : State π τ} {reply : Reply}
      (allocated : s.sema call.semid ≠ none)
      (attempt : Attempt info tid pr env.nowait call
        (s.setBase call.semaptr (addWaiter sop (-1) (s.baseAt call.semaptr))) s' reply) :
      Resumed info tid pr env s (.tsleep call sop doUndos) s' reply
  | undo {call : SemopCall} {done rest : List Sembuf} {s' : State π τ} {reply : Reply}
      (recorded : RecordTo info tid pr env.nowait call .listed done rest
        (s.withUndo (semuAwake pr s.undo)) s' reply) :
      Resumed info tid pr env s (.semuAlloc call done rest) s' reply
  | semgetSame {args : SemgetArgs} {reply : Reply} :
      Resumed info tid pr env s (.semgetAlloc args) s reply
  | semget {args : SemgetArgs} {ix : Nat} {reply : Reply} (inTable : ix < info.semmni)
      (free : s.sema ix = none) :
      Resumed info tid pr env s (.semgetAlloc args) (s.create ix args) reply
  | setallSame {ix semaptr : Nat} {values : List (BitVec 16)} {errno : SemError} :
      Resumed info tid pr env s (.setallMalloc ix semaptr values) s (.error errno)
  | setall {ix semaptr : Nat} {values semval : List (BitVec 16)}
      (copied : copyinValues (s.baseAt semaptr).length values = .ok semval) :
      Resumed info tid pr env s (.setallMalloc ix semaptr values)
        ((s.setBase semaptr (assignValues (s.baseAt semaptr) semval)).withUndo
          (semundoClear ix none s.undo)) (.done 0)

/-- What a step does. -/
inductive Moved [DecidableEq τ] (info : Seminfo) (s : State π τ) :
    Label π τ → State π τ → Reply → Prop
  | failed {label : Label π τ} {errno : SemError} (starts : ∀ tid env, label ≠ .resume tid env) :
      Moved info s label s (.error errno)
  | semgetSame {tid : τ} {pr : π} {args : SemgetArgs} {env : Env} {reply : Reply} :
      Moved info s (.semget tid pr args env) s reply
  | empty {tid : τ} {pr : π} {id : Nat} {env : Env} :
      Moved info s (.semop tid pr id [] env) s (.done 0)
  | waitSops {tid : τ} {pr : π} {id ix semaptr : Nat} {sops : List Sembuf} {env : Env}
      (found : s.lookup info id = some (ix, semaptr)) :
      Moved info s (.semop tid pr id sops env)
        (s.wait tid pr (.sopsMalloc ⟨ix, ipcidToSeq id, semaptr, sops⟩)) .waits
  | waitSemget {tid : τ} {pr : π} {args : SemgetArgs} {env : Env}
      (positive : 0 < args.nsems) :
      Moved info s (.semget tid pr args env) (s.wait tid pr (.semgetAlloc args)) .waits
  | waitSetall {tid : τ} {pr : π} {id ix semaptr : Nat} {values : List (BitVec 16)} {env : Env}
      (found : s.lookup info id = some (ix, semaptr)) :
      Moved info s (.setall tid pr id values env)
        (s.wait tid pr (.setallMalloc ix semaptr values)) .waits
  | semget {tid : τ} {pr : π} {args : SemgetArgs} {env : Env} {ix : Nat} {reply : Reply}
      (positive : 0 < args.nsems) (room : args.nsems ≤ info.semmns - s.semtot)
      (inTable : ix < info.semmni) (free : s.sema ix = none) :
      Moved info s (.semget tid pr args env) (s.create ix args) reply
  | semop {tid : τ} {pr : π} {id ix semaptr : Nat} {sops : List Sembuf} {env : Env}
      {s' : State π τ} {reply : Reply} (found : s.lookup info id = some (ix, semaptr))
      (attempt : Attempt info tid pr env.nowait ⟨ix, ipcidToSeq id, semaptr, sops⟩ s s' reply) :
      Moved info s (.semop tid pr id sops env) s' reply
  | rmid {tid : τ} {id ix semaptr : Nat} {env : Env}
      (found : s.lookup info id = some (ix, semaptr)) :
      Moved info s (.rmid tid id env) (s.remove semaptr ix) (.done 0)
  | setval {tid : τ} {id ix semaptr : Nat} {semnum val : Int} {env : Env}
      (found : s.lookup info id = some (ix, semaptr)) (legal : val ≤ semvmx) :
      Moved info s (.setval tid id semnum val env)
        ((s.setBase semaptr ((s.baseAt semaptr).modify semnum.toNat
          fun sem => { sem with semval := BitVec.ofInt 16 val })).withUndo
            (semundoClear ix (some (BitVec.ofInt 16 semnum)) s.undo)) (.done 0)
  | setall {tid : τ} {pr : π} {id ix semaptr : Nat} {values semval : List (BitVec 16)} {env : Env}
      (found : s.lookup info id = some (ix, semaptr))
      (copied : copyinValues (s.baseAt semaptr).length values = .ok semval) :
      Moved info s (.setall tid pr id values env)
        ((s.setBase semaptr (assignValues (s.baseAt semaptr) semval)).withUndo
          (semundoClear ix none s.undo)) (.done 0)
  | resume {tid : τ} {env : Env} {waiting : Waiting π τ} {s' : State π τ} {reply : Reply}
      (found : s.calls.find? (·.tid = tid) = some waiting)
      (resumed : Resumed info tid waiting.pr env (s.leave tid) waiting.place s' reply) :
      Moved info s (.resume tid env) s' reply
  | exit {pr : π} {s' : State π τ} (exited : semexit pr s = .ok s') :
      Moved info s (.exit pr) s' (.done 0)

section Cases

variable {info : Seminfo} {tid : τ} {pr : π} {env : Env} {nowait : Bool} {call : SemopCall}
  {s s' : State π τ} {reply : Reply} {args : SemgetArgs} {label : Label π τ} {suptr : Cached}
  {done rest : List Sembuf} {place : Place}

theorem semopRecord_cases
    (result : semopRecord info tid pr nowait call suptr done rest s = some (s', reply)) :
    RecordTo info tid pr nowait call suptr done rest s s' reply := by
  rw [semopRecord] at result
  split at result
  · next recorded =>
      cases result
      exact .finished recorded
  · next recorded =>
      cases result
      exact .failed recorded
  · next recorded =>
      cases result
      exact .waits recorded
  · contradiction

theorem semopTry_cases {doUndos : Nat}
    (result : semopTry info tid pr nowait call doUndos s = some (s', reply)) :
    Attempt info tid pr nowait call s s' reply := by
  have tried := tryOps_spec doUndos (s.baseAt call.semaptr) call.sops
  rw [semopTry] at result
  generalize tryOps doUndos [] (s.sets call.semaptr).base call.sops = outcome at tried result
  cases tried with
  | efbig done sop rest split inRange outOfRange applies =>
    cases result
    exact .efbig split inRange outOfRange applies
  | blocked done sop rest count split inRange here =>
    dsimp only at result
    rw [rollback_applyOps inRange, State.setBase_self] at result
    split at result
    · cases result
      exact .restored
    · split at result
      · cases result
        exact .restored
      · cases result
        exact .sleeps (split ▸ mem_append_right _ mem_cons_self) here
  | through inRange applies =>
    dsimp only at result
    rw [rollback_applyOps inRange, State.setBase_self] at result
    split at result
    · next few =>
        split at result
        · exact .records inRange (by omega) (semopRecord_cases result) applies
        · next zero =>
            cases result
            exact .passed inRange (by omega) applies
    · cases result
      exact .restored

omit [DecidableEq π] in
theorem semgetRest_cases (result : semgetRest info args env s = (s', reply)) :
    s' = s ∨ (args.key = 0 ∨ args.ipcCreat = true) ∧
      ∃ ix, ix < info.semmni ∧ s.sema ix = none ∧ s' = s.create ix args := by
  rw [semgetRest] at result
  split at result
  · split_ifs at result <;> cases result <;> exact Or.inl rfl
  · split at result
    · next creates =>
        split at result
        · cases result
          exact Or.inl rfl
        · next ix found =>
            cases result
            have free := find?_some found
            exact Or.inr ⟨creates, ix, mem_range.mp (mem_of_find?_eq_some found),
              of_decide_eq_true free, rfl⟩
    · cases result
      exact Or.inl rfl

omit [DecidableEq π] in
theorem setallRest_cases {ix semaptr : Nat} {values : List (BitVec 16)}
    (result : setallRest ix semaptr values s = (s', reply)) :
    (s' = s ∧ ∃ errno, reply = .error errno) ∨
      ∃ semval, copyinValues (s.baseAt semaptr).length values = .ok semval ∧ reply = .done 0 ∧
        s' = (s.setBase semaptr (assignValues (s.baseAt semaptr) semval)).withUndo
          (semundoClear ix none s.undo) := by
  rw [setallRest] at result
  split at result
  · cases result
    exact Or.inl ⟨rfl, _, rfl⟩
  · next semval copied =>
      cases result
      exact Or.inr ⟨semval, copied, rfl, rfl⟩

theorem resumeAt_cases (result : resumeAt info tid pr env place s = some (s', reply)) :
    Resumed info tid pr env s place s' reply := by
  cases place with
  | sopsMalloc call =>
    rw [resumeAt, semopCopyin] at result
    split at result
    · cases result
      exact .sopsFault
    · exact .sops (semopTry_cases result)
  | tsleep call sop doUndos =>
    rw [resumeAt, semopAwake] at result
    split at result
    · cases result
      exact .removed
    · next alive =>
        split at result
        · cases result
          exact .interrupted
        · exact .awake (fun none => alive (Or.inl none)) (semopTry_cases result)
  | semuAlloc call done rest => exact .undo (semopRecord_cases result)
  | semgetAlloc args =>
    rcases semgetRest_cases (some.inj result) with rfl | ⟨_, ix, inTable, free, rfl⟩
    · exact .semgetSame
    · exact .semget inTable free
  | setallMalloc ix semaptr values =>
    rcases setallRest_cases (some.inj result) with
      ⟨rfl, errno, rfl⟩ | ⟨semval, copied, rfl, rfl⟩
    · exact .setallSame
    · exact .setall copied

variable [DecidableEq τ]

omit [DecidableEq π] in
theorem calling_cases {α : Option (State π τ × Reply)}
    (result : s.calling tid α = some (s', reply)) : α = some (s', reply) := by
  rw [State.calling] at result
  split at result
  · contradiction
  · exact result

theorem sysSemget_cases (result : sysSemget info tid pr args env s = (s', reply)) :
    Moved info s (.semget tid pr args env) s' reply := by
  rw [sysSemget] at result
  split at result
  · split at result
    · cases result
      exact .semgetSame
    · next bounds =>
        have positive : 0 < args.nsems := by omega
        split at result
        · cases result
          exact .semgetSame
        · next limit =>
            have room : args.nsems ≤ info.semmns - s.semtot := by omega
            split at result
            · cases result
              exact .waitSemget positive
            · rcases semgetRest_cases result with rfl | ⟨_, ix, inTable, free, rfl⟩
              · exact .semgetSame
              · exact .semget positive room inTable free
  · next keyed =>
      rcases semgetRest_cases result with rfl | ⟨creates, _⟩
      · exact .semgetSame
      · exact absurd creates keyed

theorem sysSemop_cases {id : Nat} {sops : List Sembuf}
    (result : sysSemop info tid pr id sops env s = some (s', reply)) :
    Moved info s (.semop tid pr id sops env) s' reply := by
  rw [sysSemop] at result
  split at result
  · cases result
    exact .failed fun _ _ => nofun
  · next ix semaptr found =>
      split_ifs at result with permitted none many local'
      · cases result
        exact .failed fun _ _ => nofun
      · cases result
        cases eq_nil_of_length_eq_zero none
        exact .empty
      · cases result
        exact .failed fun _ _ => nofun
      · cases result
        exact .waitSops found
      · rw [semopCopyin] at result
        split at result
        · cases result
          exact .failed fun _ _ => nofun
        · exact .semop found (semopTry_cases result)

/-- Every step is one of the moves. -/
theorem step_cases (result : step info label s = some (s', reply)) :
    Moved info s label s' reply := by
  cases label with
  | semget tid pr args env =>
    exact sysSemget_cases (some.inj (calling_cases result))
  | semop tid pr id sops env => exact sysSemop_cases (calling_cases result)
  | rmid tid id env =>
    have outcome := some.inj (calling_cases result)
    rw [semctlRmid] at outcome
    split at outcome
    · cases outcome
      exact .failed fun _ _ => nofun
    · next found =>
        split at outcome
        · cases outcome
          exact .failed fun _ _ => nofun
        · cases outcome
          exact .rmid found
  | setval tid id semnum val env =>
    have outcome := some.inj (calling_cases result)
    rw [semctlSetval] at outcome
    split at outcome
    · cases outcome
      exact .failed fun _ _ => nofun
    · next found =>
        split_ifs at outcome with permitted outside great
        · cases outcome
          exact .failed fun _ _ => nofun
        · cases outcome
          exact .failed fun _ _ => nofun
        · cases outcome
          exact .failed fun _ _ => nofun
        · cases outcome
          exact .setval found (Int.not_lt.mp great)
  | setall tid pr id values env =>
    have outcome := some.inj (calling_cases result)
    rw [semctlSetall] at outcome
    split at outcome
    · cases outcome
      exact .failed fun _ _ => nofun
    · next found =>
        split_ifs at outcome with permitted waits
        · cases outcome
          exact .failed fun _ _ => nofun
        · cases outcome
          exact .waitSetall found
        · rcases setallRest_cases outcome with ⟨rfl, errno, rfl⟩ | ⟨semval, copied, rfl, rfl⟩
          · exact .failed fun _ _ => nofun
          · exact .setall found copied
  | resume tid env =>
    rw [step] at result
    split at result
    · contradiction
    · next found => exact .resume found (resumeAt_cases result)
  | exit pr =>
    rw [step] at result
    split at result
    · contradiction
    · split at result
      · contradiction
      · next exited =>
          cases result
          exact .exit exited

theorem next_cases (result : next info label s = some s') :
    ∃ reply, Moved info s label s' reply := by
  rcases map_eq_some_iff.mp result with ⟨⟨target, reply⟩, stepped, rfl⟩
  exact ⟨reply, step_cases stepped⟩

/-- The thread that makes a call. -/
def Label.starter : Label π τ → Option τ
  | .semget tid .. | .semop tid .. | .rmid tid .. | .setval tid .. | .setall tid .. => some tid
  | .resume .. | .exit .. => none

theorem step_idle (result : step info label s = some (s', reply))
    (starter : label.starter = some tid) : ∀ w ∈ s.calls, w.tid ≠ tid := by
  have idle : ∀ {t : τ} {α : Option (State π τ × Reply)},
      s.calling t α = some (s', reply) → ∀ w ∈ s.calls, w.tid ≠ t := by
    intro t α outcome w member isTid
    rw [State.calling, if_pos] at outcome
    · contradiction
    · exact any_eq_true.mpr ⟨w, member, by simpa using isTid⟩
  cases label with
  | semget | semop | rmid | setval | setall =>
    cases starter
    exact idle result
  | resume | exit => contradiction

end Cases

/-! ### What stays -/

/-- Sets at known addresses keep their number of semaphores. -/
structure Frame (s s' : State π τ) : Prop where
  nextSet : s.nextSet ≤ s'.nextSet
  length : ∀ a < s.nextSet, (s'.baseAt a).length = (s.baseAt a).length

section Frames

variable {info : Seminfo} {tid : τ} {pr : π} {env : Env} {nowait : Bool} {call : SemopCall}
  {s s' s'' : State π τ} {reply : Reply} {base : List Sem} {values semval : List (BitVec 16)}
  {suptr : Cached} {done rest : List Sembuf} {place : Place}

omit [DecidableEq π]

theorem Frame.refl (s : State π τ) : Frame s s :=
  ⟨le_rfl, fun _ _ => rfl⟩

theorem Frame.trans (first : Frame s s') (second : Frame s' s'') : Frame s s'' where
  nextSet := first.nextSet.trans second.nextSet
  length a known := (second.length a (known.trans_le first.nextSet)).trans (first.length a known)

theorem Frame.setBase {a : Nat} (length : base.length = (s.baseAt a).length) :
    Frame s (s.setBase a base) where
  nextSet := le_rfl
  length b _ := by
    by_cases same : b = a
    · rw [same, State.setBase_baseAt, length]
    · rw [State.setBase_baseAt_of_ne s a same]

theorem Frame.withUndo (frame : Frame s s') (undo : UndoTable π) : Frame s (s'.withUndo undo) :=
  ⟨frame.nextSet, frame.length⟩

theorem Frame.wait (frame : Frame s s') (tid : τ) (pr : π) (place : Place) :
    Frame s (s'.wait tid pr place) :=
  ⟨frame.nextSet, frame.length⟩

theorem Frame.create (ix : Nat) (args : SemgetArgs) : Frame s (s.create ix args) where
  nextSet := Nat.le_succ _
  length b known := by
    simp [State.create, State.baseAt, ne_of_lt known]

theorem length_copyinValues {nsems : Nat} (copied : copyinValues nsems values = .ok semval) :
    semval.length = nsems := by
  induction nsems generalizing values semval with
  | zero =>
    cases copied
    rfl
  | succ nsems ih =>
    cases values with
    | nil => contradiction
    | cons value values =>
      rw [copyinValues] at copied
      split at copied
      · contradiction
      · split at copied
        · contradiction
        · next rest restCopied =>
            cases copied
            rw [length_cons, ih restCopied]

theorem length_assignValues (copied : copyinValues base.length values = .ok semval) :
    (assignValues base semval).length = base.length := by
  rw [assignValues, length_zipWith, length_copyinValues copied, min_self]

/-- The entries of an exiting process change only values. -/
structure ExitFrame (s s' : State π τ) : Prop where
  frame : Frame s s'
  sema : s'.sema = s.sema
  nextSet : s'.nextSet = s.nextSet
  undo : s'.undo = s.undo
  semtot : s'.semtot = s.semtot
  calls : s'.calls = s.calls

theorem exitAdjust_frame {u : Undo} (adjusted : exitAdjust s u = .ok s') : ExitFrame s s' := by
  rw [exitAdjust] at adjusted
  split at adjusted
  · contradiction
  · split_ifs at adjusted
    cases adjusted
    exact ⟨Frame.setBase (length_modify ..), rfl, rfl, rfl, rfl, rfl⟩

theorem exitEntries_frame {ents : List Undo} (adjusted : ents.foldlM exitAdjust s = .ok s') :
    ExitFrame s s' := by
  induction ents generalizing s with
  | nil =>
    cases adjusted
    exact ⟨Frame.refl _, rfl, rfl, rfl, rfl, rfl⟩
  | cons u ents ih =>
    rw [foldlM_cons] at adjusted
    cases first : exitAdjust s u with
    | error fault =>
      rw [first] at adjusted
      contradiction
    | ok middle =>
      rw [first] at adjusted
      have head := exitAdjust_frame first
      have tail := ih adjusted
      exact ⟨head.frame.trans tail.frame, tail.sema.trans head.sema,
        tail.nextSet.trans head.nextSet, tail.undo.trans head.undo,
        tail.semtot.trans head.semtot, tail.calls.trans head.calls⟩

variable [DecidableEq π]

/-- What `semexit` does: it applies the entries of the process and frees them. -/
theorem semexit_cases (exited : semexit pr s = .ok s') :
    (s' = s ∧ pr ∉ s.undo.semuList.map SemUndo.unProc) ∨
      ∃ su adjusted, s.undo.semuList.find? (·.unProc = pr) = some su ∧
        su.unEnt.foldlM exitAdjust s = .ok adjusted ∧
        s' = adjusted.withUndo
          ⟨adjusted.undo.semuList.eraseP (·.unProc = pr), adjusted.undo.semutot - 1⟩ := by
  rw [semexit] at exited
  split at exited
  · next notFound =>
      cases exited
      exact Or.inl ⟨rfl, KeyedList.find?_eq_none_iff.mp notFound⟩
  · next su found =>
      split at exited
      · contradiction
      · next adjusted isAdjusted =>
          cases exited
          exact Or.inr ⟨su, adjusted, found, isAdjusted, rfl⟩

theorem semexit_frame (exited : semexit pr s = .ok s') : Frame s s' := by
  rcases semexit_cases exited with ⟨rfl, _⟩ | ⟨su, adjusted, _, isAdjusted, rfl⟩
  · exact Frame.refl s'
  · exact (exitEntries_frame isAdjusted).frame.withUndo _

theorem RecordTo.frame (recorded : RecordTo info tid pr nowait call suptr done rest s s' reply) :
    Frame s s' := by
  cases recorded with
  | finished => exact (Frame.refl s).withUndo _
  | failed => exact (Frame.setBase (length_rollback ..)).withUndo _
  | waits => exact ((Frame.refl s).withUndo _).wait ..

theorem Attempt.frame (attempt : Attempt info tid pr nowait call s s' reply) : Frame s s' := by
  cases attempt with
  | restored => exact Frame.refl s
  | efbig => exact Frame.setBase (length_applyOps ..)
  | sleeps => exact (Frame.setBase (length_addWaiter ..)).wait ..
  | passed => exact Frame.setBase (length_applyOps ..)
  | records inRange count recorded =>
    exact (Frame.setBase (length_applyOps ..)).trans recorded.frame

theorem Resumed.frame (resumed : Resumed info tid pr env s place s' reply) : Frame s s' := by
  cases resumed with
  | sopsFault | removed | semgetSame | setallSame => exact Frame.refl _
  | sops attempt => exact attempt.frame
  | interrupted => exact Frame.setBase (length_addWaiter ..)
  | awake allocated attempt => exact (Frame.setBase (length_addWaiter ..)).trans attempt.frame
  | undo recorded =>
    have rest := recorded.frame
    exact ⟨rest.nextSet, rest.length⟩
  | semget => exact Frame.create ..
  | setall copied => exact (Frame.setBase (length_assignValues copied)).withUndo _

theorem Moved.frame [DecidableEq τ] (moved : Moved info s label s' reply) : Frame s s' := by
  cases moved with
  | failed | semgetSame | empty => exact Frame.refl _
  | waitSops | waitSemget | waitSetall | rmid => exact ⟨le_rfl, fun _ _ => rfl⟩
  | semget => exact Frame.create ..
  | semop found attempt => exact attempt.frame
  | setval => exact (Frame.setBase (length_modify ..)).withUndo _
  | setall found copied => exact (Frame.setBase (length_assignValues copied)).withUndo _
  | resume found resumed =>
    have rest := resumed.frame
    exact ⟨rest.nextSet, rest.length⟩
  | exit exited => exact semexit_frame exited

end Frames

end Bitrig.Sysvsem
