import Bitrig.Sysvsem.UndoMap
import Mathlib

/-!
# Vectors of operations

The loops of `sys_semop`: over the operations of a vector on the semaphores of a
set, over those it has done to take them back, and over the `SEM_UNDO` operations
to record them.  A loop stops where the source leaves it, with what it has done.
-/

namespace Bitrig.Sysvsem

open List

/-- A semaphore (`struct sem`). -/
structure Sem where
  semval : BitVec 16
  semncnt : BitVec 16
  semzcnt : BitVec 16
  deriving DecidableEq

/-- An operation on a semaphore (`struct sembuf`). -/
structure Sembuf where
  semNum : BitVec 16
  semOp : BitVec 16
  semUndo : Bool
  ipcNowait : Bool
  deriving DecidableEq

/-- `NSOPS`. -/
def nsopsLocal : Nat := 8

/-- The operations that get an undo entry. -/
def Sembuf.Undoes (sop : Sembuf) : Prop :=
  sop.semUndo = true ∧ sop.semOp ≠ 0

instance (sop : Sembuf) : Decidable sop.Undoes :=
  inferInstanceAs (Decidable (_ ∧ _))

/-- Change the value of a semaphore by an operation. -/
def addSemval (base : List Sem) (sop : Sembuf) : List Sem :=
  base.modify sop.semNum.toNat fun sem => { sem with semval := sem.semval + sop.semOp }

/-- Take an operation back. -/
def subSemval (base : List Sem) (sop : Sembuf) : List Sem :=
  base.modify sop.semNum.toNat fun sem => { sem with semval := sem.semval - sop.semOp }

/-- Take the operations back in order. -/
def rollback (sops : List Sembuf) (base : List Sem) : List Sem :=
  sops.foldl subSemval base

/-- Count a sleeper on a semaphore in or out. -/
def addWaiter (sop : Sembuf) (count : BitVec 16) (base : List Sem) : List Sem :=
  base.modify sop.semNum.toNat fun sem =>
    if sop.semOp = 0 then { sem with semzcnt := sem.semzcnt + count }
    else { sem with semncnt := sem.semncnt + count }

/-- How the loop over a vector ends. -/
inductive Tried
  | efbig (base : List Sem)
  | blocked (done : List Sembuf) (sop : Sembuf) (base : List Sem) (doUndos : Nat)
  | through (base : List Sem) (doUndos : Nat)

/-- The loop of `sys_semop` over the operations, with those it has done. -/
def tryOps (doUndos : Nat) (done : List Sembuf) (base : List Sem) : List Sembuf → Tried
  | [] => .through base doUndos
  | sop :: rest =>
    match base[sop.semNum.toNat]? with
    | none => .efbig base
    | some sem =>
      if sop.semOp.toInt < 0 then
        if (sem.semval.toNat : Int) + sop.semOp.toInt < 0 then .blocked done sop base doUndos
        else
          tryOps (if sop.semUndo then doUndos + 1 else doUndos) (done ++ [sop])
            (addSemval base sop) rest
      else if sop.semOp = 0 then
        if 0 < sem.semval.toNat then .blocked done sop base doUndos
        else tryOps doUndos (done ++ [sop]) base rest
      else
        tryOps (if sop.semUndo then doUndos + 1 else doUndos) (done ++ [sop])
          (addSemval base sop) rest

section Undos

variable {π : Type} [DecidableEq π]

/-- The loop that takes the recorded operations back, last one first.  There is no
result at its panic.  It does not wait, since the pointer is set. -/
def rollbackUndos (info : Seminfo) (pr : π) (nowait : Bool) (semid : Nat) (table : UndoTable π)
    (suptr : Cached) : List Sembuf → Option (UndoTable π)
  | [] => some table
  | sop :: before =>
    if sop.Undoes then
      match semundoAdjust info pr nowait table suptr semid sop.semNum sop.semOp with
      | .done table suptr => rollbackUndos info pr nowait semid table suptr before
      | _ => none
    else rollbackUndos info pr nowait semid table suptr before

/-- How the loop over the `SEM_UNDO` operations ends. -/
inductive Recorded (π : Type)
  | finished (table : UndoTable π)
  | failed (errno : SemError) (table : UndoTable π)
  | wait (table : UndoTable π) (done rest : List Sembuf)
  | crash

/-- The loop of `sys_semop` that records the `SEM_UNDO` operations. -/
def recordUndos (info : Seminfo) (pr : π) (nowait : Bool) (semid : Nat) (table : UndoTable π)
    (suptr : Cached) (done : List Sembuf) : List Sembuf → Recorded π
  | [] => .finished table
  | sop :: rest =>
    if sop.Undoes then
      match semundoAdjust info pr nowait table suptr semid sop.semNum (-sop.semOp) with
      | .done table suptr => recordUndos info pr nowait semid table suptr (done ++ [sop]) rest
      | .wait table => .wait table done (sop :: rest)
      | .crash => .crash
      | .error errno suptr =>
        match rollbackUndos info pr nowait semid table suptr done.reverse with
        | none => .crash
        | some table => .failed errno table
    else recordUndos info pr nowait semid table suptr (done ++ [sop]) rest

end Undos

/-! ### Values -/

/-- What a semaphore holds: its value and the counts of its sleepers. -/
abbrev Cell :=
  BitVec 16 × BitVec 16 × BitVec 16

def Sem.cell (sem : Sem) : Cell :=
  (sem.semval, sem.semncnt, sem.semzcnt)

/-- What the semaphores of a set hold. -/
def cells (base : List Sem) (num : Nat) : Cell :=
  (base[num]?.map Sem.cell).getD 0

/-- What an operation adds. -/
def Sembuf.change (sop : Sembuf) : Nat → Cell :=
  Pi.single sop.semNum.toNat (sop.semOp, 0)

/-- What a vector adds. -/
def changes (sops : List Sembuf) : Nat → Cell :=
  (sops.map Sembuf.change).sum

/-- What a sleeper adds. -/
def Sembuf.waiting (sop : Sembuf) : Nat → Cell :=
  Pi.single sop.semNum.toNat (if sop.semOp = 0 then (0, 0, 1) else (0, 1, 0))

/-- The semaphores after the operations of a vector. -/
def applyOps (sops : List Sembuf) (base : List Sem) : List Sem :=
  sops.foldl addSemval base

/-- The number of a semaphore of the set. -/
def Sembuf.InRange (sop : Sembuf) (nsems : Nat) : Prop :=
  sop.semNum.toNat < nsems

section Values

variable {base : List Sem} {sops : List Sembuf} {sop : Sembuf}

theorem cells_modify {num : Nat} {change : Sem → Sem} {delta : Cell} (inRange : num < base.length)
    (adds : ∀ sem, (change sem).cell = sem.cell + delta) :
    cells (base.modify num change) = cells base + Pi.single num delta := by
  funext n
  rw [Pi.add_apply, cells, cells, getElem?_modify]
  by_cases same : num = n
  · subst same
    rw [getElem?_eq_getElem inRange]
    simpa using adds base[num]
  · simp [same]

section

variable (inRange : sop.InRange base.length)
include inRange

theorem cells_addSemval : cells (addSemval base sop) = cells base + sop.change :=
  cells_modify inRange fun sem => by simp [Sem.cell]

theorem cells_subSemval : cells (subSemval base sop) = cells base - sop.change := by
  rw [sub_eq_add_neg, Sembuf.change, ← Pi.single_neg]
  exact cells_modify inRange fun sem => by simp [Sem.cell, sub_eq_add_neg]

theorem cells_addWaiter : cells (addWaiter sop 1 base) = cells base + sop.waiting := by
  refine cells_modify inRange fun sem => ?_
  split <;> simp [Sem.cell]

theorem cells_subWaiter : cells (addWaiter sop (-1) base) = cells base - sop.waiting := by
  rw [sub_eq_add_neg, Sembuf.waiting, ← Pi.single_neg]
  refine cells_modify inRange fun sem => ?_
  split <;> simp [Sem.cell]

end

@[simp]
theorem length_addSemval (base : List Sem) (sop : Sembuf) :
    (addSemval base sop).length = base.length :=
  length_modify ..

@[simp]
theorem length_subSemval (base : List Sem) (sop : Sembuf) :
    (subSemval base sop).length = base.length :=
  length_modify ..

@[simp]
theorem length_addWaiter (sop : Sembuf) (count : BitVec 16) (base : List Sem) :
    (addWaiter sop count base).length = base.length :=
  length_modify ..

@[simp]
theorem length_applyOps (sops : List Sembuf) (base : List Sem) :
    (applyOps sops base).length = base.length := by
  induction sops generalizing base with
  | nil => rfl
  | cons sop rest ih => exact (ih (addSemval base sop)).trans (length_addSemval base sop)

@[simp]
theorem length_rollback (sops : List Sembuf) (base : List Sem) :
    (rollback sops base).length = base.length := by
  induction sops generalizing base with
  | nil => rfl
  | cons sop rest ih => exact (ih (subSemval base sop)).trans (length_subSemval base sop)

section

variable (inRange : ∀ sop ∈ sops, sop.InRange base.length)
include inRange

theorem cells_applyOps : cells (applyOps sops base) = cells base + changes sops := by
  induction sops generalizing base with
  | nil => simp [applyOps, changes]
  | cons sop rest ih =>
    have first := cells_addSemval (inRange sop mem_cons_self)
    have others := @ih (addSemval base sop) fun other member => by
      simpa using inRange other (mem_cons_of_mem _ member)
    change cells (applyOps rest (addSemval base sop)) = _
    rw [others, first, changes, changes, map_cons, sum_cons, add_assoc]

theorem cells_rollback : cells (rollback sops base) = cells base - changes sops := by
  induction sops generalizing base with
  | nil => simp [rollback, changes]
  | cons sop rest ih =>
    have first := cells_subSemval (inRange sop mem_cons_self)
    have others := @ih (subSemval base sop) fun other member => by
      simpa using inRange other (mem_cons_of_mem _ member)
    change cells (rollback rest (subSemval base sop)) = _
    rw [others, first, changes, changes, map_cons, sum_cons, sub_add_eq_sub_sub]

omit inRange in
theorem Sem.cell_injective : Function.Injective Sem.cell := by
  intro a b same
  cases a
  cases b
  simp_all [Sem.cell]

omit inRange in
/-- The semaphores of a set are determined by what they hold. -/
theorem eq_of_cells {base' : List Sem} (length : base.length = base'.length)
    (same : cells base = cells base') : base = base' := by
  refine ext_getElem length fun n lt lt' => Sem.cell_injective ?_
  have here := congrFun same n
  simpa [cells, getElem?_eq_getElem lt, getElem?_eq_getElem lt'] using here

/-- Taking a vector back restores the set. -/
theorem rollback_applyOps : rollback sops (applyOps sops base) = base := by
  refine eq_of_cells (by simp) ?_
  rw [cells_rollback (fun sop member => by simpa using inRange sop member),
    cells_applyOps inRange, add_sub_cancel_right]

end

/-- The values of the semaphores of a set. -/
def values (base : List Sem) : List (BitVec 16) :=
  base.map Sem.semval

/-- An operation cannot be done now. -/
def Sembuf.Blocked (sop : Sembuf) (semval : BitVec 16) : Prop :=
  (semval.toNat : Int) + sop.semOp.toInt < 0 ∨ sop.semOp = 0 ∧ 0 < semval.toNat

instance (sop : Sembuf) (semval : BitVec 16) : Decidable (sop.Blocked semval) :=
  inferInstanceAs (Decidable (_ ∨ _))

/-- The values after an operation. -/
def addValue (vals : List (BitVec 16)) (sop : Sembuf) : List (BitVec 16) :=
  vals.modify sop.semNum.toNat (· + sop.semOp)

/-- The operations of a vector can be done one after the other. -/
def Applies : List (BitVec 16) → List Sembuf → Prop
  | _, [] => True
  | vals, sop :: rest =>
    (∀ semval, vals[sop.semNum.toNat]? = some semval → ¬sop.Blocked semval) ∧
      Applies (addValue vals sop) rest

theorem values_addSemval (base : List Sem) (sop : Sembuf) :
    values (addSemval base sop) = addValue (values base) sop := by
  refine ext_getElem? fun n => ?_
  simp only [values, addSemval, addValue, getElem?_map, getElem?_modify]
  cases base[n]? with
  | none => rfl
  | some sem =>
    by_cases here : sop.semNum.toNat = n <;> simp [here]

theorem values_applyOps (base : List Sem) (sops : List Sembuf) :
    values (applyOps sops base) = sops.foldl addValue (values base) := by
  induction sops generalizing base with
  | nil => rfl
  | cons sop rest ih =>
    rw [foldl_cons, ← values_addSemval]
    exact ih (addSemval base sop)

theorem values_addWaiter (base : List Sem) (sop : Sembuf) (count : BitVec 16) :
    values (addWaiter sop count base) = values base := by
  refine ext_getElem? fun n => ?_
  simp only [values, addWaiter, getElem?_map, getElem?_modify]
  cases base[n]? with
  | none => rfl
  | some sem =>
    by_cases here : sop.semNum.toNat = n <;> simp [here, apply_ite Sem.semval]

theorem Applies.concat {vals : List (BitVec 16)} {done : List Sembuf} (applies : Applies vals done)
    (free : ∀ semval, (done.foldl addValue vals)[sop.semNum.toNat]? = some semval →
      ¬sop.Blocked semval) : Applies vals (done ++ [sop]) := by
  induction done generalizing vals with
  | nil => exact ⟨free, trivial⟩
  | cons first done ih => exact ⟨applies.1, ih applies.2 free⟩

/-- The number of operations of a vector that get an undo entry. -/
def undoCount (sops : List Sembuf) : Nat :=
  sops.countP (·.Undoes)

/-- How the loop over a vector ends: behind which operations, and with which values. -/
inductive TriedTo (doUndos : Nat) (base : List Sem) (sops : List Sembuf) : Tried → Prop
  | efbig (done : List Sembuf) (sop : Sembuf) (rest : List Sembuf)
      (split : sops = done ++ sop :: rest)
      (inRange : ∀ before ∈ done, before.InRange base.length)
      (outOfRange : ¬sop.InRange base.length) (applies : Applies (values base) done) :
      TriedTo doUndos base sops (.efbig (applyOps done base))
  | blocked (done : List Sembuf) (sop : Sembuf) (rest : List Sembuf) (count : Nat)
      (split : sops = done ++ sop :: rest)
      (inRange : ∀ before ∈ done, before.InRange base.length)
      (here : sop.InRange base.length) :
      TriedTo doUndos base sops (.blocked done sop (applyOps done base) count)
  | through (inRange : ∀ sop ∈ sops, sop.InRange base.length)
      (applies : Applies (values base) sops) :
      TriedTo doUndos base sops (.through (applyOps sops base) (doUndos + undoCount sops))

theorem applyOps_concat (done : List Sembuf) (sop : Sembuf) (base : List Sem) :
    applyOps (done ++ [sop]) base = addSemval (applyOps done base) sop := by
  rw [applyOps, foldl_append]
  rfl

theorem addSemval_zero (zero : sop.semOp = 0) : addSemval base sop = base := by
  have same : (fun sem : Sem => { sem with semval := sem.semval + sop.semOp }) = id := by
    funext sem
    rw [zero, add_zero]
    rfl
  rw [addSemval, same]
  exact modify_id _ _

theorem undoCount_concat (done : List Sembuf) (sop : Sembuf) :
    undoCount (done ++ [sop]) = undoCount done + if sop.Undoes then 1 else 0 := by
  simp [undoCount, countP_append, countP_singleton]

theorem tryOps_split (doUndos : Nat) (base : List Sem) (done rest : List Sembuf)
    (inRange : ∀ before ∈ done, before.InRange base.length) (applies : Applies (values base) done) :
    TriedTo doUndos base (done ++ rest)
      (tryOps (doUndos + undoCount done) done (applyOps done base) rest) := by
  induction rest generalizing done with
  | nil =>
    rw [append_nil]
    exact .through inRange applies
  | cons sop rest ih =>
    rw [tryOps]
    split
    · next outside =>
        refine .efbig done sop rest rfl inRange ?_ applies
        rw [getElem?_eq_none_iff, length_applyOps] at outside
        exact not_lt.mpr outside
    · next sem found =>
        have here : sop.InRange base.length := by
          rw [← length_applyOps done base]
          exact (List.getElem?_eq_some_iff.mp found).1
        have longer : ∀ before ∈ done ++ [sop], before.InRange base.length :=
          forall_mem_append.mpr ⟨inRange, forall_mem_singleton.mpr here⟩
        have next : ¬sop.Blocked sem.semval → TriedTo doUndos base (done ++ sop :: rest)
            (tryOps (doUndos + (undoCount done + if sop.Undoes then 1 else 0)) (done ++ [sop])
              (addSemval (applyOps done base) sop) rest) := by
          intro free
          have later := ih (done ++ [sop]) longer (applies.concat fun semval isValue => by
            rw [← values_applyOps, values, getElem?_map, found] at isValue
            rwa [← Option.some.inj isValue])
          rwa [append_assoc, applyOps_concat, undoCount_concat]
            at later
        -- a non-zero operation counts when it has the flag, a zero one never
        have counted : sop.semOp ≠ 0 → doUndos + (undoCount done + if sop.Undoes then 1 else 0) =
            if sop.semUndo = true then doUndos + undoCount done + 1
            else doUndos + undoCount done := by
          intro nonzero
          have undoes : sop.Undoes ↔ sop.semUndo = true := and_iff_left nonzero
          rw [if_congr undoes rfl rfl]
          split <;> rfl
        split
        · next negative =>
            have nonzero : sop.semOp ≠ 0 := by
              intro zero
              rw [zero] at negative
              exact absurd negative (by decide)
            rw [counted nonzero] at next
            split
            · exact .blocked done sop rest _ rfl inRange here
            · next enough =>
                apply next
                rintro (less | ⟨zero, _⟩)
                · exact enough less
                · exact nonzero zero
        · next notNegative =>
            split
            · next zero =>
                split
                · exact .blocked done sop rest _ rfl inRange here
                · next isZero =>
                    have uncounted : ¬sop.Undoes := fun undoes => undoes.2 zero
                    rw [if_neg uncounted, addSemval_zero zero] at next
                    apply next
                    rintro (less | ⟨_, positive⟩)
                    · omega
                    · exact isZero positive
            · next nonzero =>
                rw [counted nonzero] at next
                apply next
                rintro (less | ⟨zero, _⟩)
                · omega
                · exact nonzero zero

theorem tryOps_spec (doUndos : Nat) (base : List Sem) (sops : List Sembuf) :
    TriedTo doUndos base sops (tryOps doUndos [] base sops) :=
  tryOps_split doUndos base [] sops (fun _ member => absurd member not_mem_nil) trivial

end Values

end Bitrig.Sysvsem
