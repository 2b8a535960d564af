import Bitrig.Lib.KeyedList

/-!
# Undo tables

The functions of `sysv_sem.c` that keep the adjustments a process owes to
semaphores: `semu_alloc`, `semundo_adjust` and `semundo_clear`.  Sixteen-bit
values are bit vectors; the number of a semaphore is unsigned in an operation and
signed in an undo entry, as in the source.

`sys_semop` keeps a pointer to the `sem_undo` of its process from one call of
`semundo_adjust` to the next.  The pointer is not cleared when the `sem_undo` is
freed, and later calls write to the freed memory.
-/

namespace Bitrig.Sysvsem

open Bitrig.KeyedList

/-- The limits of the semaphore facility (`struct seminfo`).  `semume` is the
constant `SEMUME`. -/
structure Seminfo where
  semmni : Nat
  semmns : Nat
  semmnu : Nat
  semmsl : Nat
  semopm : Nat
  semume : Nat
  semume_pos : 0 < semume

/-- `seminfo.semvmx`. -/
def semvmx : Nat := 32767

/-- An undo entry (`struct undo`). -/
structure Undo where
  unAdjval : BitVec 16
  unNum : BitVec 16
  unId : Nat
  deriving DecidableEq

/-- The undo entries of a process (`struct sem_undo`); `un_cnt` is their number. -/
structure SemUndo (π : Type) where
  unProc : π
  unEnt : List Undo
  deriving DecidableEq

/-- The list `semu_list` with its count. -/
structure UndoTable (π : Type) where
  semuList : List (SemUndo π)
  semutot : Int
  deriving DecidableEq

/-- The errors of the semaphore calls. -/
inductive SemError
  | einval
  | efbig
  | e2big
  | eagain
  | enospc
  | eidrm
  | eintr
  | efault
  | eacces
  | erange
  | eexist
  | enoent
  deriving DecidableEq

/-- The pointer `suptr` of `sys_semop`: not set, to the `sem_undo` of the process
on the list, or to one that was freed, with the entries in the freed memory. -/
inductive Cached
  | null
  | listed
  | freed (ents : List Undo)
  deriving DecidableEq

section Functions

variable {π : Type} [DecidableEq π]

/-- The comparison of an entry with a semaphore: `un_num` is a short. -/
def Undo.IsFor (u : Undo) (semid : Nat) (semnum : BitVec 16) : Prop :=
  u.unId = semid ∧ u.unNum.toInt = semnum.toNat

instance (u : Undo) (semid : Nat) (semnum : BitVec 16) : Decidable (u.IsFor semid semnum) :=
  inferInstanceAs (Decidable (_ ∧ _))

/-- The loop of `semundo_adjust` over the entries, with those before `sunptr` in
`front`.  There is no result where it returns `EINVAL`. -/
def adjustLoop (info : Seminfo) (semid : Nat) (semnum adjval : BitVec 16) (front : List Undo) :
    List Undo → Option (List Undo)
  | [] =>
    if adjval = 0 then some front
    else if front.length = info.semume then none
    else some (front ++ [⟨adjval, semnum, semid⟩])
  | u :: back =>
    if ¬u.IsFor semid semnum then adjustLoop info semid semnum adjval (front ++ [u]) back
    else
      let unAdjval := if adjval = 0 then 0 else u.unAdjval + adjval
      if unAdjval ≠ 0 then some (front ++ { u with unAdjval := unAdjval } :: back)
      else some (swapRemove (front ++ u :: back) front.length)

/-- Assign the entries of the first `sem_undo` of a process, and free it when none
are left. -/
def updateOwn (pr : π) (ents : List Undo) : List (SemUndo π) → List (SemUndo π)
  | [] => []
  | su :: rest =>
    if su.unProc = pr then
      if ents = [] then rest else { su with unEnt := ents } :: rest
    else su :: updateOwn pr ents rest

/-- How `semundo_adjust` ends or pauses. -/
inductive Adjusted (π : Type)
  | done (table : UndoTable π) (suptr : Cached)
  | error (errno : SemError) (suptr : Cached)
  /-- `semu_alloc` waits for memory. -/
  | wait (table : UndoTable π)
  /-- A `sem_undo` is taken off the list that is not on it. -/
  | crash

/-- The part of `semundo_adjust` that follows a pointer to a `sem_undo` of the
list. -/
def adjustListed (info : Seminfo) (pr : π) (table : UndoTable π) (semid : Nat)
    (semnum adjval : BitVec 16) : Adjusted π :=
  match table.semuList.find? (·.unProc = pr) with
  | none => .crash
  | some suptr =>
    match adjustLoop info semid semnum adjval [] suptr.unEnt with
    | none => .error .einval .listed
    | some ents =>
      if ents = [] then
        .done ⟨updateOwn pr ents table.semuList, table.semutot - 1⟩ (.freed [])
      else .done { table with semuList := updateOwn pr ents table.semuList } .listed

/-- `semu_alloc` puts a new `sem_undo` on the list. -/
def semuInsert (pr : π) (table : UndoTable π) : UndoTable π :=
  { table with semuList := ⟨pr, []⟩ :: table.semuList }

/-- `semundo_adjust`; `nowait` tells whether `pool_get` finds memory without
waiting. -/
def semundoAdjust (info : Seminfo) (pr : π) (nowait : Bool) (table : UndoTable π) (suptr : Cached)
    (semid : Nat) (semnum adjval : BitVec 16) : Adjusted π :=
  match suptr with
  | .null =>
    if (table.semuList.find? (·.unProc = pr)).isSome then
      adjustListed info pr table semid semnum adjval
    else if adjval = 0 then .done table .null
    else if table.semutot = info.semmnu then .error .enospc .null
    else
      let table := { table with semutot := table.semutot + 1 }
      if nowait then adjustListed info pr (semuInsert pr table) semid semnum adjval
      else .wait table
  | .listed => adjustListed info pr table semid semnum adjval
  | .freed ents =>
    match adjustLoop info semid semnum adjval [] ents with
    | none => .error .einval (.freed ents)
    | some left => if left = [] then .crash else .done table (.freed left)

/-- `semu_alloc` after it had to wait: another thread may have allocated the
`sem_undo` of the process. -/
def semuAwake (pr : π) (table : UndoTable π) : UndoTable π :=
  if (table.semuList.find? (·.unProc = pr)).isSome then
    { table with semutot := table.semutot - 1 }
  else semuInsert pr table

/-- The loop of `semundo_clear` over the entries of one `sem_undo`, with those
before `sunptr` in `front`.  With a semaphore number it ends at the first entry
of the set. -/
def clearLoop (semid : Nat) (semnum : Option (BitVec 16)) :
    Nat → List Undo → List Undo → List Undo
  | 0, front, ents => front ++ ents
  | _ + 1, front, [] => front
  | fuel + 1, front, u :: back =>
    if u.unId ≠ semid then clearLoop semid semnum fuel (front ++ [u]) back
    else
      match semnum with
      | none =>
        -- the last entry is looked at in its new place
        clearLoop semid semnum fuel front ((swapRemove (front ++ u :: back) front.length).drop
          front.length)
      | some num =>
        if u.unNum.toInt = num.toNat then swapRemove (front ++ u :: back) front.length
        else front ++ u :: back

/-- `semundo_clear`. -/
def semundoClear (semid : Nat) (semnum : Option (BitVec 16)) (table : UndoTable π) : UndoTable π :=
  let cleared := table.semuList.map fun su =>
    { su with unEnt := clearLoop semid semnum (su.unEnt.length + 1) [] su.unEnt }
  let left := cleared.filter (·.unEnt ≠ [])
  { semuList := left, semutot := table.semutot - (cleared.length - left.length : Nat) }

end Functions

end Bitrig.Sysvsem
