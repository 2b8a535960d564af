import Bitrig.Lib.Transition
import Bitrig.Sysvsem.Recording

/-!
# Semaphore calls of processes

`semget`, `semop`, `semctl` with `IPC_RMID`, `SETVAL` and `SETALL`, and `semexit`.  A
call runs without interruption until it returns or waits: in `tsleep`, or for memory
in `malloc` or `pool_get`.  A step is a call up to its return or to where it waits, or
a waiting call that goes on from there.

Sets lie at addresses; a call that waits keeps the address of its set, also when the
set is removed meanwhile.  Addresses are not reused, and what a removed set held stays
at its address.
-/

namespace Bitrig.Sysvsem

open Function

/-- A set of semaphores (`struct semid_ds`); `sem_nsems` is their number. -/
structure SemidDs where
  seq : Nat
  key : Int
  base : List Sem
  deriving DecidableEq

/-- The arguments of `semget`. -/
structure SemgetArgs where
  key : Int
  nsems : Int
  ipcCreat : Bool
  ipcExcl : Bool
  deriving DecidableEq

/-- The variables of a call of `sys_semop`. -/
structure SemopCall where
  semid : Nat
  seq : Nat
  semaptr : Nat
  sops : List Sembuf
  deriving DecidableEq

/-- Where a call waits. -/
inductive Place
  | sopsMalloc (call : SemopCall)
  | tsleep (call : SemopCall) (sop : Sembuf) (doUndos : Nat)
  | semuAlloc (call : SemopCall) (done rest : List Sembuf)
  | semgetAlloc (args : SemgetArgs)
  | setallMalloc (ix semaptr : Nat) (values : List (BitVec 16))
  deriving DecidableEq

/-- A thread in a call that waits. -/
structure Waiting (π τ : Type) where
  tid : τ
  pr : π
  place : Place
  deriving DecidableEq

structure State (π τ : Type) where
  sema : Nat → Option Nat
  sets : Nat → SemidDs
  nextSet : Nat
  semseqs : Nat → Nat
  undo : UndoTable π
  semtot : Int
  calls : List (Waiting π τ)

/-- How a step ends. -/
inductive Reply
  | done (retval : Nat)
  | error (errno : SemError)
  | waits
  deriving DecidableEq

/-- What the surroundings decide: the permission check, whether `copyin` succeeds,
whether `malloc` waits, whether `pool_get` finds memory at once, and whether a sleep
was interrupted. -/
structure Env where
  permitted : Bool
  copied : Bool
  mallocWaits : Bool
  nowait : Bool
  interrupted : Bool
  deriving DecidableEq

inductive Label (π τ : Type)
  | semget (tid : τ) (pr : π) (args : SemgetArgs) (env : Env)
  | semop (tid : τ) (pr : π) (id : Nat) (sops : List Sembuf) (env : Env)
  | rmid (tid : τ) (id : Nat) (env : Env)
  | setval (tid : τ) (id : Nat) (semnum val : Int) (env : Env)
  | setall (tid : τ) (pr : π) (id : Nat) (values : List (BitVec 16)) (env : Env)
  | resume (tid : τ) (env : Env)
  | exit (pr : π)

/-- `IPCID_TO_IX`. -/
def ipcidToIx (id : Nat) : Nat := id % 0x10000

/-- `IPCID_TO_SEQ`. -/
def ipcidToSeq (id : Nat) : Nat := id / 0x10000 % 0x10000

/-- `IXSEQ_TO_IPCID`. -/
def ixseqToIpcid (ix seq : Nat) : Nat := seq * 0x10000 + ix % 0x10000

section Functions

variable {π τ : Type}

/-- The set at an index has other semaphores. -/
def State.setBase (state : State π τ) (semaptr : Nat) (base : List Sem) : State π τ :=
  { state with
    sets := update state.sets semaptr { state.sets semaptr with base := base } }

/-- A thread waits. -/
def State.wait (state : State π τ) (tid : τ) (pr : π) (place : Place) : State π τ :=
  { state with calls := ⟨tid, pr, place⟩ :: state.calls }

/-- A waiting thread goes on. -/
def State.leave [DecidableEq τ] (state : State π τ) (tid : τ) : State π τ :=
  { state with calls := state.calls.filter (·.tid ≠ tid) }

/-- The set of an identifier, with its index. -/
def State.lookup (info : Seminfo) (state : State π τ) (id : Nat) : Option (Nat × Nat) :=
  if info.semmni ≤ ipcidToIx id then none
  else
    match state.sema (ipcidToIx id) with
    | none => none
    | some semaptr =>
      if (state.sets semaptr).seq ≠ ipcidToSeq id then none else some (ipcidToIx id, semaptr)

/-! ### semget -/

/-- The set with a key. -/
def State.findKey (info : Seminfo) (state : State π τ) (key : Int) : Option (Nat × Nat) :=
  (List.range info.semmni).findSome? fun ix =>
    (state.sema ix).bind fun semaptr =>
      if (state.sets semaptr).key = key then some (ix, semaptr) else none

/-- A new set at a free index. -/
def State.create (state : State π τ) (ix : Nat) (args : SemgetArgs) : State π τ :=
  let seq := (state.semseqs ix + 1) % 0x8000
  { state with
    sema := update state.sema ix (some state.nextSet)
    sets := update state.sets state.nextSet
      ⟨seq, args.key, List.replicate args.nsems.toNat ⟨0, 0, 0⟩⟩
    nextSet := state.nextSet + 1
    semseqs := update state.semseqs ix seq
    semtot := state.semtot + args.nsems }

/-- `sys_semget` behind the allocations. -/
def semgetRest (info : Seminfo) (args : SemgetArgs) (env : Env) (state : State π τ) :
    State π τ × Reply :=
  match (if args.key ≠ 0 then state.findKey info args.key else none) with
  | some (ix, semaptr) =>
    if env.permitted = false then (state, .error .eacces)
    else if 0 < args.nsems ∧ (state.sets semaptr).base.length < args.nsems then
      (state, .error .einval)
    else if args.ipcCreat = true ∧ args.ipcExcl = true then (state, .error .eexist)
    else (state, .done (ixseqToIpcid ix (state.sets semaptr).seq))
  | none =>
    if args.key = 0 ∨ args.ipcCreat = true then
      match (List.range info.semmni).find? (fun ix => state.sema ix = none) with
      | none => (state, .error .enospc)
      | some ix =>
        (state.create ix args, .done (ixseqToIpcid ix ((state.semseqs ix + 1) % 0x8000)))
    else (state, .error .enoent)

/-- `sys_semget`. -/
def sysSemget (info : Seminfo) (tid : τ) (pr : π) (args : SemgetArgs) (env : Env)
    (state : State π τ) : State π τ × Reply :=
  if args.key = 0 ∨ args.ipcCreat = true then
    if args.nsems ≤ 0 ∨ info.semmsl < args.nsems then (state, .error .einval)
    else if info.semmns - state.semtot < args.nsems then (state, .error .enospc)
    else if env.mallocWaits then (state.wait tid pr (.semgetAlloc args), .waits)
    else semgetRest info args env state
  else semgetRest info args env state

/-! ### semctl -/

variable [DecidableEq π]

/-- `semctl1` with `IPC_RMID`. -/
def semctlRmid (info : Seminfo) (id : Nat) (env : Env) (state : State π τ) : State π τ × Reply :=
  match state.lookup info id with
  | none => (state, .error .einval)
  | some (ix, semaptr) =>
    if env.permitted = false then (state, .error .eacces)
    else
      ({ state with
          semtot := state.semtot - (state.sets semaptr).base.length
          sema := update state.sema ix none
          undo := semundoClear ix none state.undo },
        .done 0)

/-- `semctl1` with `SETVAL`. -/
def semctlSetval (info : Seminfo) (id : Nat) (semnum val : Int) (env : Env) (state : State π τ) :
    State π τ × Reply :=
  match state.lookup info id with
  | none => (state, .error .einval)
  | some (ix, semaptr) =>
    if env.permitted = false then (state, .error .eacces)
    else if semnum < 0 ∨ (state.sets semaptr).base.length ≤ semnum then (state, .error .einval)
    else if semvmx < val then (state, .error .erange)
    else
      let state := state.setBase semaptr ((state.sets semaptr).base.modify semnum.toNat
        fun sem => { sem with semval := BitVec.ofInt 16 val })
      ({ state with undo := semundoClear ix (some (BitVec.ofInt 16 semnum)) state.undo }, .done 0)

/-- The first loop of `SETALL`, over the values of the caller. -/
def copyinValues : Nat → List (BitVec 16) → Except SemError (List (BitVec 16))
  | 0, _ => .ok []
  | _ + 1, [] => .error .efault
  | nsems + 1, value :: values =>
    if semvmx < value.toNat then .error .erange
    else
      match copyinValues nsems values with
      | .error errno => .error errno
      | .ok rest => .ok (value :: rest)

/-- The second loop of `SETALL`. -/
def assignValues (base : List Sem) (values : List (BitVec 16)) : List Sem :=
  List.zipWith (fun sem value => { sem with semval := value }) base values

/-- `SETALL` behind the allocation. -/
def setallRest (ix semaptr : Nat) (values : List (BitVec 16)) (state : State π τ) :
    State π τ × Reply :=
  match copyinValues (state.sets semaptr).base.length values with
  | .error errno => (state, .error errno)
  | .ok semval =>
    let state := state.setBase semaptr (assignValues (state.sets semaptr).base semval)
    ({ state with undo := semundoClear ix none state.undo }, .done 0)

/-- `semctl1` with `SETALL`. -/
def semctlSetall (info : Seminfo) (tid : τ) (pr : π) (id : Nat) (values : List (BitVec 16))
    (env : Env) (state : State π τ) : State π τ × Reply :=
  match state.lookup info id with
  | none => (state, .error .einval)
  | some (ix, semaptr) =>
    if env.permitted = false then (state, .error .eacces)
    else if env.mallocWaits then (state.wait tid pr (.setallMalloc ix semaptr values), .waits)
    else setallRest ix semaptr values state

/-! ### semop -/

/-- `sys_semop` from the loop over the `SEM_UNDO` operations on; it has no result where
the kernel crashes. -/
def semopRecord (info : Seminfo) (tid : τ) (pr : π) (nowait : Bool) (call : SemopCall)
    (suptr : Cached) (done rest : List Sembuf) (state : State π τ) :
    Option (State π τ × Reply) :=
  match recordUndos info pr nowait call.semid state.undo suptr done rest with
  | .finished undo => some ({ state with undo := undo }, .done 0)
  | .failed errno undo =>
    let state := state.setBase call.semaptr
      (rollback call.sops (state.sets call.semaptr).base)
    some ({ state with undo := undo }, .error errno)
  | .wait undo done rest =>
    let state := { state with undo := undo }
    some (state.wait tid pr (.semuAlloc call done rest), .waits)
  | .crash => none

/-- One turn of the main loop of `sys_semop`, up to the return or to `tsleep`. -/
def semopTry (info : Seminfo) (tid : τ) (pr : π) (nowait : Bool) (call : SemopCall) (doUndos : Nat)
    (state : State π τ) : Option (State π τ × Reply) :=
  match tryOps doUndos [] (state.sets call.semaptr).base call.sops with
  | .efbig base => some (state.setBase call.semaptr base, .error .efbig)
  | .through base doUndos =>
    if doUndos ≤ info.semume then
      let state := state.setBase call.semaptr base
      if doUndos ≠ 0 then semopRecord info tid pr nowait call .null [] call.sops state
      else some (state, .done 0)
    else some (state.setBase call.semaptr (rollback call.sops base), .error .enospc)
  | .blocked done sop base doUndos =>
    let state := state.setBase call.semaptr (rollback done base)
    if info.semume < doUndos then some (state, .error .enospc)
    else if sop.ipcNowait then some (state, .error .eagain)
    else
      let state := state.setBase call.semaptr (addWaiter sop 1 (state.sets call.semaptr).base)
      some (state.wait tid pr (.tsleep call sop doUndos), .waits)

/-- `sys_semop` from `copyin` on. -/
def semopCopyin (info : Seminfo) (tid : τ) (pr : π) (env : Env) (call : SemopCall)
    (state : State π τ) : Option (State π τ × Reply) :=
  if env.copied = false then some (state, .error .efault)
  else semopTry info tid pr env.nowait call 0 state

/-- `sys_semop`. -/
def sysSemop (info : Seminfo) (tid : τ) (pr : π) (id : Nat) (sops : List Sembuf) (env : Env)
    (state : State π τ) : Option (State π τ × Reply) :=
  match state.lookup info id with
  | none => some (state, .error .einval)
  | some (ix, semaptr) =>
    if env.permitted = false then some (state, .error .eacces)
    else if sops.length = 0 then some (state, .done 0)
    else if info.semopm < sops.length then some (state, .error .e2big)
    else
      let call := ⟨ix, ipcidToSeq id, semaptr, sops⟩
      if nsopsLocal < sops.length ∧ env.mallocWaits = true then
        some (state.wait tid pr (.sopsMalloc call), .waits)
      else semopCopyin info tid pr env call state

/-- `sys_semop` behind `tsleep`. -/
def semopAwake (info : Seminfo) (tid : τ) (pr : π) (env : Env) (call : SemopCall) (sop : Sembuf)
    (doUndos : Nat) (state : State π τ) : Option (State π τ × Reply) :=
  if state.sema call.semid = none ∨ (state.sets call.semaptr).seq ≠ call.seq then
    some (state, .error .eidrm)
  else
    let state := state.setBase call.semaptr (addWaiter sop (-1) (state.sets call.semaptr).base)
    if env.interrupted then some (state, .error .eintr)
    else semopTry info tid pr env.nowait call doUndos state

/-- A waiting call goes on. -/
def resumeAt (info : Seminfo) (tid : τ) (pr : π) (env : Env) (place : Place) (state : State π τ) :
    Option (State π τ × Reply) :=
  match place with
  | .sopsMalloc call => semopCopyin info tid pr env call state
  | .tsleep call sop doUndos => semopAwake info tid pr env call sop doUndos state
  | .semuAlloc call done rest =>
    semopRecord info tid pr env.nowait call .listed done rest
      { state with undo := semuAwake pr state.undo }
  | .semgetAlloc args => some (semgetRest info args env state)
  | .setallMalloc ix semaptr values => some (setallRest ix semaptr values state)

/-! ### semexit -/

/-- The panics of `semexit`, and its access to a semaphore with a negative number. -/
inductive ExitFault
  | semidNotAllocated
  | semnumOutOfRange
  | wildAccess
  deriving DecidableEq

/-- What `semexit` does to a value. -/
def exitSemval (adjval semval : BitVec 16) : BitVec 16 :=
  if adjval.toInt < 0 ∧ (semval.toNat : Int) < -adjval.toInt then 0 else semval + adjval

omit [DecidableEq π] in
/-- `semexit` for one entry. -/
def exitAdjust (state : State π τ) (u : Undo) : Except ExitFault (State π τ) :=
  match state.sema u.unId with
  | none => .error .semidNotAllocated
  | some semaptr =>
    if (state.sets semaptr).base.length ≤ u.unNum.toInt then .error .semnumOutOfRange
    else if u.unNum.toInt < 0 then .error .wildAccess
    else
      .ok (state.setBase semaptr ((state.sets semaptr).base.modify u.unNum.toNat
        fun sem => { sem with semval := exitSemval u.unAdjval sem.semval }))

/-- `semexit`. -/
def semexit (pr : π) (state : State π τ) : Except ExitFault (State π τ) :=
  match state.undo.semuList.find? (·.unProc = pr) with
  | none => .ok state
  | some suptr =>
    match suptr.unEnt.foldlM exitAdjust state with
    | .error fault => .error fault
    | .ok state =>
      .ok { state with
        undo := ⟨state.undo.semuList.eraseP (·.unProc = pr), state.undo.semutot - 1⟩ }

/-! ### Steps -/

variable [DecidableEq τ]

/-- A thread that is in no call makes one. -/
def State.calling (state : State π τ) (tid : τ) (result : Option (State π τ × Reply)) :
    Option (State π τ × Reply) :=
  if state.calls.any (·.tid = tid) then none else result

/-- One step, with how it ends.  It is undefined where the kernel crashes. -/
def step (info : Seminfo) (label : Label π τ) (state : State π τ) :
    Option (State π τ × Reply) :=
  match label with
  | .semget tid pr args env => state.calling tid (sysSemget info tid pr args env state)
  | .semop tid pr id sops env => state.calling tid (sysSemop info tid pr id sops env state)
  | .rmid tid id env => state.calling tid (semctlRmid info id env state)
  | .setval tid id semnum val env => state.calling tid (semctlSetval info id semnum val env state)
  | .setall tid pr id values env => state.calling tid (semctlSetall info tid pr id values env state)
  | .resume tid env =>
    match state.calls.find? (·.tid = tid) with
    | none => none
    | some waiting => resumeAt info tid waiting.pr env waiting.place (state.leave tid)
  | .exit pr =>
    -- the other threads of a process have left their calls when it exits
    if state.calls.any (·.pr = pr) then none
    else
      match semexit pr state with
      | .error _ => none
      | .ok state => some (state, .done 0)

/-- The state after a step. -/
def next (info : Seminfo) (label : Label π τ) (state : State π τ) : Option (State π τ) :=
  (step info label state).map Prod.fst

/-- The state after `seminit`. -/
def seminit : State π τ where
  sema _ := none
  sets _ := ⟨0, 0, []⟩
  nextSet := 0
  semseqs _ := 0
  undo := ⟨[], 0⟩
  semtot := 0
  calls := []

end Functions

/-- The limits of the default configuration. -/
def defaultSeminfo : Seminfo where
  semmni := 10
  semmns := 60
  semmnu := 30
  semmsl := 60
  semopm := 100
  semume := 10
  semume_pos := by decide

/-- Surroundings in which nothing fails or waits. -/
def plainEnv : Env where
  permitted := true
  copied := true
  mallocWaits := false
  nowait := true
  interrupted := false

end Bitrig.Sysvsem
