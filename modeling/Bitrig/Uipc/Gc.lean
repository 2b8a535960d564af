import Bitrig.Uipc.Counts

/-!
# The garbage collector (kern/uipc_usrreq.c)

A file whose references are all in messages is kept if it can be reached from a file with a
descriptor, by the messages in the receive buffers of sockets.  The files are marked in passes over
all files; sockets are deferred to the next pass.
-/

namespace Bitrig.Uipc

open Bitrig.Transition Function

/-! ### Marking -/

/-- The mbufs of a record. -/
def Record.chain (r : Record) : List Mbuf :=
  (if r.addr then [.soname] else []) ++ (r.files.map Mbuf.control).toList ++
    List.replicate r.data .data

/-- The pointers that `unp_scan` finds in a record: those of its first control mbuf. -/
def scanChain : List Mbuf → List FileId
  | [] => []
  | .control files :: _ => files
  | _ :: rest => scanChain rest

/-- `unp_scan`: the pointers for which the operation is called. -/
def unpScan (records : List Record) : List FileId :=
  records.flatMap fun r => scanChain r.chain

/-- The flags of the files: `FIF_MARK` and `FIF_DEFER`. -/
structure Marks where
  mark : FileId → Bool
  defer : FileId → Bool
  unpDefer : Int

/-- A file is not deferred any more. -/
def Marks.undefer (m : Marks) (f : FileId) : Marks :=
  { m with defer := update m.defer f false, unpDefer := m.unpDefer - 1 }

namespace Unp

/-- `unp_mark` -/
def unpMark (s : Unp) (m : Marks) (f : FileId) : Marks :=
  if m.mark f || m.defer f then m
  else if (s.file f).fType = .socket then
    { m with unpDefer := m.unpDefer + 1, defer := update m.defer f true }
  else { m with mark := update m.mark f true }

/-- A file is marked, and what its receive buffer has. -/
def visit (s : Unp) (m : Marks) (f : FileId) : Marks :=
  let m := { m with mark := update m.mark f true }
  match (s.file f).sock with
  | none => m
  | some so => (unpScan (s.rcv so)).foldl s.unpMark m

/-- The turn of a pass for one file. -/
def turn (s : Unp) (m : Marks) (f : FileId) : Marks :=
  if m.defer f then s.visit (m.undefer f) f
  else if (s.file f).fCount = 0 || m.mark f || (s.file f).fCount = (s.file f).fMsgcount then m
  else s.visit m f

/-- A pass over all files. -/
def pass (s : Unp) (m : Marks) : Marks :=
  s.filehead.foldl s.turn m

/-- Passes, until no file is deferred. -/
def passes (s : Unp) : Nat → Marks → Option Marks
  | 0, _ => none
  | fuel + 1, m =>
    let m := s.pass m
    if m.unpDefer ≠ 0 then passes s fuel m else some m

/-- The marks of `unp_gc`. -/
def marks (s : Unp) : Option Marks :=
  s.passes (s.filehead.length + 1) ⟨fun _ => false, fun _ => false, 0⟩

/-! ### Sweeping -/

/-- The files that are not accessible otherwise. -/
def extraRef (s : Unp) (m : Marks) : List FileId :=
  s.filehead.filter fun f =>
    (s.file f).fCount ≠ 0 && (s.file f).fCount = (s.file f).fMsgcount && !m.mark f

/-- The rights in the receive buffers of the files are discarded. -/
def flushAll : List FileId → Unp → Option Unp
  | [], s => some s
  | f :: rest, s => do
      let s ← match (s.file f).sock with
        | none => some s
        | some so => (s.sorflush so).2.unpDispose (s.sorflush so).1
      flushAll rest s

/-- The files are closed. -/
def closeAll : List FileId → Unp → Option Unp
  | [], s => some s
  | f :: rest, s => do
      let (files, s) ← s.closef f
      let s ← s.unpDispose files
      closeAll rest s

/-- `unp_gc`: each file that is not accessible gets an extra reference and one for its use, the
rights in its receive buffer are discarded, and it is closed. -/
def unpGc (s : Unp) : Option Unp := do
  let m ← s.marks
  let extra := s.extraRef m
  let s ← flushAll extra (extra.foldl (fun s f => s.addCounts f 2 0) s)
  closeAll extra s

end Unp

/-! ### What processes can reach -/

/-- What processes see: the files that they have descriptors for, and what they can get from
sockets. -/
structure View where
  held : List FileId
  sock : FileId → Option SockId
  bufs : List (SockId × Record)
  queue : SockId → List SockId

inductive Get where
  /-- `recvmsg` on a descriptor for the file -/
  | recvmsg (f : FileId)
  /-- `accept` on a descriptor for the file, which gives a new file -/
  | accept (f new : FileId)

/-- What a call gives to a process. -/
def View.next : Get → View → Option View
  | .recvmsg f, v => do
      let so ← v.sock f
      let r ← v.bufs.find? (·.1 = so)
      some { v with bufs := v.bufs.erase r, held := r.2.rights ++ v.held }
  | .accept f new, v => do
      let so ← v.sock f
      match v.queue so with
      | [] => none
      | c :: rest => some { v with
          held := new :: v.held
          sock := update v.sock new (some c)
          queue := update v.queue so rest }

/-- The calls are made with descriptors; a new file is none of the files that there are. -/
def View.Called (files : List FileId) : Get → View → Prop
  | .recvmsg f, v => f ∈ v.held
  | .accept f new, v => f ∈ v.held ∧ new ∉ files ∧ new ∉ v.held

instance (files : List FileId) (get : Get) (v : View) : Decidable (View.Called files get v) := by
  cases get <;> unfold View.Called <;> infer_instance

/-- What processes see of the system. -/
def Unp.view (s : Unp) : View :=
  ⟨s.filehead.filter fun f => s.descriptors f ≠ 0, fun f => (s.file f).sock, s.bufs, s.queue⟩

/-- A file that a process can get a descriptor for. -/
def Gets (s : Unp) (f : FileId) : Prop :=
  ∃ v, Run View.next (View.Called s.filehead) s.view v ∧ f ∈ v.held

end Bitrig.Uipc
