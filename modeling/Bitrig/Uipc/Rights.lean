import Bitrig.Descrip.Lowest

/-!
# Rights in messages (kern/uipc_usrreq.c)

A message holds pointers to files.  They are counted by `f_msgcount` and `unp_rights`, and each of
them is a reference of its file.  A socket whose file loses its last reference is closed, and the
pointers in its receive buffer are discarded.
-/

namespace Bitrig.Uipc

open Bitrig.Transition Bitrig.Descrip Function

abbrev FileId := Nat
abbrev SockId := Nat
abbrev TableId := Nat

/-- `f_type` -/
inductive DType where
  | vnode
  | socket
  | kqueue
  | systrace
  | other
  deriving DecidableEq

/-- `struct file` -/
structure File where
  fType : DType
  /-- `f_data`, for a socket of the Unix domain. -/
  fData : Option SockId
  fCount : Int
  fMsgcount : Int

/-- The socket of a file, if it is one of the Unix domain. -/
def File.sock (file : File) : Option SockId :=
  if file.fType = .socket then file.fData else none

/-- The mbufs of a record. -/
inductive Mbuf where
  | soname
  | control (files : List FileId)
  | data

/-- A record of a receive buffer, as it is built by `sbappendaddr`, `sbappendcontrol`,
`sbappendrecord` and `sbappend`. -/
structure Record where
  addr : Bool
  files : Option (List FileId)
  data : Nat
  deriving DecidableEq

/-- The pointers in a record. -/
def Record.rights (r : Record) : List FileId :=
  r.files.getD []

/-- The files, the tables of descriptors and the messages.  The receive buffers are one list, in
the order of arrival. -/
structure Unp where
  filehead : List FileId
  file : FileId → File
  tables : List TableId
  fd : TableId → Filedesc FileId
  unpRights : Int
  /-- Messages that are in no receive buffer: `unp_internalize` has been called for them, or
  `unp_externalize` will be. -/
  transit : List (List FileId)
  bufs : List (SockId × Record)
  /-- `so_q0` and `so_q` -/
  queue : SockId → List SockId

namespace Unp

/-- All pointers in receive buffers. -/
def buffered (s : Unp) : List FileId :=
  s.bufs.flatMap (·.2.rights)

/-- All pointers in messages. -/
def inFlight (s : Unp) : List FileId :=
  s.transit.flatten ++ s.buffered

/-- The receive buffer of a socket. -/
def rcv (s : Unp) (so : SockId) : List Record :=
  (s.bufs.filter (·.1 = so)).map (·.2)

/-- The counts of a file and `unp_rights` are changed. -/
def addCounts (s : Unp) (f : FileId) (count msgcount : Int) : Unp :=
  { s with
    file := update s.file f { s.file f with
      fCount := (s.file f).fCount + count
      fMsgcount := (s.file f).fMsgcount + msgcount }
    unpRights := s.unpRights + msgcount }

/-! ### Discarding -/

/-- `sorflush`: the receive buffer is emptied.  The pointers that it had are discarded then. -/
def sorflush (s : Unp) (so : SockId) : List FileId × Unp :=
  ((s.rcv so).flatMap (·.rights), { s with bufs := s.bufs.filter (·.1 ≠ so) })

/-- `fdrop`, with `fo_close`, in a run of `unp_gc`: the call of `unp_gc` in `unp_detach` returns at
once, as `unp_gcing` is set.  The connections on the queue of the socket keep their receive buffers,
as `unp_drop` does not free a socket without `so_head`. -/
def fdrop (s : Unp) (f : FileId) : List FileId × Unp :=
  let s' := { s with filehead := s.filehead.erase f }
  match (s.file f).sock with
  | none => ([], s')
  | some so => { s' with queue := update s'.queue so [] }.sorflush so

/-- `closef`; none for its panic. -/
def closef (s : Unp) (f : FileId) : Option (List FileId × Unp) := do
  kassert (2 ≤ (s.file f).fCount)
  let s := s.addCounts f (-2) 0
  some (if (s.file f).fCount = 0 then s.fdrop f else ([], s))

/-- `unp_discard` -/
def unpDiscard (s : Unp) (f : FileId) : Option (List FileId × Unp) :=
  (s.addCounts f 1 (-1)).closef f

/-- Pointers are discarded, and in between those of the receive buffers that are emptied. -/
def discardAll : Nat → List FileId → Unp → Option Unp
  | _, [], s => some s
  | 0, _ :: _, _ => none
  | fuel + 1, f :: rest, s => do
      let (more, s) ← s.unpDiscard f
      discardAll fuel (more ++ rest) s

/-- The pointers of a message are discarded. -/
def unpDispose (s : Unp) (files : List FileId) : Option Unp :=
  discardAll (files.length + s.buffered.length) files s

end Unp

end Bitrig.Uipc
