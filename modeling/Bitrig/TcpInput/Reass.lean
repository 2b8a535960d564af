import Bitrig.Lib.Transition
import Bitrig.Lib.SeqNum

/-!
# Reassembly of TCP segments (netinet/tcp_input.c)

A segment that is queued is its header, as far as it is used, with the bytes of its mbufs.  What
is appended to the receive buffer of the socket is kept as a whole: the process that reads it is
not part of the model.
-/

namespace Bitrig.TcpInput

open Bitrig.SeqNum

/-- `tcp_seq` -/
abbrev Seq := BitVec 32

def seqGt (a b : Seq) : Bool := 0 < diff a b
def seqGeq (a b : Seq) : Bool := 0 ≤ diff a b
def seqLt (a b : Seq) : Bool := diff a b < 0
def seqLeq (a b : Seq) : Bool := diff a b ≤ 0

/-- `TCPS_SYN_RECEIVED` -/
def tcpsSynReceived : Nat := 3
/-- `TCPS_ESTABLISHED` -/
def tcpsEstablished : Nat := 4

/-- A segment, or an entry of `t_segq`. -/
structure Tcpqent where
  seq : Seq
  fin : Bool
  /-- `th_reseqlen`, or `*tlen` before the entry is inserted -/
  reseqlen : Nat
  m : List UInt8
  deriving DecidableEq

/-- The fields of `struct tcpcb` and of its socket that are used. -/
structure Tcb where
  tState : Nat
  rcvNxt : Seq
  segq : List Tcpqent
  /-- All that has been appended to `so_rcv`. -/
  soRcv : List UInt8
  /-- `SS_CANTRCVMORE` -/
  cantrcvmore : Bool
  /-- By how much `rcv_nxt` has been advanced; it is there for the statements only. -/
  advanced : Nat

/-- Bytes are removed at the front of a segment. -/
def Tcpqent.cut (q : Tcpqent) (i : Nat) : Tcpqent :=
  { q with seq := q.seq + BitVec.ofNat 32 i, reseqlen := q.reseqlen - i, m := q.m.drop i }

/-- The number behind a segment. -/
def Tcpqent.next (q : Tcpqent) : Seq := q.seq + BitVec.ofNat 32 q.reseqlen

/-- The length is stored in the header, in a field of 16 bits. -/
def Tcpqent.stored (th : Tcpqent) : Tcpqent :=
  { th with reseqlen := th.reseqlen % 65536 }

/-- The data that the preceding segment provides is dropped; none if this is all of it. -/
def trimNew (th : Tcpqent) : Option Tcpqent → Option Tcpqent
  | none => some th
  | some p =>
    let i := diff p.next th.seq
    if 0 < i then if (th.reseqlen : Int) ≤ i then none else some (th.cut i.toNat) else some th

/-- The loop over the succeeding segments. -/
def trimAfter (th : Tcpqent) : List Tcpqent → List Tcpqent
  | [] => []
  | q :: rest =>
    let i := diff th.next q.seq
    if i ≤ 0 then q :: rest
    else if i < q.reseqlen then q.cut i.toNat :: rest
    else trimAfter th rest

/-- The segment is put into the queue, with what it has that is new. -/
def insertSegment (th : Tcpqent) (segq : List Tcpqent) : Option (Tcpqent × List Tcpqent) :=
  let before := segq.takeWhile fun q => !seqGt q.seq th.seq
  let after := segq.dropWhile fun q => !seqGt q.seq th.seq
  (trimNew th before.getLast?).map fun th => (th, before ++ th.stored :: trimAfter th after)

namespace Tcb

/-- One round of the loop of `tcp_flush_queue`. -/
def present (tp : Tcb) (q : Tcpqent) : Tcb :=
  { tp with
    rcvNxt := tp.rcvNxt + BitVec.ofNat 32 q.reseqlen
    soRcv := if tp.cantrcvmore then tp.soRcv else tp.soRcv ++ q.m
    advanced := tp.advanced + q.reseqlen }

/-- The loop of `tcp_flush_queue`; the result has the flag of the last segment. -/
def flushLoop : List Tcpqent → Bool → Tcb → Bool × Tcb
  | [], flags, tp => (flags, { tp with segq := [] })
  | q :: rest, flags, tp =>
    if q.seq = tp.rcvNxt then flushLoop rest q.fin (tp.present q)
    else (flags, { tp with segq := q :: rest })

/-- `tcp_flush_queue` -/
def flushQueue (tp : Tcb) : Bool × Tcb :=
  if tp.tState < tcpsEstablished then (false, tp)
  else
    match tp.segq with
    | [] => (false, tp)
    | q :: _ =>
      if q.seq ≠ tp.rcvNxt then (false, tp)
      else if tp.tState = tcpsSynReceived ∧ q.reseqlen ≠ 0 then (false, tp)
      else flushLoop tp.segq false tp

/-- The part of `tcp_reass` behind the allocation. -/
def queueSegment (tp : Tcb) (th : Tcpqent) : Bool × Tcb :=
  match insertSegment th tp.segq with
  | none => (false, tp)
  | some (th, segq) =>
    let tp := { tp with segq }
    if th.seq ≠ tp.rcvNxt then (false, tp) else tp.flushQueue

/-- `tcp_reass`; `memory` says whether there is memory for the entry. -/
def reass (tp : Tcb) (th : Tcpqent) (memory : Bool) : Bool × Tcb :=
  if memory then tp.queueSegment th
  else if tp.segq ≠ [] ∧ th.seq = tp.rcvNxt then
    { tp with segq := tp.segq.dropLast }.queueSegment th
  else (false, { tp with segq := [] })

end Tcb

end Bitrig.TcpInput
