import Bitrig.TcpInput.Reass

/-!
# The SACK scoreboard (netinet/tcp_input.c)

The holes are the parts of the data between `snd_una` and `rcv_lastsack` that the peer has not
acknowledged.  What the peer sends is arbitrary.  NULL that is followed, and a loop that does not
end, are undefined.
-/

namespace Bitrig.TcpInput

open Bitrig.SeqNum Bitrig.Transition

def tcprexmtthresh : Nat := 3

/-- `TCPOLEN_SACK` -/
def tcpolenSack : Nat := 8

/-- `TCPS_LISTEN` -/
def tcpsListen : Nat := 1

def seqMin (a b : Seq) : Seq := if seqLt a b then a else b
def seqMax (a b : Seq) : Seq := if seqGt a b then a else b

/-- `struct sackhole` -/
structure Sackhole where
  start : Seq
  /-- `end` -/
  stop : Seq
  dups : Nat
  rxmit : Seq
  deriving DecidableEq

/-- `struct sackblk` -/
structure Sackblk where
  start : Seq
  /-- `end` -/
  stop : Seq
  deriving DecidableEq

/-- The fields of `struct tcpcb` that the scoreboard uses. -/
structure Board where
  sackEnable : Bool
  tState : Nat
  tMaxseg : Nat
  sndUna : Seq
  sndMax : Seq
  sndHoles : List Sackhole
  sndNumholes : Int
  rcvLastsack : Seq
  deriving DecidableEq

/-- What `pool_get` says, call by call; there is memory when nothing is said. -/
def poolGet : List Bool → Bool × List Bool
  | [] => (true, [])
  | answer :: rest => (answer, rest)

/-! ### The blocks of an option -/

/-- A number in network order. -/
def seqOfBytes (a b c d : UInt8) : Seq :=
  BitVec.ofNat 32 (((a.toNat * 256 + b.toNat) * 256 + c.toNat) * 256 + d.toNat)

/-- The blocks of an option, behind its first two bytes. -/
def blocksOf : List UInt8 → List Sackblk
  | a :: b :: c :: d :: e :: f :: g :: h :: rest =>
    ⟨seqOfBytes a b c d, seqOfBytes e f g h⟩ :: blocksOf rest
  | _ => []

/-! ### Holes -/

/-- One more duplicate for a hole, or the threshold if enough data has been acknowledged. -/
def moreDups (maxseg : Nat) (dups : Nat) (sackStop stop : Seq) : Nat :=
  if (sackStop - stop).toNat / maxseg ≥ tcprexmtthresh then tcprexmtthresh else dups + 1

/-- The duplicates of a new hole. -/
def firstDups (maxseg : Nat) (sackStop stop : Seq) : Nat :=
  max 1 (min tcprexmtthresh ((sackStop - stop).toNat / maxseg))

/-- A point in the loop over the holes: those that have been passed, with `p` as the last one, and
those from `cur` on; the change of `snd_numholes`; and whether there is no memory. -/
structure Walk where
  passed : List Sackhole
  rest : List Sackhole
  num : Int
  memory : List Bool
  done : Bool

/-- Holes have been passed before. -/
def Walk.pass (w : Walk) (holes : List Sackhole) (num : Int) : Walk :=
  { w with passed := holes ++ w.passed, num := w.num + num }

/-- The loop over the holes for a block. -/
def walkHoles (maxseg : Nat) (sack : Sackblk) : List Sackhole → List Bool → Option Walk
  | [], memory => some ⟨[], [], 0, memory, false⟩
  | cur :: rest, memory =>
    if seqLeq sack.stop cur.start then some ⟨[], cur :: rest, 0, memory, false⟩
    else if seqGeq sack.start cur.stop then
      (walkHoles maxseg sack rest memory).map fun w =>
        w.pass [{ cur with dups := moreDups maxseg cur.dups sack.stop cur.stop }] 0
    else if seqLeq sack.start cur.start then
      if seqGeq sack.stop cur.stop then
        (walkHoles maxseg sack rest memory).map fun w => w.pass [] (-1)
      else
        (walkHoles maxseg sack rest memory).map fun w =>
          w.pass [{ cur with start := sack.stop, rxmit := seqMax cur.rxmit sack.stop }] 0
    else if seqGeq sack.stop cur.stop then
      (walkHoles maxseg sack rest memory).map fun w =>
        w.pass [{ cur with
          stop := sack.start
          rxmit := seqMin cur.rxmit sack.start
          dups := moreDups maxseg cur.dups sack.stop sack.start }] 0
    else if seqLt cur.start sack.start && seqGt cur.stop sack.stop then
      match poolGet memory with
      | (false, memory) => some ⟨[], cur :: rest, 0, memory, true⟩
      | (true, memory) =>
        (walkHoles maxseg sack rest memory).map fun w =>
          w.pass [{ cur with
              stop := sack.start
              rxmit := seqMin cur.rxmit sack.start
              dups := moreDups maxseg cur.dups sack.stop sack.start },
            ⟨sack.stop, cur.stop, cur.dups, seqMax cur.rxmit sack.stop⟩] 1
    else none

/-- A hole is put behind `p`, which is the last hole that has been passed or, if there is none, the
first hole; whatever follows `p` is lost. -/
def Walk.append (w : Walk) (temp : Sackhole) : Option (List Sackhole) :=
  match w.passed, w.rest with
  | [], [] => none
  | [], cur :: _ => some [cur, temp]
  | passed, _ => some (passed ++ [temp])

/-- The result of a block: whether the label `done` has been reached. -/
abbrev BlockResult := Bool × Board × List Bool

namespace Board

/-- A block that is not used. -/
def ignores (tp : Board) (ack : Seq) (sack : Sackblk) : Bool :=
  seqLeq sack.stop sack.start || seqLeq sack.stop tp.sndUna ||
    (seqGt ack tp.sndUna && seqLt sack.start ack) || seqGt sack.stop tp.sndMax

/-- The first hole. -/
def firstHole (tp : Board) (ack : Seq) (sack : Sackblk) : Board :=
  { tp with
    sndHoles := [⟨ack, sack.start, firstDups tp.tMaxseg sack.stop sack.start, ack⟩]
    sndNumholes := 1
    rcvLastsack := sack.stop }

/-- The end of the loop for a block: a hole may have to be appended. -/
def lastHole (tp : Board) (sack : Sackblk) (w : Walk) : Option BlockResult :=
  let num := tp.sndNumholes + w.num
  let holes := w.passed ++ w.rest
  if w.done then some (true, { tp with sndHoles := holes, sndNumholes := num }, w.memory)
  else if seqLt tp.rcvLastsack sack.start then
    match poolGet w.memory with
    | (false, memory) => some (true, { tp with sndHoles := holes, sndNumholes := num }, memory)
    | (true, memory) => do
        let holes ← w.append
          ⟨tp.rcvLastsack, sack.start, firstDups tp.tMaxseg sack.stop sack.start, tp.rcvLastsack⟩
        some (false,
          { tp with sndHoles := holes, sndNumholes := num + 1, rcvLastsack := sack.stop }, memory)
  else some (false, { tp with sndHoles := holes, sndNumholes := num }, w.memory)

/-- The loop of `tcp_sack_option`, for one block. -/
def sackBlock (tp : Board) (ack : Seq) (sack : Sackblk) (memory : List Bool) :
    Option BlockResult :=
  if tp.ignores ack sack then some (false, tp, memory)
  else if tp.sndHoles = [] then
    match poolGet memory with
    | (false, memory) => some (true, tp, memory)
    | (true, memory) => some (false, tp.firstHole ack sack, memory)
  else (walkHoles tp.tMaxseg sack tp.sndHoles memory).bind (tp.lastHole sack)

/-- The loop of `tcp_sack_option`. -/
def sackBlocks (ack : Seq) : List Sackblk → Board → List Bool → Option (Board × List Bool)
  | [], tp, memory => some (tp, memory)
  | sack :: rest, tp, memory => do
      match ← tp.sackBlock ack sack memory with
      | (true, tp, memory) => some (tp, memory)
      | (false, tp, memory) => sackBlocks ack rest tp memory

/-- The option is processed: there is an acknowledgement of data that has been sent, and the length
is that of some blocks. -/
def uses (tp : Board) (hasAck : Bool) (ack : Seq) (option : List UInt8) : Bool :=
  tp.sackEnable && hasAck && !seqLt ack tp.sndUna && !seqGt ack tp.sndMax &&
    option.length ≠ 0 && option.length % tcpolenSack = 0

/-- `tcp_sack_option`; the option is given without its first two bytes. -/
def sackOption (tp : Board) (hasAck : Bool) (ack : Seq) (option : List UInt8)
    (memory : List Bool) : Option (Board × List Bool) := do
  if tp.uses hasAck ack option then
    kassert (tp.tMaxseg ≠ 0)
    sackBlocks ack (blocksOf option) { tp with sndNumholes := max 0 tp.sndNumholes } memory
  else some (tp, memory)

/-- The loop of `tcp_del_sackholes`. -/
def delHoles (lastack : Seq) : List Sackhole → List Sackhole × Int
  | [] => ([], 0)
  | cur :: rest =>
    if seqLeq cur.stop lastack then
      ((delHoles lastack rest).1, (delHoles lastack rest).2 + 1)
    else if seqLt cur.start lastack then
      ({ cur with
        start := lastack
        rxmit := if seqLt cur.rxmit lastack then lastack else cur.rxmit } :: rest, 0)
    else (cur :: rest, 0)

/-- `tcp_del_sackholes` -/
def delSackholes (tp : Board) (ack : Seq) : Board :=
  if tp.sackEnable && tp.tState ≠ tcpsListen then
    let lastack := if seqGt ack tp.sndUna then ack else tp.sndUna
    let (holes, deleted) := delHoles lastack tp.sndHoles
    { tp with sndHoles := holes, sndNumholes := tp.sndNumholes - deleted }
  else tp

end Board

/-! ### Segments -/

/-- A segment, as far as it is about the scoreboard.  `accepted` says whether its acknowledgement
is used in the end: a segment may be dropped before. -/
structure AckSegment where
  hasAck : Bool
  ack : Seq
  options : List (List UInt8)
  memory : List Bool
  accepted : Bool

namespace Board

def sackOptions (hasAck : Bool) (ack : Seq) : List (List UInt8) → Board → List Bool → Option Board
  | [], tp, _ => some tp
  | option :: rest, tp, memory => do
      let (tp, memory) ← tp.sackOption hasAck ack option memory
      sackOptions hasAck ack rest tp memory

/-- `snd_una` is advanced by a segment that acknowledges data that has been sent. -/
def advance (tp : Board) (th : AckSegment) : Board :=
  if th.accepted && th.hasAck && seqGt th.ack tp.sndUna && seqLeq th.ack tp.sndMax then
    { tp with sndUna := th.ack }
  else tp

/-- What `tcp_input` does with the scoreboard for a segment. -/
def segment (tp : Board) (th : AckSegment) : Option Board := do
  let tp ← sackOptions th.hasAck th.ack th.options
    (if tp.sackEnable then tp.delSackholes th.ack else tp) th.memory
  some (tp.advance th)

end Board

inductive SackLabel where
  | segment (th : AckSegment)
  /-- Data is sent. -/
  | send (n : Nat)
  /-- Data of a hole is sent again. -/
  | rexmit (i n : Nat)

/-- Some data of a hole is sent again. -/
def Sackhole.rexmitted (hole : Sackhole) (n : Nat) : Sackhole :=
  { hole with rxmit := hole.rxmit + BitVec.ofNat 32 n }

def sackNext : SackLabel → Board → Option Board
  | .segment th, tp => tp.segment th
  | .send n, tp => some { tp with sndMax := tp.sndMax + BitVec.ofNat 32 n }
  | .rexmit i n, tp => some { tp with sndHoles := tp.sndHoles.modify i (·.rexmitted n) }

/-- What is sent stays in a window, and what is sent again is in the hole.  The segments of the
peer are arbitrary. -/
def SackCalled : SackLabel → Board → Prop
  | .segment _, _ => True
  | .send n, tp => (tp.sndMax - tp.sndUna).toNat + n < 2 ^ 30
  | .rexmit i n, tp => ∀ hole ∈ tp.sndHoles[i]?, n ≤ (hole.stop - hole.rxmit).toNat

instance (label : SackLabel) (tp : Board) : Decidable (SackCalled label tp) := by
  cases label <;> unfold SackCalled <;> infer_instance

/-- A connection without holes. -/
def startBoard (tState maxseg : Nat) (una : Seq) (window : Nat) (lastsack : Seq) : Board :=
  ⟨true, tState, maxseg, una, una + BitVec.ofNat 32 window, [], 0, lastsack⟩

end Bitrig.TcpInput
