import Bitrig.Lib.Transition
import Bitrig.Lib.Reassembly

/-!
# Reassembly of IPv4 datagrams (netinet/ip_input.c)

The header of a packet is a record in host order, and its data is the list of the bytes behind
the header.  The queues are in the order of the list `ipq`.  NULL that is followed is undefined.
-/

namespace Bitrig.IpInput

open Bitrig.Transition

def ipMaxpacket : Nat := 65535

/-- `IPFRAGTTL` -/
def ipfragttl : Nat := 60

/-- A number in a field of 16 bits. -/
def field16 (n : Nat) : Nat := n % 65536

/-- `struct ip`, as far as it is used -/
structure Ip where
  hl : Nat
  tos : Nat
  len : Nat
  id : Nat
  off : Nat
  p : Nat
  src : Nat
  dst : Nat
  deriving DecidableEq

structure Packet where
  ip : Ip
  data : List UInt8
  deriving DecidableEq

/-- `struct ipqent` -/
structure Ipqent where
  ip : Ip
  data : List UInt8
  mff : Bool
  deriving DecidableEq

/-- What a queue is found by. -/
structure Key where
  id : Nat
  src : Nat
  dst : Nat
  p : Nat
  deriving DecidableEq

/-- `struct ipq`.  The entries that have been inserted are there for the statements only: no
function reads them. -/
structure Ipq where
  ttl : Nat
  key : Key
  fragq : List Ipqent
  accepted : List Ipqent
  deriving DecidableEq

structure State where
  ipq : List Ipq
  /-- `ip_frags` -/
  frags : Int
  /-- `ip_maxqueue` -/
  maxqueue : Int

def Ip.key (ip : Ip) : Key := ⟨ip.id, ip.src, ip.dst, ip.p⟩

/-- `ip_hl << 2` -/
def Ip.hlen (ip : Ip) : Nat := ip.hl * 4

/-- Bytes are removed at the front of an entry. -/
def Ipqent.cut (e : Ipqent) (i : Nat) : Ipqent :=
  { e with
    ip := { e.ip with off := field16 (e.ip.off + i), len := field16 (e.ip.len - i) }
    data := e.data.drop i }

namespace State

/-- `ip_freef` -/
def freef (st : State) (fp : Ipq) : State :=
  { st with ipq := st.ipq.erase fp, frags := st.frags - fp.fragq.length }

/-- The loop of `ip_flush`; the number of rounds is `max`. -/
def flushLoop : Nat → State → State
  | 0, st => st
  | max + 1, st =>
    match st.ipq with
    | [] => st
    | fp :: _ =>
      if st.frags > (st.maxqueue * 3).tdiv 4 then
        if max = 0 then st else flushLoop max (st.freef fp)
      else st

/-- `ip_flush` -/
def flush (st : State) : State :=
  flushLoop 50 st

/-- The loop of `ip_slowtimo`: the queues that are kept, and how many entries are freed. -/
def slowtimoLoop : List Ipq → List Ipq × Nat
  | [] => ([], 0)
  | fp :: rest =>
    let ttl := (fp.ttl + 255) % 256
    let (kept, freed) := slowtimoLoop rest
    if ttl = 0 then (kept, freed + fp.fragq.length) else ({ fp with ttl } :: kept, freed)

/-- `ip_slowtimo` -/
def slowtimo (st : State) : State :=
  { st with ipq := (slowtimoLoop st.ipq).1, frags := st.frags - (slowtimoLoop st.ipq).2 }

/-- The loop of `ip_drain`. -/
def drainLoop : List Ipq → State → State
  | [], st => st
  | fp :: rest, st => drainLoop rest (st.freef fp)

/-- `ip_drain` -/
def drain (st : State) : State :=
  drainLoop st.ipq st

/-- The label `dropfrag`. -/
def dropfrag (st : State) : Option Packet × State :=
  (none, { st with frags := st.frags - 1 })

end State

/-! ### A new entry of a queue -/

def iptosEcnMask : Nat := 3
def iptosEcnCe : Nat := 3
def iptosEcnNotect : Nat := 0

/-- `ip_tos & IPTOS_ECN_MASK` -/
def Ip.ecn (ip : Ip) : Nat := ip.tos &&& iptosEcnMask

/-- A segment is dropped if CE and not-ECT are mixed. -/
def ecnDrop (ecn ecn0 : Nat) : Bool :=
  (ecn == iptosEcnCe && ecn0 == iptosEcnNotect) ||
    (ecn == iptosEcnNotect && ecn0 != iptosEcnNotect)

/-- CE is not lost: it is set in the first entry. -/
def markCe (ecn ecn0 : Nat) : List Ipqent → List Ipqent
  | first :: rest =>
    if ecn = iptosEcnCe ∧ ecn0 ≠ iptosEcnCe then
      { first with ip := { first.ip with tos := first.ip.tos ||| iptosEcnCe } } :: rest
    else first :: rest
  | [] => []

/-- The part of the new entry that the one before it does not have; none if there is no such
part. -/
def trimNew (ipqe : Ipqent) : Option Ipqent → Option Ipqent
  | none => some ipqe
  | some p =>
    if p.ip.off + p.ip.len > ipqe.ip.off then
      if p.ip.off + p.ip.len - ipqe.ip.off ≥ ipqe.ip.len then none
      else some (ipqe.cut (p.ip.off + p.ip.len - ipqe.ip.off))
    else some ipqe

/-- The loop over the entries behind the new one; how many of them are removed. -/
def trimAfter (ipqe : Ipqent) : List Ipqent → List Ipqent × Nat
  | [] => ([], 0)
  | q :: rest =>
    if ipqe.ip.off + ipqe.ip.len > q.ip.off then
      let i := ipqe.ip.off + ipqe.ip.len - q.ip.off
      if i < q.ip.len then (q.cut i :: rest, 0)
      else ((trimAfter ipqe rest).1, (trimAfter ipqe rest).2 + 1)
    else (q :: rest, 0)

/-- The new entry is inserted into a queue; how many entries are removed for it. -/
def insertEntry (ipqe : Ipqent) (fragq : List Ipqent) : Option (List Ipqent × Nat) :=
  let before := fragq.takeWhile fun q => q.ip.off ≤ ipqe.ip.off
  let after := fragq.dropWhile fun q => q.ip.off ≤ ipqe.ip.off
  (trimNew ipqe before.getLast?).map fun ipqe =>
    (before ++ ipqe :: (trimAfter ipqe after).1, (trimAfter ipqe after).2)

/-! ### Complete queues -/

/-- The loop that checks for complete reassembly: the end of the last entry. -/
def contiguous : Nat → List Ipqent → Option Nat
  | next, [] => some next
  | next, q :: rest => if q.ip.off = next then contiguous (next + q.ip.len) rest else none

/-- The packet that is made of a complete queue. -/
def joined (fp : Ipq) (first : Ipqent) (next : Nat) : Packet where
  ip := { first.ip with len := field16 next, src := fp.key.src, dst := fp.key.dst }
  data := fp.fragq.flatMap Ipqent.data

namespace State

/-- The end of `ip_reass`, behind the insertion into a queue. -/
def check (st : State) (fp : Ipq) : Option (Option Packet × State) :=
  match contiguous 0 fp.fragq with
  | none => some (none, st)
  | some next => do
      let p ← fp.fragq.getLast?
      if p.mff then some (none, st)
      else
        let q ← fp.fragq.head?
        if next + q.ip.hlen > ipMaxpacket then some (none, st.freef fp)
        else some (some (joined fp q next), st.freef fp)

/-- `ip_reass`; `memory` says whether there is memory for a queue. -/
def reass (st : State) (ipqe : Ipqent) (fp : Option Ipq) (memory : Bool) :
    Option (Option Packet × State) :=
  match fp with
  | none =>
    if memory then
      let fp := ⟨ipfragttl, ipqe.ip.key, [ipqe], [ipqe]⟩
      { st with ipq := fp :: st.ipq }.check fp
    else some st.dropfrag
  | some fp => do
      let first ← fp.fragq.head?
      if ecnDrop ipqe.ip.ecn first.ip.ecn then some st.dropfrag
      else
        let fragq := markCe ipqe.ip.ecn first.ip.ecn fp.fragq
        match insertEntry ipqe fragq with
        | none => some { st with ipq := st.ipq.replace fp { fp with fragq } }.dropfrag
        | some (fragq, removed) =>
          let fp' := { fp with fragq, accepted := ipqe :: fp.accepted }
          { st with ipq := st.ipq.replace fp fp', frags := st.frags - removed }.check fp'

end State

/-! ### Packets that arrive -/

/-- What the pools say to the calls for a packet. -/
structure Memory where
  pullup : Bool
  ipqent : Bool
  ipq : Bool

/-- A packet with an offset or with more fragments. -/
def isFragment (ip : Ip) : Bool := ip.off % 16384 ≠ 0

/-- `IP_MF` is set. -/
def moreFragments (ip : Ip) : Bool := ip.off / 8192 % 2 = 1

/-- The length without the header, and the offset in bytes. -/
def convert (m : Packet) : Ipqent where
  ip := { m.ip with len := field16 (m.ip.len - m.ip.hlen), off := field16 (m.ip.off * 8) }
  data := m.data
  mff := moreFragments m.ip

/-- A fragment has to have more bytes, and a multiple of eight. -/
def badFragment (e : Ipqent) : Bool :=
  e.mff && (e.ip.len == 0 || e.ip.len % 8 != 0)

namespace State

/-- The queue of a datagram. -/
def find (st : State) (key : Key) : Option Ipq :=
  st.ipq.find? fun fp => fp.key = key

/-- `ip_ours`; the result is the packet that is given to the protocol, if any. -/
def ours (st : State) (m : Packet) (memory : Memory) : Option (Option Packet × State) :=
  if isFragment m.ip then
    if memory.pullup then
      let fp := st.find m.ip.key
      let ipqe := convert m
      if badFragment ipqe then some (none, st)
      else if ipqe.mff ∨ ipqe.ip.off ≠ 0 then
        if st.frags + 1 > st.maxqueue then some (none, st.flush)
        else if memory.ipqent then do
          match ← { st with frags := st.frags + 1 }.reass ipqe fp memory.ipq with
          | (none, st) => some (none, st)
          | (some m, st) =>
            some (some { m with ip := { m.ip with len := field16 (m.ip.len + m.ip.hlen) } }, st)
        else some (none, st)
      else some (some ⟨ipqe.ip, m.data⟩, fp.elim st st.freef)
    else some (none, st)
  else some (some m, st)

end State

inductive Label where
  | packet (m : Packet) (memory : Memory)
  /-- `ip_slowtimo` -/
  | slowtimo
  /-- `ip_drain` -/
  | drain
  /-- The limit is set. -/
  | limit (maxqueue : Int)

def next : Label → State → Option State
  | .packet m memory, st => (st.ours m memory).map Prod.snd
  | .slowtimo, st => some st.slowtimo
  | .drain, st => some st.drain
  | .limit maxqueue, st => some { st with maxqueue }

/-- No queues. -/
def initial (maxqueue : Int) : State := ⟨[], 0, maxqueue⟩

end Bitrig.IpInput
