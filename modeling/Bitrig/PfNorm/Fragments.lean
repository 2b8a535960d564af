import Bitrig.Lib.Transition
import Bitrig.Lib.Reassembly
import Bitrig.Pf.Rules

/-!
# Reassembly of fragments in pf (net/pf_norm.c)

A packet is the list of its bytes, with the header of IP in front.  The tree of the fragment
queues and the list of them have the same elements; here they are one list, whose head has been
used last.  An assertion that fails, and NULL that is followed, are undefined.
-/

namespace Bitrig.PfNorm

open Bitrig.Transition
open Bitrig.Pf (Family)

def ipMaxpacket : Nat := 65535

/-- A number that is stored in 16 bits. -/
def u16 (n : Nat) : Nat := n % 65536

/-! ### Packets -/

/-- A byte of a packet. -/
def byteAt (m : List UInt8) (i : Nat) : Nat := (m.getD i 0).toNat

/-- Two bytes of a packet, in network order. -/
def wordAt (m : List UInt8) (i : Nat) : Nat := byteAt m i * 256 + byteAt m (i + 1)

/-- `ip_hl << 2` -/
def ipHlen (m : List UInt8) : Nat := byteAt m 0 % 16 * 4

/-- `ntohs(ip_len)` -/
def ipLen (m : List UInt8) : Nat := wordAt m 2

/-- `(ntohs(ip_off) & IP_OFFMASK) << 3` -/
def ipOffset (m : List UInt8) : Nat := wordAt m 6 % 8192 * 8

/-- `ntohs(ip_off) & IP_MF` -/
def ipMf (m : List UInt8) : Bool := wordAt m 6 / 8192 % 2 == 1

/-- `m_adj` -/
def mAdj (m : List UInt8) (reqLen : Int) : List UInt8 :=
  if 0 ≤ reqLen then m.drop reqLen.toNat else m.take (m.length - (-reqLen).toNat)

/-- `ip->ip_len = htons(len)` -/
def setIpLen (m : List UInt8) (len : Nat) : List UInt8 :=
  (m.set 2 (UInt8.ofNat (len / 256))).set 3 (UInt8.ofNat len)

/-- `ip->ip_off &= ~(IP_MF|IP_OFFMASK)`.  The mask is not in network order: on a little-endian
machine it keeps the two upper bits of the second byte. -/
def clearIpOff (m : List UInt8) : List UInt8 :=
  (m.set 6 0).set 7 (UInt8.ofNat (byteAt m 7 / 64 * 64))

/-! ### Fragments -/

/-- `struct pf_fragment_cmp`, as far as it is compared -/
structure Key where
  src : Nat
  dst : Nat
  id : Nat
  af : Family
  proto : Nat
  deriving DecidableEq

/-- `struct pf_frent` -/
structure Frent where
  m : List UInt8
  hdrlen : Nat
  len : Nat
  off : Nat
  mff : Bool
  deriving DecidableEq

/-- `struct pf_fragment`.  The entries that have been queued are there for the statements only:
no function reads them. -/
structure Fragment where
  key : Key
  queue : List Frent
  timeout : Nat
  maxlen : Nat
  accepted : List Frent
  deriving DecidableEq

/-- The key of a packet. -/
def keyOf (m : List UInt8) : Key where
  src := wordAt m 12 * 65536 + wordAt m 14
  dst := wordAt m 16 * 65536 + wordAt m 18
  id := wordAt m 4
  af := .inet
  proto := byteAt m 9

/-- The entry of a packet. -/
def frentOf (m : List UInt8) : Frent where
  m := m
  hdrlen := ipHlen m
  len := u16 (ipLen m - ipHlen m)
  off := u16 (ipOffset m)
  mff := ipMf m

/-- Bytes are removed at the front of the data. -/
def Frent.cut (frent : Frent) (n : Nat) : Frent :=
  { frent with m := mAdj frent.m n, off := u16 (frent.off + n), len := u16 (frent.len - n) }

structure State where
  /-- `pf_fragqueue` and `pf_frag_tree` -/
  fragqueue : List Fragment
  /-- `pf_nfrents` -/
  nfrents : Int

namespace State

/-- `pf_free_fragment` -/
def freeFragment (st : State) (frag : Fragment) : State where
  fragqueue := st.fragqueue.erase frag
  nfrents := st.nfrents - frag.queue.length

/-- An entry that is not queued goes back to the pool. -/
def dropFrent (st : State) : State :=
  { st with nfrents := st.nfrents - 1 }

/-- The loop of `pf_purge_expired_fragments`; there are no more rounds than fragments. -/
def purgeLoop (expire : Nat) : Nat → State → State
  | 0, st => st
  | n + 1, st =>
    match st.fragqueue.getLast? with
    | none => st
    | some frag => if frag.timeout > expire then st else purgeLoop expire n (st.freeFragment frag)

/-- `pf_purge_expired_fragments` -/
def purgeExpiredFragments (st : State) (expire : Nat) : State :=
  purgeLoop expire st.fragqueue.length st

/-- The loop of `pf_flush_fragments`. -/
def flushLoop (goal : Int) : Nat → State → State
  | 0, st => st
  | n + 1, st =>
    if goal < st.nfrents then
      match st.fragqueue.getLast? with
      | none => st
      | some frag => flushLoop goal n (st.freeFragment frag)
    else st

/-- `pf_flush_fragments` -/
def flushFragments (st : State) : State :=
  flushLoop (st.nfrents * 9 / 10) st.fragqueue.length st

/-- `pool_get`, a second time when it has failed; what the pool says is given. -/
def poolGet (st : State) (memory : Bool × Bool) : Bool × State :=
  if memory.1 then (true, st) else (memory.2, st.flushFragments)

/-- `pf_create_fragment` -/
def createFragment (st : State) (memory : Bool × Bool) : Bool × State :=
  match st.poolGet memory with
  | (false, st) => (false, st)
  | (true, st) => (true, { st with nfrents := st.nfrents + 1 })

end State

/-! ### A new entry of a queue -/

/-- The checks that a fragment fails by its end, against the last one of the queue. -/
def refused (last frent : Frent) : Bool :=
  let total := u16 (last.off + last.len)
  let stop := frent.off + frent.len
  (decide (stop < total) && !frent.mff) ||
    if !last.mff then decide (stop > total) || (decide (stop = total) && frent.mff)
    else decide (stop = total) && !frent.mff

/-- What `pf_fillup_fragment` does with an entry: it is queued, after so many others have been
removed; or it is dropped, for a reason or without one; or the queue is flushed. -/
inductive Fill where
  | queued (queue : List Frent) (removed : Nat)
  | bad
  | drop
  | flush

/-- The loop over the entries after the new one; how many of them are removed. -/
def trimAfter (frent : Frent) : List Frent → List Frent × Nat
  | [] => ([], 0)
  | after :: rest =>
    if frent.off + frent.len > after.off then
      let aftercut := u16 (frent.off + frent.len - after.off)
      if aftercut < after.len then (after.cut aftercut :: rest, 0)
      else ((trimAfter frent rest).1, (trimAfter frent rest).2 + 1)
    else (after :: rest, 0)

/-- The new entry is cut already: the entries after it are trimmed, and it is inserted. -/
def insertFrent (af : Family) (before after : List Frent) (frent : Frent) : Fill :=
  if af = .inet6 ∧ after.head?.any (fun next => frent.off + frent.len > next.off) then .flush
  else .queued (before ++ frent :: (trimAfter frent after).1) (trimAfter frent after).2

/-- The part of `pf_fillup_fragment` for an existing queue. -/
def fill (frag : Fragment) (frent : Frent) : Option Fill := do
  let last ← frag.queue.getLast?
  if refused last frent then some .bad
  else
    let before := frag.queue.takeWhile fun after => after.off ≤ frent.off
    let after := frag.queue.dropWhile fun after => after.off ≤ frent.off
    kassert (before ≠ [] ∨ after ≠ [])
    match before.getLast? with
    | none => some (insertFrent frag.key.af before after frent)
    | some prev =>
      if prev.off + prev.len > frent.off then
        if frag.key.af = .inet6 then some .flush
        else
          let precut := u16 (prev.off + prev.len - frent.off)
          if precut ≥ frent.len then some .drop
          else some (insertFrent frag.key.af before after (frent.cut precut))
      else some (insertFrent frag.key.af before after frent)

/-- An entry that no queue can take. -/
def malformed (frent : Frent) : Bool :=
  decide (frent.len = 0) || (frent.mff && decide (frent.len % 8 ≠ 0)) ||
    decide (frent.off + frent.len > ipMaxpacket)

/-- `pf_fillup_fragment` -/
def State.fillupFragment (st : State) (key : Key) (frent : Frent) (memory : Bool × Bool)
    (now : Nat) : Option (Option Fragment × State) :=
  if malformed frent then some (none, st.dropFrent)
  else
    match st.fragqueue.find? fun frag => frag.key = key with
    | none =>
      match st.poolGet memory with
      | (false, st) => some (none, st.dropFrent)
      | (true, st) =>
        let frag := ⟨key, [frent], now, frent.len, [frent]⟩
        some (some frag, { st with fragqueue := frag :: st.fragqueue })
    | some frag =>
      let others := st.fragqueue.erase frag
      let frag := { frag with maxlen := max frag.maxlen frent.len }
      let st := { st with fragqueue := frag :: others }
      match fill frag frent with
      | none => none
      | some (.queued queue removed) =>
        let frag := { frag with queue, accepted := frent :: frag.accepted }
        some (some frag, ⟨frag :: others, st.nfrents - removed⟩)
      | some .bad => some (none, st.dropFrent)
      | some .drop => some (none, st.dropFrent)
      | some .flush => some (none, (st.freeFragment frag).dropFrent)

/-! ### Complete queues -/

/-- The loop of `pf_isfull_fragment`; none if a fragment is missing. -/
def isfullLoop (total : Nat) : Nat → List Frent → Option Nat
  | off, [] => some off
  | off, frent :: rest =>
    let off := u16 (off + frent.len)
    if off < total ∧ rest.head?.all (fun next => next.off ≠ off) then none
    else isfullLoop total off rest

/-- `pf_isfull_fragment` -/
def isfullFragment (frag : Fragment) : Option Bool := do
  let last ← frag.queue.getLast?
  if last.mff then some false
  else
    let total := u16 (last.off + last.len)
    match isfullLoop total 0 frag.queue with
    | none => some false
    | some off =>
      if off < total then some false
      else do
        kassert (off = total)
        some true

/-- The bytes behind a length are cut off. -/
def stripTrailing (m : List UInt8) (len : Nat) : List UInt8 :=
  if len < m.length then mAdj m ((len : Int) - m.length) else m

/-- The packet that `pf_join_fragment` makes of the queue. -/
def joinQueue : List Frent → Option (List UInt8)
  | [] => none
  | first :: rest => some (stripTrailing first.m (first.hdrlen + first.len) ++
      rest.flatMap fun frent => stripTrailing (mAdj frent.m frent.hdrlen) frent.len)

/-- `pf_join_fragment` -/
def State.joinFragment (st : State) (frag : Fragment) : Option (List UInt8 × State) := do
  let m ← joinQueue frag.queue
  some (m, st.freeFragment frag)

/-! ### Packets that arrive -/

/-- `PF_PASS` and `PF_DROP` -/
inductive Action where
  | pass
  | drop
  deriving DecidableEq

/-- The end of `pf_reassemble`: all the data is there. -/
def State.complete (st : State) (frag : Fragment) :
    Option ((Action × Option (List UInt8)) × State) := do
  let frent ← frag.queue.head?
  let last ← frag.queue.getLast?
  let total := u16 (last.off + last.len)
  let (m, st) ← st.joinFragment frag
  let m := clearIpOff (setIpLen m (u16 (frent.hdrlen + total)))
  if frent.hdrlen + total > ipMaxpacket then some ((.drop, some (setIpLen m 0)), st)
  else some ((.pass, some m), st)

/-- What the pools say to the calls of `pool_get` for a packet. -/
structure Memory where
  frent : Bool × Bool
  frag : Bool × Bool

/-- `pf_reassemble`; the result has the packet that `*m0` is then, if any. -/
def State.reassemble (st : State) (m : List UInt8) (memory : Memory) (now : Nat) :
    Option ((Action × Option (List UInt8)) × State) :=
  match st.createFragment memory.frent with
  | (false, st) => some ((.drop, some m), st)
  | (true, st) => do
      match ← st.fillupFragment (keyOf m) (frentOf m) memory.frag now with
      | (none, st) => some ((.drop, some m), st)
      | (some frag, st) =>
        match ← isfullFragment frag with
        | false => some ((.pass, none), st)
        | true => st.complete frag

inductive Label where
  | packet (m : List UInt8) (memory : Memory) (now : Nat)
  | purge (expire : Nat)

def next : Label → State → Option State
  | .packet m memory now, st => (st.reassemble m memory now).map Prod.snd
  | .purge expire, st => some (st.purgeExpiredFragments expire)

def initial : State := ⟨[], 0⟩

end Bitrig.PfNorm
