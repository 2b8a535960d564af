import Bitrig.Lib.Transition

/-!
# The replay window of a security association (netinet/ip_esp.c)

A security association has a counter, the highest extended sequence number that it accepted,
and a ring of bits for the numbers behind it.  The place of a number in the ring follows from
its low half only.
-/

namespace Bitrig.IpEsp

open Bitrig.Transition

abbrev U32 := BitVec 32

/-- `TDB_REPLAYWASTE` -/
def tdbReplayWaste : Nat := 32

/-- `TDB_REPLAYMAX` -/
def tdbReplayMax : Nat := 2100 + tdbReplayWaste

/-- `SEEN_SIZE`, which is `howmany(TDB_REPLAYMAX, 32)` -/
def seenSize : Nat := (tdbReplayMax + 31) / 32

/-- `AH_HMAC_INITIAL_RPL` -/
def ahHmacInitialRpl : BitVec 64 := 1

/-- The fields of `struct tdb` that the replay check uses. -/
structure Tdb where
  /-- The flag `TDBF_ESN`. -/
  esn : Bool
  /-- Replay counter. -/
  rpl : BitVec 64
  /-- Anti-replay window. -/
  seen : Nat → U32

namespace Tdb

/-- An inbound association after its initialization. -/
def init (esn : Bool) : Tdb where
  esn := esn
  rpl := ahHmacInitialRpl
  seen := fun _ => 0

variable (tdb : Tdb)

/-- The variable `tl` -/
def low : U32 :=
  tdb.rpl.setWidth 32

/-- The variable `th` -/
def high : U32 :=
  (tdb.rpl >>> 32).setWidth 32

/-- The variable `window`, which is shorter while the association is young. -/
def window : U32 :=
  let window := BitVec.ofNat 32 (tdbReplayMax - tdbReplayWaste)
  if tdb.high = 0 ∧ tdb.low < window then tdb.low else window

end Tdb

/-- The variable `idx`: the word of a sequence number. -/
def wordOf (seq : U32) : Nat :=
  seq.toNat % tdbReplayMax / 32

/-- The variable `packet`: the bit of a sequence number in its word. -/
def packetOf (seq : U32) : U32 :=
  1#32 <<< (31 - seq.toNat % 32)

/-- `tdb_seen[idx] |= packet` -/
def mark (seen : Nat → U32) (seq : U32) : Nat → U32 :=
  Function.update seen (wordOf seq) (seen (wordOf seq) ||| packetOf seq)

/-- `while (i != idx) { i = (i + 1) % SEEN_SIZE; tdb_seen[i] = 0; }` -/
def clearWords (idx : Nat) : Nat → Nat → (Nat → U32) → Option (Nat → U32)
  | 0, i, seen => if i ≠ idx then none else some seen
  | fuel + 1, i, seen =>
    if i ≠ idx then
      clearWords idx fuel ((i + 1) % seenSize) (Function.update seen ((i + 1) % seenSize) 0)
    else some seen

/-- The window is moved ahead to a number that is accepted. -/
def advance (tdb : Tdb) (seqh seq : U32) : Option Tdb := do
  let seen ←
    if seq - tdb.low > tdb.window then some fun _ => 0
    else clearWords (wordOf seq) seenSize (wordOf tdb.low) tdb.seen
  some { tdb with
    seen := mark seen seq
    rpl := (seqh.setWidth 64 <<< 32) ||| seq.setWidth 64 }

/-- The return value, the high half of the sequence number, and the association. -/
def checkreplaywindow (tdb : Tdb) (seq seqhigh : U32) (commit : Bool) :
    Option (Nat × U32 × Tdb) :=
  let tl := tdb.low
  let th := tdb.high
  -- zero is not allowed
  if (tdb.esn ∧ seq = 0 ∧ tl ≤ ahHmacInitialRpl.setWidth 32 ∧ th = 0) ∨ (¬tdb.esn ∧ seq = 0) then
    some (1, seqhigh, tdb)
  else
    let window := tdb.window
    let wl := tl - window + 1
    if (tl ≥ window - 1 ∧ seq ≥ wl) ∨ (tl < window - 1 ∧ seq < wl) then
      -- the high half stays as it is
      if seq > tl then
        if commit then (advance tdb th seq).map fun tdb => (0, th, tdb) else some (0, th, tdb)
      else if tl - seq ≥ window then some (2, th, tdb)
      else if tdb.seen (wordOf seq) &&& packetOf seq ≠ 0 then some (3, th, tdb)
      else some (0, th, if commit then { tdb with seen := mark tdb.seen seq } else tdb)
    else if ¬tdb.esn then some (2, seqhigh, tdb)
    else if tl < window - 1 ∧ seq ≥ wl then
      -- within the window, but in the subspace before
      if tdb.seen (wordOf seq) &&& packetOf seq ≠ 0 then some (3, seqhigh, tdb)
      else some (0, th - 1, if commit then { tdb with seen := mark tdb.seen seq } else tdb)
    else if th + 1 = 0 then some (1, th + 1, tdb)
    else if commit then
      (advance tdb (th + 1) seq).map fun tdb => (0, th + 1, tdb)
    else some (0, th + 1, tdb)

/-! ### Sequences of packets -/

/-- An association, and the extended numbers that it has accepted. -/
structure State where
  tdb : Tdb
  accepted : List (U32 × U32)

/-- A packet, with what stands in `*seqhigh` before the call. -/
structure Packet where
  seq : U32
  seqhigh : U32

def next (packet : Packet) (s : State) : Option State := do
  let (ret, seqhigh, tdb) ← checkreplaywindow s.tdb packet.seq packet.seqhigh true
  some ⟨tdb, if ret = 0 then (seqhigh, packet.seq) :: s.accepted else s.accepted⟩

def State.init (esn : Bool) : State :=
  ⟨Tdb.init esn, []⟩

end Bitrig.IpEsp
