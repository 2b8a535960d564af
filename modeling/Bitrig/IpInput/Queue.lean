import Bitrig.IpInput.Reass

/-!
# The queue of a datagram

The entries of a queue are pieces of the datagram, and `ip_reass` inserts a new one as it should
be inserted.  The queue is complete exactly if the pieces cover the datagram.
-/

namespace Bitrig.IpInput

open Bitrig.Reassembly Bitrig.Transition

/-- The entries of a queue as pieces of a datagram. -/
def pieces : Pieces Ipqent := ⟨fun e => e.ip.off, fun e => e.ip.len, Ipqent.cut⟩

@[simp]
theorem pieces_start (e : Ipqent) : pieces.start e = e.ip.off :=
  rfl

@[simp]
theorem pieces_len (e : Ipqent) : pieces.len e = e.ip.len :=
  rfl

@[simp]
theorem pieces_cut (e : Ipqent) (i : Nat) : pieces.cut e i = e.cut i :=
  rfl

@[simp]
theorem pieces_stop (e : Ipqent) : pieces.stop e = e.ip.off + e.ip.len :=
  rfl

section Insertion

variable {e : Ipqent} {queue : List Ipqent}

theorem trimNew_eq (e : Ipqent) (p : Option Ipqent) : trimNew e p = pieces.trim e p := by
  cases p with
  | none => rfl
  | some p =>
    rw [trimNew, Pieces.trim, pieces_stop, pieces_start, pieces_len]
    split_ifs <;> first | rfl | omega

theorem trimAfter_eq (e : Ipqent) (queue : List Ipqent) :
    (trimAfter e queue).1 = pieces.clip (pieces.stop e) queue := by
  rw [pieces_stop]
  induction queue with
  | nil => rfl
  | cons q rest ih =>
    rw [trimAfter, Pieces.clip, pieces_start, pieces_len]
    by_cases overlap : e.ip.off + e.ip.len > q.ip.off
    · rw [if_neg (not_le.mpr overlap)]
      dsimp only
      split_ifs
      · rfl
      · exact ih
    · rw [if_neg overlap, if_pos (not_lt.mp overlap)]

theorem trimAfter_count (e : Ipqent) (queue : List Ipqent) :
    (trimAfter e queue).2 + (trimAfter e queue).1.length = queue.length := by
  induction queue with
  | nil => rfl
  | cons q rest ih =>
    rw [trimAfter]
    by_cases overlap : e.ip.off + e.ip.len > q.ip.off
    · rw [if_pos overlap]
      by_cases inside : e.ip.off + e.ip.len - q.ip.off < q.ip.len
      · rw [if_pos inside]
        exact Nat.zero_add _
      · rw [if_neg inside, List.length_cons, ← ih]
        exact Nat.add_right_comm _ _ _
    · rw [if_neg overlap]
      exact Nat.zero_add _

/-- An entry is inserted as a piece is, and those that are removed are counted. -/
theorem insertEntry_spec (e : Ipqent) (queue : List Ipqent) :
    (insertEntry e queue).map Prod.fst = pieces.insert e queue ∧
      ∀ result, insertEntry e queue = some result →
        result.2 + result.1.length = queue.length + 1 := by
  have joined : queue.takeWhile (fun q => decide (q.ip.off ≤ e.ip.off)) ++
      queue.dropWhile (fun q => decide (q.ip.off ≤ e.ip.off)) = queue :=
    List.takeWhile_append_dropWhile
  constructor
  · rw [insertEntry, Option.map_map, trimNew_eq]
    refine congrArg (Option.map · _) (funext fun new => ?_)
    exact congrArg (fun clipped => _ ++ new :: clipped) (trimAfter_eq new _)
  · intro result inserted
    obtain ⟨new, -, rfl⟩ := Option.map_eq_some_iff.mp inserted
    have length := congrArg List.length joined
    have count := trimAfter_count new (queue.dropWhile fun q => decide (q.ip.off ≤ e.ip.off))
    rw [List.length_append] at length
    rw [List.length_append, List.length_cons]
    omega

theorem contiguous_eq (next : Nat) (queue : List Ipqent) :
    contiguous next queue = pieces.walk next queue := by
  induction queue generalizing next with
  | nil => rfl
  | cons q rest ih =>
    rw [contiguous, ih]
    rfl

end Insertion

/-! ### Entries that are cut from the datagram -/

/-- A datagram, which is not longer than a packet can be. -/
structure Datagram where
  key : Key
  payload : List UInt8
  bound : payload.length ≤ ipMaxpacket

/-- A packet with lengths that have been checked. -/
def WellFormed (m : Packet) : Prop :=
  m.ip.hlen ≤ m.ip.len ∧ m.ip.len ≤ ipMaxpacket ∧ m.data.length = m.ip.len - m.ip.hlen

/-- The offset of a packet in bytes. -/
def Ip.offset (ip : Ip) : Nat := ip.off % 8192 * 8

/-- A packet is a fragment of a datagram, which is not too long for the header of the first one.
The flag for more fragments is clear exactly if it reaches the end.  No bits of ECN are set. -/
def CutFrom (d : Datagram) (m : Packet) : Prop :=
  m.ip.offset + m.data.length ≤ d.payload.length ∧
    m.data = slice d.payload m.ip.offset m.data.length ∧
    (moreFragments m.ip = false ↔ m.ip.offset + m.data.length = d.payload.length) ∧
    m.ip.ecn = iptosEcnNotect ∧
    (m.ip.offset = 0 → d.payload.length + m.ip.hlen ≤ ipMaxpacket)

instance (m : Packet) : Decidable (WellFormed m) := by
  unfold WellFormed
  infer_instance

instance (d : Datagram) (m : Packet) : Decidable (CutFrom d m) := by
  unfold CutFrom
  infer_instance

/-- An entry is a part of the datagram. -/
structure Good (d : Datagram) (e : Ipqent) : Prop where
  key : e.ip.key = d.key
  within : e.ip.off + e.ip.len ≤ d.payload.length
  data : e.data = slice d.payload e.ip.off e.ip.len
  last : e.mff = false ↔ e.ip.off + e.ip.len = d.payload.length
  ecn : e.ip.ecn = iptosEcnNotect
  fits : e.ip.off = 0 → d.payload.length + e.ip.hlen ≤ ipMaxpacket

/-- The packet that is returned has the payload and the key of the datagram. -/
structure Joined (d : Datagram) (m : Packet) : Prop where
  payload : m.data = d.payload
  len : m.ip.len = d.payload.length
  whole : m.ip.off = 0
  key : m.ip.key = d.key

section Entries

variable {d : Datagram} {e : Ipqent} {m : Packet}

theorem field16_of_le {n : Nat} (le : n ≤ ipMaxpacket) : field16 n = n :=
  Nat.mod_eq_of_lt (Nat.lt_succ_of_le le)

theorem convert_fields (wellFormed : WellFormed m) :
    (convert m).ip.off = m.ip.offset ∧ (convert m).ip.len = m.data.length := by
  obtain ⟨-, bound, length⟩ := wellFormed
  constructor
  · change m.ip.off * 8 % 65536 = m.ip.off % 8192 * 8
    omega
  · rw [length]
    exact field16_of_le ((Nat.sub_le _ _).trans bound)

theorem good_convert (wellFormed : WellFormed m) (key : m.ip.key = d.key) (cutFrom : CutFrom d m) :
    Good d (convert m) := by
  obtain ⟨isOff, isLen⟩ := convert_fields wellFormed
  obtain ⟨within, data, last, ecn, fits⟩ := cutFrom
  constructor
  · exact key
  · rw [isOff, isLen]
    exact within
  · rw [isOff, isLen]
    exact data
  · rw [isOff, isLen]
    exact last
  · exact ecn
  · rw [isOff]
    exact fits

theorem Good.cut_off (good : Good d e) {i : Nat} (lt : i < e.ip.len) :
    (e.cut i).ip.off = e.ip.off + i :=
  field16_of_le (((Nat.add_le_add_left lt.le _).trans good.within).trans d.bound)

theorem Good.cut_len (good : Good d e) {i : Nat} : (e.cut i).ip.len = e.ip.len - i :=
  field16_of_le
    (((Nat.sub_le _ _).trans ((Nat.le_add_left _ _).trans good.within)).trans d.bound)

theorem cuts : pieces.Cuts (Good d) where
  start good lt := good.cut_off lt
  len good _ := good.cut_len
  good := by
    intro e i good lt
    rw [pieces_len] at lt
    rw [pieces_cut]
    have off := good.cut_off lt
    have len : (e.cut i).ip.len = e.ip.len - i := good.cut_len
    have stop : (e.cut i).ip.off + (e.cut i).ip.len = e.ip.off + e.ip.len := by omega
    constructor
    · exact good.key
    · rw [stop]
      exact good.within
    · rw [off, len, ← drop_slice, ← good.data]
      rfl
    · rw [stop]
      exact good.last
    · exact good.ecn
    · intro start
      exact good.fits (by omega)

end Entries

end Bitrig.IpInput
