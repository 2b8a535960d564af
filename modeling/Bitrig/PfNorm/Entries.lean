import Bitrig.PfNorm.Queue

/-!
# Fragments of a datagram

The entries of fragments that are cut from a datagram keep their part of it when they are cut,
and the packet that they are joined to is the datagram.
-/

namespace Bitrig.PfNorm

open Bitrig.Reassembly Bitrig.Transition List

structure Datagram where
  key : Key
  payload : List UInt8

/-- A packet that has passed the checks on the lengths in its header. -/
def WellFormed (m : List UInt8) : Prop :=
  20 ≤ ipHlen m ∧ ipHlen m ≤ ipLen m ∧ ipLen m ≤ m.length

/-- A packet is a fragment of a datagram, which is not too long for the header of the first one.
The flag for more fragments is clear exactly if it reaches the end. -/
def CutFrom (d : Datagram) (m : List UInt8) : Prop :=
  ipOffset m + (ipLen m - ipHlen m) ≤ d.payload.length ∧
    (m.drop (ipHlen m)).take (ipLen m - ipHlen m) =
      slice d.payload (ipOffset m) (ipLen m - ipHlen m) ∧
    (ipMf m = false ↔ ipOffset m + (ipLen m - ipHlen m) = d.payload.length) ∧
    (ipOffset m = 0 → ipHlen m + d.payload.length ≤ ipMaxpacket)

instance (m : List UInt8) : Decidable (WellFormed m) := by
  unfold WellFormed
  infer_instance

instance (d : Datagram) (m : List UInt8) : Decidable (CutFrom d m) := by
  unfold CutFrom
  infer_instance

/-- The payload of a packet is the datagram, and its header says so. -/
structure Joined (d : Datagram) (m : List UInt8) : Prop where
  payload : m.drop (ipHlen m) = d.payload
  len : ipLen m = ipHlen m + d.payload.length
  whole : ipOffset m = 0 ∧ ipMf m = false

/-! ### Entries that are cut from the datagram -/

/-- An entry is a part of the datagram.  The first one still has its header. -/
structure Good (d : Datagram) (e : Frent) : Prop where
  within : e.off + e.len ≤ d.payload.length
  data : (e.m.drop e.hdrlen).take e.len = slice d.payload e.off e.len
  last : e.mff = false ↔ e.off + e.len = d.payload.length
  fits : e.off = 0 → e.hdrlen + d.payload.length ≤ ipMaxpacket
  header : 20 ≤ e.hdrlen
  room : e.hdrlen + e.len ≤ e.m.length
  first : e.off = 0 → ipHlen e.m = e.hdrlen ∧ ipOffset e.m = 0

section Entries

variable {d : Datagram} {e last : Frent} {m : List UInt8} {i : Nat}

theorem byteAt_lt (m : List UInt8) (i : Nat) : byteAt m i < 256 :=
  UInt8.toNat_lt _

theorem wordAt_lt (m : List UInt8) (i : Nat) : wordAt m i < 65536 := by
  have high := byteAt_lt m i
  have low := byteAt_lt m (i + 1)
  unfold wordAt
  omega

theorem frentOf_len (m : List UInt8) : (frentOf m).len = ipLen m - ipHlen m := by
  have lt := wordAt_lt m 2
  refine u16_of_le ((Nat.sub_le _ _).trans ?_)
  unfold ipLen ipMaxpacket
  omega

theorem frentOf_off (m : List UInt8) : (frentOf m).off = ipOffset m := by
  refine u16_of_le ?_
  unfold ipOffset ipMaxpacket
  omega

theorem good_frentOf (wellFormed : WellFormed m) (cutFrom : CutFrom d m) : Good d (frentOf m) := by
  obtain ⟨header, lenLe, room⟩ := wellFormed
  obtain ⟨within, data, last, fits⟩ := cutFrom
  constructor
  · rw [frentOf_len, frentOf_off]
    exact within
  · rw [frentOf_len, frentOf_off]
    exact data
  · rw [frentOf_len, frentOf_off]
    exact last
  · rw [frentOf_off]
    exact fits
  · exact header
  · rw [frentOf_len]
    change ipHlen m + (ipLen m - ipHlen m) ≤ m.length
    omega
  · rw [frentOf_off]
    exact fun start => ⟨rfl, start⟩

theorem mAdj_nat (m : List UInt8) (n : Nat) : mAdj m n = m.drop n := by
  rw [mAdj, if_pos (Int.natCast_nonneg n), Int.toNat_natCast]

theorem Good.cut (bounded : Bounded e) (good : Good d e) (lt : i < e.len) : Good d (e.cut i) := by
  have off := bounded.cut_off lt
  have len : (e.cut i).len = e.len - i := bounded.cut_len
  have bytes : (e.cut i).m = e.m.drop i := mAdj_nat e.m i
  have stop : (e.cut i).off + (e.cut i).len = e.off + e.len := by omega
  constructor
  · rw [stop]
    exact good.within
  · -- the bytes are cut off in front of the header, and the header is skipped later
    have swap : ((e.m.drop i).drop e.hdrlen).take (e.len - i) =
        ((e.m.drop e.hdrlen).take e.len).drop i := by
      rw [drop_drop, add_comm i, ← drop_drop, drop_take]
    rw [len, off]
    exact swap.trans ((congrArg (List.drop i) good.data).trans drop_slice)
  · rw [stop]
    exact good.last
  · exact fun start => good.fits (by omega)
  · exact good.header
  · have room := good.room
    rw [bytes, len, length_drop]
    change e.hdrlen + (e.len - i) ≤ e.m.length - i
    omega
  · intro start
    have none : i = 0 := by omega
    subst none
    exact good.first (by omega)

/-- No fragment of the datagram is refused by its end. -/
theorem not_refused (boundLast : Bounded last) (goodLast : Good d last) (good : Good d e) :
    refused last e = false := by
  have lastIff := goodLast.last
  have iff := good.last
  have within := good.within
  have withinLast := goodLast.within
  unfold refused
  rw [u16_of_le boundLast.le]
  cases flagLast : last.mff <;> cases flag : e.mff <;>
    simp only [flagLast, flag, true_iff, reduceCtorEq, false_iff] at lastIff iff <;>
    simp <;> omega

theorem stripTrailing_eq (m : List UInt8) (len : Nat) : stripTrailing m len = m.take len := by
  unfold stripTrailing
  split_ifs with trailing
  · rw [mAdj, if_neg (by omega)]
    congr 1
    omega
  · rw [take_of_length_le (not_lt.mp trailing)]

/-- The joined packet has the header of its first entry. -/
theorem joinQueue_eq {first : Frent} {rest : List Frent} (good : ∀ e ∈ first :: rest, Good d e)
    (walk : pieces.walk 0 (first :: rest) = some d.payload.length) :
    joinQueue (first :: rest) = some (first.m.take first.hdrlen ++ d.payload) := by
  have data : (first :: rest).flatMap (fun e => (e.m.drop e.hdrlen).take e.len) = d.payload := by
    rw [Pieces.flatMap_of_walk walk (fun e mem => (good e mem).data), Nat.sub_zero, slice_all]
  have others : (rest.flatMap fun e => stripTrailing (mAdj e.m e.hdrlen) e.len) =
      rest.flatMap fun e => (e.m.drop e.hdrlen).take e.len := by
    congr 1
    funext e
    rw [stripTrailing_eq, mAdj_nat]
  rw [flatMap_cons] at data
  rw [joinQueue, others, stripTrailing_eq, take_add, append_assoc, data]

/-! ### The header of the joined packet -/

theorem byteAt_set_self (lt : i < m.length) (x : UInt8) : byteAt (m.set i x) i = x.toNat := by
  simp [byteAt, getD_eq_getElem?_getD, lt]

theorem byteAt_set_of_ne {j : Nat} (ne : i ≠ j) (x : UInt8) :
    byteAt (m.set i x) j = byteAt m j := by
  simp [byteAt, getD_eq_getElem?_getD, getElem?_set_ne ne]

theorem byteAt_append {m' : List UInt8} (lt : i < m.length) : byteAt (m ++ m') i = byteAt m i := by
  simp [byteAt, getD_eq_getElem?_getD, getElem?_append_left lt]

theorem byteAt_take {n : Nat} (lt : i < n) : byteAt (m.take n) i = byteAt m i := by
  simp [byteAt, getD_eq_getElem?_getD, getElem?_take_of_lt lt]

/-- The length and the offset are set in a header that is long enough. -/
theorem joined_of_header {header : List UInt8} (long : 20 ≤ header.length)
    (hlen : ipHlen header = header.length) (start : ipOffset header = 0)
    (fits : header.length + d.payload.length ≤ ipMaxpacket) :
    Joined d (clearIpOff (setIpLen (header ++ d.payload) (header.length + d.payload.length))) := by
  generalize total : header.length + d.payload.length = n at *
  have bound : n < 65536 := Nat.lt_succ_of_le fits
  have sevenZero : byteAt header 7 = 0 := by
    have low := byteAt_lt header 7
    have word : wordAt header 6 = byteAt header 6 * 256 + byteAt header 7 := rfl
    rw [ipOffset] at start
    omega
  -- only the header is changed
  have split : clearIpOff (setIpLen (header ++ d.payload) n) =
      clearIpOff (setIpLen header n) ++ d.payload := by
    have set2 : 2 < header.length := by omega
    have set3 : 3 < (header.set 2 (UInt8.ofNat (n / 256))).length := by
      rw [length_set]
      omega
    have length : (setIpLen header n).length = header.length := by
      rw [setIpLen, length_set, length_set]
    have set6 : 6 < (setIpLen header n).length := by omega
    have set7 : 7 < ((setIpLen header n).set 6 0).length := by
      rw [length_set]
      omega
    have inner : setIpLen (header ++ d.payload) n = setIpLen header n ++ d.payload := by
      rw [setIpLen, set_append_left 2 _ set2, set_append_left 3 _ set3, ← setIpLen]
    rw [inner, clearIpOff, set_append_left 6 _ set6, set_append_left 7 _ set7,
      byteAt_append (by omega), ← clearIpOff]
  have length : (clearIpOff (setIpLen header n)).length = header.length := by
    rw [clearIpOff, length_set, length_set, setIpLen, length_set, length_set]
  have byte : ∀ i, i ≠ 2 → i ≠ 3 → i ≠ 6 → i ≠ 7 →
      byteAt (clearIpOff (setIpLen header n)) i = byteAt header i := by
    intro i ne2 ne3 ne6 ne7
    rw [clearIpOff, byteAt_set_of_ne ne7.symm, byteAt_set_of_ne ne6.symm, setIpLen,
      byteAt_set_of_ne ne3.symm, byteAt_set_of_ne ne2.symm]
  have seven : byteAt (setIpLen header n) 7 = 0 := by
    rw [setIpLen, byteAt_set_of_ne (by decide), byteAt_set_of_ne (by decide), sevenZero]
  have hlen' : ipHlen (clearIpOff (setIpLen header n) ++ d.payload) = header.length := by
    rw [ipHlen, byteAt_append (by omega), byte 0 (by decide) (by decide) (by decide) (by decide)]
    exact hlen
  have word : wordAt (clearIpOff (setIpLen header n) ++ d.payload) 6 = 0 := by
    rw [wordAt, byteAt_append (by omega), byteAt_append (by omega), clearIpOff, seven,
      byteAt_set_of_ne (by decide), byteAt_set_self (by rw [setIpLen]; simp; omega),
      byteAt_set_self (by rw [setIpLen]; simp; omega)]
    decide
  rw [split]
  constructor
  · rw [hlen', ← length, drop_left]
  · rw [hlen', ipLen, wordAt, byteAt_append (by omega), byteAt_append (by omega), clearIpOff,
      byteAt_set_of_ne (by decide), byteAt_set_of_ne (by decide), byteAt_set_of_ne (by decide),
      byteAt_set_of_ne (by decide), setIpLen, byteAt_set_of_ne (by decide),
      byteAt_set_self (by omega), byteAt_set_self (by rw [length_set]; omega)]
    rw [UInt8.toNat_ofNat', UInt8.toNat_ofNat']
    omega
  · rw [ipOffset, ipMf, word]
    decide

end Entries

end Bitrig.PfNorm
