import Bitrig.TcpInput.Reass
import Bitrig.Lib.Reassembly

/-!
# Segments are pieces of the stream

Above `rcv_nxt`, and within a window, the sequence numbers of the segments are positions in the
stream, and `tcp_reass` inserts a segment as a piece of the stream is inserted.
-/

namespace Bitrig.TcpInput

open Bitrig.Reassembly Bitrig.SeqNum List

/-- The segments as pieces of a stream; the number `base` has the position `n`. -/
def pieces (n : Nat) (base : Seq) : Pieces Tcpqent :=
  ⟨fun q => n + (pos base q.seq).toNat, Tcpqent.reseqlen, Tcpqent.cut⟩

/-- A segment is cut from the stream, above the base and within a window. -/
structure Good (stream : List UInt8) (n : Nat) (base : Seq) (q : Tcpqent) : Prop where
  nonneg : 0 ≤ pos base q.seq
  window : pos base q.seq + q.reseqlen ≤ 2 ^ 30
  lenPos : 0 < q.reseqlen
  lenLt : q.reseqlen < 65536
  bytes : q.m = slice stream ((pieces n base).start q) q.reseqlen
  within : (pieces n base).start q + q.reseqlen ≤ stream.length

section Segments

variable {stream : List UInt8} {n : Nat} {base : Seq} {q p th : Tcpqent} {segq : List Tcpqent}

theorem pieces_start (q : Tcpqent) : (pieces n base).start q = n + (pos base q.seq).toNat :=
  rfl

theorem pieces_stop (q : Tcpqent) :
    (pieces n base).stop q = n + (pos base q.seq).toNat + q.reseqlen :=
  rfl

theorem pieces_len (q : Tcpqent) : (pieces n base).len q = q.reseqlen :=
  rfl

theorem pieces_cut (q : Tcpqent) (i : Nat) : (pieces n base).cut q i = q.cut i :=
  rfl

/-- The number behind a part of a segment. -/
theorem Good.pos_add (good : Good stream n base q) {i : Nat} (le : i ≤ q.reseqlen) :
    pos base (q.seq + BitVec.ofNat 32 i) = pos base q.seq + i := by
  have nonneg := good.nonneg
  have window := good.window
  exact SeqNum.pos_add (by omega) (by omega)

theorem Good.pos_next (good : Good stream n base q) :
    pos base q.next = pos base q.seq + q.reseqlen :=
  good.pos_add le_rfl

/-- Numbers in the window are compared as their positions are. -/
theorem diff_of_window {a b : Seq} (lowA : 0 ≤ pos base a) (highA : pos base a ≤ 2 ^ 30)
    (lowB : 0 ≤ pos base b) (highB : pos base b ≤ 2 ^ 30) :
    diff a b = pos base a - pos base b :=
  diff_eq (by omega) (by omega)

theorem Good.diff (good : Good stream n base p) (good' : Good stream n base q) :
    SeqNum.diff p.seq q.seq = pos base p.seq - pos base q.seq := by
  have window := good.window
  have window' := good'.window
  exact diff_of_window good.nonneg (by omega) good'.nonneg (by omega)

theorem Good.diff_next (good : Good stream n base p) (good' : Good stream n base q) :
    SeqNum.diff p.next q.seq = pos base p.seq + p.reseqlen - pos base q.seq := by
  have window := good.window
  have window' := good'.window
  have nonneg := good.nonneg
  rw [← good.pos_next]
  have next := good.pos_next
  exact diff_of_window (by omega) (by omega) good'.nonneg (by omega)

theorem cuts : (pieces n base).Cuts (Good stream n base) where
  start := by
    intro q i good lt
    have nonneg := good.nonneg
    rw [pieces_cut, pieces_start, pieces_start, Tcpqent.cut, good.pos_add lt.le]
    omega
  len _ _ := rfl
  good := by
    intro q i good lt
    rw [pieces_len] at lt
    have nonneg := good.nonneg
    have window := good.window
    have short := good.lenLt
    have isPos : pos base (q.cut i).seq = pos base q.seq + i := good.pos_add lt.le
    have isLen : (q.cut i).reseqlen = q.reseqlen - i := rfl
    have start : (pieces n base).start (q.cut i) = (pieces n base).start q + i := by
      rw [pieces_start, pieces_start]
      omega
    rw [pieces_cut]
    constructor
    · omega
    · omega
    · omega
    · omega
    · rw [start, isLen, ← drop_slice, ← good.bytes]
      rfl
    · have within := good.within
      omega

/-! ### A new segment -/

section

variable (good : Good stream n base th)
include good

theorem trimNew_eq {before : Option Tcpqent}
    (goodBefore : ∀ p, before = some p → Good stream n base p) :
    trimNew th before = (pieces n base).trim th before := by
  cases before with
  | none => rfl
  | some p =>
    have goodP := goodBefore p rfl
    have nonneg := good.nonneg
    have nonnegP := goodP.nonneg
    have isDiff := goodP.diff_next good
    rw [trimNew, Pieces.trim, isDiff, pieces_stop, pieces_start, pieces_len]
    generalize pos base th.seq = x at *
    generalize pos base p.seq = y at *
    have cutAt : n + y.toNat + p.reseqlen - (n + x.toNat) = (y + p.reseqlen - x).toNat := by omega
    rw [cutAt]
    split_ifs <;> first | rfl | omega

section

variable (goodQueue : ∀ q ∈ segq, Good stream n base q)
include goodQueue

theorem trimAfter_eq : trimAfter th segq = (pieces n base).clip ((pieces n base).stop th) segq := by
  induction segq with
  | nil => rfl
  | cons q rest ih =>
    have goodQ := goodQueue q mem_cons_self
    have rest' := ih (fun r mem => goodQueue r (mem_cons_of_mem q mem))
    have nonneg := good.nonneg
    have nonnegQ := goodQ.nonneg
    have isDiff := good.diff_next goodQ
    rw [trimAfter, Pieces.clip, isDiff, rest', pieces_stop, pieces_start, pieces_len]
    generalize pos base th.seq = x at *
    generalize pos base q.seq = y at *
    have cutAt : n + x.toNat + th.reseqlen - (n + y.toNat) = (x + th.reseqlen - y).toNat := by omega
    rw [cutAt]
    split_ifs <;> first | rfl | omega

/-- The loop that finds the place of the segment splits the queue by the positions. -/
theorem split_eq : (segq.takeWhile fun q => !seqGt q.seq th.seq) =
        segq.takeWhile (fun q => decide ((pieces n base).start q ≤ (pieces n base).start th)) ∧
      (segq.dropWhile fun q => !seqGt q.seq th.seq) =
        segq.dropWhile (fun q => decide ((pieces n base).start q ≤ (pieces n base).start th)) := by
  induction segq with
  | nil => exact ⟨rfl, rfl⟩
  | cons q rest ih =>
    have goodQ := goodQueue q mem_cons_self
    obtain ⟨take, drop⟩ := ih (fun r mem => goodQueue r (mem_cons_of_mem q mem))
    have nonneg := good.nonneg
    have same : (!seqGt q.seq th.seq) =
        decide ((pieces n base).start q ≤ (pieces n base).start th) := by
      rw [seqGt, goodQ.diff good, pieces_start, pieces_start, ← decide_not, decide_eq_decide]
      omega
    rw [takeWhile_cons, takeWhile_cons, dropWhile_cons, dropWhile_cons, same, take, drop]
    exact ⟨rfl, rfl⟩

theorem insertSegment_eq :
    (insertSegment th segq).map Prod.snd = (pieces n base).insert th segq := by
  obtain ⟨take, drop⟩ := split_eq good goodQueue
  have goodBefore : ∀ p, (segq.takeWhile fun q => !seqGt q.seq th.seq).getLast? = some p →
      Good stream n base p := by
    intro p isLast
    exact goodQueue p ((takeWhile_sublist _).mem (mem_of_getLast? isLast))
  have goodAfter : ∀ q ∈ segq.dropWhile (fun q => !seqGt q.seq th.seq), Good stream n base q :=
    fun q mem => goodQueue q ((dropWhile_sublist _).mem mem)
  have trim := trimNew_eq good goodBefore
  rw [insertSegment, Option.map_map, trim, Pieces.insert, ← take, ← drop]
  -- what is left of the segment is cut from the stream, too
  cases isTrim : (pieces n base).trim th (segq.takeWhile fun q => !seqGt q.seq th.seq).getLast? with
  | none => rfl
  | some new =>
    have goodNew : Good stream n base new := cuts.good_trim good isTrim
    have stored : new.stored = new := by
      rw [Tcpqent.stored, Nat.mod_eq_of_lt goodNew.lenLt]
    simp only [Option.map_some, Function.comp_apply, stored, trimAfter_eq goodNew goodAfter]

end

end

end Segments

end Bitrig.TcpInput
