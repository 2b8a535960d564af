import Bitrig.TcpInput.Segments

/-!
# Reassembly delivers the stream

Segments that are cut from a stream, in any order and with any overlap, are appended to the
receive buffer as the stream, up to the first byte that has not been received.
-/

namespace Bitrig.TcpInput

open Bitrig.Reassembly Bitrig.SeqNum Bitrig.Transition List

/-- A connection, with the positions and the lengths of the segments that have been received. -/
structure Conn where
  tcb : Tcb
  received : List (Nat × Nat)

/-- A call of `tcp_reass`, and the position of the segment in the stream. -/
structure Call where
  position : Nat
  th : Tcpqent
  memory : Bool

def next (call : Call) (c : Conn) : Option Conn :=
  some ⟨(c.tcb.reass call.th call.memory).2, (call.position, call.th.reseqlen) :: c.received⟩

/-- The segment is cut from the stream, which begins at the number `irs`; it starts at `rcv_nxt`
or above it, within a window.  There is memory for the entry. -/
def CutFrom (stream : List UInt8) (irs : Seq) (call : Call) (c : Conn) : Prop :=
  call.memory = true ∧ call.th.seq = irs + BitVec.ofNat 32 call.position ∧
    call.th.m = slice stream call.position call.th.reseqlen ∧
    0 < call.th.reseqlen ∧ call.th.reseqlen < 65536 ∧
    call.position + call.th.reseqlen ≤ stream.length ∧
    c.tcb.advanced ≤ call.position ∧
    call.position + call.th.reseqlen ≤ c.tcb.advanced + 2 ^ 30

instance (stream : List UInt8) (irs : Seq) (call : Call) (c : Conn) :
    Decidable (CutFrom stream irs call c) := by
  unfold CutFrom
  infer_instance

/-- An established connection that waits for the first byte of the stream. -/
def start (tState : Nat) (irs : Seq) (cantrcvmore : Bool) : Conn :=
  ⟨⟨tState, irs, [], [], cantrcvmore, 0⟩, []⟩

/-- A byte of the stream has been received. -/
def Received (received : List (Nat × Nat)) (x : Nat) : Prop :=
  ∃ r ∈ received, r.1 ≤ x ∧ x < r.1 + r.2

/-- The bytes of a segment. -/
def Covers (tp : Tcb) (segq : List Tcpqent) (x : Nat) : Prop :=
  (pieces tp.advanced tp.rcvNxt).Covers segq x

/-! ### The queue -/

/-- The queue and what has been delivered, while segments are being presented. -/
structure Queued (stream : List UInt8) (irs : Seq) (received : List (Nat × Nat)) (tp : Tcb)
    (segq : List Tcpqent) : Prop where
  nxt : tp.rcvNxt = irs + BitVec.ofNat 32 tp.advanced
  ordered : (pieces tp.advanced tp.rcvNxt).Ordered segq
  good : ∀ q ∈ segq, Good stream tp.advanced tp.rcvNxt q
  appended : tp.soRcv = if tp.cantrcvmore then [] else slice stream 0 tp.advanced
  covers : ∀ x, Received received x ↔ x < tp.advanced ∨ Covers tp segq x
  established : ¬tp.tState < tcpsEstablished

/-- Between the calls, the queue is above `rcv_nxt`. -/
structure Inv (stream : List UInt8) (irs : Seq) (c : Conn) : Prop extends
    Queued stream irs c.received c.tcb c.tcb.segq where
  above : ∀ q ∈ c.tcb.segq, q.seq ≠ c.tcb.rcvNxt

section Queue

variable {stream : List UInt8} {irs : Seq} {received : List (Nat × Nat)} {tp : Tcb}
  {q : Tcpqent} {segq rest : List Tcpqent} {n : Nat} {base : Seq}

/-- The positions of segments behind another one do not depend on whether that one has been
presented. -/
theorem rebase {e : Tcpqent} (goodQ : Good stream n base q) (start : q.seq = base)
    (goodE : Good stream n base e)
    (behind : (pieces n base).stop q ≤ (pieces n base).start e) :
    pos (base + BitVec.ofNat 32 q.reseqlen) e.seq = pos base e.seq - q.reseqlen ∧
      (pieces (n + q.reseqlen) (base + BitVec.ofNat 32 q.reseqlen)).start e =
        (pieces n base).start e := by
  have window := goodE.window
  have nonneg := goodE.nonneg
  have zero : pos base q.seq = 0 := by rw [start, pos_self]
  have newBase : pos base (base + BitVec.ofNat 32 q.reseqlen) = q.reseqlen := by
    have next := goodQ.pos_next
    rw [Tcpqent.next, zero, start] at next
    omega
  rw [pieces_stop, pieces_start] at behind
  have moved : pos (base + BitVec.ofNat 32 q.reseqlen) e.seq = pos base e.seq - q.reseqlen := by
    rw [← newBase]
    refine diff_eq ?_ ?_ <;> rw [newBase] <;> omega
  refine ⟨moved, ?_⟩
  rw [pieces_start, pieces_start]
  omega

/-- Segments that begin at different places cover `rcv_nxt` only if one begins there. -/
theorem not_covers_base (good : ∀ q ∈ segq, Good stream n base q)
    (above : ∀ q ∈ segq, q.seq ≠ base) : ¬(pieces n base).Covers segq n := by
  rintro ⟨q, mem, low, -⟩
  have nonneg := (good q mem).nonneg
  rw [pieces_start] at low
  have same : pos base q.seq = pos base base := by
    rw [pos_self]
    omega
  exact above q mem (eq_of_pos_eq same)

/-- A segment at `rcv_nxt` is presented. -/
theorem Queued.present (queued : Queued stream irs received tp (q :: rest))
    (start : q.seq = tp.rcvNxt) : Queued stream irs received (tp.present q) rest := by
  obtain ⟨behind, ordered⟩ := pairwise_cons.mp queued.ordered
  have goodQ := queued.good q mem_cons_self
  have startQ : (pieces tp.advanced tp.rcvNxt).start q = tp.advanced := by
    rw [pieces_start, start, pos_self]
    rfl
  have stopQ : (pieces tp.advanced tp.rcvNxt).stop q = tp.advanced + q.reseqlen :=
    congrArg (· + q.reseqlen) startQ
  have goodRest : ∀ e ∈ rest, Good stream tp.advanced tp.rcvNxt e :=
    fun e mem => queued.good e (mem_cons_of_mem q mem)
  have moved : ∀ e ∈ rest, _ := fun e mem => rebase goodQ start (goodRest e mem) (behind e mem)
  have has : ∀ e ∈ rest, ∀ x,
      (pieces (tp.advanced + q.reseqlen) (tp.rcvNxt + BitVec.ofNat 32 q.reseqlen)).Has e x ↔
        (pieces tp.advanced tp.rcvNxt).Has e x := by
    intro e mem x
    rw [Pieces.Has, Pieces.Has, Pieces.stop, (moved e mem).2]
    exact Iff.rfl
  constructor
  · change tp.rcvNxt + BitVec.ofNat 32 q.reseqlen = irs + BitVec.ofNat 32 (tp.advanced + q.reseqlen)
    rw [queued.nxt, BitVec.ofNat_add, add_assoc]
  · refine ordered.imp_of_mem (fun {a b} memA memB apart => ?_)
    change (pieces (tp.advanced + q.reseqlen) (tp.rcvNxt + BitVec.ofNat 32 q.reseqlen)).start a +
      a.reseqlen ≤ (pieces (tp.advanced + q.reseqlen)
        (tp.rcvNxt + BitVec.ofNat 32 q.reseqlen)).start b
    rw [(moved a memA).2, (moved b memB).2]
    exact apart
  · intro e mem
    have goodE := goodRest e mem
    have window := goodE.window
    have nonneg := goodE.nonneg
    obtain ⟨isPos, isStart⟩ := moved e mem
    have later : tp.advanced + q.reseqlen ≤ tp.advanced + (pos tp.rcvNxt e.seq).toNat :=
      stopQ ▸ behind e mem
    change Good stream (tp.advanced + q.reseqlen) (tp.rcvNxt + BitVec.ofNat 32 q.reseqlen) e
    constructor
    · omega
    · omega
    · exact goodE.lenPos
    · exact goodE.lenLt
    · rw [isStart]
      exact goodE.bytes
    · rw [isStart]
      exact goodE.within
  · change (if tp.cantrcvmore then tp.soRcv else tp.soRcv ++ q.m) =
      if tp.cantrcvmore then [] else slice stream 0 (tp.advanced + q.reseqlen)
    have appended := queued.appended
    cases flag : tp.cantrcvmore with
    | true =>
      rw [flag] at appended
      exact appended
    | false =>
      rw [flag] at appended
      rw [if_neg Bool.false_ne_true, appended, goodQ.bytes, startQ]
      have joined : slice stream 0 tp.advanced ++ slice stream (0 + tp.advanced) q.reseqlen =
          slice stream 0 (tp.advanced + q.reseqlen) := slice_append ..
      rwa [zero_add] at joined
  · intro x
    have rest' : Covers (tp.present q) rest x ↔ (pieces tp.advanced tp.rcvNxt).Covers rest x := by
      constructor
      · rintro ⟨e, mem, inside⟩
        exact ⟨e, mem, (has e mem x).mp inside⟩
      · rintro ⟨e, mem, inside⟩
        exact ⟨e, mem, (has e mem x).mpr inside⟩
    rw [queued.covers, rest', Covers, Pieces.covers_cons, Pieces.Has, stopQ, ← or_assoc]
    change _ ↔ x < tp.advanced + q.reseqlen ∨ _
    refine or_congr_left ?_
    omega
  · exact queued.established

/-- `tcp_flush_queue` presents the segments up to the first gap. -/
theorem flushLoop_spec (flags : Bool) (queued : Queued stream irs received tp segq) :
    Inv stream irs ⟨(Tcb.flushLoop segq flags tp).2, received⟩ := by
  induction segq generalizing tp flags with
  | nil =>
    obtain ⟨nxt, ordered, good, appended, covers, established⟩ := queued
    exact ⟨⟨nxt, ordered, good, appended, covers, established⟩, fun q mem => absurd mem not_mem_nil⟩
  | cons q rest ih =>
    rw [Tcb.flushLoop]
    by_cases start : q.seq = tp.rcvNxt
    · rw [if_pos start]
      exact ih q.fin (queued.present start)
    · rw [if_neg start]
      -- there is a gap before the first segment, and the others are behind it
      obtain ⟨nxt, ordered, good, appended, covers, established⟩ := queued
      refine ⟨⟨nxt, ordered, good, appended, covers, established⟩, ?_⟩
      obtain ⟨behind, -⟩ := pairwise_cons.mp ordered
      intro e mem
      rcases mem_cons.mp mem with rfl | mem
      · exact start
      · intro (is : e.seq = tp.rcvNxt)
        have later := behind e mem
        have positive := (good q mem_cons_self).lenPos
        rw [pieces_stop, pieces_start, is, pos_self] at later
        omega

theorem flushQueue_eq (established : ¬tp.tState < tcpsEstablished) :
    tp.flushQueue = Tcb.flushLoop tp.segq false tp := by
  have notReceived : ∀ len : Nat, ¬(tp.tState = tcpsSynReceived ∧ len ≠ 0) := by
    rintro len ⟨is, -⟩
    exact established (by rw [is]; decide)
  unfold Tcb.flushQueue
  rw [if_neg established]
  cases isQueue : tp.segq with
  | nil =>
    have same : { tp with segq := [] } = tp := by rw [← isQueue]
    rw [Tcb.flushLoop, same]
  | cons q rest =>
    dsimp only
    rw [if_neg (notReceived q.reseqlen)]
    by_cases start : q.seq = tp.rcvNxt
    · rw [if_neg (not_not.mpr start)]
    · have same : { tp with segq := q :: rest } = tp := by rw [← isQueue]
      rw [if_pos start, Tcb.flushLoop, if_neg start, same]

end Queue

/-! ### A call -/

section Calls

variable {stream : List UInt8} {irs : Seq} {c : Conn} {call : Call}

section

variable (inv : Inv stream irs c)
include inv

/-- The segment of a call as a piece of the stream. -/
theorem Inv.good_call (cutFrom : CutFrom stream irs call c) :
    Good stream c.tcb.advanced c.tcb.rcvNxt call.th ∧
      (pieces c.tcb.advanced c.tcb.rcvNxt).start call.th = call.position := by
  obtain ⟨-, seq, bytes, lenPos, lenLt, within, low, high⟩ := cutFrom
  have isPos : pos c.tcb.rcvNxt call.th.seq = call.position - c.tcb.advanced := by
    have split : call.th.seq = c.tcb.rcvNxt + BitVec.ofNat 32 (call.position - c.tcb.advanced) := by
      rw [seq, inv.nxt, add_assoc, ← BitVec.ofNat_add, Nat.add_sub_cancel' low]
    rw [split, SeqNum.pos_add] <;> rw [pos_self] <;> omega
  have start : (pieces c.tcb.advanced c.tcb.rcvNxt).start call.th = call.position := by
    rw [pieces_start]
    omega
  refine ⟨⟨?_, ?_, lenPos, lenLt, ?_, ?_⟩, start⟩
  · omega
  · omega
  · rw [start]
    exact bytes
  · rw [start]
    exact within

/-- A segment that has been cut does not begin at `rcv_nxt`, unless it did before it was cut. -/
theorem Inv.seq_ne {th th' : Tcpqent} {segq : List Tcpqent}
    (good : Good stream c.tcb.advanced c.tcb.rcvNxt th)
    (inserted : insertSegment th c.tcb.segq = some (th', segq)) (ne : th'.seq ≠ c.tcb.rcvNxt) :
    th.seq ≠ c.tcb.rcvNxt := by
  intro start
  have first : c.tcb.segq.takeWhile (fun q => !seqGt q.seq th.seq) = [] := by
    cases isQueue : c.tcb.segq with
    | nil => rfl
    | cons q rest =>
      have mem : q ∈ c.tcb.segq := by rw [isQueue]; exact mem_cons_self
      have goodQ := inv.good q mem
      have nonneg := goodQ.nonneg
      have apart : pos c.tcb.rcvNxt q.seq ≠ 0 := by
        rw [← pos_self c.tcb.rcvNxt]
        exact fun same => inv.above q mem (eq_of_pos_eq same)
      have greater : seqGt q.seq th.seq = true := by
        rw [seqGt, goodQ.diff good, start, pos_self, decide_eq_true_eq]
        omega
      rw [takeWhile_cons, greater]
      rfl
  rw [insertSegment, first] at inserted
  have isTh : th = th' := congrArg Prod.fst (Option.some.inj inserted)
  exact ne (isTh ▸ start)

/-- A call keeps the queue in order, and presents what can be presented. -/
theorem Inv.of_call (cutFrom : CutFrom stream irs call c) :
    Inv stream irs ⟨(c.tcb.reass call.th call.memory).2,
      (call.position, call.th.reseqlen) :: c.received⟩ := by
  obtain ⟨good, start⟩ := inv.good_call cutFrom
  have insert := insertSegment_eq good inv.good
  have newReceived : ∀ x, Received ((call.position, call.th.reseqlen) :: c.received) x ↔
      Received c.received x ∨ (pieces c.tcb.advanced c.tcb.rcvNxt).Has call.th x := by
    intro x
    rw [Pieces.Has, pieces_stop, ← pieces_start, start]
    simp only [Received, exists_mem_cons_iff]
    exact or_comm
  rw [cutFrom.1, Tcb.reass, if_pos rfl, Tcb.queueSegment]
  cases inserted : insertSegment call.th c.tcb.segq with
  | none =>
    -- all of its bytes are in the queue
    rw [inserted] at insert
    refine ⟨⟨inv.nxt, inv.ordered, inv.good, inv.appended, fun x => ?_, inv.established⟩, inv.above⟩
    rw [newReceived, inv.covers]
    refine ⟨fun either => either.elim id fun has => .inr ?_, .inl⟩
    exact Pieces.covers_of_insert_eq_none inv.ordered insert.symm has
  | some result =>
    obtain ⟨th', segq⟩ := result
    rw [inserted] at insert
    have isInserted := Pieces.inserted cuts inv.ordered inv.good good insert.symm
    have queued : Queued stream irs ((call.position, call.th.reseqlen) :: c.received)
        { c.tcb with segq } segq := by
      refine ⟨inv.nxt, isInserted.ordered, isInserted.good, inv.appended, fun x => ?_,
        inv.established⟩
      rw [newReceived, inv.covers]
      change _ ↔ x < c.tcb.advanced ∨ (pieces c.tcb.advanced c.tcb.rcvNxt).Covers segq x
      rw [isInserted.covers, or_assoc]
      exact Iff.rfl
    dsimp only
    by_cases reaches : th'.seq = c.tcb.rcvNxt
    · rw [if_neg (not_not.mpr reaches), flushQueue_eq queued.established]
      exact flushLoop_spec false queued
    · rw [if_pos reaches]
      refine ⟨queued, fun q mem is => ?_⟩
      -- the new queue covers `rcv_nxt` only if the new segment does
      have covered : (pieces c.tcb.advanced c.tcb.rcvNxt).Covers segq c.tcb.advanced := by
        refine ⟨q, mem, ?_, ?_⟩
        · rw [pieces_start, is, pos_self]
          exact le_rfl
        · have positive := (isInserted.good q mem).lenPos
          rw [pieces_stop]
          omega
      rcases (isInserted.covers _).mp covered with old | has
      · exact not_covers_base inv.good inv.above old
      · have nonneg := good.nonneg
        have low := has.1
        rw [pieces_start] at low
        have same : pos c.tcb.rcvNxt call.th.seq = pos c.tcb.rcvNxt c.tcb.rcvNxt := by
          rw [pos_self]
          omega
        exact inv.seq_ne good inserted reaches (eq_of_pos_eq same)

/-! ### Any sequence of calls -/

/-- What has been delivered, and what is in the queue. -/
structure Delivered (stream : List UInt8) (irs : Seq) (c : Conn) : Prop where
  nxt : c.tcb.rcvNxt = irs + BitVec.ofNat 32 c.tcb.advanced
  appended : c.tcb.soRcv = if c.tcb.cantrcvmore then [] else stream.take c.tcb.advanced
  first : (∀ x < c.tcb.advanced, Received c.received x) ∧ ¬Received c.received c.tcb.advanced
  sorted : c.tcb.segq.Pairwise fun a b => seqLt a.seq b.seq ∧ seqLeq a.next b.seq
  above : ∀ q ∈ c.tcb.segq, seqGt q.seq c.tcb.rcvNxt

theorem Inv.delivered : Delivered stream irs c where
  nxt := inv.nxt
  appended := inv.appended
  first := by
    refine ⟨fun x lt => (inv.covers x).mpr (.inl lt), fun received => ?_⟩
    rcases (inv.covers _).mp received with lt | covers
    · exact lt_irrefl _ lt
    · exact not_covers_base inv.good inv.above covers
  sorted := by
    refine inv.ordered.imp_of_mem (fun {a b} memA memB apart => ?_)
    have goodA := inv.good a memA
    have goodB := inv.good b memB
    have positive := goodA.lenPos
    rw [pieces_stop, pieces_start] at apart
    rw [seqLt, seqLeq, goodA.diff goodB, goodA.diff_next goodB, decide_eq_true_eq,
      decide_eq_true_eq]
    omega
  above := by
    intro q mem
    have nonneg := (inv.good q mem).nonneg
    have apart : pos c.tcb.rcvNxt q.seq ≠ 0 := by
      rw [← pos_self c.tcb.rcvNxt]
      exact fun same => inv.above q mem (eq_of_pos_eq same)
    rw [seqGt, decide_eq_true_eq]
    exact lt_of_le_of_ne nonneg apart.symm

end

theorem inv_start {tState : Nat} (established : tcpsEstablished ≤ tState) (cantrcvmore : Bool) :
    Inv stream irs (start tState irs cantrcvmore) := by
  refine ⟨⟨?_, List.Pairwise.nil, fun q mem => absurd mem not_mem_nil, ?_, fun x => ?_,
    not_lt.mpr established⟩, fun q mem => absurd mem not_mem_nil⟩
  · exact (BitVec.add_zero irs).symm
  · change [] = if cantrcvmore then [] else slice stream 0 0
    rw [slice_zero, ite_self]
  · refine iff_of_false ?_ ?_
    · rintro ⟨r, mem, -⟩
      cases mem
    · rintro (lt | covers)
      · exact Nat.not_lt_zero x lt
      · exact Pieces.not_covers_nil covers

/-- After any calls on an established connection, the receive buffer has been given the stream up
to `rcv_nxt`, unless the socket takes no more; `rcv_nxt` is at the first byte that has not been
received, and the queue is sorted, disjoint and above it. -/
theorem reass_delivers_stream {tState : Nat} (established : tcpsEstablished ≤ tState)
    {cantrcvmore : Bool}
    (run : Run next (CutFrom stream irs) (start tState irs cantrcvmore) c) :
    Delivered stream irs c := by
  refine Inv.delivered (Run.invariant (P := Inv stream irs) ?_ run (inv_start established _))
  intro call source target inv cutFrom step
  cases step
  exact inv.of_call cutFrom

end Calls

/-- Twelve bytes, whose sequence numbers wrap around. -/
def sampleStream : List UInt8 := [1, 2, 3, 4, 5, 6, 7, 8, 9, 10, 11, 12]

def sampleIrs : Seq := BitVec.ofNat 32 4294967292

def sampleCall (position len : Nat) : Call :=
  ⟨position,
    ⟨sampleIrs + BitVec.ofNat 32 position, false, len, slice sampleStream position len⟩, true⟩

/-- The end comes first, then a part of it again, and then the beginning. -/
theorem sampleStream_delivered : ∃ c, Run next (CutFrom sampleStream sampleIrs)
    (start tcpsEstablished sampleIrs false) c ∧ c.tcb.soRcv = sampleStream ∧
    Delivered sampleStream sampleIrs c := by
  refine exec_implies (Q := fun c => c.tcb.soRcv = sampleStream)
    [sampleCall 6 6, sampleCall 4 5, sampleCall 0 5] (by decide +kernel) ?_
  intro c run test
  exact ⟨test, reass_delivers_stream le_rfl run⟩

/-- An established connection whose socket takes no more: `rcv_nxt` is advanced, and nothing is
appended. -/
theorem cantrcvmore_discards_stream : ∃ c, Run next (CutFrom sampleStream sampleIrs)
    (start tcpsEstablished sampleIrs true) c ∧ c.tcb.advanced = 5 ∧
    c.tcb.rcvNxt = sampleIrs + BitVec.ofNat 32 5 ∧ c.tcb.soRcv ≠ sampleStream.take 5 := by
  exact exec_reaches [sampleCall 0 5] (by decide +kernel)

end Bitrig.TcpInput
