import Bitrig.TcpInput.Sack

/-!
# The holes of the scoreboard

Around `snd_una` the sequence numbers are positions, and the holes are disjoint intervals in
increasing order.  The loops over the holes keep them so for each block that is not too long.
-/

namespace Bitrig.TcpInput

open Bitrig.SeqNum List

/-- A number is not far from the base. -/
def Near (base a : Seq) : Prop :=
  -2 ^ 30 ≤ pos base a ∧ pos base a < 2 ^ 30

/-- A hole between two positions. -/
structure HoleOk (base : Seq) (low high : Int) (hole : Sackhole) : Prop where
  above : low ≤ pos base hole.start
  lt : pos base hole.start < pos base hole.stop
  below : pos base hole.stop ≤ high
  rxmit : pos base hole.start ≤ pos base hole.rxmit ∧ pos base hole.rxmit ≤ pos base hole.stop

/-- Holes between two positions, in increasing order. -/
structure HolesOk (base : Seq) (low high : Int) (holes : List Sackhole) : Prop where
  each : ∀ hole ∈ holes, HoleOk base low high hole
  ordered : holes.Pairwise fun a b => pos base a.stop ≤ pos base b.start

section Holes

variable {base a b : Seq} {low high : Int} {hole cur : Sackhole} {holes rest : List Sackhole}

section Near

variable (nearA : Near base a) (nearB : Near base b)
include nearA nearB

theorem diff_near : diff a b = pos base a - pos base b := by
  obtain ⟨lowA, highA⟩ := nearA
  obtain ⟨lowB, highB⟩ := nearB
  exact diff_eq (by omega) (by omega)

theorem seqLeq_near : seqLeq a b = decide (pos base a ≤ pos base b) := by
  rw [seqLeq, diff_near nearA nearB, decide_eq_decide]
  omega

theorem seqGeq_near : seqGeq a b = decide (pos base b ≤ pos base a) := by
  rw [seqGeq, diff_near nearA nearB, decide_eq_decide]
  omega

theorem seqLt_near : seqLt a b = decide (pos base a < pos base b) := by
  rw [seqLt, diff_near nearA nearB, decide_eq_decide]
  omega

theorem seqGt_near : seqGt a b = decide (pos base b < pos base a) := by
  rw [seqGt, diff_near nearA nearB, decide_eq_decide]
  omega

theorem pos_seqMax : pos base (seqMax a b) = max (pos base a) (pos base b) := by
  rw [seqMax, seqGt_near nearA nearB]
  simp only [decide_eq_true_eq, max_def]
  split_ifs <;> omega

theorem pos_seqMin : pos base (seqMin a b) = min (pos base a) (pos base b) := by
  rw [seqMin, seqLt_near nearA nearB]
  simp only [decide_eq_true_eq, min_def]
  split_ifs <;> omega

end Near

theorem HoleOk.near (ok : HoleOk base low high hole) (nonneg : 0 ≤ low) (bound : high < 2 ^ 30) :
    Near base hole.start ∧ Near base hole.stop ∧ Near base hole.rxmit := by
  obtain ⟨above, lt, below, rxmit⟩ := ok
  refine ⟨⟨?_, ?_⟩, ⟨?_, ?_⟩, ?_, ?_⟩ <;> omega

theorem HolesOk.nil : HolesOk base low high [] :=
  ⟨fun _ mem => absurd mem not_mem_nil, List.Pairwise.nil⟩

theorem HolesOk.cons (ok : HoleOk base low high cur)
    (others : HolesOk base (pos base cur.stop) high rest) :
    HolesOk base low high (cur :: rest) := by
  constructor
  · intro hole mem
    rcases mem_cons.mp mem with rfl | mem
    · exact ok
    · obtain ⟨above, lt, below, rxmit⟩ := others.each hole mem
      exact ⟨(ok.above.trans ok.lt.le).trans above, lt, below, rxmit⟩
  · exact pairwise_cons.mpr ⟨fun hole mem => (others.each hole mem).above, others.ordered⟩

theorem HolesOk.head (ok : HolesOk base low high (cur :: rest)) : HoleOk base low high cur :=
  ok.each cur mem_cons_self

theorem HolesOk.tail (ok : HolesOk base low high (cur :: rest)) :
    HolesOk base (pos base cur.stop) high rest := by
  obtain ⟨behind, ordered⟩ := pairwise_cons.mp ok.ordered
  refine ⟨fun hole mem => ?_, ordered⟩
  obtain ⟨above, lt, below, rxmit⟩ := ok.each hole (mem_cons_of_mem cur mem)
  exact ⟨behind hole mem, lt, below, rxmit⟩

theorem HolesOk.weaken {low' high' : Int} (ok : HolesOk base low high holes) (lower : low' ≤ low)
    (higher : high ≤ high') : HolesOk base low' high' holes := by
  refine ⟨fun hole mem => ?_, ok.ordered⟩
  obtain ⟨above, lt, below, rxmit⟩ := ok.each hole mem
  exact ⟨lower.trans above, lt, below.trans higher, rxmit⟩

/-- A hole behind all others. -/
theorem HolesOk.concat {top : Int} (ok : HolesOk base low high holes)
    (last : HoleOk base high top hole) (le : low ≤ high) :
    HolesOk base low top (holes ++ [hole]) := by
  constructor
  · intro other mem
    rcases mem_append.mp mem with mem | mem
    · have higher : high ≤ top := (last.above.trans last.lt.le).trans last.below
      obtain ⟨above, lt, below, rxmit⟩ := ok.each other mem
      exact ⟨above, lt, below.trans higher, rxmit⟩
    · obtain rfl := mem_singleton.mp mem
      obtain ⟨above, lt, below, rxmit⟩ := last
      exact ⟨le.trans above, lt, below, rxmit⟩
  · refine pairwise_append.mpr ⟨ok.ordered, pairwise_singleton _ _, ?_⟩
    intro other mem new memNew
    obtain rfl := mem_singleton.mp memNew
    exact (ok.each other mem).below.trans last.above

/-! ### The loop over the holes -/

/-- What the loop over the holes leaves.  If the block is behind all holes, they have all been
passed. -/
structure Walked (base : Seq) (low high start : Int) (holes : List Sackhole) (w : Walk) :
    Prop where
  ok : HolesOk base low high (w.passed ++ w.rest)
  count : ((w.passed ++ w.rest).length : Int) = holes.length + w.num
  behind : high < start → w.rest = [] ∧ w.done = false ∧ (holes ≠ [] → w.passed ≠ [])

/-- Holes that the loop has passed are put in front. -/
theorem Walked.pass {start : Int} {w : Walk} {new : List Sackhole} {num : Int}
    (walked : Walked base (pos base cur.stop) high start rest w)
    (front : HolesOk base (pos base cur.stop) high (w.passed ++ w.rest) →
      HolesOk base low high (new ++ (w.passed ++ w.rest)))
    (count : (new.length : Int) = 1 + num) (kept : high < start → new ≠ []) :
    Walked base low high start (cur :: rest) (w.pass new num) := by
  have assoc : (w.pass new num).passed ++ (w.pass new num).rest = new ++ (w.passed ++ w.rest) :=
    append_assoc _ _ _
  refine ⟨?_, ?_, fun lt => ?_⟩
  · rw [assoc]
    exact front walked.ok
  · have before := walked.count
    rw [assoc, length_append, length_cons]
    change ((new.length + (w.passed ++ w.rest).length : Nat) : Int) = _ + (w.num + num)
    omega
  · obtain ⟨rest', done, -⟩ := walked.behind lt
    exact ⟨rest', done, fun _ => append_ne_nil_of_left_ne_nil (kept lt) _⟩

theorem walkHoles_spec (maxseg : Nat) {sack : Sackblk} (nonneg : 0 ≤ low) (bound : high < 2 ^ 30)
    (nearStart : Near base sack.start) (nearStop : Near base sack.stop)
    (lt : pos base sack.start < pos base sack.stop) (ok : HolesOk base low high holes)
    (memory : List Bool) : ∃ w, walkHoles maxseg sack holes memory = some w ∧
      Walked base low high (pos base sack.start) holes w := by
  induction holes generalizing low memory with
  | nil => exact ⟨_, rfl, .nil, rfl, fun _ => ⟨rfl, rfl, fun ne => absurd rfl ne⟩⟩
  | cons cur rest ih =>
    have okCur := ok.head
    obtain ⟨nearCur, nearCurStop, nearRxmit⟩ := okCur.near nonneg bound
    obtain ⟨above, curLt, below, rxmitLow, rxmitHigh⟩ := okCur
    have tail := ok.tail
    have nonneg' : 0 ≤ pos base cur.stop := by omega
    -- the comparisons are those of the positions
    have c1 := seqLeq_near nearStop nearCur
    have c2 := seqGeq_near nearStart nearCurStop
    have c3 := seqLeq_near nearStart nearCur
    have c4 := seqGeq_near nearStop nearCurStop
    have c5 := seqLt_near nearCur nearStart
    have c6 := seqGt_near nearCurStop nearStop
    have isMax := pos_seqMax nearRxmit nearStop
    have isMin := pos_seqMin nearRxmit nearStart
    unfold walkHoles
    simp only [c1, c2, c3, c4, c5, c6, decide_eq_true_eq, Bool.and_eq_true]
    obtain ⟨w, run, walked⟩ := ih nonneg' tail memory
    rw [run]
    by_cases before : pos base sack.stop ≤ pos base cur.start
    · rw [if_pos before]
      exact ⟨_, rfl, ok, (add_zero _).symm, fun lt' => by omega⟩
    rw [if_neg before]
    by_cases beyond : pos base cur.stop ≤ pos base sack.start
    · rw [if_pos beyond]
      refine ⟨_, rfl, walked.pass (fun others => ?_) rfl (fun _ => cons_ne_nil _ _)⟩
      exact others.cons ⟨above, curLt, below, rxmitLow, rxmitHigh⟩
    rw [if_neg beyond]
    by_cases first : pos base sack.start ≤ pos base cur.start
    · rw [if_pos first]
      by_cases whole : pos base cur.stop ≤ pos base sack.stop
      · -- the hole is deleted
        rw [if_pos whole]
        refine ⟨_, rfl, walked.pass (fun others => ?_) rfl (fun lt' => by omega)⟩
        exact others.weaken (by omega) le_rfl
      · -- the start of the hole is moved
        rw [if_neg whole]
        refine ⟨_, rfl, walked.pass (fun others => ?_) rfl (fun lt' => by omega)⟩
        refine others.cons ⟨?_, ?_, below, ?_, ?_⟩ <;> dsimp only
        · omega
        · omega
        · rw [isMax]
          exact le_max_right _ _
        · rw [isMax]
          exact max_le rxmitHigh (by omega)
    rw [if_neg first]
    by_cases toEnd : pos base cur.stop ≤ pos base sack.stop
    · -- the end of the hole is moved
      rw [if_pos toEnd]
      refine ⟨_, rfl, walked.pass (fun others => ?_) rfl (fun lt' => by omega)⟩
      refine HolesOk.cons ⟨above, ?_, ?_, ?_, ?_⟩ (others.weaken ?_ le_rfl) <;> dsimp only
      · omega
      · omega
      · rw [isMin]
        exact le_min rxmitLow (by omega)
      · rw [isMin]
        exact min_le_right _ _
      · omega
    rw [if_neg toEnd, if_pos (by omega)]
    rcases poolGet memory with ⟨answer, memory⟩
    cases answer with
    | false => exact ⟨_, rfl, ok, (add_zero _).symm, fun lt' => by omega⟩
    | true =>
      -- the hole is split
      obtain ⟨w, run, walked⟩ := ih nonneg' tail memory
      dsimp only
      rw [run]
      refine ⟨_, rfl, walked.pass (fun others => ?_) rfl (fun lt' => by omega)⟩
      refine HolesOk.cons ⟨above, ?_, ?_, ?_, ?_⟩ (HolesOk.cons ⟨?_, ?_, below, ?_, ?_⟩ others) <;>
        dsimp only
      · omega
      · omega
      · rw [isMin]
        exact le_min rxmitLow (by omega)
      · rw [isMin]
        exact min_le_right _ _
      · omega
      · omega
      · rw [isMax]
        exact le_max_right _ _
      · rw [isMax]
        exact max_le rxmitHigh (by omega)

/-- The loop of `tcp_del_sackholes`: what is below the acknowledgement is removed.  The
acknowledgement may be beyond all that has been sent. -/
theorem delHoles_spec {lastack : Seq} (nonneg : 0 ≤ low) (bound : high < 2 ^ 30)
    (ackNonneg : 0 ≤ pos base lastack) (ok : HolesOk base low high holes) :
    HolesOk base (max low (pos base lastack)) high (Board.delHoles lastack holes).1 ∧
      ((Board.delHoles lastack holes).1.length : Int) =
        holes.length - (Board.delHoles lastack holes).2 := by
  have far : pos base lastack < 2 ^ 31 := by
    have lt := BitVec.toInt_lt (x := lastack - base)
    exact lt
  induction holes generalizing low with
  | nil => exact ⟨.nil, rfl⟩
  | cons cur rest ih =>
    have okCur := ok.head
    obtain ⟨nearCur, nearCurStop, nearRxmit⟩ := okCur.near nonneg bound
    obtain ⟨above, curLt, below, rxmitLow, rxmitHigh⟩ := okCur
    have compare : ∀ a, Near base a → 0 ≤ pos base a →
        diff a lastack = pos base a - pos base lastack := by
      intro a near positive
      have upper := near.2
      exact diff_eq (by omega) (by omega)
    unfold Board.delHoles
    simp only [seqLeq, seqLt, compare _ nearCurStop (by omega), compare _ nearCur (by omega),
      compare _ nearRxmit (by omega), decide_eq_true_eq]
    by_cases acked : pos base cur.stop - pos base lastack ≤ 0
    · rw [if_pos acked]
      obtain ⟨ok', count⟩ := ih (by omega) ok.tail
      refine ⟨ok'.weaken ?_ le_rfl, ?_⟩
      · exact max_le_max (by omega) le_rfl
      · dsimp only
        rw [length_cons]
        omega
    rw [if_neg acked]
    by_cases partly : pos base cur.start - pos base lastack < 0
    · rw [if_pos partly]
      refine ⟨?_, by simp⟩
      refine ok.tail.cons ⟨?_, ?_, below, ?_, ?_⟩ <;> dsimp only
      · exact max_le (by omega) le_rfl
      · omega
      · split_ifs with behind
        · exact le_rfl
        · omega
      · split_ifs with behind
        · omega
        · exact rxmitHigh
    · rw [if_neg partly]
      refine ⟨?_, by simp⟩
      exact ok.tail.cons ⟨max_le above (by omega), curLt, below, rxmitLow, rxmitHigh⟩

end Holes

end Bitrig.TcpInput
