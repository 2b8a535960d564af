import Bitrig.TcpInput.Holes

/-!
# The scoreboard is well formed

The holes are sorted and disjoint, between `snd_una` and `rcv_lastsack`, after any segments whose
blocks are not too long and, while there are no holes, start above the acknowledgement.
-/

namespace Bitrig.TcpInput

open Bitrig.SeqNum Bitrig.Transition List

/-- The scoreboard, in the order of the sequence numbers. -/
structure WellFormed (tp : Board) : Prop where
  sorted : tp.sndHoles.Pairwise fun a b => seqLt a.start b.start ∧ seqLeq a.stop b.start
  holes : ∀ hole ∈ tp.sndHoles, seqLeq tp.sndUna hole.start ∧ seqLt hole.start hole.stop ∧
    seqLeq hole.stop tp.rcvLastsack ∧ seqLeq tp.rcvLastsack tp.sndMax
  rxmit : ∀ hole ∈ tp.sndHoles, seqLeq hole.start hole.rxmit ∧ seqLeq hole.rxmit hole.stop
  numholes : tp.sndNumholes = tp.sndHoles.length

/-! ### Blocks that do no harm -/

/-- A block that is used is not too long; and it starts above the acknowledgement if there are no
holes. -/
def blockOk (tp : Board) (ack : Seq) (sack : Sackblk) : Bool :=
  tp.ignores ack sack || (decide (diff sack.stop sack.start < 2 ^ 30) &&
    (!tp.sndHoles.isEmpty || seqGt sack.start ack))

/-- The blocks of an option, in the states in which they are used. -/
def blocksOk (ack : Seq) : List Sackblk → Board → List Bool → Bool
  | [], _, _ => true
  | sack :: rest, tp, memory =>
    blockOk tp ack sack && match tp.sackBlock ack sack memory with
      | some (false, tp, memory) => blocksOk ack rest tp memory
      | _ => true

/-- The options of a segment. -/
def optionsOk (hasAck : Bool) (ack : Seq) : List (List UInt8) → Board → List Bool → Bool
  | [], _, _ => true
  | option :: rest, tp, memory =>
    (!tp.uses hasAck ack option ||
      blocksOk ack (blocksOf option) { tp with sndNumholes := max 0 tp.sndNumholes } memory) &&
    match tp.sackOption hasAck ack option memory with
      | some (tp, memory) => optionsOk hasAck ack rest tp memory
      | none => true

/-- The segments of a peer whose blocks do no harm. -/
def SackHarmless (label : SackLabel) (tp : Board) : Prop :=
  SackCalled label tp ∧ match label with
    | .segment th => optionsOk th.hasAck th.ack th.options
        (if tp.sackEnable then tp.delSackholes th.ack else tp) th.memory = true
    | _ => True

instance (label : SackLabel) (tp : Board) : Decidable (SackHarmless label tp) :=
  match label with
  | .segment _ | .send _ | .rexmit .. => by
    dsimp only [SackHarmless]
    infer_instance

/-! ### The invariant -/

/-- The scoreboard, with all holes above a position. -/
structure BoardOk (tp : Board) (low : Int) : Prop where
  maxseg : tp.tMaxseg ≠ 0
  window : 0 ≤ pos tp.sndUna tp.sndMax ∧ pos tp.sndUna tp.sndMax < 2 ^ 30
  nonneg : 0 ≤ low
  holes : HolesOk tp.sndUna low (pos tp.sndUna tp.rcvLastsack) tp.sndHoles
  lastsack : tp.sndHoles ≠ [] → pos tp.sndUna tp.rcvLastsack ≤ pos tp.sndUna tp.sndMax
  numholes : tp.sndNumholes = tp.sndHoles.length

section Board

variable {tp tp' : Board} {low : Int} {ack : Seq} {sack : Sackblk} {memory : List Bool}
  {hasAck : Bool} {base : Seq} {high : Int} {holes : List Sackhole} {th : AckSegment} {n i : Nat}

theorem BoardOk.wellFormed (ok : BoardOk tp low) : WellFormed tp := by
  obtain ⟨low', high⟩ := ok.window
  have each := ok.holes.each
  have bound : ∀ hole ∈ tp.sndHoles, pos tp.sndUna tp.rcvLastsack < 2 ^ 30 := by
    intro hole mem
    have below := ok.lastsack (ne_nil_of_mem mem)
    omega
  have near : ∀ hole ∈ tp.sndHoles, _ :=
    fun hole mem => (each hole mem).near ok.nonneg (bound hole mem)
  have nearUna : Near tp.sndUna tp.sndUna := by
    rw [Near, pos_self]
    omega
  have nearMax : Near tp.sndUna tp.sndMax := ⟨by omega, high⟩
  constructor
  · refine ok.holes.ordered.imp_of_mem (fun {a b} memA memB apart => ?_)
    obtain ⟨nearA, nearStopA, -⟩ := near a memA
    have lt := (each a memA).lt
    rw [seqLt_near nearA (near b memB).1, seqLeq_near nearStopA (near b memB).1, decide_eq_true_eq,
      decide_eq_true_eq]
    omega
  · intro hole mem
    obtain ⟨nearStart, nearStop, -⟩ := near hole mem
    obtain ⟨above, lt, below, -⟩ := each hole mem
    have last := ok.lastsack (ne_nil_of_mem mem)
    have nonneg := ok.nonneg
    have nearLast : Near tp.sndUna tp.rcvLastsack := ⟨by omega, by omega⟩
    rw [seqLeq_near nearUna nearStart, seqLt_near nearStart nearStop, seqLeq_near nearStop nearLast,
      seqLeq_near nearLast nearMax, pos_self]
    simp only [decide_eq_true_eq]
    exact ⟨ok.nonneg.trans above, lt, below, last⟩
  · intro hole mem
    obtain ⟨nearStart, nearStop, nearRxmit⟩ := near hole mem
    rw [seqLeq_near nearStart nearRxmit, seqLeq_near nearRxmit nearStop, decide_eq_true_eq,
      decide_eq_true_eq]
    exact (each hole mem).rxmit
  · exact ok.numholes

/-- What a block does not change. -/
structure SameEnds (tp tp' : Board) : Prop where
  una : tp'.sndUna = tp.sndUna
  max : tp'.sndMax = tp.sndMax
  enabled : tp'.sackEnable = tp.sackEnable
  state : tp'.tState = tp.tState

theorem SameEnds.trans {tp'' : Board} (first : SameEnds tp tp') (second : SameEnds tp' tp'') :
    SameEnds tp tp'' :=
  ⟨second.una.trans first.una, second.max.trans first.max, second.enabled.trans first.enabled,
    second.state.trans first.state⟩

/-- Where a block that is used is. -/
theorem block_near (ok : BoardOk tp low) (used : tp.ignores ack sack = false)
    (short : diff sack.stop sack.start < 2 ^ 30) :
    Near tp.sndUna sack.start ∧ Near tp.sndUna sack.stop ∧
      pos tp.sndUna sack.start < pos tp.sndUna sack.stop ∧
      pos tp.sndUna sack.stop ≤ pos tp.sndUna tp.sndMax := by
  obtain ⟨lowMax, highMax⟩ := ok.window
  simp only [Board.ignores, Bool.or_eq_false_iff, seqLeq, seqGt, decide_eq_false_iff_not] at used
  obtain ⟨⟨⟨forward, new⟩, -⟩, sent⟩ := used
  have newPos : 0 < pos tp.sndUna sack.stop := not_le.mp new
  -- the end of the block is not beyond what has been sent
  have farStop : pos tp.sndUna sack.stop < 2 ^ 31 := BitVec.toInt_lt (x := sack.stop - tp.sndUna)
  have stopMax : diff sack.stop tp.sndMax = pos tp.sndUna sack.stop - pos tp.sndUna tp.sndMax :=
    diff_eq (by omega) (by omega)
  -- the start is not far below its end
  have start : pos tp.sndUna sack.start = pos tp.sndUna sack.stop - diff sack.stop sack.start :=
    pos_eq_sub (by omega) (by omega)
  refine ⟨⟨?_, ?_⟩, ⟨?_, ?_⟩, ?_, ?_⟩ <;> omega

/-- A block keeps the scoreboard, and all holes above the acknowledgement. -/
theorem BoardOk.sackBlock (ok : BoardOk tp low) (isLow : low = pos tp.sndUna ack)
    (isSent : pos tp.sndUna ack ≤ pos tp.sndUna tp.sndMax) (harmless : blockOk tp ack sack = true)
    (memory : List Bool) : ∃ done tp' memory', tp.sackBlock ack sack memory =
      some (done, tp', memory') ∧ BoardOk tp' low ∧ SameEnds tp tp' := by
  obtain ⟨lowMax, highMax⟩ := ok.window
  unfold Board.sackBlock
  cases used : tp.ignores ack sack with
  | true => exact ⟨false, tp, memory, rfl, ok, ⟨rfl, rfl, rfl, rfl⟩⟩
  | false =>
    rw [blockOk, used, Bool.false_or, Bool.and_eq_true, decide_eq_true_eq] at harmless
    obtain ⟨short, above⟩ := harmless
    obtain ⟨nearStart, nearStop, lt, sent⟩ := block_near ok used short
    have nonneg := ok.nonneg
    by_cases none : tp.sndHoles = []
    · rw [if_pos none]
      rcases poolGet memory with ⟨answer, memory⟩
      cases answer with
      | false => exact ⟨true, tp, memory, rfl, ok, ⟨rfl, rfl, rfl, rfl⟩⟩
      | true =>
        -- the first hole is from the acknowledgement to the block
        have nearAck : Near tp.sndUna ack := ⟨by omega, by omega⟩
        rw [none, isEmpty_nil, Bool.not_true, Bool.false_or, seqGt_near nearStart nearAck,
          decide_eq_true_eq] at above
        refine ⟨false, _, memory, rfl, ⟨ok.maxseg, ok.window, nonneg, ?_, fun _ => sent, rfl⟩,
          ⟨rfl, rfl, rfl, rfl⟩⟩
        exact HolesOk.nil.cons ⟨isLow.le, above, lt.le, le_rfl, above.le⟩
    · rw [if_neg none]
      have last := ok.lastsack none
      obtain ⟨w, run, walked⟩ := walkHoles_spec tp.tMaxseg nonneg (by omega) nearStart nearStop lt
        ok.holes memory
      have kept : ∀ num, num = ((w.passed ++ w.rest).length : Int) →
          BoardOk { tp with sndHoles := w.passed ++ w.rest, sndNumholes := num } low :=
        fun num isNum => ⟨ok.maxseg, ok.window, nonneg, walked.ok, fun _ => last, isNum⟩
      have count : tp.sndNumholes + w.num = ((w.passed ++ w.rest).length : Int) := by
        rw [walked.count, ok.numholes]
      rw [run, Option.bind_some, Board.lastHole]
      cases done : w.done with
      | true => exact ⟨true, _, w.memory, rfl, kept _ count, ⟨rfl, rfl, rfl, rfl⟩⟩
      | false =>
        -- the last of the holes is not empty: `rcv_lastsack` is near
        obtain ⟨first, others, isHoles⟩ := exists_cons_of_ne_nil none
        have okFirst := ok.holes.each first (by rw [isHoles]; exact mem_cons_self)
        have aboveLow : low ≤ pos tp.sndUna tp.rcvLastsack :=
          (okFirst.above.trans okFirst.lt.le).trans okFirst.below
        have nearLast : Near tp.sndUna tp.rcvLastsack := ⟨by omega, by omega⟩
        rw [seqLt_near nearLast nearStart]
        by_cases behind : pos tp.sndUna tp.rcvLastsack < pos tp.sndUna sack.start
        · rw [if_pos (decide_eq_true behind)]
          rcases poolGet w.memory with ⟨answer, memory⟩
          cases answer with
          | false => exact ⟨true, _, memory, rfl, kept _ count, ⟨rfl, rfl, rfl, rfl⟩⟩
          | true =>
            obtain ⟨noRest, -, somePassed⟩ := walked.behind behind
            obtain ⟨hole, passed, isPassed⟩ := exists_cons_of_ne_nil (somePassed none)
            have okHoles := walked.ok
            rw [noRest, append_nil] at okHoles count
            have appended : ∀ temp, w.append temp = some (w.passed ++ [temp]) := by
              intro temp
              rw [Walk.append, isPassed]
            rw [appended]
            refine ⟨false, _, memory, rfl, ⟨ok.maxseg, ok.window, nonneg, ?_, fun _ => sent, ?_⟩,
              ⟨rfl, rfl, rfl, rfl⟩⟩
            · exact okHoles.concat ⟨le_rfl, behind, lt.le, le_rfl, behind.le⟩ aboveLow
            · dsimp only
              rw [count, length_append]
              rfl
        · rw [if_neg (fun is => behind (of_decide_eq_true is))]
          exact ⟨false, _, w.memory, rfl, kept _ count, ⟨rfl, rfl, rfl, rfl⟩⟩

theorem BoardOk.sackBlocks {blocks : List Sackblk} (ok : BoardOk tp low)
    (isLow : low = pos tp.sndUna ack) (isSent : pos tp.sndUna ack ≤ pos tp.sndUna tp.sndMax)
    (harmless : blocksOk ack blocks tp memory = true) :
    ∃ tp' memory', Board.sackBlocks ack blocks tp memory = some (tp', memory') ∧
      BoardOk tp' low ∧ SameEnds tp tp' := by
  induction blocks generalizing tp memory with
  | nil => exact ⟨tp, memory, rfl, ok, ⟨rfl, rfl, rfl, rfl⟩⟩
  | cons sack rest ih =>
    rw [blocksOk, Bool.and_eq_true] at harmless
    obtain ⟨done, tp₁, memory₁, run, ok₁, same⟩ := ok.sackBlock isLow isSent harmless.1 memory
    have later := harmless.2
    rw [run] at later
    rw [Board.sackBlocks, run]
    cases done with
    | true => exact ⟨tp₁, memory₁, rfl, ok₁, same⟩
    | false =>
      obtain ⟨tp₂, memory₂, run', ok₂, same'⟩ := ih ok₁ (by rw [same.una, isLow])
        (by rw [same.una, same.max]; exact isSent) later
      exact ⟨tp₂, memory₂, run', ok₂, same.trans same'⟩

/-- An option keeps the scoreboard.  It is used only if the acknowledgement is of data that has
been sent. -/
theorem BoardOk.sackOption {option : List UInt8} (memory : List Bool) (ok : BoardOk tp low)
    (isLow : low = max 0 (pos tp.sndUna ack)) (harmless : tp.uses hasAck ack option = true →
      blocksOk ack (blocksOf option) { tp with sndNumholes := max 0 tp.sndNumholes }
        memory = true) :
    ∃ tp' memory', tp.sackOption hasAck ack option memory = some (tp', memory') ∧
      BoardOk tp' low ∧ SameEnds tp tp' := by
  unfold Board.sackOption
  by_cases used : tp.uses hasAck ack option = true
  · have sent := used
    simp only [Board.uses, Bool.and_eq_true, Bool.not_eq_true', seqLt, seqGt,
      decide_eq_false_iff_not] at sent
    obtain ⟨⟨⟨-, notOld⟩, notBeyond⟩, -⟩ := sent.1
    have lowAck : 0 ≤ pos tp.sndUna ack := not_lt.mp notOld
    obtain ⟨lowMax, highMax⟩ := ok.window
    have farAck : pos tp.sndUna ack < 2 ^ 31 := BitVec.toInt_lt (x := ack - tp.sndUna)
    have isDiff : diff ack tp.sndMax = pos tp.sndUna ack - pos tp.sndUna tp.sndMax :=
      diff_eq (by omega) (by omega)
    have same : max 0 tp.sndNumholes = tp.sndNumholes := by
      rw [ok.numholes]
      exact max_eq_right (Int.natCast_nonneg _)
    rw [if_pos used, kassert_of_holds ok.maxseg]
    have blocks := harmless used
    rw [same] at blocks ⊢
    exact ok.sackBlocks (isLow.trans (max_eq_right lowAck)) (by omega) blocks
  · rw [if_neg used]
    exact ⟨tp, memory, rfl, ok, ⟨rfl, rfl, rfl, rfl⟩⟩

theorem BoardOk.sackOptions {options : List (List UInt8)} (ok : BoardOk tp low)
    (isLow : low = max 0 (pos tp.sndUna ack))
    (harmless : optionsOk hasAck ack options tp memory = true) :
    ∃ tp', Board.sackOptions hasAck ack options tp memory = some tp' ∧ BoardOk tp' low ∧
      SameEnds tp tp' := by
  induction options generalizing tp memory with
  | nil => exact ⟨tp, rfl, ok, ⟨rfl, rfl, rfl, rfl⟩⟩
  | cons option rest ih =>
    rw [optionsOk, Bool.and_eq_true, Bool.or_eq_true, Bool.not_eq_true'] at harmless
    obtain ⟨tp₁, memory₁, run, ok₁, same⟩ := ok.sackOption memory isLow
      (fun used => harmless.1.resolve_left (by rw [used]; exact nofun))
    have later := harmless.2
    rw [run] at later
    obtain ⟨tp₂, run', ok₂, same'⟩ := ih ok₁ (by rw [same.una, isLow]) later
    refine ⟨tp₂, ?_, ok₂, same.trans same'⟩
    rw [Board.sackOptions, run]
    exact run'

/-- `tcp_del_sackholes` removes what is below the acknowledgement. -/
theorem BoardOk.delSackholes (ok : BoardOk tp 0) (enabled : tp.sackEnable = true)
    (notListen : tp.tState ≠ tcpsListen) (ack : Seq) :
    BoardOk (tp.delSackholes ack) (max 0 (pos tp.sndUna ack)) ∧
      SameEnds tp (tp.delSackholes ack) := by
  unfold Board.delSackholes
  rw [if_pos (by rw [enabled, Bool.true_and]; exact decide_eq_true notListen)]
  have isLast : pos tp.sndUna (if seqGt ack tp.sndUna then ack else tp.sndUna) =
      max 0 (pos tp.sndUna ack) := by
    change pos tp.sndUna (if decide (0 < pos tp.sndUna ack) then ack else tp.sndUna) = _
    split_ifs with newer
    · exact (max_eq_right (of_decide_eq_true newer).le).symm
    · rw [pos_self, max_eq_left (not_lt.mp (fun lt => newer (decide_eq_true lt)))]
  generalize (if seqGt ack tp.sndUna then ack else tp.sndUna) = lastack at isLast ⊢
  have nonneg : 0 ≤ max 0 (pos tp.sndUna ack) := le_max_left _ _
  refine ⟨?_, rfl, rfl, rfl, rfl⟩
  by_cases none : tp.sndHoles = []
  · refine ⟨ok.maxseg, ok.window, nonneg, ?_, ?_, ?_⟩ <;> dsimp only <;> rw [none]
    · exact .nil
    · exact fun ne => absurd rfl ne
    · rw [ok.numholes, none]
      rfl
  · have below := ok.lastsack none
    have window := ok.window
    obtain ⟨holes, count⟩ := delHoles_spec le_rfl (by omega) (by rw [isLast]; exact nonneg) ok.holes
    rw [isLast, max_eq_right nonneg] at holes
    refine ⟨ok.maxseg, window, nonneg, holes, fun _ => below, ?_⟩
    rw [count, ok.numholes]

/-- The positions around another base. -/
theorem HolesOk.rebase (ok : HolesOk base low high holes) (nonneg : 0 ≤ low) (bound : high < 2 ^ 30)
    (near : Near base ack) : HolesOk ack (low - pos base ack) (high - pos base ack) holes := by
  have shift : ∀ a, Near base a → pos ack a = pos base a - pos base ack :=
    fun a nearA => diff_near nearA near
  constructor
  · intro hole mem
    have okHole := ok.each hole mem
    obtain ⟨nearStart, nearStop, nearRxmit⟩ := okHole.near nonneg bound
    obtain ⟨above, lt, below, rxmit⟩ := okHole
    have start := shift _ nearStart
    have stop := shift _ nearStop
    have rxmit' := shift _ nearRxmit
    constructor <;> omega
  · refine ok.ordered.imp_of_mem (fun {a b} memA memB apart => ?_)
    rw [shift _ ((ok.each a memA).near nonneg bound).2.1,
      shift _ ((ok.each b memB).near nonneg bound).1]
    omega

/-- `snd_una` is advanced to the acknowledgement: no hole is below it. -/
theorem BoardOk.advance (ok : BoardOk tp (max 0 (pos tp.sndUna th.ack))) :
    BoardOk (tp.advance th) 0 := by
  unfold Board.advance
  split_ifs with advanced
  · simp only [Bool.and_eq_true, seqGt, seqLeq, decide_eq_true_eq] at advanced
    obtain ⟨⟨-, newer⟩, sent⟩ := advanced
    have newerPos : 0 < pos tp.sndUna th.ack := newer
    obtain ⟨lowMax, highMax⟩ := ok.window
    have farAck : pos tp.sndUna th.ack < 2 ^ 31 := BitVec.toInt_lt (x := th.ack - tp.sndUna)
    have isDiff : diff th.ack tp.sndMax = pos tp.sndUna th.ack - pos tp.sndUna tp.sndMax :=
      diff_eq (by omega) (by omega)
    have nearAck : Near tp.sndUna th.ack := ⟨by omega, by omega⟩
    have shift : ∀ a, Near tp.sndUna a → pos th.ack a = pos tp.sndUna a - pos tp.sndUna th.ack :=
      fun a nearA => diff_near nearA nearAck
    have max := shift tp.sndMax ⟨by omega, highMax⟩
    have nonneg := ok.nonneg
    by_cases none : tp.sndHoles = []
    · refine ⟨ok.maxseg, ?_, le_rfl, ?_, fun ne => absurd none ne, ok.numholes⟩ <;> dsimp only
      · omega
      · rw [none]
        exact .nil
    · have below := ok.lastsack none
      obtain ⟨first, others, isHoles⟩ := exists_cons_of_ne_nil none
      have okFirst := ok.holes.each first (by rw [isHoles]; exact mem_cons_self)
      have aboveLow := (okFirst.above.trans okFirst.lt.le).trans okFirst.below
      have last := shift tp.rcvLastsack ⟨by omega, by omega⟩
      have holes := ok.holes.rebase nonneg (by omega) nearAck
      rw [max_eq_right newerPos.le, sub_self, ← last] at holes
      refine ⟨ok.maxseg, ?_, le_rfl, holes, fun _ => ?_, ok.numholes⟩ <;> dsimp only
      · omega
      · omega
  · exact ⟨ok.maxseg, ok.window, le_rfl, ok.holes.weaken ok.nonneg le_rfl, ok.lastsack, ok.numholes⟩

/-! ### Runs -/

/-- The scoreboard of a connection that uses it. -/
structure Kept (tp : Board) : Prop where
  ok : BoardOk tp 0
  enabled : tp.sackEnable = true
  notListen : tp.tState ≠ tcpsListen

theorem Kept.segment (kept : Kept tp) (harmless : SackHarmless (.segment th) tp) :
    ∃ tp', tp.segment th = some tp' ∧ Kept tp' := by
  have optionsHarmless := harmless.2
  simp only [if_pos kept.enabled] at optionsHarmless
  obtain ⟨ok, same⟩ := kept.ok.delSackholes kept.enabled kept.notListen th.ack
  obtain ⟨tp', run, ok', same'⟩ := ok.sackOptions (by rw [same.una]) optionsHarmless
  have all := same.trans same'
  have una : tp'.sndUna = tp.sndUna := all.una
  rw [← una] at ok'
  refine ⟨tp'.advance th, ?_, ok'.advance, ?_, ?_⟩
  · rw [Board.segment, if_pos kept.enabled, run]
    rfl
  · rw [← kept.enabled, ← all.enabled, Board.advance]
    split_ifs <;> rfl
  · have state : (tp'.advance th).tState = tp'.tState := by
      rw [Board.advance]
      split_ifs <;> rfl
    rw [state, all.state]
    exact kept.notListen

theorem Kept.send (kept : Kept tp) (fits : (tp.sndMax - tp.sndUna).toNat + n < 2 ^ 30) :
    Kept { tp with sndMax := tp.sndMax + BitVec.ofNat 32 n } := by
  obtain ⟨ok, enabled, notListen⟩ := kept
  have isNat : pos tp.sndUna tp.sndMax = (tp.sndMax - tp.sndUna).toNat :=
    BitVec.toInt_eq_toNat_of_lt (by omega)
  have isMax : pos tp.sndUna (tp.sndMax + BitVec.ofNat 32 n) = pos tp.sndUna tp.sndMax + n :=
    pos_add (by omega) (by omega)
  refine ⟨⟨ok.maxseg, ?_, le_rfl, ok.holes, fun ne => ?_, ok.numholes⟩, enabled, notListen⟩ <;>
    dsimp only <;> rw [isMax]
  · omega
  · exact (ok.lastsack ne).trans (by omega)

theorem HoleOk.rexmitted {hole : Sackhole} (ok : HoleOk base low high hole) (nonneg : 0 ≤ low)
    (bound : high < 2 ^ 30) (inHole : n ≤ (hole.stop - hole.rxmit).toNat) :
    HoleOk base low high (hole.rexmitted n) := by
  obtain ⟨nearStart, nearStop, nearRxmit⟩ := ok.near nonneg bound
  obtain ⟨above, lt, below, rxmitLow, rxmitHigh⟩ := ok
  have isDiff := diff_near nearStop nearRxmit
  have isNat : diff hole.stop hole.rxmit = (hole.stop - hole.rxmit).toNat := by
    have positive : 0 ≤ (hole.stop - hole.rxmit).toInt := by
      change 0 ≤ diff hole.stop hole.rxmit
      omega
    have bounded := (hole.stop - hole.rxmit).isLt
    rw [diff]
    rw [BitVec.toInt_eq_toNat_cond] at positive ⊢
    split_ifs at positive ⊢
    · rfl
    · omega
  have isRxmit : pos base (hole.rxmit + BitVec.ofNat 32 n) = pos base hole.rxmit + n :=
    pos_add (by omega) (by omega)
  refine ⟨above, lt, below, ?_, ?_⟩ <;> dsimp only [Sackhole.rexmitted] <;> rw [isRxmit] <;> omega

theorem HolesOk.rexmitted (ok : HolesOk base low high holes) (nonneg : 0 ≤ low)
    (bound : high < 2 ^ 30) (inHole : ∀ hole ∈ holes[i]?, n ≤ (hole.stop - hole.rxmit).toNat) :
    HolesOk base low high (holes.modify i (·.rexmitted n)) := by
  induction holes generalizing low i with
  | nil =>
    rw [modify_nil]
    exact ok
  | cons cur rest ih =>
    cases i with
    | zero => exact HolesOk.cons (ok.head.rexmitted nonneg bound (inHole cur rfl)) ok.tail
    | succ i =>
      have nonneg' := (nonneg.trans ok.head.above).trans ok.head.lt.le
      exact HolesOk.cons ok.head (ih ok.tail nonneg' inHole)

theorem Kept.rexmit (kept : Kept tp)
    (inHole : ∀ hole ∈ tp.sndHoles[i]?, n ≤ (hole.stop - hole.rxmit).toNat) :
    Kept { tp with sndHoles := tp.sndHoles.modify i (·.rexmitted n) } := by
  obtain ⟨ok, enabled, notListen⟩ := kept
  by_cases none : tp.sndHoles = []
  · rw [none, modify_nil, ← none]
    exact ⟨ok, enabled, notListen⟩
  · have window := ok.window
    have below := ok.lastsack none
    refine ⟨⟨ok.maxseg, window, le_rfl, ?_, fun _ => below, ?_⟩, enabled, notListen⟩
    · exact ok.holes.rexmitted le_rfl (by omega) inHole
    · rw [length_modify]
      exact ok.numholes

theorem Kept.next {label : SackLabel} (kept : Kept tp) (harmless : SackHarmless label tp)
    (step : sackNext label tp = some tp') : Kept tp' := by
  cases label with
  | segment th =>
    obtain ⟨tp'', run, kept'⟩ := kept.segment harmless
    have same : some tp'' = some tp' := run.symm.trans step
    cases same
    exact kept'
  | send n =>
    cases step
    exact kept.send harmless.1
  | rexmit i n =>
    cases step
    exact kept.rexmit harmless.1

theorem kept_start {tState maxseg : Nat} {una lastsack : Seq} {window : Nat}
    (notListen : tState ≠ tcpsListen) (maxsegPos : maxseg ≠ 0) (small : window < 2 ^ 30) :
    Kept (startBoard tState maxseg una window lastsack) := by
  refine ⟨⟨maxsegPos, ?_, le_rfl, .nil, fun ne => absurd rfl ne, rfl⟩, rfl, notListen⟩
  have isMax : pos una (una + BitVec.ofNat 32 window) = pos una una + window := by
    apply pos_add <;> rw [pos_self] <;> omega
  change 0 ≤ pos una (una + _) ∧ pos una (una + _) < _
  rw [isMax, pos_self]
  omega

/-- After any segments whose blocks do no harm, the scoreboard is well formed; and a further
segment follows no NULL pointer and its loops end. -/
theorem scoreboard_well_formed {tState maxseg : Nat} {una lastsack : Seq} {window : Nat}
    (notListen : tState ≠ tcpsListen) (maxsegPos : maxseg ≠ 0) (small : window < 2 ^ 30)
    (run : Run sackNext SackHarmless (startBoard tState maxseg una window lastsack) tp) :
    WellFormed tp ∧ ∀ th, SackHarmless (.segment th) tp → (tp.segment th).isSome := by
  have kept : Kept tp :=
    run.invariant (fun _ _ _ kept harmless step => kept.next harmless step)
      (kept_start notListen maxsegPos small)
  refine ⟨kept.ok.wellFormed, fun th harmless => ?_⟩
  obtain ⟨tp', is, -⟩ := kept.segment harmless
  rw [is]
  rfl

end Board

/-- The bytes of a number, in network order. -/
def seqBytes (n : Nat) : List UInt8 :=
  [UInt8.ofNat (n / 16777216), UInt8.ofNat (n / 65536), UInt8.ofNat (n / 256), UInt8.ofNat n]

/-- A segment with one block, and memory. -/
def sampleSegment (ack : Nat) (blocks : List (Nat × Nat)) : AckSegment :=
  ⟨true, BitVec.ofNat 32 ack, [blocks.flatMap fun b => seqBytes b.1 ++ seqBytes b.2], [], true⟩

/-- Two blocks leave two holes, a third one splits a hole, and an acknowledgement removes a part of
the first hole. -/
theorem sampleBoard_well_formed : ∃ tp, Run sackNext SackHarmless
    (startBoard 4 10 (BitVec.ofNat 32 100) 100 0) tp ∧ tp.sndHoles.length = 3 ∧
    WellFormed tp ∧ ∀ th, SackHarmless (.segment th) tp → (tp.segment th).isSome := by
  refine exec_implies (Q := fun tp => tp.sndHoles.length = 3)
    [.segment (sampleSegment 100 [(120, 130), (150, 160)]), .send 50,
      .segment (sampleSegment 100 [(135, 140)]), .rexmit 0 10,
      .segment (sampleSegment 110 [])] (by decide +kernel) ?_
  intro tp run test
  exact ⟨test, scoreboard_well_formed (by decide) (by decide) (by decide) run⟩

/-- A duplicate acknowledgement of 100 with a block that starts below it: the first hole ends
before its start. -/
theorem low_block_leaves_bad_hole : ∃ tp, Run sackNext SackCalled
    (startBoard 4 10 (BitVec.ofNat 32 100) 100 (BitVec.ofNat 32 100)) tp ∧
    (∃ hole, tp.sndHoles = [hole] ∧ hole.start = BitVec.ofNat 32 100 ∧
      hole.stop = BitVec.ofNat 32 90) ∧ ¬ WellFormed tp := by
  refine exec_implies (Q := fun tp =>
      tp.sndHoles = [⟨BitVec.ofNat 32 100, BitVec.ofNat 32 90, 3, BitVec.ofNat 32 100⟩])
    [.segment (sampleSegment 100 [(90, 150)])] (by decide +kernel) ?_
  intro tp run holes
  refine ⟨⟨_, holes, rfl, rfl⟩, fun ok => ?_⟩
  have lt := (ok.holes _ (by rw [holes]; exact mem_singleton_self _)).2.1
  revert lt
  decide +kernel

end Bitrig.TcpInput
