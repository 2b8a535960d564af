import Bitrig.Bpf.Validate

/-!
# Mbuf chains and flat buffers

The loads of `bpf_filter` have one path for a flat buffer and one for a chain of mbufs.
Both are compared with a load from the string of bytes of the packet.  The path for chains
agrees with it unless a word lies in more than two mbufs, and then a program can tell.
-/

namespace Bitrig.Bpf

open TracedRun List

/-- The memory at a pointer begins with the bytes. -/
def Reads (data : Nat → Byte) (bytes : List Byte) : Prop :=
  ∀ i b, bytes[i]? = some b → data i = b

/-- A mbuf has the bytes. -/
structure Holds (m : Mbuf) (bytes : List Byte) : Prop where
  length : m.mLen.toNat = bytes.length
  reads : Reads m.data bytes

/-- A load from a string of bytes. -/
def packetLoad (packet : List Byte) (k : Nat) : Size → Option Word
  | .w =>
    match packet.drop k with
    | a :: b :: c :: d :: _ => some (a ++ b ++ c ++ d)
    | _ => none
  | .h =>
    match packet.drop k with
    | a :: b :: _ => some ((a ++ b).setWidth 32)
    | _ => none
  | .b =>
    match packet.drop k with
    | a :: _ => some (a.setWidth 32)
    | _ => none

/-- The packet as a flat copy. -/
structure IsFlat (input : Input) (packet : List Byte) : Prop where
  reads : Reads input.p packet
  buflen : input.buflen.toNat = packet.length

/-- The packet as a chain of mbufs. -/
structure IsChain (input : Input) (parts : List (List Byte)) : Prop where
  holds : List.Forall₂ Holds (input.m :: input.mNext) parts
  buflen : input.buflen = 0

/-- A word that begins in the last bytes of a mbuf ends in the next one, if it does not run
off the end of the packet. -/
def WordsInTwo (parts : List (List Byte)) : Prop :=
  ∀ before first second after, parts = before ++ first :: second :: after →
    ∀ r, 0 < r → r ≤ first.length → r + second.length < 4 →
      r + second.length + after.flatten.length < 4

section Reading

variable {data : Nat → Byte} {bytes packet : List Byte} {k : Nat}

theorem Reads.drop (reads : Reads data bytes) (k : Nat) :
    Reads (fun i => data (k + i)) (bytes.drop k) := by
  intro i b found
  rw [getElem?_drop] at found
  exact reads _ b found

theorem packetLoad_w_short (short : packet.length < k + 4) : packetLoad packet k .w = none := by
  have length : (packet.drop k).length < 4 := by
    rw [length_drop]
    omega
  unfold packetLoad
  match packet.drop k, length with
  | [], _ | [_], _ | [_, _], _ | [_, _, _], _ => rfl

theorem packetLoad_h_short (short : packet.length < k + 2) : packetLoad packet k .h = none := by
  have length : (packet.drop k).length < 2 := by
    rw [length_drop]
    omega
  unfold packetLoad
  match packet.drop k, length with
  | [], _ | [_], _ => rfl

theorem packetLoad_b_short (short : packet.length ≤ k) : packetLoad packet k .b = none := by
  unfold packetLoad
  rw [drop_eq_nil_of_le short]

variable (reads : Reads data packet)
include reads

/-- The bytes of a word in memory. -/
theorem Reads.word (inside : k + 4 ≤ packet.length) :
    packetLoad packet k .w = some (extractLong data k) := by
  have later := reads.drop k
  have length : 4 ≤ (packet.drop k).length := by
    rw [length_drop]
    omega
  unfold packetLoad extractLong
  match packet.drop k, length, later with
  | a :: b :: c :: d :: _, _, later =>
    have first := later 0 a rfl
    have second := later 1 b rfl
    have third := later 2 c rfl
    have fourth := later 3 d rfl
    dsimp only at first second third fourth ⊢
    rw [second, third, fourth, ← first]
    rfl

theorem Reads.half (inside : k + 2 ≤ packet.length) :
    packetLoad packet k .h = some (extractShort data k) := by
  have later := reads.drop k
  have length : 2 ≤ (packet.drop k).length := by
    rw [length_drop]
    omega
  unfold packetLoad extractShort
  match packet.drop k, length, later with
  | a :: b :: _, _, later =>
    have first := later 0 a rfl
    have second := later 1 b rfl
    dsimp only at first second ⊢
    rw [second, ← first]
    rfl

theorem Reads.byte (inside : k < packet.length) :
    packetLoad packet k .b = some ((data k).setWidth 32) := by
  unfold packetLoad
  rw [drop_eq_getElem_cons inside, reads k _ (getElem?_eq_getElem inside)]

end Reading

/-! ### The flat buffer -/

section Flat

variable {input : Input} {packet : List Byte}

theorem load_flat (flat : IsFlat input packet) (nonempty : packet ≠ []) (k : Word)
    (size : Size) : (load input k size).2 = packetLoad packet k.toNat size := by
  have length := flat.buflen
  have present : input.buflen ≠ 0 := by
    intro zero
    apply nonempty
    rw [← length_eq_zero_iff, ← length, zero]
    rfl
  cases size with
  | w =>
    unfold load loadWith
    dsimp only
    split_ifs with outside
    · rw [packetLoad_w_short (by bv_omega)]
    · rw [flat.reads.word (by bv_omega)]
  | h =>
    unfold load loadWith
    dsimp only
    split_ifs with outside
    · rw [packetLoad_h_short (by bv_omega)]
    · rw [flat.reads.half (by bv_omega)]
  | b =>
    unfold load loadWith
    dsimp only
    split_ifs with outside
    · rw [packetLoad_b_short (by bv_omega)]
    · rw [flat.reads.byte (by bv_omega)]

end Flat

/-! ### The chain -/

/-- Where a byte of the packet is in the chain: `within` of the bytes of the mbuf `m`, those
of the mbufs behind it after them. -/
structure At (parts : List (List Byte)) (k : Nat) (m : Mbuf) (next : List Mbuf) (within : Word)
    (before : List (List Byte)) (here : List Byte) (after : List (List Byte)) : Prop where
  shape : parts = before ++ here :: after
  holds : Holds m here
  rest : List.Forall₂ Holds next after
  inside : within.toNat < here.length
  index : k = before.flatten.length + within.toNat

section Chain

variable {m m' : Mbuf} {next next' : List Mbuf} {k within : Word}
  {parts before after : List (List Byte)} {here : List Byte}

/-- `MINDEX` gives up only behind the last byte. -/
theorem mindex_eq_none (holds : List.Forall₂ Holds (m :: next) parts)
    (result : mindex m k next = none) : parts.flatten.length ≤ k.toNat := by
  induction next generalizing m k parts with
  | nil =>
    obtain ⟨_, _, first, rest, rfl⟩ := forall₂_cons_left_iff.mp holds
    obtain rfl := forall₂_nil_left_iff.mp rest
    have length := first.length
    unfold mindex at result
    split at result
    case isTrue passed =>
      simp only [flatten_cons, flatten_nil, append_nil]
      rw [BitVec.le_def] at passed
      omega
    case isFalse => cases result
  | cons m' next ih =>
    obtain ⟨_, _, first, rest, rfl⟩ := forall₂_cons_left_iff.mp holds
    have length := first.length
    unfold mindex at result
    split at result
    case isTrue passed =>
      have later := ih rest result
      rw [BitVec.toNat_sub_of_le passed] at later
      rw [BitVec.le_def] at passed
      simp only [flatten_cons, length_append]
      omega
    case isFalse => cases result

/-- `MINDEX` finds the byte. -/
theorem mindex_eq_some (holds : List.Forall₂ Holds (m :: next) parts)
    (result : mindex m k next = some (m', next', within)) :
    ∃ before here after, At parts k.toNat m' next' within before here after := by
  induction next generalizing m k parts with
  | nil =>
    obtain ⟨here, after, first, rest, rfl⟩ := forall₂_cons_left_iff.mp holds
    have length := first.length
    unfold mindex at result
    split at result
    case isTrue => cases result
    case isFalse inside =>
      cases result
      rw [BitVec.le_def] at inside
      exact ⟨[], here, after, rfl, first, rest, by omega, by simp⟩
  | cons m'' next ih =>
    obtain ⟨here, after, first, rest, rfl⟩ := forall₂_cons_left_iff.mp holds
    have length := first.length
    unfold mindex at result
    split at result
    case isTrue passed =>
      obtain ⟨before, here', after', found⟩ := ih rest result
      have index := found.index
      rw [BitVec.toNat_sub_of_le passed] at index
      rw [BitVec.le_def] at passed
      refine ⟨here :: before, here', after', ?_, found.holds, found.rest, found.inside, ?_⟩
      · rw [found.shape, cons_append]
      · simp only [flatten_cons, length_append]
        omega
    case isFalse inside =>
      cases result
      rw [BitVec.le_def] at inside
      exact ⟨[], here, after, rfl, first, rest, by omega, by simp⟩

/-- `MINDEX` walks over the mbufs before the byte. -/
theorem mindex_of_at {n : Nat} (holds : List.Forall₂ Holds (m :: next) (before ++ here :: after))
    (inside : n < here.length) (index : k.toNat = before.flatten.length + n) :
    ∃ m' next' within, mindex m k next = some (m', next', within) ∧ within.toNat = n ∧
      Holds m' here ∧ List.Forall₂ Holds next' after := by
  induction before generalizing m next k with
  | nil =>
    obtain ⟨first, rest⟩ := forall₂_cons.mp holds
    have length := first.length
    simp only [flatten_nil, length_nil, zero_add] at index
    have stays : ¬m.mLen ≤ k := by
      rw [BitVec.le_def]
      omega
    refine ⟨m, next, k, ?_, index, first, rest⟩
    cases next <;> simp only [mindex, if_neg stays]
  | cons part before ih =>
    obtain ⟨first, rest⟩ := forall₂_cons.mp holds
    have length := first.length
    simp only [flatten_cons, length_append] at index
    have passed : m.mLen ≤ k := by
      rw [BitVec.le_def]
      omega
    cases next with
    | nil => simp at rest
    | cons m'' next =>
      rw [mindex, if_pos passed]
      refine ih rest ?_
      rw [BitVec.toNat_sub_of_le passed]
      omega

namespace At

variable {k : Nat}

section

variable (found : At parts k m next within before here after)
include found

/-- The bytes of the packet from the place on. -/
theorem drop : parts.flatten.drop k = here.drop within.toNat ++ after.flatten := by
  have inside := found.inside
  rw [found.shape, found.index, flatten_append, drop_append, flatten_cons,
    drop_eq_nil_of_le (by omega), nil_append, Nat.add_sub_cancel_left,
    drop_append_of_le_length (by omega)]

/-- The length of the packet. -/
theorem length :
    parts.flatten.length = before.flatten.length + here.length + after.flatten.length := by
  rw [found.shape]
  simp [Nat.add_assoc]

/-- The memory at the place begins with the bytes of the mbuf from there on. -/
theorem reads : Reads (fun i => m.data (within.toNat + i)) (here.drop within.toNat) :=
  found.holds.reads.drop _

end

/-- There is no next mbuf at the end of the packet only. -/
theorem after_nil (found : At parts k m [] within before here after) : after = [] :=
  forall₂_nil_left_iff.mp found.rest

end At

theorem mByte_eq (holds : List.Forall₂ Holds (m :: next) parts) :
    mByte m next k = packetLoad parts.flatten k.toNat .b := by
  unfold mByte
  cases result : mindex m k next with
  | none => rw [packetLoad_b_short (mindex_eq_none holds result)]; rfl
  | some place =>
    obtain ⟨before, here, after, found⟩ := mindex_eq_some holds result
    have inside := found.inside
    have reads := found.reads
    unfold packetLoad
    rw [found.drop, drop_eq_getElem_cons inside]
    rw [drop_eq_getElem_cons inside] at reads
    have value := reads 0 _ rfl
    exact congrArg (fun b : Byte => some (b.setWidth 32)) value

/-- The halfword at a place of the chain. -/
theorem At.half {k : Nat} (found : At parts k m next within before here after)
    (nonempty : ∀ part ∈ parts, part ≠ []) (small : here.length + 4 ≤ 2 ^ 32) :
    xhalfAt m next within = packetLoad parts.flatten k .h := by
  have inside := found.inside
  have mLen := found.holds.length
  have length : (here.drop within.toNat).length = here.length - within.toNat := length_drop
  have reads := found.reads
  unfold xhalfAt packetLoad
  rw [found.drop]
  match bytes : here.drop within.toNat, length, reads with
  | a :: b :: rest, length, reads =>
    rw [length_cons, length_cons] at length
    rw [if_pos (by bv_omega)]
    have first := reads 0 a rfl
    have second := reads 1 b rfl
    simp [extractShort, ← first, ← second]
  | [a], length, reads =>
    rw [length_singleton] at length
    rw [if_neg (by bv_omega)]
    have first : m.data within.toNat = a := reads 0 a rfl
    rcases next with _ | ⟨m0, others⟩
    · rw [found.after_nil]
      rfl
    · obtain ⟨part, later, holds, _, rfl⟩ := forall₂_cons_left_iff.mp found.rest
      have present := nonempty part (by rw [found.shape]; simp)
      rcases part with _ | ⟨x, part⟩
      · exact absurd rfl present
      · have second : m0.data 0 = x := holds.reads 0 x rfl
        simp [first, second]
  | [], length, _ =>
    rw [length_nil] at length
    omega

/-- The three ways in which a word lies in two mbufs. -/
theorem straddle_eq {cp np : Nat → Byte} {part : List Byte} (rest : List Byte)
    (first : Reads cp bytes) (second : Reads np part) (present : 0 < bytes.length)
    (short : bytes.length < 4) (enough : 4 ≤ bytes.length + part.length) :
    packetLoad (bytes ++ (part ++ rest)) 0 .w =
      some (straddle cp np (BitVec.ofNat 32 bytes.length)) := by
  unfold straddle
  match bytes, part, present, short, enough, first, second with
  | [a], x :: y :: z :: _, _, _, _, first, second =>
    simp [packetLoad, first 0 a rfl, second 0 x rfl, second 1 y rfl, second 2 z rfl]
  | [a, b], x :: y :: _, _, _, _, first, second =>
    simp [packetLoad, first 0 a rfl, first 1 b rfl, second 0 x rfl, second 1 y rfl]
  | [a, b, c], x :: _, _, _, _, first, second =>
    simp [packetLoad, first 0 a rfl, first 1 b rfl, first 2 c rfl, second 0 x rfl]

/-- The word at a place of the chain, in one mbuf or in two. -/
theorem At.word {k : Nat} (found : At parts k m next within before here after)
    (inTwo : WordsInTwo parts) (small : parts.flatten.length + 4 ≤ 2 ^ 32) :
    xwordAt m next within = packetLoad parts.flatten k .w := by
  have inside := found.inside
  have mLen := found.holds.length
  have total := found.length
  have left : (here.drop within.toNat).length = here.length - within.toNat := length_drop
  have reads := found.reads
  unfold xwordAt
  by_cases fits : within.toNat + 4 ≤ here.length
  · rw [if_pos (by bv_omega)]
    have word := found.holds.reads.word fits
    unfold packetLoad at word ⊢
    rw [found.drop]
    match bytes : here.drop within.toNat, left, word with
    | a :: b :: c :: d :: rest, _, word => exact word.symm
    | [], _, word | [_], _, word | [_, _], _, word | [_, _, _], _, word => cases word
  · rw [if_neg (by bv_omega)]
    rcases next with _ | ⟨m0, others⟩
    · have last := found.after_nil
      rw [last] at total
      rw [packetLoad_w_short]
      have index := found.index
      simp only [flatten_nil, length_nil] at total
      omega
    · obtain ⟨part, later, holds, _, rfl⟩ := forall₂_cons_left_iff.mp found.rest
      have second := holds.length
      have index := found.index
      simp only [flatten_cons, length_append] at total
      dsimp only
      split
      case isTrue short =>
        have ends := inTwo before here part later found.shape (here.length - within.toNat)
          (by omega) (by omega) (by bv_omega)
        rw [packetLoad_w_short (by omega)]
      case isFalse enough =>
        have word := straddle_eq later.flatten reads holds.reads (by omega) (by omega)
          (by bv_omega)
        have count : m.mLen - within = BitVec.ofNat 32 (here.drop within.toNat).length := by
          bv_omega
        rw [count, ← word]
        unfold packetLoad
        rw [found.drop]
        rfl

theorem bpfMXhalf_eq (holds : List.Forall₂ Holds (m :: next) parts)
    (nonempty : ∀ part ∈ parts, part ≠ []) (small : parts.flatten.length + 4 ≤ 2 ^ 32) :
    bpfMXhalf m next k = packetLoad parts.flatten k.toNat .h := by
  unfold bpfMXhalf
  cases result : mindex m k next with
  | none =>
    have behind := mindex_eq_none holds result
    rw [packetLoad_h_short (by omega)]
    rfl
  | some place =>
    obtain ⟨before, here, after, found⟩ := mindex_eq_some holds result
    have total := found.length
    exact found.half nonempty (by omega)

theorem bpfMXword_eq (holds : List.Forall₂ Holds (m :: next) parts) (inTwo : WordsInTwo parts)
    (small : parts.flatten.length + 4 ≤ 2 ^ 32) :
    bpfMXword m next k = packetLoad parts.flatten k.toNat .w := by
  unfold bpfMXword
  cases result : mindex m k next with
  | none =>
    have behind := mindex_eq_none holds result
    rw [packetLoad_w_short (by omega)]
    rfl
  | some place =>
    obtain ⟨before, here, after, found⟩ := mindex_eq_some holds result
    exact found.word inTwo small

/-- A word that begins in the last bytes of a mbuf and does not end in the next is not found. -/
theorem bpfMXword_eq_none {second : List Byte} {r : Nat}
    (holds : List.Forall₂ Holds (m :: next) (before ++ here :: second :: after))
    (positive : 0 < r) (within : r ≤ here.length) (short : r + second.length < 4)
    (index : k.toNat = before.flatten.length + (here.length - r))
    (small : here.length + 4 ≤ 2 ^ 32) : bpfMXword m next k = none := by
  obtain ⟨m', next', k', found, indexEq, first, rest⟩ := mindex_of_at holds (by omega) index
  obtain ⟨m0, others, next, -, rfl⟩ := forall₂_cons_right_iff.mp rest
  have length := first.length
  have nextLength := next.length
  have straddles : ¬k' + 4 ≤ m'.mLen := by bv_omega
  have lacking : m0.mLen + m'.mLen - k' < 4 := by bv_omega
  simp only [bpfMXword, found, Option.bind_eq_bind, Option.bind_some, xwordAt, if_neg straddles,
    if_pos lacking]

end Chain

/-! ### Verdicts -/

section Verdicts

variable {overshift : AluOp → Word → Word → Word} {input input' : Input}
  {parts : List (List Byte)}

theorem load_chain (chain : IsChain input parts) (nonempty : ∀ part ∈ parts, part ≠ [])
    (inTwo : WordsInTwo parts) (small : parts.flatten.length + 4 ≤ 2 ^ 32) (k : Word)
    (size : Size) : (load input k size).2 = packetLoad parts.flatten k.toNat size := by
  -- without a buffer every load is outside of it
  have path {outside : Prop} [Decidable outside] (out : outside) (value : Option Word)
      (bytes : List Nat) (flat : Word) : (loadWith input outside value bytes flat).2 = value := by
    unfold loadWith
    rw [if_pos out, if_neg (by simp [chain.buflen])]
  unfold load
  rw [chain.buflen]
  cases size with
  | w => exact (path (by bv_omega) ..).trans (bpfMXword_eq chain.holds inTwo small)
  | h => exact (path (by bv_omega) ..).trans (bpfMXhalf_eq chain.holds nonempty small)
  | b => exact (path (by bv_omega) ..).trans (mByte_eq chain.holds)

section

variable (loads : ∀ k size, (load input k size).2 = (load input' k size).2)
include loads

/-- The outcome of an instruction depends on the packet by its loads only. -/
theorem exec_congr (wirelen : input.wirelen = input'.wirelen) (insn : Insn) (c : Config) (op : Op) :
    (exec overshift input insn c op).2 = (exec overshift input' insn c op).2 := by
  cases op with
  | ldAbs size | ldInd size | ldxMsh => simp only [exec, loaded, loads]
  | ldLen | ldxLen => simp only [exec, wirelen]
  | div src =>
    cases src with
    | k => rfl
    | x => rfl
  | _ => rfl

theorem bpfFilter_congr (wirelen : input.wirelen = input'.wirelen) (fuel : Nat) (f : Nat → Insn) :
    (bpfFilter overshift fuel (some f) input).2 = (bpfFilter overshift fuel (some f) input').2 := by
  apply run_congr
  intro c
  unfold step
  dsimp only
  cases decode (f c.pc).code with
  | none => rfl
  | some op => exact exec_congr loads wirelen _ c op

end

/-- The program that accepts the packets with a word at `k`. -/
def hasWord (k : Word) : Nat → Insn
  | 0 => ⟨bpfLdx ||| bpfImm, 0, 0, k⟩
  | 1 => ⟨bpfLd ||| bpfW ||| bpfInd, 0, 0, 0⟩
  | _ => ⟨bpfRet ||| bpfK, 0, 0, 1⟩

theorem hasWord_valid {maxbufsize : Word} (positive : 0 < maxbufsize) (k : Word) :
    bpfValidate maxbufsize (hasWord k) 3 = true := by
  have checked : ∀ i < 3, insnOk maxbufsize 3 (BitVec.ofNat 32 i) (hasWord k i) = true := by
    intro i below
    have bound : 0#32 < maxbufsize := positive
    interval_cases i <;>
      simp [insnOk, loadOk, hasWord, bpfClass, bpfMode, bpfLd, bpfLdx, bpfSt, bpfStx, bpfAlu,
        bpfJmp, bpfRet, bpfImm, bpfAbs, bpfInd, bpfW, bpfK, bound]
  have last : bpfClass (bpfRet ||| bpfK) = bpfRet := by decide
  refine Bool.and_eq_true_iff.mpr ⟨?_, decide_eq_true last⟩
  rw [List.all_eq_true]
  exact fun i member => checked i (List.mem_range.mp member)

theorem hasWord_verdict (input : Input) (k : Word) :
    (bpfFilter overshift 3 (some (hasWord k)) input).2 =
      some (if (load input k .w).2.isSome then 1 else 0) := by
  have first : decode (bpfLdx ||| bpfImm) = some .ldxImm := by decide
  have second : decode (bpfLd ||| bpfW ||| bpfInd) = some (.ldInd .w) := by decide
  have third : decode (bpfRet ||| bpfK) = some .retK := by decide
  rcases result : load input k .w with ⟨accesses, _ | word⟩ <;>
    simp [bpfFilter, run, step, hasWord, first, second, third, exec, Config.setX, Config.setA,
      Config.skip, loaded, result]

/-- The valid programs have the same verdict on a packet in a chain of mbufs, none of them empty,
and on a flat copy of it, exactly if no word of the packet lies in more than two mbufs. -/
theorem chain_verdict_eq_flat {maxbufsize : Word} (positive : 0 < maxbufsize)
    (chain : IsChain input parts) (flat : IsFlat input' parts.flatten)
    (wirelen : input.wirelen = input'.wirelen) (nonempty : ∀ part ∈ parts, part ≠ [])
    (small : parts.flatten.length + 4 ≤ 2 ^ 32) :
    (∀ f len, bpfValidate maxbufsize f len = true →
      ∃ verdict, (bpfFilter overshift len.toNat (some f) input).2 = some verdict ∧
        (bpfFilter overshift len.toNat (some f) input').2 = some verdict) ↔ WordsInTwo parts := by
  have present : parts.flatten ≠ [] := by
    obtain ⟨first, later, _, _, rfl⟩ := forall₂_cons_left_iff.mp chain.holds
    have firstPresent := nonempty first (by simp)
    simp [firstPresent]
  constructor
  · -- a word in three mbufs is in the flat copy only
    rintro same before first second after rfl r rPos rLe short
    by_contra enough
    simp only [flatten_append, flatten_cons, length_append] at small
    obtain ⟨k, index⟩ : ∃ k : Word, k.toNat = before.flatten.length + (first.length - r) :=
      ⟨BitVec.ofNat 32 (before.flatten.length + (first.length - r)), by
        rw [BitVec.toNat_ofNat, Nat.mod_eq_of_lt (by omega)]⟩
    obtain ⟨verdict, onChain, onFlat⟩ := same (hasWord k) 3 (hasWord_valid positive k)
    have missing : (load input k .w).2 = none := by
      have word := bpfMXword_eq_none chain.holds rPos rLe short index (by omega)
      simp only [load, loadWith, chain.buflen]
      rw [if_pos (by bv_omega), if_neg (by simp), word]
    have found : (load input' k .w).2.isSome := by
      rw [load_flat flat present, flat.reads.word]
      · rfl
      · simp only [flatten_append, flatten_cons, length_append]
        omega
    have refused := (hasWord_verdict input k).symm.trans onChain
    have accepted := (hasWord_verdict input' k).symm.trans onFlat
    rw [missing, ← accepted, found] at refused
    simp at refused
  · intro inTwo f len accepted
    have start : (⟨0, 0, 0, fun _ => 0⟩ : Config).pc < len.toNat := (needs_of_validate accepted).1
    obtain ⟨verdict, result⟩ := ((step_ok accepted overshift input).run start (Nat.sub_le _ _)).1
    have same : ∀ k size, (load input k size).2 = (load input' k size).2 := by
      intro k size
      rw [load_chain chain nonempty inTwo small, load_flat flat present]
    exact ⟨verdict, result, (bpfFilter_congr same wirelen len.toNat f).symm.trans result⟩

end Verdicts

/-! ### Examples of packets -/

/-- A mbuf with the bytes. -/
def mbufOf (bytes : List Byte) : Mbuf :=
  ⟨BitVec.ofNat 32 bytes.length, fun i => bytes.getD i 0⟩

def chainOf (first : List Byte) (others : List (List Byte)) (wirelen : Word) : Input :=
  ⟨fun _ => 0, mbufOf first, others.map mbufOf, wirelen, 0⟩

def flatOf (packet : List Byte) (wirelen : Word) : Input :=
  ⟨fun i => packet.getD i 0, ⟨0, fun _ => 0⟩, [], wirelen, BitVec.ofNat 32 packet.length⟩

/-- The program whose verdict is the word at `k`. -/
def wordAt (k : Word) : Nat → Insn
  | 0 => ⟨bpfLd ||| bpfW ||| bpfAbs, 0, 0, k⟩
  | _ => ⟨bpfRet ||| bpfA, 0, 0, 0⟩

theorem reads_getD (bytes : List Byte) : Reads (fun i => bytes.getD i 0) bytes := by
  intro i b found
  simp [getD_eq_getElem?_getD, found]

theorem holds_mbufOf (small : bytes.length < 2 ^ 32) : Holds (mbufOf bytes) bytes :=
  ⟨by simpa [mbufOf] using small, reads_getD bytes⟩

/-- Every word lies in two mbufs if all but the first and the last have three bytes. -/
theorem wordsInTwo_of_inner (long : ∀ part ∈ parts.tail.dropLast, 3 ≤ part.length) :
    WordsInTwo parts := by
  rintro before first second after rfl r positive _ short
  rcases eq_nil_or_concat' after with rfl | ⟨later, last, rfl⟩
  · simpa using short
  · have inner : second ∈ (before ++ first :: second :: (later ++ [last])).tail.dropLast := by
      rcases before with _ | ⟨head, before⟩
      · change second ∈ ((second :: later) ++ [last]).dropLast
        rw [dropLast_concat]
        exact mem_cons_self
      · have shape : before ++ first :: second :: (later ++ [last]) =
            (before ++ first :: second :: later) ++ [last] := by simp
        change second ∈ (before ++ first :: second :: (later ++ [last])).dropLast
        rw [shape, dropLast_concat]
        simp
    have := long second inner
    omega

/-- A word in two mbufs. -/
theorem wordAt_chain_eq_flat : ∃ verdict, (bpfFilter (fun _ a _ => a) 2 (some (wordAt 3))
        (chainOf [1, 2, 3, 4, 5] [[6, 7, 8]] 8)).2 = some verdict ∧
      (bpfFilter (fun _ a _ => a) 2 (some (wordAt 3))
        (flatOf [1, 2, 3, 4, 5, 6, 7, 8] 8)).2 = some verdict := by
  have accepted : bpfValidate 2097152 (wordAt 3) 2 = true := by decide
  have chain : IsChain (chainOf [1, 2, 3, 4, 5] [[6, 7, 8]] 8) [[1, 2, 3, 4, 5], [6, 7, 8]] :=
    ⟨.cons (holds_mbufOf (by decide)) (.cons (holds_mbufOf (by decide)) .nil), rfl⟩
  have flat : IsFlat (flatOf [1, 2, 3, 4, 5, 6, 7, 8] 8)
      [[1, 2, 3, 4, 5], [6, 7, 8]].flatten :=
    ⟨reads_getD _, rfl⟩
  exact (chain_verdict_eq_flat (by decide) chain flat rfl (by simp) (by decide)).mpr
    (wordsInTwo_of_inner (by simp)) (wordAt 3) 2 accepted

/-- A word in four mbufs. -/
theorem word_in_four_mbufs : bpfValidate 2097152 (wordAt 0) 2 = true ∧
      (bpfFilter (fun _ a _ => a) 2 (some (wordAt 0)) (chainOf [0] [[0], [0], [1]] 4)).2 = some 0 ∧
      (bpfFilter (fun _ a _ => a) 2 (some (wordAt 0)) (flatOf [0, 0, 0, 1] 4)).2 = some 1 := by
  decide +kernel

end Bitrig.Bpf
