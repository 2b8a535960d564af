import Bitrig.Bpf.Filter

/-!
# Programs that pass validation

`bpf_validate`, and what it is for: a program that it accepts comes to a result within as
many instructions as it has, and accesses nothing outside its bounds on the way.
-/

namespace Bitrig.Bpf

open TracedRun List

/-! ### The validator -/

/-- `BPF_CLASS`. -/
def bpfClass (code : Code) : Code :=
  code &&& 0x07

/-- `BPF_MODE`. -/
def bpfMode (code : Code) : Code :=
  code &&& 0xe0

/-- `BPF_OP`. -/
def bpfOp (code : Code) : Code :=
  code &&& 0xf0

/-- `BPF_SRC`. -/
def bpfSrc (code : Code) : Code :=
  code &&& 0x08

/-- `BPF_MAXINSNS`. -/
def bpfMaxinsns : Int :=
  512

/-- The checks for `BPF_LD` and `BPF_LDX`. -/
def loadOk (maxbufsize : Word) (p : Insn) : Bool :=
  let mode := bpfMode p.code
  if mode = bpfImm then true
  else if mode = bpfAbs ∨ mode = bpfInd ∨ mode = bpfMsh then p.k < maxbufsize
  else if mode = bpfMem then p.k.toNat < bpfMemwords
  else mode = bpfLen

/-- The checks for `BPF_ALU`. -/
def aluOk (p : Insn) : Bool :=
  let op := bpfOp p.code
  if op = bpfAdd ∨ op = bpfSub ∨ op = bpfMul ∨ op = bpfOr ∨ op = bpfAnd ∨ op = bpfLsh ∨
      op = bpfRsh ∨ op = bpfNeg then true
  else if op = bpfDiv then !(bpfSrc p.code = bpfK ∧ p.k = 0)
  else false

/-- The checks for `BPF_JMP`. -/
def jmpOk (len i : Word) (p : Insn) : Bool :=
  let source := i + 1
  let op := bpfOp p.code
  if op = bpfJa then !(source + p.k < source ∨ len ≤ source + p.k)
  else if op = bpfJeq ∨ op = bpfJgt ∨ op = bpfJge ∨ op = bpfJset then
    !(len ≤ source + p.jt.setWidth 32 ∨ len ≤ source + p.jf.setWidth 32)
  else false

/-- One turn of the loop of `bpf_validate`.  The eight classes are all there are. -/
def insnOk (maxbufsize len i : Word) (p : Insn) : Bool :=
  let cls := bpfClass p.code
  if cls = bpfLd ∨ cls = bpfLdx then loadOk maxbufsize p
  else if cls = bpfSt ∨ cls = bpfStx then p.k.toNat < bpfMemwords
  else if cls = bpfAlu then aluOk p
  else if cls = bpfJmp then jmpOk len i p
  else if cls = bpfRet then true
  else if cls = bpfMisc then true
  else false

/-- `bpf_validate`. -/
def bpfValidate (maxbufsize : Word) (f : Nat → Insn) (len : Int) : Bool :=
  if len < 1 ∨ bpfMaxinsns < len then false
  else
    (List.range len.toNat).all (fun i =>
      insnOk maxbufsize (BitVec.ofInt 32 len) (BitVec.ofNat 32 i) (f i)) &&
      bpfClass (f (len.toNat - 1)).code = bpfRet

/-! ### What is valid is safe -/

/-- What an instruction may access. -/
def Access.Safe (len : Nat) (buflen : Word) : Access → Prop
  | insn i => i < len
  | mem k => k.toNat < bpfMemwords
  | divisor d => d ≠ 0
  | byte i => i < buflen.toNat
  | mbuf => buflen = 0

/-- What the operation of an instruction needs to be safe, and to stay in the program. -/
def Op.Needs (len i : Nat) (p : Insn) : Op → Prop
  | retK | retA => True
  | ldMem | ldxMem | st | stx => p.k.toNat < bpfMemwords ∧ i + 1 < len
  | div .k => p.k ≠ 0 ∧ i + 1 < len
  | ja => i + p.k.toNat + 1 < len
  | jump _ _ => i + p.jt.toNat + 1 < len ∧ i + p.jf.toNat + 1 < len
  | _ => i + 1 < len

/-- The place where the validator checks the code of an operation. -/
def Op.checkedAs (code : Code) (op : Op) : Bool :=
  let cls := bpfClass code
  match op with
  | retK | retA => true
  | ldMem | ldxMem => (cls = bpfLd ∨ cls = bpfLdx) ∧ bpfMode code = bpfMem
  | st | stx => cls = bpfSt ∨ cls = bpfStx
  | div .k => cls = bpfAlu ∧ bpfOp code = bpfDiv ∧ bpfSrc code = bpfK
  | ja => cls = bpfJmp ∧ bpfOp code = bpfJa
  | jump _ _ =>
    cls = bpfJmp ∧
      (bpfOp code = bpfJeq ∨ bpfOp code = bpfJgt ∨ bpfOp code = bpfJge ∨ bpfOp code = bpfJset)
  | _ => cls ≠ bpfRet

section Valid

variable {maxbufsize : Word} {f : Nat → Insn} {len : Int} {i n : Nat} {p : Insn} {op : Op}

theorem opcodes_checkedAs : ∀ entry ∈ opcodes, entry.2.checkedAs entry.1 = true := by
  decide

theorem checkedAs_of_decode (decoded : decode p.code = some op) : op.checkedAs p.code = true := by
  obtain ⟨before, after, shape, _⟩ := lookup_eq_some_iff.mp decoded
  apply opcodes_checkedAs (p.code, op)
  rw [shape]
  simp

section Classes

variable {l j : Word}

theorem insnOk_load (cls : bpfClass p.code = bpfLd ∨ bpfClass p.code = bpfLdx) :
    insnOk maxbufsize l j p = loadOk maxbufsize p :=
  if_pos cls

theorem insnOk_store (cls : bpfClass p.code = bpfSt ∨ bpfClass p.code = bpfStx) :
    insnOk maxbufsize l j p = decide (p.k.toNat < bpfMemwords) := by
  unfold insnOk
  rcases cls with cls | cls <;> rw [cls] <;> rfl

theorem insnOk_alu (cls : bpfClass p.code = bpfAlu) : insnOk maxbufsize l j p = aluOk p := by
  unfold insnOk
  rw [cls]
  rfl

theorem insnOk_jmp (cls : bpfClass p.code = bpfJmp) : insnOk maxbufsize l j p = jmpOk l j p := by
  unfold insnOk
  rw [cls]
  rfl

end Classes

/-- A memory operation that passes the check has a valid index. -/
theorem loadOk_mem (mode : bpfMode p.code = bpfMem) (ok : loadOk maxbufsize p = true) :
    p.k.toNat < bpfMemwords := by
  unfold loadOk at ok
  rw [mode] at ok
  simpa [bpfMem, bpfImm, bpfAbs, bpfInd, bpfMsh] using ok

theorem aluOk_div (op : bpfOp p.code = bpfDiv) (src : bpfSrc p.code = bpfK)
    (ok : aluOk p = true) : p.k ≠ 0 := by
  unfold aluOk at ok
  rw [op, src] at ok
  simpa [bpfDiv, bpfAdd, bpfSub, bpfMul, bpfOr, bpfAnd, bpfLsh, bpfRsh, bpfNeg] using ok

/-- A jump that passes the check stays in the program; its target does not wrap. -/
theorem jmpOk_ja (small : n ≤ 512) (inside : i < n) (op : bpfOp p.code = bpfJa)
    (ok : jmpOk (BitVec.ofNat 32 n) (BitVec.ofNat 32 i) p = true) :
    i + p.k.toNat + 1 < n := by
  unfold jmpOk at ok
  rw [op] at ok
  simp only [if_true, Bool.not_eq_true', decide_eq_false_iff_not, not_or] at ok
  bv_omega

theorem jmpOk_jump (small : n ≤ 512) (inside : i < n)
    (op : bpfOp p.code = bpfJeq ∨ bpfOp p.code = bpfJgt ∨ bpfOp p.code = bpfJge ∨
      bpfOp p.code = bpfJset)
    (ok : jmpOk (BitVec.ofNat 32 n) (BitVec.ofNat 32 i) p = true) :
    i + p.jt.toNat + 1 < n ∧ i + p.jf.toNat + 1 < n := by
  have other : bpfOp p.code ≠ bpfJa := by
    rcases op with op | op | op | op <;> rw [op] <;> decide
  unfold jmpOk at ok
  rw [if_neg other, if_pos op] at ok
  simp only [Bool.not_eq_true', decide_eq_false_iff_not, not_or] at ok
  bv_omega

/-- The checks give each operation what it needs. -/
theorem needs_of_insnOk (small : n ≤ 512) (inside : i < n)
    (ok : insnOk maxbufsize (BitVec.ofNat 32 n) (BitVec.ofNat 32 i) p = true)
    (last : i + 1 = n → bpfClass p.code = bpfRet) (decoded : decode p.code = some op) :
    op.Needs n i p := by
  have checked := checkedAs_of_decode decoded
  have inner (other : bpfClass p.code ≠ bpfRet) : i + 1 < n := by
    have : i + 1 ≠ n := fun isLast => other (last isLast)
    omega
  have notRet {cls : Code} (here : bpfClass p.code = cls) (other : cls ≠ bpfRet) : i + 1 < n :=
    inner (here ▸ other)
  cases op with
  | retK => trivial
  | retA => trivial
  | ldMem | ldxMem =>
    obtain ⟨cls, mode⟩ := of_decide_eq_true checked
    rw [insnOk_load cls] at ok
    exact ⟨loadOk_mem mode ok, cls.elim (notRet · (by decide)) (notRet · (by decide))⟩
  | st | stx =>
    have cls := of_decide_eq_true checked
    rw [insnOk_store cls] at ok
    exact ⟨of_decide_eq_true ok, cls.elim (notRet · (by decide)) (notRet · (by decide))⟩
  | ja =>
    obtain ⟨cls, op⟩ := of_decide_eq_true checked
    rw [insnOk_jmp cls] at ok
    exact jmpOk_ja small inside op ok
  | jump cond src =>
    obtain ⟨cls, op⟩ := of_decide_eq_true checked
    rw [insnOk_jmp cls] at ok
    exact jmpOk_jump small inside op ok
  | div src =>
    cases src with
    | k =>
      obtain ⟨cls, op, src⟩ := of_decide_eq_true checked
      rw [insnOk_alu cls] at ok
      exact ⟨aluOk_div op src ok, notRet cls (by decide)⟩
    | x => exact inner (of_decide_eq_true checked)
  | _ => exact inner (of_decide_eq_true checked)

/-- An accepted program is not empty, and all its instructions have what they need. -/
theorem needs_of_validate (accepted : bpfValidate maxbufsize f len = true) :
    0 < len.toNat ∧ ∀ i < len.toNat, ∀ op, decode (f i).code = some op →
      op.Needs len.toNat i (f i) := by
  unfold bpfValidate at accepted
  split at accepted
  case isTrue => cases accepted
  case isFalse bounds =>
    have upper : len ≤ 512 := by
      unfold bpfMaxinsns at bounds
      omega
    simp only [Bool.and_eq_true, all_eq_true, mem_range, decide_eq_true_eq] at accepted
    obtain ⟨all, last⟩ := accepted
    have length : BitVec.ofInt 32 len = BitVec.ofNat 32 len.toNat := by
      rw [← BitVec.ofInt_natCast, Int.toNat_of_nonneg (by omega)]
    refine ⟨by omega, ?_⟩
    intro i inside op decoded
    apply needs_of_insnOk (by omega) inside (length ▸ all i inside) _ decoded
    intro isLast
    rw [← last, ← isLast, Nat.add_sub_cancel]

/-! ### Runs of a valid program -/

section Runs

variable {overshift : AluOp → Word → Word → Word} {input : Input} {c c' : Config}

theorem loadWith_safe {outside : Prop} [Decidable outside] {chain : Option Word}
    {bytes : List Nat} {flat : Word}
    (inside : ¬outside → ∀ i ∈ bytes, i < input.buflen.toNat) :
    ∀ access ∈ (loadWith input outside chain bytes flat).1, access.Safe n input.buflen := by
  unfold loadWith
  intro access member
  split_ifs at member with out noChain
  · cases member
  · obtain rfl := mem_singleton.mp member
    exact not_not.mp noChain
  · obtain ⟨i, isByte, rfl⟩ := mem_map.mp member
    exact inside out i isByte

/-- A load reads bytes of the buffer only, and mbufs only if there is no buffer. -/
theorem load_safe (k : Word) (size : Size) :
    ∀ access ∈ (load input k size).1, access.Safe n input.buflen := by
  cases size with
  | w | h =>
    apply loadWith_safe
    intro inside
    simp only [mem_cons, not_mem_nil, or_false, forall_eq_or_imp, forall_eq]
    bv_omega
  | b =>
    apply loadWith_safe
    intro inside
    simp only [mem_singleton, forall_eq]
    exact BitVec.not_le.mp inside

theorem exec_safe (needs : op.Needs n c.pc p) :
    ∀ access ∈ (exec overshift input p c op).1, access.Safe n input.buflen := by
  intro access member
  cases op with
  | ldAbs size | ldInd size | ldxMsh => exact load_safe _ _ access member
  | ldMem | ldxMem | st | stx =>
    obtain rfl := mem_singleton.mp member
    exact needs.1
  | div src =>
    cases src with
    | k =>
      obtain rfl := mem_singleton.mp member
      exact needs.1
    | x =>
      unfold exec at member
      dsimp only at member
      split at member
      case isTrue => cases member
      case isFalse nonzero =>
        obtain rfl := mem_singleton.mp member
        exact nonzero
  | _ => cases member

theorem loaded_forward {result : List Access × Option Word} {set : Word → Config}
    (sets : ∀ value, (set value).pc = c.pc + 1) (went : (loaded result set).2 = .inl c') :
    c'.pc = c.pc + 1 := by
  rcases result with ⟨_, _ | value⟩
  · cases went
  · cases went
    exact sets value

/-- The next instruction is behind this one, and in the program. -/
theorem exec_forward (needs : op.Needs n c.pc p)
    (result : (exec overshift input p c op).2 = .inl c') : c.pc < c'.pc ∧ c'.pc < n := by
  -- all but the jumps go on with the next instruction
  have next (ahead : c.pc + 1 < n) (pc : c'.pc = c.pc + 1) : c.pc < c'.pc ∧ c'.pc < n := by
    omega
  cases op with
  | retK | retA => cases result
  | ldAbs size | ldInd size | ldxMsh => exact next needs (loaded_forward (fun _ => rfl) result)
  | ldMem | ldxMem | st | stx =>
    cases result
    exact next needs.2 rfl
  | ja =>
    cases result
    exact ⟨by simp only [Config.skip]; omega, needs⟩
  | jump cond src =>
    cases result
    obtain ⟨whenTrue, whenFalse⟩ := needs
    simp only [Config.skip]
    split <;> omega
  | div src =>
    cases src with
    | k =>
      cases result
      exact next needs.2 rfl
    | x =>
      unfold exec at result
      dsimp only at result
      split at result
      case isTrue => cases result
      case isFalse =>
        cases result
        exact next needs rfl
  | _ =>
    cases result
    exact next needs rfl

/-- One turn of the loop in an accepted program. -/
theorem step_ok (accepted : bpfValidate maxbufsize f len = true)
    (overshift : AluOp → Word → Word → Word) (input : Input) :
    StepOk (step overshift f input) (fun c => c.pc < len.toNat) (fun c => len.toNat - c.pc)
      (Access.Safe len.toNat input.buflen) := by
  obtain ⟨_, needs⟩ := needs_of_validate accepted
  constructor
  · intro c inside
    omega
  · intro c inside access member
    rcases mem_cons.mp member with rfl | member
    · exact inside
    · cases decoded : decode (f c.pc).code with
      | none =>
        rw [decoded] at member
        cases member
      | some op =>
        rw [decoded] at member
        exact exec_safe (needs c.pc inside op decoded) access member
  · intro c c' inside went
    unfold step at went
    dsimp only at went
    cases decoded : decode (f c.pc).code with
    | none =>
      rw [decoded] at went
      cases went
    | some op =>
      rw [decoded] at went
      obtain ⟨forward, stays⟩ := exec_forward (needs c.pc inside op decoded) went
      exact ⟨stays, by omega⟩

/-- A program that the validator accepts has a result, on every packet, after at most as many
instructions as it has.  On the way it fetches no instruction outside the program, accesses
no word outside the scratch memory, does not divide by zero, reads no byte of the buffer at
`buflen` or behind, and takes the packet for mbufs only if `buflen` is zero. -/
theorem validated_filter_safe (accepted : bpfValidate maxbufsize f len = true)
    (overshift : AluOp → Word → Word → Word) (input : Input) :
    (∃ verdict, (bpfFilter overshift len.toNat (some f) input).2 = some verdict) ∧
      ∀ access ∈ (bpfFilter overshift len.toNat (some f) input).1,
        access.Safe len.toNat input.buflen := by
  apply (step_ok accepted overshift input).run
  · exact (needs_of_validate accepted).1
  · exact Nat.sub_le _ _

end Runs

end Valid

/-- A program that accepts the packets with a given first byte. -/
def firstByteIs (byte : Word) : Nat → Insn
  | 0 => ⟨bpfLd ||| bpfB ||| bpfAbs, 0, 0, 0⟩
  | 1 => ⟨bpfJmp ||| bpfJeq ||| bpfK, 0, 1, byte⟩
  | 2 => ⟨bpfRet ||| bpfK, 0, 0, 96⟩
  | _ => ⟨bpfRet ||| bpfK, 0, 0, 0⟩

theorem firstByteIs_safe : bpfValidate 2097152 (firstByteIs 69) 4 = true ∧
      ∀ overshift input, ∃ verdict,
        (bpfFilter overshift 4 (some (firstByteIs 69)) input).2 = some verdict := by
  have accepted : bpfValidate 2097152 (firstByteIs 69) 4 = true := by decide
  exact ⟨accepted, fun overshift input => (validated_filter_safe accepted overshift input).1⟩

end Bitrig.Bpf
