import Bitrig.Lib.TracedRun

/-!
# The filter machine

`bpf_filter` of `bpf_filter.c` as compiled for the kernel: an interpreter with an
accumulator, an index register and sixteen words of scratch memory, on a packet that is a
flat buffer or, with `buflen` zero, a chain of mbufs.  A step notes what it accesses.
-/

namespace Bitrig.Bpf

abbrev Byte :=
  BitVec 8

/-- `u_int32_t` and `u_int`. -/
abbrev Word :=
  BitVec 32

/-- The code of an instruction. -/
abbrev Code :=
  BitVec 16

/-- `struct bpf_insn`. -/
structure Insn where
  code : Code
  jt : Byte
  jf : Byte
  k : Word
  deriving DecidableEq

/-! ### Codes -/

section Codes

def bpfLd : Code := 0x00
def bpfLdx : Code := 0x01
def bpfSt : Code := 0x02
def bpfStx : Code := 0x03
def bpfAlu : Code := 0x04
def bpfJmp : Code := 0x05
def bpfRet : Code := 0x06
def bpfMisc : Code := 0x07

def bpfW : Code := 0x00
def bpfH : Code := 0x08
def bpfB : Code := 0x10

def bpfImm : Code := 0x00
def bpfAbs : Code := 0x20
def bpfInd : Code := 0x40
def bpfMem : Code := 0x60
def bpfLen : Code := 0x80
def bpfMsh : Code := 0xa0

def bpfAdd : Code := 0x00
def bpfSub : Code := 0x10
def bpfMul : Code := 0x20
def bpfDiv : Code := 0x30
def bpfOr : Code := 0x40
def bpfAnd : Code := 0x50
def bpfLsh : Code := 0x60
def bpfRsh : Code := 0x70
def bpfNeg : Code := 0x80

def bpfJa : Code := 0x00
def bpfJeq : Code := 0x10
def bpfJgt : Code := 0x20
def bpfJge : Code := 0x30
def bpfJset : Code := 0x40

def bpfK : Code := 0x00
def bpfX : Code := 0x08
def bpfA : Code := 0x10

def bpfTax : Code := 0x00
def bpfTxa : Code := 0x80

def bpfMemwords : Nat := 16

end Codes

inductive Size where
  | w
  | h
  | b
  deriving DecidableEq

/-- The second operand. -/
inductive Src where
  | k
  | x
  deriving DecidableEq

inductive AluOp where
  | add
  | sub
  | mul
  | and
  | or
  | lsh
  | rsh
  deriving DecidableEq

inductive Cond where
  | jgt
  | jge
  | jeq
  | jset
  deriving DecidableEq

/-- The cases of the `switch` of `bpf_filter`. -/
inductive Op where
  | retK
  | retA
  | ldAbs (size : Size)
  | ldLen
  | ldxLen
  | ldInd (size : Size)
  | ldxMsh
  | ldImm
  | ldxImm
  | ldMem
  | ldxMem
  | st
  | stx
  | ja
  | jump (cond : Cond) (src : Src)
  | alu (op : AluOp) (src : Src)
  | div (src : Src)
  | neg
  | tax
  | txa
  deriving DecidableEq

/-- The case labels, in the order of the source. -/
def opcodes : List (Code × Op) :=
  [(bpfRet ||| bpfK, .retK), (bpfRet ||| bpfA, .retA), (bpfLd ||| bpfW ||| bpfAbs, .ldAbs .w),
    (bpfLd ||| bpfH ||| bpfAbs, .ldAbs .h),
    (bpfLd ||| bpfB ||| bpfAbs, .ldAbs .b),
    (bpfLd ||| bpfW ||| bpfLen, .ldLen),
    (bpfLdx ||| bpfW ||| bpfLen, .ldxLen),
    (bpfLd ||| bpfW ||| bpfInd, .ldInd .w),
    (bpfLd ||| bpfH ||| bpfInd, .ldInd .h),
    (bpfLd ||| bpfB ||| bpfInd, .ldInd .b),
    (bpfLdx ||| bpfMsh ||| bpfB, .ldxMsh),
    (bpfLd ||| bpfImm, .ldImm),
    (bpfLdx ||| bpfImm, .ldxImm),
    (bpfLd ||| bpfMem, .ldMem),
    (bpfLdx ||| bpfMem, .ldxMem),
    (bpfSt, .st),
    (bpfStx, .stx),
    (bpfJmp ||| bpfJa, .ja),
    (bpfJmp ||| bpfJgt ||| bpfK, .jump .jgt .k),
    (bpfJmp ||| bpfJge ||| bpfK, .jump .jge .k),
    (bpfJmp ||| bpfJeq ||| bpfK, .jump .jeq .k),
    (bpfJmp ||| bpfJset ||| bpfK, .jump .jset .k),
    (bpfJmp ||| bpfJgt ||| bpfX, .jump .jgt .x),
    (bpfJmp ||| bpfJge ||| bpfX, .jump .jge .x),
    (bpfJmp ||| bpfJeq ||| bpfX, .jump .jeq .x),
    (bpfJmp ||| bpfJset ||| bpfX, .jump .jset .x),
    (bpfAlu ||| bpfAdd ||| bpfX, .alu .add .x),
    (bpfAlu ||| bpfSub ||| bpfX, .alu .sub .x),
    (bpfAlu ||| bpfMul ||| bpfX, .alu .mul .x),
    (bpfAlu ||| bpfDiv ||| bpfX, .div .x),
    (bpfAlu ||| bpfAnd ||| bpfX, .alu .and .x),
    (bpfAlu ||| bpfOr ||| bpfX, .alu .or .x),
    (bpfAlu ||| bpfLsh ||| bpfX, .alu .lsh .x),
    (bpfAlu ||| bpfRsh ||| bpfX, .alu .rsh .x),
    (bpfAlu ||| bpfAdd ||| bpfK, .alu .add .k),
    (bpfAlu ||| bpfSub ||| bpfK, .alu .sub .k),
    (bpfAlu ||| bpfMul ||| bpfK, .alu .mul .k),
    (bpfAlu ||| bpfDiv ||| bpfK, .div .k),
    (bpfAlu ||| bpfAnd ||| bpfK, .alu .and .k),
    (bpfAlu ||| bpfOr ||| bpfK, .alu .or .k),
    (bpfAlu ||| bpfLsh ||| bpfK, .alu .lsh .k),
    (bpfAlu ||| bpfRsh ||| bpfK, .alu .rsh .k),
    (bpfAlu ||| bpfNeg, .neg),
    (bpfMisc ||| bpfTax, .tax),
    (bpfMisc ||| bpfTxa, .txa)]

/-- The case of a code; none is the `default` label. -/
def decode (code : Code) : Option Op :=
  opcodes.lookup code

/-! ### Packets -/

/-- A mbuf: its length, and the memory behind `mtod(m, u_char *)`. -/
structure Mbuf where
  mLen : Word
  data : Nat → Byte

/-- What a call of `bpf_filter` is given besides the program.  The pointer `p` is taken for
an array of bytes (`p`) or for a chain of mbufs (`m`, and those behind it). -/
structure Input where
  p : Nat → Byte
  m : Mbuf
  mNext : List Mbuf
  wirelen : Word
  buflen : Word

/-- What a step accesses. -/
inductive Access where
  /-- the instruction `f[i]` -/
  | insn (i : Nat)
  /-- the word `mem[k]` -/
  | mem (k : Word)
  /-- a division -/
  | divisor (d : Word)
  /-- the byte `p[i]` -/
  | byte (i : Nat)
  /-- the mbuf chain -/
  | mbuf

/-- `EXTRACT_LONG`. -/
def extractLong (cp : Nat → Byte) (k : Nat) : Word :=
  cp k ++ cp (k + 1) ++ cp (k + 2) ++ cp (k + 3)

/-- `EXTRACT_SHORT`, as it is stored in `A`. -/
def extractShort (cp : Nat → Byte) (k : Nat) : Word :=
  (cp k ++ cp (k + 1)).setWidth 32

/-- `MINDEX`: the mbuf that has the byte, those behind it, and the index in it. -/
def mindex (m : Mbuf) (k : Word) : List Mbuf → Option (Mbuf × List Mbuf × Word)
  | [] => if m.mLen ≤ k then none else some (m, [], k)
  | m' :: rest => if m.mLen ≤ k then mindex m' (k - m.mLen) rest else some (m, m' :: rest, k)

/-- The word that begins with the last bytes of a mbuf: the `switch` of `bpf_m_xword`. -/
def straddle (cp np : Nat → Byte) (left : Word) : Word :=
  if left = 1 then cp 0 ++ np 0 ++ np 1 ++ np 2
  else if left = 2 then cp 0 ++ cp 1 ++ np 0 ++ np 1
  else cp 0 ++ cp 1 ++ cp 2 ++ np 0

/-- `bpf_m_xword` behind `MINDEX`; none if `*err` stays set. -/
def xwordAt (m : Mbuf) (next : List Mbuf) (k : Word) : Option Word :=
  if k + 4 ≤ m.mLen then some (extractLong m.data k.toNat)
  else
    match next with
    | [] => none
    | m0 :: _ =>
      if m0.mLen + m.mLen - k < 4 then none
      else some (straddle (fun i => m.data (k.toNat + i)) m0.data (m.mLen - k))

/-- `bpf_m_xword`. -/
def bpfMXword (m : Mbuf) (next : List Mbuf) (k : Word) : Option Word := do
  let (m, next, k) ← mindex m k next
  xwordAt m next k

/-- `bpf_m_xhalf` behind `MINDEX`; none if `*err` stays set. -/
def xhalfAt (m : Mbuf) (next : List Mbuf) (k : Word) : Option Word :=
  if k + 2 ≤ m.mLen then some (extractShort m.data k.toNat)
  else
    match next with
    | [] => none
    | m0 :: _ => some ((m.data k.toNat ++ m0.data 0).setWidth 32)

/-- `bpf_m_xhalf`. -/
def bpfMXhalf (m : Mbuf) (next : List Mbuf) (k : Word) : Option Word := do
  let (m, next, k) ← mindex m k next
  xhalfAt m next k

/-- The byte of a chain. -/
def mByte (m : Mbuf) (next : List Mbuf) (k : Word) : Option Word := do
  let (m, _, k) ← mindex m k next
  return (m.data k.toNat).setWidth 32

/-- A load from the packet; without a value the filter returns zero.  Its bytes come from the
flat buffer unless they are `outside` it, and then from the mbufs if there is no buffer. -/
def loadWith (input : Input) (outside : Prop) [Decidable outside] (chain : Option Word)
    (bytes : List Nat) (flat : Word) : List Access × Option Word :=
  if outside then
    if input.buflen ≠ 0 then ([], none) else ([.mbuf], chain)
  else (bytes.map .byte, some flat)

/-- The loads of a word, a halfword and a byte at `k`. -/
def load (input : Input) (k : Word) : Size → List Access × Option Word
  | .w =>
    loadWith input (input.buflen < k ∨ input.buflen - k < 4)
      (bpfMXword input.m input.mNext k)
      [k.toNat, k.toNat + 1, k.toNat + 2, k.toNat + 3] (extractLong input.p k.toNat)
  | .h =>
    loadWith input (input.buflen < k ∨ input.buflen - k < 2)
      (bpfMXhalf input.m input.mNext k)
      [k.toNat, k.toNat + 1] (extractShort input.p k.toNat)
  | .b =>
    loadWith input (input.buflen ≤ k) (mByte input.m input.mNext k)
      [k.toNat] ((input.p k.toNat).setWidth 32)

/-! ### Steps -/

/-- The local variables of `bpf_filter`. -/
structure Config where
  pc : Nat
  a : Word
  x : Word
  mem : Nat → Word

def Cond.test (cond : Cond) (a b : Word) : Bool :=
  match cond with
  | jgt => b < a
  | jge => b ≤ a
  | jeq => a = b
  | jset => a &&& b ≠ 0

/-- Shifts by 32 and more are as the processor has them. -/
def AluOp.eval (overshift : AluOp → Word → Word → Word) (op : AluOp) (a b : Word) : Word :=
  match op with
  | add => a + b
  | sub => a - b
  | mul => a * b
  | and => a &&& b
  | or => a ||| b
  | lsh => if b < 32 then a <<< b else overshift lsh a b
  | rsh => if b < 32 then a >>> b else overshift rsh a b

/-- The value of the second operand. -/
def Src.value (insn : Insn) (c : Config) : Src → Word
  | k => insn.k
  | x => c.x

namespace Config

/-- `continue`, behind the offset of a jump. -/
def skip (c : Config) (offset : Nat) : Config :=
  { c with pc := c.pc + offset + 1 }

def setA (c : Config) (value : Word) : Config :=
  { c.skip 0 with a := value }

def setX (c : Config) (value : Word) : Config :=
  { c.skip 0 with x := value }

def setMem (c : Config) (k value : Word) : Config :=
  { c.skip 0 with mem := Function.update c.mem k.toNat value }

end Config

/-- A load sets a register or returns zero. -/
def loaded (result : List Access × Option Word) (set : Word → Config) :
    List Access × (Config ⊕ Word) :=
  (result.1, (result.2.map fun value => .inl (set value)).getD (.inr 0))

/-- One case of the `switch`. -/
def exec (overshift : AluOp → Word → Word → Word) (input : Input) (insn : Insn) (c : Config) :
    Op → List Access × (Config ⊕ Word)
  | .retK => ([], .inr insn.k)
  | .retA => ([], .inr c.a)
  | .ldAbs size => loaded (load input insn.k size) c.setA
  | .ldLen => ([], .inl (c.setA input.wirelen))
  | .ldxLen => ([], .inl (c.setX input.wirelen))
  | .ldInd size => loaded (load input (c.x + insn.k) size) c.setA
  | .ldxMsh => loaded (load input insn.k .b) fun value => c.setX ((value &&& 0xf) <<< 2)
  | .ldImm => ([], .inl (c.setA insn.k))
  | .ldxImm => ([], .inl (c.setX insn.k))
  | .ldMem => ([.mem insn.k], .inl (c.setA (c.mem insn.k.toNat)))
  | .ldxMem => ([.mem insn.k], .inl (c.setX (c.mem insn.k.toNat)))
  | .st => ([.mem insn.k], .inl (c.setMem insn.k c.a))
  | .stx => ([.mem insn.k], .inl (c.setMem insn.k c.x))
  | .ja => ([], .inl (c.skip insn.k.toNat))
  | .jump cond src =>
    ([], .inl (c.skip (if cond.test c.a (src.value insn c) then insn.jt else insn.jf).toNat))
  | .alu op src => ([], .inl (c.setA (op.eval overshift c.a (src.value insn c))))
  | .div .x => if c.x = 0 then ([], .inr 0) else ([.divisor c.x], .inl (c.setA (c.a / c.x)))
  | .div .k => ([.divisor insn.k], .inl (c.setA (c.a / insn.k)))
  | .neg => ([], .inl (c.setA (-c.a)))
  | .tax => ([], .inl (c.setX c.a))
  | .txa => ([], .inl (c.setA c.x))

/-- One turn of the loop. -/
def step (overshift : AluOp → Word → Word → Word) (f : Nat → Insn) (input : Input)
    (c : Config) : List Access × (Config ⊕ Word) :=
  let insn := f c.pc
  let result : List Access × (Config ⊕ Word) :=
    match decode insn.code with
    | none => ([], .inr 0)
    | some op => exec overshift input insn c op
  (.insn c.pc :: result.1, result.2)

/-- `bpf_filter`, with a number of instructions after which it is given up.  There may be no
program. -/
def bpfFilter (overshift : AluOp → Word → Word → Word) (fuel : Nat) (f : Option (Nat → Insn))
    (input : Input) : List Access × Option Word :=
  match f with
  | none => ([], some (-1))
  | some f => TracedRun.run (step overshift f input) fuel ⟨0, 0, 0, fun _ => 0⟩

end Bitrig.Bpf
