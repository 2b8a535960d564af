import Bitrig.Lib.Buffer
import Bitrig.Lib.Transition

/-!
# Character lists of the tty driver (kern/tty_subr.c)

A clist is a ring buffer of characters, with a bitmap that says which of them are quoted.
Pointers into the ring are offsets from its start, `none` for NULL.  A call is undefined if it
follows a NULL pointer or leaves its buffer; a loop that does not end within the given number
of iterations is undefined too.
-/

namespace Bitrig.TtySubr

open Bitrig.Transition Function

abbrev Byte := BitVec 8

/-- An `int` that holds a character, or an error. -/
abbrev CInt := BitVec 32

def NBBY : Nat := 8

/-- `TTY_QUOTE` -/
def ttyQuote : CInt := 0x100

/-- `QMEM(n)`: bytes of a quote map for a number of characters. -/
def qmem (n : Nat) : Nat :=
  (n - 1) / NBBY + 1

/-- `struct clist` -/
structure Clist where
  /-- Count of characters in queue. -/
  cCc : Nat
  /-- Total ring buffer length. -/
  cCn : Nat
  /-- Points to first character. -/
  cCf : Option Nat
  /-- Points to next open character. -/
  cCl : Option Nat
  /-- Start of ring buffer. -/
  cCs : Option (Buffer Byte)
  /-- End of ring buffer. -/
  cCe : Nat
  /-- Quote map, if there is one. -/
  cCq : Option (Buffer Byte)

def clalloc (size : Nat) (quot : Bool) : Clist where
  cCc := 0
  cCn := size
  cCf := none
  cCl := none
  cCs := some ⟨size, fun _ => 0⟩
  cCe := size
  cCq := if quot then some ⟨qmem size, fun _ => 0⟩ else none

/-! ### Bits of the quote map -/

def isset (a : Buffer Byte) (i : Nat) : Option Bool :=
  (a.read (i / NBBY)).map fun byte => byte.getLsbD (i % NBBY)

def setbit (a : Buffer Byte) (i : Nat) : Option (Buffer Byte) :=
  a.modify (i / NBBY) fun byte => byte ||| 1#8 <<< (i % NBBY)

def clrbit (a : Buffer Byte) (i : Nat) : Option (Buffer Byte) :=
  a.modify (i / NBBY) fun byte => byte &&& ~~~(1#8 <<< (i % NBBY))

section Modify

/-! `clrbits` is stated for any kind of array that has a way to change a byte. -/

variable {M : Type} (modify : M → Nat → (Byte → Byte) → Option M)

/-- The loop of `clrbits`: zero a number of bytes. -/
def zeroBytesBy (cp : M) (i : Nat) : Nat → Option M
  | 0 => some cp
  | count + 1 => (modify cp i fun _ => 0).bind fun cp => zeroBytesBy cp (i + 1) count

def clrbitsBy (cp : M) (off len : Nat) : Option M :=
  if len = 1 then modify cp (off / NBBY) fun byte => byte &&& ~~~(1#8 <<< (off % NBBY))
  else
    let sby := off / NBBY
    let sbi := off % NBBY
    let eby := (off + len) / NBBY
    let ebi := (off + len) % NBBY
    if sby = eby then
      let mask : Byte := (1#8 <<< (ebi - sbi) - 1#8) <<< sbi
      modify cp sby fun byte => byte &&& ~~~mask
    else do
      let mask : Byte := 1#8 <<< sbi - 1#8
      let cp ← modify cp sby fun byte => byte &&& mask
      let cp ← zeroBytesBy modify cp (sby + 1) (eby - (sby + 1))
      let mask : Byte := 1#8 <<< ebi - 1#8
      -- if no mask, `eby` may be one too far
      if mask ≠ 0 then modify cp eby fun byte => byte &&& ~~~mask else some cp

end Modify

def clrbits (cp : Buffer Byte) (off len : Nat) : Option (Buffer Byte) :=
  clrbitsBy Buffer.modify cp off len

namespace Clist

variable (clp : Clist)

/-! ### Access to the ring -/

/-- `*p` -/
def load (p : Nat) : Option Byte :=
  clp.cCs.bind fun cs => cs.read p

/-- `*p = byte` -/
def store (p : Nat) (byte : Byte) : Option Clist :=
  clp.cCs.bind fun cs => (cs.write p byte).map fun cs => { clp with cCs := some cs }

/-- A pointer that has been moved on, or back to the start at the end of the ring. -/
def wrap (p : Nat) : Nat :=
  if p = clp.cCe then 0 else p

/-- `if (c_cq) if (isset(c_cq, i)) c |= TTY_QUOTE` -/
def addQuote (i : Nat) (c : CInt) : Option CInt :=
  match clp.cCq with
  | none => some c
  | some cq => (isset cq i).map fun quoted => if quoted then c ||| ttyQuote else c

/-- `if (c_cq) clrbit(c_cq, i)` -/
def dropQuote (i : Nat) : Option Clist :=
  match clp.cCq with
  | none => some clp
  | some cq => (clrbit cq i).map fun cq => { clp with cCq := some cq }

/-- `if (c_cq)`, then set or clear the bit as the character says. -/
def putQuote (i : Nat) (c : CInt) : Option Clist :=
  match clp.cCq with
  | none => some clp
  | some cq =>
    (if c &&& ttyQuote ≠ 0 then setbit cq i else clrbit cq i).map
      fun cq => { clp with cCq := some cq }

/-- `if (c_cq) clrbits(c_cq, i, len)` -/
def dropQuotes (i len : Nat) : Option Clist :=
  match clp.cCq with
  | none => some clp
  | some cq => (clrbits cq i len).map fun cq => { clp with cCq := some cq }

/-- An empty list has no pointers. -/
def resetEmpty : Clist :=
  if clp.cCc = 0 then { clp with cCf := none, cCl := none } else clp

/-- The first lines of `putc` and `b_to_q`: an empty list starts at the start of the ring. -/
def restart : Clist :=
  if clp.cCc = 0 then
    let clp := if clp.cCs.isNone then clalloc 1024 true else clp
    { clp with cCf := some 0, cCl := some 0 }
  else clp

end Clist

/-! ### Single characters -/

def getc (clp : Clist) : Option (CInt × Clist) :=
  if clp.cCc = 0 then some (-1, clp)
  else do
    let cf ← clp.cCf
    let byte ← clp.load cf
    let clp ← clp.store cf 0
    let c ← clp.addQuote cf (byte.setWidth 32)
    let clp ← clp.dropQuote cf
    let clp := { clp with cCf := some (clp.wrap (cf + 1)), cCc := clp.cCc - 1 }
    some (c, clp.resetEmpty)

def putc (c : CInt) (clp : Clist) : Option (CInt × Clist) :=
  if clp.cCc = clp.cCn then some (-1, clp)
  else do
    let clp := clp.restart
    let cl ← clp.cCl
    let clp ← clp.store cl (c.setWidth 8)
    let clp ← clp.putQuote cl c
    some (0, { clp with cCc := clp.cCc + 1, cCl := some (clp.wrap (cl + 1)) })

def unputc (clp : Clist) : Option (CInt × Clist) :=
  if clp.cCc = 0 then some (-1, clp)
  else do
    let cl ← clp.cCl
    let cl := if cl = 0 then clp.cCe - 1 else cl - 1
    let clp := { clp with cCl := some cl, cCc := clp.cCc - 1 }
    let byte ← clp.load cl
    let clp ← clp.store cl 0
    let c ← clp.addQuote cl (byte.setWidth 32)
    let clp ← clp.dropQuote cl
    some (c, clp.resetEmpty)

/-! ### Blocks of characters -/

/-- The part of the characters that comes before the end of the ring. -/
def contiguous (clp : Clist) (cf cl : Nat) : Nat :=
  if cf ≥ cl then clp.cCe - cf else cl - cf

/-- The loop of `q_to_b`; `p` has the bytes copied so far. -/
def qToBLoop : Nat → Clist → Nat → List Byte → Option (List Byte × Clist)
  | 0, _, _, _ => none
  | fuel + 1, clp, count, p =>
    if count > 0 ∧ clp.cCc > 0 then do
      let cf ← clp.cCf
      let cl ← clp.cCl
      let cc := contiguous clp cf cl
      let cc := if cc > count then count else cc
      let cs ← clp.cCs
      let bytes ← cs.slice cf cc
      let cs ← cs.splice cf cc fun _ => 0
      let clp ← { clp with cCs := some cs }.dropQuotes cf cc
      qToBLoop fuel
        { clp with cCc := clp.cCc - cc, cCf := some (clp.wrap (cf + cc)) } (count - cc) (p ++ bytes)
    else some (p, clp)

/-- The bytes that are copied, and the list that is left. -/
def qToB (fuel : Nat) (clp : Clist) (count : Int) : Option (List Byte × Clist) := do
  let (p, clp) ← qToBLoop fuel clp count.toNat []
  some (p, clp.resetEmpty)

/-- `ndqb` with a flag of zero. -/
def ndqb (clp : Clist) : Option Nat :=
  if clp.cCc = 0 then some 0
  else do
    let cf ← clp.cCf
    let cl ← clp.cCl
    some (contiguous clp cf cl)

def ndflushLoop : Nat → Clist → Nat → Option Clist
  | 0, _, _ => none
  | fuel + 1, clp, count =>
    if count > 0 ∧ clp.cCc > 0 then do
      let cf ← clp.cCf
      let cl ← clp.cCl
      let cc := contiguous clp cf cl
      let cc := if cc > count then count else cc
      ndflushLoop fuel { clp with cCc := clp.cCc - cc, cCf := some (clp.wrap (cf + cc)) }
        (count - cc)
    else some clp

def ndflush (fuel : Nat) (clp : Clist) (count : Int) : Option Clist :=
  if count = clp.cCc then some { clp with cCc := 0, cCf := none, cCl := none }
  else (ndflushLoop fuel clp count.toNat).map Clist.resetEmpty

/-- The loop of `b_to_q`; `p` is the next byte to copy of the memory at `cp`. -/
def bToQLoop (cp : Nat → Byte) : Nat → Clist → Nat → Nat → Option (Nat × Clist)
  | 0, _, _, _ => none
  | fuel + 1, clp, p, count =>
    if count > 0 ∧ clp.cCc < clp.cCn then do
      let cf ← clp.cCf
      let cl ← clp.cCl
      let cc := if cf > cl then cf - cl else clp.cCe - cl
      let cc := if cc > count then count else cc
      let cs ← clp.cCs
      let cs ← cs.splice cl cc fun i => cp (p + i)
      let clp ← { clp with cCs := some cs }.dropQuotes cl cc
      bToQLoop cp fuel
        { clp with cCc := clp.cCc + cc, cCl := some (clp.wrap (cl + cc)) } (p + cc) (count - cc)
    else some (count, clp)

/-- The number of bytes that are left, and the new list. -/
def bToQ (fuel : Nat) (cp : Nat → Byte) (count : Int) (clp : Clist) : Option (Nat × Clist) :=
  if count ≤ 0 then some (0, clp)
  else if clp.cCc = clp.cCn then some (count.toNat, clp)
  else bToQLoop cp fuel clp.restart 0 count.toNat

/-! ### Looking at the characters -/

/-- What `firstc` and `nextc` give: the pointer, the character, and the count of characters in
the static variable `cc`. -/
structure Cursor where
  cp : Option Nat
  c : CInt
  cc : Nat

def nextc (clp : Clist) (at_ : Cursor) : Option Cursor :=
  let cc := if clp.cCf = at_.cp then clp.cCc else at_.cc
  match at_.cp with
  | none => some ⟨none, at_.c, cc⟩
  | some cp =>
    if cc = 0 then some ⟨none, at_.c, cc⟩
    else if cc - 1 = 0 then some ⟨none, at_.c, cc - 1⟩
    else do
      let cp := clp.wrap (cp + 1)
      let byte ← clp.load cp
      let c ← clp.addQuote cp (byte.setWidth 32)
      some ⟨some cp, c, cc - 1⟩

def firstc (clp : Clist) (c : CInt) : Option Cursor :=
  if clp.cCc = 0 then some ⟨none, c, clp.cCc⟩
  else do
    let cp ← clp.cCf
    let byte ← clp.load cp
    let c ← clp.addQuote cp (byte.setWidth 32)
    some ⟨some cp, c, clp.cCc⟩

/-- `for (; cp; cp = nextc(clp, cp, &c))`: the characters that are seen. -/
def enumerateFrom (clp : Clist) : Nat → Cursor → Option (List CInt)
  | 0, _ => none
  | fuel + 1, at_ =>
    match at_.cp with
    | none => some []
    | some _ => do
        let next ← nextc clp at_
        let rest ← enumerateFrom clp fuel next
        some (at_.c :: rest)

/-- `for (cp = firstc(clp, &c); cp; cp = nextc(clp, cp, &c))` -/
def enumerate (fuel : Nat) (clp : Clist) (c : CInt) : Option (List CInt) := do
  let first ← firstc clp c
  enumerateFrom clp fuel first

/-! ### The lists of a system -/

section System

variable {ι : Type} [DecidableEq ι]

/-- All lists of the system, by name. -/
abbrev Lists (ι : Type) := ι → Clist

/-- `while ((c = getc(from)) != -1) putc(c, to);` -/
def catqLoop (from_ to_ : ι) : Nat → Lists ι → Option (Lists ι)
  | 0, _ => none
  | fuel + 1, lists => do
      let (c, clp) ← getc (lists from_)
      let lists := update lists from_ clp
      if c ≠ -1 then do
        let (_, clp) ← putc c (lists to_)
        catqLoop from_ to_ fuel (update lists to_ clp)
      else some lists

def catq (fuel : Nat) (lists : Lists ι) (from_ to_ : ι) : Option (Lists ι) :=
  if (lists from_).cCc = 0 then some lists
  else if (lists to_).cCc = 0 ∧ (lists from_).cCn = (lists to_).cCn then
    some (update (update lists from_ (lists to_)) to_ (lists from_))
  else catqLoop from_ to_ fuel lists

inductive Call (ι : Type) where
  | putc (c : CInt) (clp : ι)
  | getc (clp : ι)
  | unputc (clp : ι)
  | bToQ (cp : Nat → Byte) (count : Int) (clp : ι)
  | qToB (clp : ι) (count : Int)
  | ndflush (clp : ι) (count : Int)
  | ndqb (clp : ι)
  | catq (from_ to_ : ι)

/-- What a call gives back. -/
inductive Reply where
  | void
  | int (c : CInt)
  | count (n : Nat)
  | copied (bytes : List Byte)
  deriving DecidableEq

/-- A call of a function that works on one list. -/
def onList (lists : Lists ι) (i : ι) (result : Option (Reply × Clist)) :
    Option (Reply × Lists ι) :=
  result.map fun (reply, clp) => (reply, update lists i clp)

/-- A call, with a bound for the iterations of its loops. -/
def perform (fuel : Nat) (lists : Lists ι) : Call ι → Option (Reply × Lists ι)
  | .putc c i => onList lists i ((putc c (lists i)).map fun (ret, clp) => (.int ret, clp))
  | .getc i => onList lists i ((getc (lists i)).map fun (c, clp) => (.int c, clp))
  | .unputc i => onList lists i ((unputc (lists i)).map fun (c, clp) => (.int c, clp))
  | .bToQ cp count i =>
    onList lists i ((bToQ fuel cp count (lists i)).map fun (left, clp) => (.count left, clp))
  | .qToB i count =>
    onList lists i ((qToB fuel (lists i) count).map fun (p, clp) => (.copied p, clp))
  | .ndflush i count =>
    onList lists i ((ndflush fuel (lists i) count).map fun clp => (.void, clp))
  | .ndqb i => (ndqb (lists i)).map fun count => (.count count, lists)
  | .catq from_ to_ => (catq fuel lists from_ to_).map fun lists => (.void, lists)

/-- A step of the system: a call that returns within a number of iterations. -/
def next (label : Nat × Call ι) (lists : Lists ι) : Option (Lists ι) :=
  (perform label.1 lists label.2).map Prod.snd

end System

end Bitrig.TtySubr
