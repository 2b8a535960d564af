import Bitrig.Lib.Ring
import Bitrig.TtySubr.Quotes

/-!
# Clists as rings

A ring has the fields of a clist that matter, and keeps its pointers inside the buffer.  Each
function of one list takes the list of a ring to the list of a ring whose characters are those
of a bounded queue after the operation.
-/

namespace Bitrig.TtySubr

open Bitrig.Bitmap Function
open Bitrig.Ring

/-- The character in a slot. -/
def charAt (bytes quotes : Nat → Byte) (p : Nat) : QChar :=
  (bytes p, bit quotes p)

/-- A clist with a quote map whose pointers are set. -/
structure CharRing where
  cap : Nat
  first : Nat
  count : Nat
  bytes : Nat → Byte
  quotes : Nat → Byte
  inside : 0 < cap → first < cap
  fits : count ≤ cap

/-- A clist with a quote map, whose buffers have the sizes they are allocated with. -/
def clist (cap count : Nat) (first last : Option Nat) (bytes quotes : Nat → Byte) : Clist where
  cCc := count
  cCn := cap
  cCf := first
  cCl := last
  cCs := some ⟨cap, bytes⟩
  cCe := cap
  cCq := some ⟨qmem cap, quotes⟩

namespace CharRing

/-- The next open slot. -/
abbrev back (r : CharRing) : Nat :=
  slot r.cap r.first r.count

def toClist (r : CharRing) : Clist :=
  clist r.cap r.count (some r.first) (some (slot r.cap r.first r.count)) r.bytes r.quotes

/-- The characters of the ring, in order. -/
def chars (r : CharRing) : List QChar :=
  window (charAt r.bytes r.quotes) r.cap r.first r.count

/-- Some characters are taken from the front. -/
def shift (r : CharRing) (k : Nat) (bytes quotes : Nat → Byte) (enough : k ≤ r.count) :
    CharRing where
  cap := r.cap
  first := slot r.cap r.first k
  count := r.count - k
  bytes := bytes
  quotes := quotes
  inside positive := slot_lt (r.inside positive) (enough.trans r.fits)
  fits := (Nat.sub_le _ _).trans r.fits

/-- The count changes at the back. -/
def resize (r : CharRing) (count : Nat) (bytes quotes : Nat → Byte) (fits : count ≤ r.cap) :
    CharRing where
  cap := r.cap
  first := r.first
  count := count
  bytes := bytes
  quotes := quotes
  inside := r.inside
  fits := fits

/-- An empty ring at the start of its buffer. -/
def start (cap : Nat) (bytes quotes : Nat → Byte) : CharRing where
  cap := cap
  first := 0
  count := 0
  bytes := bytes
  quotes := quotes
  inside positive := positive
  fits := Nat.zero_le cap

variable {r : CharRing} {bytes quotes : Nat → Byte} {k : Nat}

@[simp]
theorem toClist_cCf : r.toClist.cCf = some r.first :=
  rfl

@[simp]
theorem toClist_cCl : r.toClist.cCl = some r.back :=
  rfl

@[simp]
theorem toClist_cCs : r.toClist.cCs = some ⟨r.cap, r.bytes⟩ :=
  rfl

@[simp]
theorem length_chars : r.chars.length = r.count :=
  length_window

theorem first_lt (some : 0 < r.count) : r.first < r.cap :=
  r.inside (lt_of_lt_of_le some r.fits)

/-- The characters behind those that are taken have to stay as they are. -/
theorem chars_shift (enough : k ≤ r.count)
    (same : ∀ i, k ≤ i → i < r.count → charAt bytes quotes (slot r.cap r.first i) =
      charAt r.bytes r.quotes (slot r.cap r.first i)) :
    (r.shift k bytes quotes enough).chars = r.chars.drop k := by
  rcases Nat.eq_zero_or_pos r.count with empty | some
  · have none : k = 0 := by omega
    simp [chars, shift, empty]
  · have within := first_lt some
    unfold chars
    rw [window_drop enough within r.fits]
    apply window_congr
    intro i less
    have less : i < r.count - k := less
    have := r.fits
    change charAt bytes quotes (slot r.cap (slot r.cap r.first k) i) =
      charAt r.bytes r.quotes (slot r.cap (slot r.cap r.first k) i)
    rw [slot_slot within (by omega)]
    exact same (k + i) (by omega) (by omega)

/-- The characters before the new ones have to stay as they are. -/
theorem chars_grow {m : Nat} (fits : r.count + m ≤ r.cap)
    (same : ∀ i < r.count, charAt bytes quotes (slot r.cap r.first i) =
      charAt r.bytes r.quotes (slot r.cap r.first i)) :
    (r.resize (r.count + m) bytes quotes fits).chars =
      r.chars ++ window (charAt bytes quotes) r.cap (slot r.cap r.first r.count) m := by
  rcases Nat.eq_zero_or_pos m with none | some
  · subst none
    rw [window_zero, List.append_nil]
    exact window_congr same
  · have within : r.first < r.cap := r.inside (by omega)
    unfold chars
    rw [← window_congr same]
    exact window_add within fits

theorem chars_shrink (fewer : k ≤ r.count)
    (same : ∀ i < k, charAt bytes quotes (slot r.cap r.first i) =
      charAt r.bytes r.quotes (slot r.cap r.first i)) :
    (r.resize k bytes quotes (fewer.trans r.fits)).chars = r.chars.take k := by
  rcases Nat.eq_zero_or_pos k with none | some
  · subst none
    rfl
  · unfold chars
    rw [window_take fewer (first_lt (by omega)) r.fits]
    exact window_congr same

/-- The character in the first slot, and the others. -/
theorem chars_eq_cons (some : 0 < r.count) :
    r.chars = charAt r.bytes r.quotes r.first :: r.chars.drop 1 := by
  have within := first_lt some
  have front : r.chars.take 1 = [charAt r.bytes r.quotes r.first] := by
    unfold chars
    rw [window_take some within r.fits, window_succ, slot_zero within]
    rfl
  conv_lhs => rw [← List.take_append_drop 1 r.chars, front]
  rfl

/-- The character in the last slot, and the others. -/
theorem chars_eq_append (some : 0 < r.count) : r.chars = r.chars.take (r.count - 1) ++
      [charAt r.bytes r.quotes (slot r.cap r.first (r.count - 1))] := by
  obtain ⟨rest, count⟩ := Nat.exists_eq_add_of_le' some
  unfold chars
  rw [window_take (Nat.sub_le _ _) (first_lt some) r.fits, count]
  exact window_succ

end CharRing

/-! ### Characters in memory -/

section Memory

variable {bytes quotes : Nat → Byte} {i p : Nat} {byte : Byte} {quoted : Bool}

/-- The map with one bit as given. -/
def putBit (quotes : Nat → Byte) (i : Nat) (quoted : Bool) : Nat → Byte :=
  if quoted then setBit quotes i else clearBit quotes i

theorem bit_putBit : bit (putBit quotes i quoted) p = if p = i then quoted else bit quotes p := by
  unfold putBit
  cases quoted with
  | true =>
    rw [if_pos rfl, bit_setBit (by decide)]
    by_cases same : p = i <;> simp [same]
  | false =>
    rw [if_neg Bool.false_ne_true, bit_clearBit (by decide)]
    by_cases same : p = i <;> simp [same]

theorem charAt_put_self :
    charAt (update bytes i byte) (putBit quotes i quoted) i = (byte, quoted) := by
  unfold charAt
  rw [update_self, bit_putBit, if_pos rfl]

theorem charAt_put_of_ne (ne : p ≠ i) :
    charAt (update bytes i byte) (putBit quotes i quoted) p = charAt bytes quotes p := by
  unfold charAt
  rw [update_of_ne ne, bit_putBit, if_neg ne]

/-- The bytes with a part overwritten. -/
def putBytes (bytes : Nat → Byte) (off len : Nat) (source : Nat → Byte) : Nat → Byte :=
  fun i => if off ≤ i ∧ i < off + len then source (i - off) else bytes i

variable {off len : Nat} {source quotes' : Nat → Byte}

theorem charAt_putBytes (inside : off ≤ p ∧ p < off + len)
    (cleared : Clears quotes quotes' off (off + len)) :
    charAt (putBytes bytes off len source) quotes' p = (source (p - off), false) := by
  unfold charAt putBytes
  rw [if_pos inside, cleared, decide_eq_true inside]
  simp

theorem charAt_putBytes_of_not (outside : ¬(off ≤ p ∧ p < off + len))
    (cleared : Clears quotes quotes' off (off + len)) :
    charAt (putBytes bytes off len source) quotes' p = charAt bytes quotes p := by
  unfold charAt putBytes
  rw [if_neg outside, cleared, decide_eq_false outside]
  simp

end Memory

/-! ### Access to the buffers -/

section Access

variable {cap count i off len : Nat} {first last : Option Nat} {bytes quotes : Nat → Byte}
  {byte : Byte}

section

variable (inside : i < cap)
include inside

theorem load_clist : (clist cap count first last bytes quotes).load i = some (bytes i) :=
  Buffer.read_of_lt inside

theorem store_clist : (clist cap count first last bytes quotes).store i byte =
      some (clist cap count first last (update bytes i byte) quotes) := by
  change ((⟨cap, bytes⟩ : Buffer Byte).write i byte).map _ = _
  rw [Buffer.write_of_lt (show i < (⟨cap, bytes⟩ : Buffer Byte).size from inside)]
  rfl

theorem addQuote_clist : (clist cap count first last bytes quotes).addQuote i (byte.setWidth 32) =
      some (code (byte, bit quotes i)) := by
  change (isset ⟨qmem cap, quotes⟩ i).map _ = _
  rw [isset_eq (div_lt_qmem inside)]
  rfl

theorem dropQuote_clist : (clist cap count first last bytes quotes).dropQuote i =
      some (clist cap count first last bytes (putBit quotes i false)) := by
  change (clrbit ⟨qmem cap, quotes⟩ i).map _ = _
  rw [clrbit_eq (div_lt_qmem inside)]
  rfl

theorem putQuote_clist {c : CInt} : (clist cap count first last bytes quotes).putQuote i c =
      some (clist cap count first last bytes (putBit quotes i (decode c).2)) := by
  change (if c &&& ttyQuote ≠ 0 then setbit ⟨qmem cap, quotes⟩ i
    else clrbit ⟨qmem cap, quotes⟩ i).map _ = _
  unfold decode putBit
  by_cases quoted : c &&& ttyQuote ≠ 0
  · rw [if_pos quoted, setbit_eq (div_lt_qmem inside), if_pos (decide_eq_true quoted)]
    rfl
  · rw [if_neg quoted, clrbit_eq (div_lt_qmem inside), if_neg (by simpa using quoted)]
    rfl

end

/-- Characters are overwritten, and are not quoted any more. -/
theorem CharRing.overwrite (r : CharRing) (positive : 0 < len) (inside : off + len ≤ r.cap)
    (source : Nat → Byte) :
    ∃ quotes', (∀ {β : Type} (rest : Clist → Option β),
        ((⟨r.cap, r.bytes⟩ : Buffer Byte).splice off len source).bind (fun cs =>
          ({ r.toClist with cCf := some r.first, cCl := some r.back, cCs := some cs }.dropQuotes
            off len).bind rest) =
        rest (clist r.cap r.count (some r.first) (some r.back)
          (putBytes r.bytes off len source) quotes')) ∧
      Clears r.quotes quotes' off (off + len) := by
  have mapped : off + len ≤ NBBY * qmem r.cap := by
    unfold qmem NBBY
    omega
  obtain ⟨quotes', cleared, bits⟩ := clrbits_eq positive mapped
  refine ⟨quotes', fun rest => ?_, bits⟩
  rw [Buffer.splice_of_le inside]
  change ((clrbits ⟨qmem r.cap, r.quotes⟩ off len).map _).bind _ = _
  rw [cleared]
  rfl

end Access

end Bitrig.TtySubr
