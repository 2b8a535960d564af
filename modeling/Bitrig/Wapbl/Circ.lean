import Bitrig.Lib.Bytes
import Bitrig.Wapbl.Space

/-!
# Reading and writing the circular area

The log lies on a device that is addressed in blocks of 512 bytes.  A transfer
of whole log blocks that reaches the end of the circular area is split in two.

The bytes of the area are looked at from an origin, usually the tail: byte `i`
of the contents is the byte `i` places after the origin, around the area.  Seen
like this a write at the head is an append.
-/

namespace Bitrig.Wapbl

open Bitrig.Bytes

/-- Why an operation does not return its result. -/
inductive Fault
  /-- An error number is returned. -/
  | errno (error : Nat)
  /-- An assertion fails. -/
  | panic
  deriving DecidableEq

/-- `KASSERT`, in code that can also fail. -/
def check (condition : Prop) [Decidable condition] : Except Fault Unit :=
  if condition then .ok () else .error .panic

theorem check_of_holds {condition : Prop} [Decidable condition] (holds : condition) :
    check condition = .ok () :=
  if_pos holds

/-- The macro `btodb`. -/
def btodb (bytes : Nat) : Nat :=
  bytes / 512

/-- The macro `dbtob`. -/
def dbtob (block : Nat) : Nat :=
  block * 512

/-- The device of the log.  A transfer fails with an error number that may
depend on its place and its length. -/
structure Device where
  bytes : Memory
  fault : Nat → Nat → Option Nat

/-- No transfer fails. -/
def Device.Healthy (dev : Device) : Prop :=
  ∀ pbn len, dev.fault pbn len = none

/-- Store `len` bytes at an address of the device. -/
def Device.store (dev : Device) (data : Memory) (len addr : Nat) : Device :=
  { dev with
    bytes := fun p => if addr ≤ p ∧ p < addr + len then data (p - addr) else dev.bytes p }

/-- `wapbl_read`. -/
def wapblRead (dev : Device) (len pbn : Nat) : Except Fault Memory :=
  match dev.fault pbn len with
  | some error => .error (.errno error)
  | none => .ok fun i => dev.bytes (dbtob pbn + i)

/-- `wapbl_write`. -/
def wapblWrite (dev : Device) (data : Memory) (len pbn : Nat) : Except Fault Device :=
  match dev.fault pbn len with
  | some error => .error (.errno error)
  | none => .ok (dev.store data len (dbtob pbn))

namespace Geometry

variable (g : Geometry)

/-- The device block of an offset of the log. -/
def pbn (off : Nat) : Nat :=
  btodb ((g.logpbn + off / g.blocklen) * g.blocklen)

/-- The device address of the start of the log. -/
def base : Nat :=
  g.logpbn * g.blocklen

end Geometry

/-- The body of `wapbl_circ_write` over a function that writes: the log and the offset behind the
written bytes. -/
def circWrite {σ : Type} (write : σ → Memory → Nat → Nat → Except Fault σ) (g : Geometry)
    (log : σ) (data : Memory) (len off : Nat) : Except Fault (σ × Nat) := do
  check (g.blocklen ∣ len)
  let off := if off < g.circOff then g.circOff else off
  let slen := g.circOff + g.circSize - off
  let (log, data, len, off) ←
    if slen < len then do
      let log ← write log data slen (g.pbn off)
      pure (log, (fun i => data (slen + i)), len - slen, g.circOff)
    else pure (log, data, len, off)
  let log ← write log data len (g.pbn off)
  let off := off + len
  pure (log, if g.circOff + g.circSize ≤ off then g.circOff else off)

/-- `wapbl_circ_write` on a device without a buffer. -/
def wapblCircWrite (g : Geometry) (dev : Device) (data : Memory) (len off : Nat) :
    Except Fault (Device × Nat) :=
  circWrite wapblWrite g dev data len off

/-- `wapbl_circ_read`: the bytes and the offset behind them. -/
def wapblCircRead (g : Geometry) (dev : Device) (len off : Nat) :
    Except Fault (Memory × Nat) := do
  check (g.blocklen ∣ len)
  let off := if off < g.circOff then g.circOff else off
  let slen := g.circOff + g.circSize - off
  if slen < len then
    let front ← wapblRead dev slen (g.pbn off)
    let back ← wapblRead dev (len - slen) (g.pbn g.circOff)
    let off := g.circOff + (len - slen)
    pure (fun i => if i < slen then front i else back (i - slen),
      if g.circOff + g.circSize ≤ off then g.circOff else off)
  else
    let data ← wapblRead dev len (g.pbn off)
    let off := off + len
    pure (data, if g.circOff + g.circSize ≤ off then g.circOff else off)

/-- `wapbl_circ_advance`.  The length may come from the log, so the sum can
exceed the type `size_t`. -/
def wapblCircAdvance (g : Geometry) (len off : Nat) : Except Fault Nat := do
  check (g.blocklen ∣ len)
  let off := if off < g.circOff then g.circOff else off
  let slen := g.circOff + g.circSize - off
  let (len, off) := if slen < len then (len - slen, g.circOff) else (len, off)
  let off := (off + len) % 2 ^ 64
  pure (if g.circOff + g.circSize ≤ off then g.circOff else off)

/-! ## What they do -/

section Circ

variable {g : Geometry} {dev : Device} {off len origin n i : Nat} {data : Memory}

theorem blocklen_dvd_circOff (g : Geometry) : g.blocklen ∣ g.circOff :=
  ⟨2, by rw [g.circOff_eq, Nat.mul_comm]; rfl⟩

theorem dvd_512_blocklen (g : Geometry) : 512 ∣ g.blocklen :=
  Nat.pow_dvd_pow 2 g.devBshift_le

/-- Whole log blocks have a device address. -/
theorem dbtob_pbn (aligned : g.blocklen ∣ off) : dbtob (g.pbn off) = g.base + off := by
  have whole : 512 ∣ (g.logpbn + off / g.blocklen) * g.blocklen :=
    Dvd.dvd.mul_left (dvd_512_blocklen g) _
  rw [dbtob, Geometry.pbn, btodb, Nat.div_mul_cancel whole, Nat.add_mul, Nat.div_mul_cancel aligned]
  rfl

theorem wapblRead_ok (healthy : dev.Healthy) (aligned : g.blocklen ∣ off) :
    wapblRead dev len (g.pbn off) = .ok fun i => dev.bytes (g.base + off + i) := by
  simp only [wapblRead, healthy (g.pbn off) len, dbtob_pbn aligned]

theorem wapblWrite_ok (healthy : dev.Healthy) (aligned : g.blocklen ∣ off) :
    wapblWrite dev data len (g.pbn off) = .ok (dev.store data len (g.base + off)) := by
  simp only [wapblWrite, healthy (g.pbn off) len, dbtob_pbn aligned]

/-- The offset that a transfer of at most one turn ends at. -/
theorem wrap_eq_circAdd (area : g.InArea off) (turn : len ≤ g.circSize) :
    (if g.circOff + g.circSize ≤ (if g.circOff + g.circSize - off < len then
            g.circOff + (len - (g.circOff + g.circSize - off)) else off + len) then g.circOff
      else if g.circOff + g.circSize - off < len then
        g.circOff + (len - (g.circOff + g.circSize - off)) else off + len) =
      g.circAdd off len := by
  rcases area with ⟨lower, upper⟩
  unfold Geometry.circAdd
  split_ifs <;> omega

theorem wapblCircAdvance_eq (area : g.InArea off) (turn : len ≤ g.circSize)
    (whole : g.blocklen ∣ len) : wapblCircAdvance g len off = .ok (g.circAdd off len) := by
  rw [← wrap_eq_circAdd area turn]
  have bound := g.circ_lt
  have upper := area.2
  simp only [wapblCircAdvance, check_of_holds whole, if_neg (Nat.not_lt_of_le area.1)]
  by_cases split : g.circOff + g.circSize - off < len
  · have small : g.circOff + (len - (g.circOff + g.circSize - off)) < 2 ^ 64 := by omega
    simp only [if_pos split, Nat.mod_eq_of_lt small]
    rfl
  · have small : off + len < 2 ^ 64 := by omega
    simp only [if_neg split, Nat.mod_eq_of_lt small]
    rfl

/-- The byte of the area at an offset. -/
def logByte (g : Geometry) (dev : Device) (off : Nat) : UInt8 :=
  dev.bytes (g.base + off)

theorem logByte_store {p : Nat} : logByte g (dev.store data len (g.base + off)) p =
      if off ≤ p ∧ p < off + len then data (p - off) else logByte g dev p := by
  have condition : (g.base + off ≤ g.base + p ∧ g.base + p < g.base + off + len) ↔
      (off ≤ p ∧ p < off + len) := by
    omega
  simp only [logByte, Device.store, condition, Nat.add_sub_add_left]

/-- A write of at most one turn changes the bytes from `off` on, around the
area, and nothing else of it. -/
theorem wapblCircWrite_eq (healthy : dev.Healthy) (data : Memory) (area : g.InArea off)
    (aligned : g.blocklen ∣ off) (turn : len ≤ g.circSize) (whole : g.blocklen ∣ len) :
    ∃ dev', wapblCircWrite g dev data len off = .ok (dev', g.circAdd off len) ∧ dev'.Healthy ∧
      ∀ p, g.InArea p → logByte g dev' p =
        if g.circDist off p < len then data (g.circDist off p) else logByte g dev p := by
  have inside := Nat.not_lt_of_le area.1
  rw [← wrap_eq_circAdd area turn]
  rcases area with ⟨lower, upper⟩
  by_cases split : g.circOff + g.circSize - off < len
  · -- the front goes up to the end of the area, the back to its start
    have first : wapblWrite dev data (g.circOff + g.circSize - off) (g.pbn off) = .ok _ :=
      wapblWrite_ok healthy aligned
    have healthy' : (dev.store data (g.circOff + g.circSize - off) (g.base + off)).Healthy :=
      healthy
    refine
      ⟨(dev.store data (g.circOff + g.circSize - off) (g.base + off)).store
          (fun i => data (g.circOff + g.circSize - off + i))
          (len - (g.circOff + g.circSize - off)) (g.base + g.circOff), ?_, healthy', ?_⟩
    · simp only [wapblCircWrite, circWrite, check_of_holds whole, if_neg inside, if_pos split,
        first, wapblWrite_ok healthy' (blocklen_dvd_circOff g), bind, Except.bind, pure,
        Except.pure]
    · intro p areaP
      rcases areaP with ⟨lowerP, upperP⟩
      rw [logByte_store, logByte_store]
      by_cases behind : off ≤ p
      · have dist : g.circDist off p = p - off := if_pos behind
        rw [if_neg (by omega), if_pos (by omega), dist, if_pos (by omega)]
      · have dist : g.circDist off p = p + g.circSize - off := if_neg behind
        rw [dist]
        by_cases within : p + g.circSize - off < len
        · rw [if_pos (by omega), if_pos within]
          congr 1
          omega
        · rw [if_neg (by omega), if_neg (by omega), if_neg within]
  · refine ⟨dev.store data len (g.base + off), ?_, healthy, ?_⟩
    · simp only [wapblCircWrite, circWrite, check_of_holds whole, if_neg inside, if_neg split,
        wapblWrite_ok healthy aligned, bind, Except.bind, pure, Except.pure]
    · intro p areaP
      rcases areaP with ⟨lowerP, upperP⟩
      rw [logByte_store]
      by_cases behind : off ≤ p
      · have dist : g.circDist off p = p - off := if_pos behind
        rw [dist]
        by_cases within : p - off < len
        · rw [if_pos (by omega), if_pos within]
        · rw [if_neg (by omega), if_neg within]
      · have dist : g.circDist off p = p + g.circSize - off := if_neg behind
        rw [if_neg (by omega), if_neg (by omega)]

/-- A read of at most one turn returns the bytes from `off` on, around the
area. -/
theorem wapblCircRead_eq (healthy : dev.Healthy) (area : g.InArea off) (aligned : g.blocklen ∣ off)
    (turn : len ≤ g.circSize) (whole : g.blocklen ∣ len) :
    ∃ data, wapblCircRead g dev len off = .ok (data, g.circAdd off len) ∧
      ∀ i < len, data i = logByte g dev (g.circAdd off i) := by
  have inside := Nat.not_lt_of_le area.1
  rw [← wrap_eq_circAdd area turn]
  rcases area with ⟨lower, upper⟩
  by_cases split : g.circOff + g.circSize - off < len
  · refine
      ⟨fun i =>
        if i < g.circOff + g.circSize - off then dev.bytes (g.base + off + i)
        else dev.bytes (g.base + g.circOff + (i - (g.circOff + g.circSize - off))), ?_, ?_⟩
    · simp only [wapblCircRead, check_of_holds whole, if_neg inside, if_pos split,
        wapblRead_ok healthy aligned, wapblRead_ok healthy (blocklen_dvd_circOff g), bind,
        Except.bind, pure, Except.pure]
    · intro i within
      simp only [logByte, Geometry.circAdd]
      by_cases front : i < g.circOff + g.circSize - off
      · rw [if_pos front, if_pos (by omega), Nat.add_assoc]
      · rw [if_neg front, if_neg (by omega), Nat.add_assoc]
        congr 2
        omega
  · refine ⟨fun i => dev.bytes (g.base + off + i), ?_, ?_⟩
    · simp only [wapblCircRead, check_of_holds whole, if_neg inside, if_neg split,
        wapblRead_ok healthy aligned, bind, Except.bind, pure, Except.pure]
    · intro i within
      simp only [logByte, Geometry.circAdd]
      rw [if_pos (by omega), Nat.add_assoc]

/-! ## Contents from an origin -/

/-- Byte `i` of the area, counted from `origin`. -/
def contents (g : Geometry) (dev : Device) (origin : Nat) : Memory :=
  fun i => logByte g dev (g.circAdd origin i)

/-- Bytes counted from a later origin. -/
theorem contents_circAdd (area : g.InArea origin) (turn : n + i ≤ g.circSize) :
    contents g dev (g.circAdd origin n) i = contents g dev origin (n + i) := by
  rw [contents, contents, Geometry.circAdd_circAdd area turn]

theorem circDist_circAdd_circAdd (area : g.InArea origin) (shortN : n < g.circSize)
    (shortI : i < g.circSize) : g.circDist (g.circAdd origin n) (g.circAdd origin i) =
      if n ≤ i then i - n else i + g.circSize - n := by
  rcases area with ⟨lower, upper⟩
  unfold Geometry.circDist Geometry.circAdd
  split_ifs <;> omega

theorem blocklen_dvd_circAdd (alignedOrigin : g.blocklen ∣ origin) (aligned : g.blocklen ∣ n) :
    g.blocklen ∣ g.circAdd origin n := by
  unfold Geometry.circAdd
  split
  · exact Nat.dvd_add alignedOrigin aligned
  · exact Nat.dvd_sub (Nat.dvd_add alignedOrigin aligned) g.blocklen_dvd

/-- A write behind the first `n` bytes after the origin appends to them. -/
theorem wapblCircWrite_append (healthy : dev.Healthy) (data : Memory) (area : g.InArea origin)
    (alignedOrigin : g.blocklen ∣ origin) (aligned : g.blocklen ∣ n) (positive : 0 < len)
    (whole : g.blocklen ∣ len) (fits : n + len ≤ g.circSize) :
    ∃ dev', wapblCircWrite g dev data len (g.circAdd origin n) =
        .ok (dev', g.circAdd origin (n + len)) ∧
      dev'.Healthy ∧
      (∀ i < n, contents g dev' origin i = contents g dev origin i) ∧
      ∀ i < len, contents g dev' origin (n + i) = data i := by
  rcases wapblCircWrite_eq healthy data (area.circAdd (show n ≤ g.circSize by omega))
    (blocklen_dvd_circAdd alignedOrigin aligned) (show len ≤ g.circSize by omega) whole with
    ⟨dev', written, healthy', bytes⟩
  rw [Geometry.circAdd_circAdd area fits] at written
  refine ⟨dev', written, healthy', ?_, ?_⟩
  · intro i below
    rw [contents, bytes _ (area.circAdd (by omega)),
      circDist_circAdd_circAdd area (by omega) (by omega), if_neg (by omega : ¬n ≤ i),
      if_neg (by omega)]
    rfl
  · intro i within
    rw [contents, bytes _ (area.circAdd (by omega)),
      circDist_circAdd_circAdd area (by omega) (by omega), if_pos (by omega : n ≤ n + i),
      Nat.add_sub_cancel_left, if_pos within]

end Circ

end Bitrig.Wapbl
