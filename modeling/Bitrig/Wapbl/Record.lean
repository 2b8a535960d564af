import Bitrig.Wapbl.Circ

/-!
# The records of a transaction

A transaction is written as block-list records, each followed by the data of
its buffers, revocation records and inode-list records.  A record starts with
a header of one log block, which is built in a scratch block that keeps the
bytes of the headers before it.

A record is on the log at a displacement from an origin if its header parses
back to it and the data of its buffers follows.  Writing records at the head
puts them on the log behind what is there.
-/

namespace Bitrig.Wapbl

open Bitrig.Bytes List

universe u

/-! ## Transactions -/

/-- A buffer of a transaction: its device address and its data, a positive
number of log blocks and at most `MAXBSIZE` bytes. -/
structure DataBuf (g : Geometry) where
  bBlkno : UInt64
  bBcount : Nat
  bData : Memory
  bcount_pos : 0 < bBcount
  bcount_dvd : g.blocklen ∣ bBcount
  bcount_le : bBcount ≤ 65536

/-- A deallocated extent.  Its length is an `int`. -/
structure Extent where
  daddr : UInt64
  len : Nat
  len_lt : len < 2 ^ 31

/-- An inode that is allocated but unlinked. -/
structure Inode where
  wiIno : UInt32
  wiMode : UInt32
  deriving DecidableEq

/-- What one flush writes.  The inodes stand in the chains of their hash. -/
structure Transaction (g : Geometry) where
  wlBufs : List (DataBuf g)
  wlDeallocs : List Extent
  wlInohash : List (List Inode)

/-- At most `n` items. -/
abbrev UpTo (α : Type u) (n : Nat) :=
  { items : List α // items.length ≤ n }

/-- The groups of `n` that a loop takes off a list, one group for each round. -/
def chunks {α : Type u} (n : Nat) : Nat → List α → List (UpTo α n)
  | 0, _ => []
  | _ + 1, [] => []
  | fuel + 1, item :: items =>
    ⟨(item :: items).take n, by simp⟩ :: chunks n fuel ((item :: items).drop n)

/-- A record of the log. -/
inductive Record (g : Geometry)
  | blocks (bufs : UpTo (DataBuf g) g.bph)
  | revocations (extents : UpTo Extent g.bph)
  | inodes (clear : Bool) (inos : UpTo Inode g.iph)

namespace Transaction

variable {g : Geometry} (txn : Transaction g)

/-- The records of the buffers. -/
def blockRecords : List (Record g) :=
  (chunks g.bph txn.wlBufs.length txn.wlBufs).map .blocks

/-- The records of the deallocations. -/
def revocationRecords : List (Record g) :=
  (chunks g.bph txn.wlDeallocs.length txn.wlDeallocs).map .revocations

/-- The inodes, chain by chain. -/
def inodes : List Inode :=
  txn.wlInohash.flatten

/-- The records of the inodes: at least one, and the first one clears the list
of the transaction before. -/
def inodeRecords : List (Record g) :=
  match chunks g.iph txn.inodes.length txn.inodes with
  | [] => [.inodes true ⟨[], Nat.zero_le _⟩]
  | first :: rest => .inodes true first :: rest.map (.inodes false)

/-- The records in log order. -/
def records : List (Record g) :=
  txn.blockRecords ++ txn.revocationRecords ++ txn.inodeRecords

end Transaction

/-! ## On-disk headers -/

/-- `WAPBL_WC_INODES`. -/
def wapblWcInodes : Nat := 0x5741424d

/-- `WAPBL_WC_REVOCATIONS`. -/
def wapblWcRevocations : Nat := 0x5741424e

/-- `WAPBL_WC_BLOCKS`. -/
def wapblWcBlocks : Nat := 0x5741424f

/-- The rows `wc_blocks` of a `struct wapbl_wc_blocklist`. -/
def wcBlocks : Layout (UInt64 × Nat) where
  stride := 16
  firstOff := 0
  firstWidth := 8
  first row := row.1.toNat
  secondOff := 12
  secondWidth := 4
  second row := row.2
  apart := by decide
  inside := by decide

/-- The rows `wc_inodes` of a `struct wapbl_wc_inodelist`. -/
def wcInodes : Layout Inode where
  stride := 8
  firstOff := 0
  firstWidth := 4
  first row := row.wiIno.toNat
  secondOff := 4
  secondWidth := 4
  second row := row.wiMode.toNat
  apart := by decide
  inside := by decide

/-- Fill in a `struct wapbl_wc_blocklist`. -/
def wapblWcBlocklist (wc : Memory) (wcType wcLen : Nat) (rows : List (UInt64 × Nat)) : Memory :=
  wcBlocks.fill (poke (poke (poke wc 0 4 wcType) 4 4 wcLen) 8 4 rows.length) 16 rows

/-- Fill in a `struct wapbl_wc_inodelist`. -/
def wapblWcInodelist (wc : Memory) (wcLen : Nat) (clear : Bool) (rows : List Inode) : Memory :=
  wcInodes.fill
    (poke (poke (poke (poke wc 0 4 wapblWcInodes) 4 4 wcLen) 8 4 rows.length) 12 4
      (if clear then 1 else 0)) 16 rows

section Records

variable {g : Geometry} {record : Record g} {bytes bytes' : Memory} {disp : Nat}
  {records : List (Record g)}

/-- The bytes of the data of some buffers. -/
def dataLen (bufs : List (DataBuf g)) : Nat :=
  (bufs.map (·.bBcount)).sum

/-- The zero bytes that fill a record up to a whole number of log blocks. -/
def padding (g : Geometry) (wcLen : Nat) : Nat :=
  if wcLen % g.blocklen ≠ 0 then g.blocklen - wcLen % g.blocklen else 0

/-- The field `wc_len` of a record. -/
def Record.len : Record g → Nat
  | .blocks bufs =>
    g.blocklen + dataLen bufs.1 + padding g (g.blocklen + dataLen bufs.1)
  | .revocations _ | .inodes _ _ => g.blocklen

/-- The header of a record, built in the scratch block. -/
def Record.header (wc : Memory) : Record g → Memory
  | .blocks bufs =>
    wapblWcBlocklist wc wapblWcBlocks (Record.blocks bufs).len
      (bufs.1.map fun bp => (bp.bBlkno, bp.bBcount))
  | .revocations extents =>
    wapblWcBlocklist wc wapblWcRevocations g.blocklen
      (extents.1.map fun extent => (extent.daddr, extent.len))
  | .inodes clear inos => wapblWcInodelist wc g.blocklen clear inos.1

/-- Write the data of some buffers. -/
def writeData (g : Geometry) : Device → List (DataBuf g) → Nat → Except Fault (Device × Nat)
  | dev, [], off => pure (dev, off)
  | dev, bp :: bps, off => do
      let (dev, off) ← wapblCircWrite g dev bp.bData bp.bBcount off
      writeData g dev bps off

/-- One round of the loops that write records. -/
def writeRecord (g : Geometry) (dev : Device) (wc : Memory) (record : Record g) (off : Nat) :
    Except Fault (Device × Memory × Nat) := do
  let wc := record.header wc
  let (dev, off) ← wapblCircWrite g dev wc g.blocklen off
  match record with
  | .blocks bufs =>
    let (dev, off) ← writeData g dev bufs.1 off
    if padding g (g.blocklen + dataLen bufs.1) ≠ 0 then
      let (dev, off) ←
        wapblCircWrite g dev (fun _ => 0) (padding g (g.blocklen + dataLen bufs.1)) off
      pure (dev, wc, off)
    else pure (dev, wc, off)
  | _ => pure (dev, wc, off)

/-- Write records one after the other. -/
def writeRecords (g : Geometry) :
    Device → Memory → List (Record g) → Nat → Except Fault (Device × Memory × Nat)
  | dev, wc, [], off => pure (dev, wc, off)
  | dev, wc, record :: records, off => do
      let (dev, wc, off) ← writeRecord g dev wc record off
      writeRecords g dev wc records off

/-- `wapbl_write_blocks`. -/
def wapblWriteBlocks (g : Geometry) (dev : Device) (wc : Memory) (txn : Transaction g)
    (off : Nat) : Except Fault (Device × Memory × Nat) :=
  writeRecords g dev wc txn.blockRecords off

/-- `wapbl_write_revocations`. -/
def wapblWriteRevocations (g : Geometry) (dev : Device) (wc : Memory) (txn : Transaction g)
    (off : Nat) : Except Fault (Device × Memory × Nat) :=
  writeRecords g dev wc txn.revocationRecords off

/-- `wapbl_write_inodes`. -/
def wapblWriteInodes (g : Geometry) (dev : Device) (wc : Memory) (txn : Transaction g)
    (off : Nat) : Except Fault (Device × Memory × Nat) :=
  writeRecords g dev wc txn.inodeRecords off

/-! ## Records on the log -/

/-- The rows of a block list parse back. -/
def RowsParse (header : Memory) (rows : List (UInt64 × Nat)) : Prop :=
  ∀ k row, rows[k]? = some row →
    peek header (16 + k * 16) 8 = row.1.toNat ∧ peek header (16 + k * 16 + 12) 4 = row.2

/-- A header parses back to the record. -/
def Record.Parses (header : Memory) : Record g → Prop
  | .blocks bufs =>
    peek header 0 4 = wapblWcBlocks ∧ peek header 4 4 = (Record.blocks bufs).len ∧
      peek header 8 4 = bufs.1.length ∧
      RowsParse header (bufs.1.map fun bp => (bp.bBlkno, bp.bBcount))
  | .revocations extents =>
    peek header 0 4 = wapblWcRevocations ∧ peek header 4 4 = g.blocklen ∧
      peek header 8 4 = extents.1.length ∧
      RowsParse header (extents.1.map fun extent => (extent.daddr, extent.len))
  | .inodes clear inos =>
    peek header 0 4 = wapblWcInodes ∧ peek header 4 4 = g.blocklen ∧
      peek header 8 4 = inos.1.length ∧ peek header 12 4 = (if clear then 1 else 0) ∧
      ∀ k inode, inos.1[k]? = some inode →
        peek header (16 + k * 8) 4 = inode.wiIno.toNat ∧
          peek header (16 + k * 8 + 4) 4 = inode.wiMode.toNat

/-- The data of some buffers stands one after the other at a displacement. -/
def DataOn (bytes : Memory) : Nat → List (DataBuf g) → Prop
  | _, [] => True
  | disp, bp :: bps =>
    (∀ i < bp.bBcount, bytes (disp + i) = bp.bData i) ∧ DataOn bytes (disp + bp.bBcount) bps

/-- A record stands at a displacement. -/
def Record.OnLog (bytes : Memory) (disp : Nat) (record : Record g) : Prop :=
  record.Parses (fun i => bytes (disp + i)) ∧
    match record with
    | .blocks bufs => DataOn bytes (disp + g.blocklen) bufs.1
    | _ => True

/-- The bytes of some records. -/
def recordsLen (records : List (Record g)) : Nat :=
  (records.map Record.len).sum

/-- Records stand one after the other at a displacement. -/
def Laid (bytes : Memory) : Nat → List (Record g) → Prop
  | _, [] => True
  | disp, record :: records => record.OnLog bytes disp ∧ Laid bytes (disp + record.len) records

/-! ## Headers parse back -/

theorem blocklen_le (g : Geometry) : g.blocklen ≤ 65536 :=
  calc
    g.blocklen ≤ 2 ^ 16 := Nat.pow_le_pow_right (by decide) g.logDevBshift_le
    _ = 65536 := by decide

theorem bph_mul_le (g : Geometry) : 16 + g.bph * 16 ≤ g.blocklen := by
  have lower := g.le_blocklen
  unfold Geometry.bph
  omega

theorem iph_mul_le (g : Geometry) : 16 + g.iph * 8 ≤ g.blocklen := by
  have lower := g.le_blocklen
  unfold Geometry.iph
  omega

theorem blocklen_dvd_dataLen (bufs : List (DataBuf g)) : g.blocklen ∣ dataLen bufs := by
  induction bufs with
  | nil => exact dvd_zero _
  | cons bp bps ih =>
    exact dvd_add bp.bcount_dvd ih

/-- Buffers are whole log blocks, so no record is padded. -/
theorem padding_eq_zero (bufs : List (DataBuf g)) : padding g (g.blocklen + dataLen bufs) = 0 := by
  have whole : g.blocklen ∣ g.blocklen + dataLen bufs :=
    dvd_add (dvd_refl _) (blocklen_dvd_dataLen bufs)
  rw [padding, Nat.mod_eq_zero_of_dvd whole]
  rfl

theorem Record.len_blocks (bufs : UpTo (DataBuf g) g.bph) :
    (Record.blocks bufs).len = g.blocklen + dataLen bufs.1 := by
  rw [Record.len, padding_eq_zero, add_zero]

theorem Record.blocklen_dvd_len (record : Record g) : g.blocklen ∣ record.len := by
  cases record with
  | blocks bufs =>
    rw [Record.len_blocks]
    exact dvd_add (dvd_refl _) (blocklen_dvd_dataLen bufs.1)
  | revocations extents | inodes clear inos => exact dvd_refl _

theorem Record.blocklen_le_len (record : Record g) : g.blocklen ≤ record.len := by
  cases record with
  | blocks bufs =>
    rw [Record.len_blocks]
    exact Nat.le_add_right _ _
  | revocations extents | inodes clear inos => exact le_refl _

theorem dataLen_le (bufs : List (DataBuf g)) : dataLen bufs ≤ bufs.length * 65536 := by
  induction bufs with
  | nil => exact Nat.zero_le _
  | cons bp bps ih =>
    have bound := bp.bcount_le
    rw [dataLen, map_cons, sum_cons, length_cons]
    unfold dataLen at ih
    omega

/-- The length of a record fits its field. -/
theorem Record.len_lt (record : Record g) : record.len < 2 ^ 31 := by
  have block := blocklen_le g
  have rows := bph_mul_le g
  cases record with
  | blocks bufs =>
    have bound := dataLen_le bufs.1
    rw [Record.len_blocks]
    omega
  | revocations extents | inodes clear inos =>
    simp only [Record.len]
    omega

theorem wapblWcBlocklist_parses (wc : Memory) {wcType wcLen : Nat} {rows : List (UInt64 × Nat)}
    (typeLt : wcType < 256 ^ 4) (lenLt : wcLen < 256 ^ 4) (countLt : rows.length < 256 ^ 4)
    (rowsLt : ∀ row ∈ rows, row.2 < 256 ^ 4) :
    peek (wapblWcBlocklist wc wcType wcLen rows) 0 4 = wcType ∧
      peek (wapblWcBlocklist wc wcType wcLen rows) 4 4 = wcLen ∧
      peek (wapblWcBlocklist wc wcType wcLen rows) 8 4 = rows.length ∧
      RowsParse (wapblWcBlocklist wc wcType wcLen rows) rows := by
  unfold wapblWcBlocklist
  refine ⟨?_, ?_, ?_, ?_⟩
  · rw [Layout.peek_fill_below (by omega), peek_poke_of_disjoint (by omega),
      peek_poke_of_disjoint (by omega), peek_poke, Nat.mod_eq_of_lt typeLt]
  · rw [Layout.peek_fill_below (by omega), peek_poke_of_disjoint (by omega), peek_poke,
      Nat.mod_eq_of_lt lenLt]
  · rw [Layout.peek_fill_below (by omega), peek_poke, Nat.mod_eq_of_lt countLt]
  · intro k row found
    constructor
    · rw [show 16 + k * 16 = 16 + k * wcBlocks.stride + wcBlocks.firstOff from rfl]
      rw [show (8 : Nat) = wcBlocks.firstWidth from rfl, Layout.peek_fill_first found]
      exact Nat.mod_eq_of_lt row.1.toNat_lt
    · rw [show 16 + k * 16 + 12 = 16 + k * wcBlocks.stride + wcBlocks.secondOff from rfl]
      rw [show (4 : Nat) = wcBlocks.secondWidth from rfl, Layout.peek_fill_second found]
      exact Nat.mod_eq_of_lt (rowsLt row (mem_of_getElem? found))

/-- The header of a record parses back to it, whatever the scratch block held. -/
theorem Record.parses_header (wc : Memory) (record : Record g) :
    record.Parses (record.header wc) := by
  have block := blocklen_le g
  have blockRows := bph_mul_le g
  have inodeRows := iph_mul_le g
  cases record with
  | blocks bufs =>
    have rowsLt : ∀ row ∈ bufs.1.map fun bp => (bp.bBlkno, bp.bBcount), row.2 < 256 ^ 4 := by
      intro row member
      rcases mem_map.mp member with ⟨bp, _, rfl⟩
      have bound := bp.bcount_le
      omega
    have parses := wapblWcBlocklist_parses wc (show wapblWcBlocks < 256 ^ 4 by decide)
      (lt_trans (Record.len_lt (.blocks bufs)) (by decide))
      (by rw [length_map]; omega) rowsLt
    simpa only [Record.Parses, Record.header, length_map] using parses
  | revocations extents =>
    have rowsLt : ∀ row ∈ extents.1.map fun extent => (extent.daddr, extent.len),
        row.2 < 256 ^ 4 := by
      intro row member
      rcases mem_map.mp member with ⟨extent, _, rfl⟩
      have bound := extent.len_lt
      omega
    have parses := wapblWcBlocklist_parses wc (show wapblWcRevocations < 256 ^ 4 by decide)
      (show g.blocklen < 256 ^ 4 by omega) (by rw [length_map]; omega) rowsLt
    simpa only [Record.Parses, Record.header, length_map] using parses
  | inodes clear inos =>
    have flagLt : (if clear then 1 else 0) < 256 ^ 4 := by
      cases clear <;> decide
    simp only [Record.Parses, Record.header, wapblWcInodelist]
    refine ⟨?_, ?_, ?_, ?_, ?_⟩
    · rw [Layout.peek_fill_below (by omega), peek_poke_of_disjoint (by omega),
        peek_poke_of_disjoint (by omega), peek_poke_of_disjoint (by omega), peek_poke]
      rfl
    · rw [Layout.peek_fill_below (by omega), peek_poke_of_disjoint (by omega),
        peek_poke_of_disjoint (by omega), peek_poke, Nat.mod_eq_of_lt (by omega)]
    · rw [Layout.peek_fill_below (by omega), peek_poke_of_disjoint (by omega), peek_poke,
        Nat.mod_eq_of_lt (by omega)]
    · rw [Layout.peek_fill_below (by omega), peek_poke, Nat.mod_eq_of_lt flagLt]
    · intro k inode found
      constructor
      · rw [show 16 + k * 8 = 16 + k * wcInodes.stride + wcInodes.firstOff from rfl]
        rw [show (4 : Nat) = wcInodes.firstWidth from rfl, Layout.peek_fill_first found]
        exact Nat.mod_eq_of_lt inode.wiIno.toNat_lt
      · rw [show 16 + k * 8 + 4 = 16 + k * wcInodes.stride + wcInodes.secondOff from rfl]
        rw [show (4 : Nat) = wcInodes.secondWidth from rfl, Layout.peek_fill_second found]
        exact Nat.mod_eq_of_lt inode.wiMode.toNat_lt

/-! ## Records depend on their own bytes -/

theorem Record.Parses.congr {header header' : Memory} (parses : record.Parses header)
    (same : ∀ i < g.blocklen, header i = header' i) : record.Parses header' := by
  have blockRows := bph_mul_le g
  have inodeRows := iph_mul_le g
  have field : ∀ off width, off + width ≤ g.blocklen →
      peek header' off width = peek header off width := by
    intro off width inside
    apply peek_congr
    intro i _ upper
    exact (same i (by omega)).symm
  have rowsParse : ∀ rows, rows.length ≤ g.bph → RowsParse header rows →
      RowsParse header' rows := by
    intro rows count parse k row found
    have below := (List.getElem?_eq_some_iff.mp found).1
    rw [field _ _ (by omega), field _ _ (by omega)]
    exact parse k row found
  cases record with
  | blocks bufs =>
    simp only [Record.Parses] at parses ⊢
    rw [field 0 4 (by omega), field 4 4 (by omega), field 8 4 (by omega)]
    exact ⟨parses.1, parses.2.1, parses.2.2.1,
      rowsParse _ (by rw [length_map]; exact bufs.2) parses.2.2.2⟩
  | revocations extents =>
    simp only [Record.Parses] at parses ⊢
    rw [field 0 4 (by omega), field 4 4 (by omega), field 8 4 (by omega)]
    exact ⟨parses.1, parses.2.1, parses.2.2.1,
      rowsParse _ (by rw [length_map]; exact extents.2) parses.2.2.2⟩
  | inodes clear inos =>
    simp only [Record.Parses] at parses ⊢
    rw [field 0 4 (by omega), field 4 4 (by omega), field 8 4 (by omega),
      field 12 4 (by omega)]
    refine ⟨parses.1, parses.2.1, parses.2.2.1, parses.2.2.2.1, ?_⟩
    intro k inode found
    have below := (List.getElem?_eq_some_iff.mp found).1
    rw [field _ _ (by omega), field _ _ (by omega)]
    exact parses.2.2.2.2 k inode found

theorem DataOn.congr {bufs : List (DataBuf g)} (on : DataOn bytes disp bufs)
    (same : ∀ i < disp + dataLen bufs, bytes i = bytes' i) : DataOn bytes' disp bufs := by
  induction bufs generalizing disp with
  | nil => trivial
  | cons bp bps ih =>
    have total : dataLen (bp :: bps) = bp.bBcount + dataLen bps := by
      simp [dataLen]
    rcases on with ⟨here, rest⟩
    constructor
    · intro i below
      rw [← same (disp + i) (by omega)]
      exact here i below
    · apply ih rest
      intro i below
      exact same i (by omega)

theorem Record.OnLog.congr (on : record.OnLog bytes disp)
    (same : ∀ i < disp + record.len, bytes i = bytes' i) : record.OnLog bytes' disp := by
  have block := record.blocklen_le_len
  constructor
  · apply on.1.congr
    intro i below
    exact same _ (by omega)
  · cases record with
    | blocks bufs =>
      rw [Record.len_blocks] at same
      apply DataOn.congr on.2
      intro i below
      exact same i (by omega)
    | revocations extents => trivial
    | inodes clear inos => trivial

@[simp]
theorem recordsLen_nil : recordsLen ([] : List (Record g)) = 0 :=
  rfl

@[simp]
theorem recordsLen_cons (record : Record g) (records : List (Record g)) :
    recordsLen (record :: records) = record.len + recordsLen records := by
  simp [recordsLen]

@[simp]
theorem recordsLen_append (first second : List (Record g)) :
    recordsLen (first ++ second) = recordsLen first + recordsLen second := by
  simp [recordsLen]

theorem blocklen_dvd_recordsLen (records : List (Record g)) : g.blocklen ∣ recordsLen records := by
  induction records with
  | nil => exact dvd_zero _
  | cons record records ih =>
    exact dvd_add record.blocklen_dvd_len ih

theorem Laid.congr (laid : Laid bytes disp records)
    (same : ∀ i < disp + recordsLen records, bytes i = bytes' i) : Laid bytes' disp records := by
  induction records generalizing disp with
  | nil => trivial
  | cons record records ih =>
    rw [recordsLen_cons] at same
    constructor
    · apply laid.1.congr
      intro i below
      exact same i (by omega)
    · apply ih laid.2
      intro i below
      exact same i (by omega)

theorem laid_append {first second : List (Record g)} : Laid bytes disp (first ++ second) ↔
      Laid bytes disp first ∧ Laid bytes (disp + recordsLen first) second := by
  induction first generalizing disp with
  | nil => simp [Laid]
  | cons record records ih =>
    simp only [cons_append, Laid, ih, recordsLen_cons, and_assoc, add_assoc]

/-- Records seen from a later byte. -/
theorem Laid.drop {n : Nat} (laid : Laid bytes (n + disp) records) :
    Laid (fun i => bytes (n + i)) disp records := by
  have data : ∀ (disp : Nat) (bufs : List (DataBuf g)), DataOn bytes (n + disp) bufs →
      DataOn (fun i => bytes (n + i)) disp bufs := by
    intro disp bufs on
    induction bufs generalizing disp with
    | nil => trivial
    | cons bp bps ih =>
      constructor
      · intro i below
        simpa only [add_assoc] using on.1 i below
      · exact ih _ (by simpa only [add_assoc] using on.2)
  induction records generalizing disp with
  | nil => trivial
  | cons record records ih =>
    refine ⟨⟨?_, ?_⟩, ih (by simpa only [add_assoc] using laid.2)⟩
    · simpa only [add_assoc] using laid.1.1
    · cases record with
      | blocks bufs => exact data _ _ (by simpa only [add_assoc] using laid.1.2)
      | revocations extents => trivial
      | inodes clear inos => trivial

theorem eq_nil_of_recordsLen (zero : recordsLen records = 0) : records = [] := by
  cases records with
  | nil => rfl
  | cons record records =>
    have block := record.blocklen_le_len
    have positive := g.blocklen_pos
    rw [recordsLen_cons] at zero
    omega

/-! ## Writing appends -/

section Writing

variable {dev : Device} {origin n : Nat}

/-- A healthy device that has the same first `n` bytes after the origin. -/
structure Appended (g : Geometry) (origin n : Nat) (dev dev' : Device) : Prop where
  healthy : dev'.Healthy
  below : ∀ i < n, contents g dev' origin i = contents g dev origin i

theorem Appended.refl (healthy : dev.Healthy) : Appended g origin n dev dev :=
  ⟨healthy, fun _ _ => rfl⟩

theorem Appended.trans {dev' dev'' : Device} {m : Nat} (first : Appended g origin n dev dev')
    (second : Appended g origin m dev' dev'') (more : n ≤ m) : Appended g origin n dev dev'' := by
  refine ⟨second.healthy, ?_⟩
  intro i below
  rw [second.below i (by omega), first.below i below]

theorem writeData_append (healthy : dev.Healthy) (area : g.InArea origin)
    (alignedOrigin : g.blocklen ∣ origin) (aligned : g.blocklen ∣ n) {bufs : List (DataBuf g)}
    (fits : n + dataLen bufs ≤ g.circSize) :
    ∃ dev', writeData g dev bufs (g.circAdd origin n) =
        .ok (dev', g.circAdd origin (n + dataLen bufs)) ∧
      Appended g origin n dev dev' ∧ DataOn (contents g dev' origin) n bufs := by
  induction bufs generalizing dev n with
  | nil => exact ⟨dev, rfl, .refl healthy, trivial⟩
  | cons bp bps ih =>
    have total : dataLen (bp :: bps) = bp.bBcount + dataLen bps := by
      simp [dataLen]
    rw [total] at fits ⊢
    rcases wapblCircWrite_append healthy bp.bData area alignedOrigin aligned bp.bcount_pos
      bp.bcount_dvd (by omega) with ⟨dev', written, healthy', below, stored⟩
    rcases ih healthy' (dvd_add aligned bp.bcount_dvd) (by omega) with
      ⟨dev'', rest, appended, on⟩
    refine ⟨dev'', ?_, ?_, ?_, ?_⟩
    · simp only [writeData, written, bind, Except.bind, rest, add_assoc]
    · exact Appended.trans ⟨healthy', below⟩ appended (by omega)
    · intro i within
      rw [appended.below (n + i) (by omega), stored i within]
    · exact on

/-- One record goes behind the first `n` bytes. -/
theorem writeRecord_append (healthy : dev.Healthy) (area : g.InArea origin)
    (alignedOrigin : g.blocklen ∣ origin) (aligned : g.blocklen ∣ n) (wc : Memory)
    (fits : n + record.len ≤ g.circSize) :
    ∃ dev' wc', writeRecord g dev wc record (g.circAdd origin n) =
        .ok (dev', wc', g.circAdd origin (n + record.len)) ∧
      Appended g origin n dev dev' ∧ record.OnLog (contents g dev' origin) n := by
  have block := record.blocklen_le_len
  rcases wapblCircWrite_append healthy (record.header wc) area alignedOrigin aligned
    g.blocklen_pos (dvd_refl _) (by omega) with ⟨dev', written, healthy', below, stored⟩
  have parses : record.Parses fun i => contents g dev' origin (n + i) := by
    apply (record.parses_header wc).congr
    intro i within
    exact (stored i within).symm
  cases record with
  | blocks bufs =>
    rw [Record.len_blocks] at fits ⊢
    rcases writeData_append healthy' area alignedOrigin
      (dvd_add aligned (dvd_refl g.blocklen))
      (show n + g.blocklen + dataLen bufs.1 ≤ g.circSize by omega) with
      ⟨dev'', data, appended, on⟩
    refine ⟨dev'', (Record.blocks bufs).header wc, ?_, ?_, ?_, on⟩
    · simp only [writeRecord, written, bind, Except.bind, data, padding_eq_zero, ne_eq,
        not_true_eq_false, if_false, pure, Except.pure, add_assoc]
    · exact Appended.trans ⟨healthy', below⟩ appended (by omega)
    · apply parses.congr
      intro i within
      exact (appended.below (n + i) (by omega)).symm
  | revocations extents =>
    exact ⟨dev', (Record.revocations extents).header wc,
      by simp only [writeRecord, written, bind, Except.bind, pure, Except.pure, Record.len],
      ⟨healthy', below⟩, parses, trivial⟩
  | inodes clear inos =>
    exact ⟨dev', (Record.inodes clear inos).header wc,
      by simp only [writeRecord, written, bind, Except.bind, pure, Except.pure, Record.len],
      ⟨healthy', below⟩, parses, trivial⟩

/-- Records go behind the first `n` bytes, one after the other. -/
theorem writeRecords_append (healthy : dev.Healthy) (area : g.InArea origin)
    (alignedOrigin : g.blocklen ∣ origin) (aligned : g.blocklen ∣ n) (wc : Memory)
    (fits : n + recordsLen records ≤ g.circSize) :
    ∃ dev' wc', writeRecords g dev wc records (g.circAdd origin n) =
        .ok (dev', wc', g.circAdd origin (n + recordsLen records)) ∧
      Appended g origin n dev dev' ∧ Laid (contents g dev' origin) n records := by
  induction records generalizing dev n wc with
  | nil => exact ⟨dev, wc, rfl, .refl healthy, trivial⟩
  | cons record records ih =>
    rw [recordsLen_cons] at fits ⊢
    rcases writeRecord_append healthy area alignedOrigin aligned wc
      (show n + record.len ≤ g.circSize by omega) with ⟨dev', wc', written, appended, on⟩
    rcases ih appended.healthy (dvd_add aligned record.blocklen_dvd_len) wc' (by omega) with
      ⟨dev'', wc'', rest, appended', laid⟩
    refine ⟨dev'', wc'', ?_, appended.trans appended' (by omega), ?_, laid⟩
    · simp only [writeRecords, written, bind, Except.bind, rest, add_assoc]
    · apply on.congr
      intro i within
      exact (appended'.below i within).symm

end Writing

end Records

end Bitrig.Wapbl
