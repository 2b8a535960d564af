import Bitrig.Lib.ChainTable
import Bitrig.Lib.UpdateLog
import Bitrig.Wapbl.Record

/-!
# Replaying the log

`wapbl_replay_process` reads the records between the tail and the head.  It
enters the blocks of block lists into a hash table, which maps a device address
to the offset of its newest copy in the log, removes revoked blocks from the
table and collects the inodes of the last transaction.

To the hash table a record is a list of map updates.  Replaying records that
stand on the log one after the other performs their updates in log order.
-/

namespace Bitrig.Wapbl

open Bitrig.Bytes List

/-- The in-core state of a replay (`struct wapbl_replay`).  The hash table has
`wrBlkhashmask + 1` chains. -/
structure WapblReplay where
  wrFsDevBshift : Nat
  wrBlkhashmask : Nat
  /-- Offset in the log of the newest copy of a block. -/
  wrBlkhash : ChainTable UInt64 Nat (wrBlkhashmask + 1)
  wrInodes : List Inode
  wrInodeshead : Nat
  wrInodestail : Nat
  wrScratch : Memory
  /-- Bytes of the records visited so far, which the code does not count. -/
  visited : Nat

namespace WapblReplay

/-- The state that `wapbl_replay_start` allocates for a log that was written
with file system blocks of the size of its own blocks. -/
def fresh (g : Geometry) (mask : Nat) : WapblReplay where
  wrFsDevBshift := g.logDevBshift
  wrBlkhashmask := mask
  wrBlkhash := .empty
  wrInodes := []
  wrInodeshead := 0
  wrInodestail := 0
  wrScratch := fun _ => 0
  visited := 0

/-- The chain of a block. -/
def index (mask : Nat) (blk : UInt64) : Fin (mask + 1) :=
  ⟨blk.toNat &&& mask, Nat.lt_succ_of_le Nat.and_le_right⟩

end WapblReplay

/-! ## The functions of the source -/

/-- `wapbl_blkhash_get`: the offset of the entry. -/
def wapblBlkhashGet (wr : WapblReplay) (blk : UInt64) : Option Nat :=
  wr.wrBlkhash.get (WapblReplay.index wr.wrBlkhashmask) blk

/-- `wapbl_blkhash_ins`. -/
def wapblBlkhashIns (wr : WapblReplay) (blk : UInt64) (off : Nat) : WapblReplay :=
  { wr with wrBlkhash := wr.wrBlkhash.insert (WapblReplay.index wr.wrBlkhashmask) blk off }

/-- `wapbl_blkhash_rem`. -/
def wapblBlkhashRem (wr : WapblReplay) (blk : UInt64) : WapblReplay :=
  { wr with wrBlkhash := wr.wrBlkhash.remove (WapblReplay.index wr.wrBlkhashmask) blk }

/-- `wapbl_blkhash_clear`. -/
def wapblBlkhashClear (wr : WapblReplay) : WapblReplay :=
  { wr with wrBlkhash := .empty }

/-- An `int32_t` field as a loop bound or as the length of an extent: a negative
value gives no rounds. -/
def loopCount (field : Nat) : Nat :=
  if field < 2 ^ 31 then field else 0

/-- An `int32_t` field as a `size_t`. -/
def toSize (field : Nat) : Nat :=
  if field < 2 ^ 31 then field else field + (2 ^ 64 - 2 ^ 32)

/-- The address of block `j` of an extent. -/
def blockAddr (fsblklen : Nat) (daddr : UInt64) (j : Nat) : UInt64 :=
  daddr + UInt64.ofNat (btodb (j * fsblklen))

/-- The inner loop of `wapbl_replay_process_blocks`: `n` rounds from `j` on. -/
def processExtent (g : Geometry) (fsblklen : Nat) (daddr : UInt64) :
    Nat → Nat → WapblReplay → Nat → Except Fault (WapblReplay × Nat)
  | _, 0, wr, off => pure (wr, off)
  | j, n + 1, wr, off => do
      let wr := wapblBlkhashIns wr (blockAddr fsblklen daddr j) off
      let off ← wapblCircAdvance g fsblklen off
      processExtent g fsblklen daddr (j + 1) n wr off

/-- The outer loop of `wapbl_replay_process_blocks`: `n` rounds from `i` on. -/
def processBlocks (g : Geometry) (fsblklen : Nat) (wc : Memory) :
    Nat → Nat → WapblReplay → Nat → Except Fault (WapblReplay × Nat)
  | _, 0, wr, off => pure (wr, off)
  | i, n + 1, wr, off => do
      let daddr := UInt64.ofNat (peek wc (16 + i * 16) 8)
      let dlen := loopCount (peek wc (16 + i * 16 + 12) 4)
      let (wr, off) ← processExtent g fsblklen daddr 0 (dlen / fsblklen) wr off
      processBlocks g fsblklen wc (i + 1) n wr off

/-- `wapbl_replay_process_blocks`. -/
def wapblReplayProcessBlocks (g : Geometry) (wr : WapblReplay) (off : Nat) :
    Except Fault (WapblReplay × Nat) :=
  processBlocks g (2 ^ wr.wrFsDevBshift) wr.wrScratch 0 (loopCount (peek wr.wrScratch 8 4)) wr off

/-- The inner loop of `wapbl_replay_process_revocations`. -/
def revokeExtent (fsblklen : Nat) (daddr : UInt64) : Nat → Nat → WapblReplay → WapblReplay
  | _, 0, wr => wr
  | j, n + 1, wr =>
    revokeExtent fsblklen daddr (j + 1) n (wapblBlkhashRem wr (blockAddr fsblklen daddr j))

/-- The outer loop of `wapbl_replay_process_revocations`. -/
def processRevocations (fsblklen : Nat) (wc : Memory) : Nat → Nat → WapblReplay → WapblReplay
  | _, 0, wr => wr
  | i, n + 1, wr =>
    let daddr := UInt64.ofNat (peek wc (16 + i * 16) 8)
    let dlen := loopCount (peek wc (16 + i * 16 + 12) 4)
    processRevocations fsblklen wc (i + 1) n
      (revokeExtent fsblklen daddr 0 (dlen / fsblklen) wr)

/-- `wapbl_replay_process_revocations`. -/
def wapblReplayProcessRevocations (wr : WapblReplay) : WapblReplay :=
  processRevocations (2 ^ wr.wrFsDevBshift) wr.wrScratch 0 (loopCount (peek wr.wrScratch 8 4)) wr

/-- The rows of an inode list, `n` from `i` on. -/
def listedInodes (wc : Memory) : Nat → Nat → List Inode
  | _, 0 => []
  | i, n + 1 =>
    ⟨UInt32.ofNat (peek wc (16 + i * 8) 4), UInt32.ofNat (peek wc (16 + i * 8 + 4) 4)⟩ ::
      listedInodes wc (i + 1) n

/-- `wapbl_replay_process_inodes`.  A negative count asks for an allocation that
is refused. -/
def wapblReplayProcessInodes (wr : WapblReplay) (oldoff newoff : Nat) :
    Except Fault WapblReplay := do
  let wc := wr.wrScratch
  let wr :=
    { wr with
      wrInodestail := if peek wc 12 4 ≠ 0 then oldoff else wr.wrInodestail
      wrInodes := if peek wc 12 4 ≠ 0 then [] else wr.wrInodes
      wrInodeshead := newoff }
  if peek wc 8 4 = 0 then pure wr
  else do
    check (peek wc 8 4 < 2 ^ 31)
    pure { wr with wrInodes := wr.wrInodes ++ listedInodes wc 0 (peek wc 8 4) }

/-- `EFTYPE`. -/
def eftype : Nat := 79

/-- The switch of `wapbl_replay_process` on the type of a record. -/
def processRecord (g : Geometry) (wr : WapblReplay) (saveoff off : Nat) :
    Except Fault (WapblReplay × Nat) :=
  if peek wr.wrScratch 0 4 = wapblWcBlocks then wapblReplayProcessBlocks g wr off
  else if peek wr.wrScratch 0 4 = wapblWcRevocations then
    .ok (wapblReplayProcessRevocations wr, off)
  else if peek wr.wrScratch 0 4 = wapblWcInodes then do
    let wr ← wapblReplayProcessInodes wr saveoff off
    pure (wr, off)
  else .error (.errno eftype)

/-- The scratch block after a header is read into it. -/
def readHeader (g : Geometry) (wr : WapblReplay) (block : Memory) : WapblReplay :=
  { wr with wrScratch := fun i => if i < g.blocklen then block i else wr.wrScratch i }

/-- One round of the loop of `wapbl_replay_process`. -/
def replayRecord (g : Geometry) (dev : Device) (wr : WapblReplay) (off : Nat) :
    Except Fault (WapblReplay × Nat) := do
  let saveoff := off
  let (block, off) ← wapblCircRead g dev g.blocklen off
  let wr := readHeader g wr block
  let wcLen := toSize (peek wr.wrScratch 4 4)
  let (wr, off) ← processRecord g wr saveoff off
  let saveoff ← wapblCircAdvance g wcLen saveoff
  if off ≠ saveoff then .error (.errno eftype)
  else pure ({ wr with visited := wr.visited + wcLen }, off)

/-- How a replay ends. -/
inductive ReplayResult
  /-- The head was reached. -/
  | done (wr : WapblReplay)
  /-- An error is returned, and the hash table is cleared. -/
  | failed (error : Nat) (wr : WapblReplay)
  | panic
  /-- More rounds are needed. -/
  | running (wr : WapblReplay)

/-- The loop of `wapbl_replay_process`, for at most `fuel` rounds. -/
def replayLoop (g : Geometry) (dev : Device) (head : Nat) :
    Nat → WapblReplay → Nat → ReplayResult
  | 0, wr, off => if off = head then .done wr else .running wr
  | fuel + 1, wr, off =>
    if off = head then .done wr
    else
      match replayRecord g dev wr off with
      | .ok (wr, off) => replayLoop g dev head fuel wr off
      | .error (.errno error) => .failed error (wapblBlkhashClear wr)
      | .error .panic => .panic

/-- `wapbl_replay_process`. -/
def wapblReplayProcess (g : Geometry) (dev : Device) (fuel : Nat) (wr : WapblReplay)
    (head tail : Nat) : ReplayResult :=
  replayLoop g dev head fuel (wapblBlkhashClear wr) tail

/-! ## Records as updates -/

section Updates

variable {g : Geometry}

/-- The blocks of an extent. -/
def extentBlocks (g : Geometry) (daddr : UInt64) (len : Nat) : List UInt64 :=
  (List.range' 0 (len / g.blocklen)).map (blockAddr g.blocklen daddr)

/-- The updates that enter the blocks of a buffer with their data. -/
def DataBuf.updates (bp : DataBuf g) : List (Update UInt64 (Fin g.blocklen → UInt8)) :=
  (List.range' 0 (bp.bBcount / g.blocklen)).map fun j =>
    .write (blockAddr g.blocklen bp.bBlkno j) fun i => bp.bData (j * g.blocklen + i)

/-- What a record does to the contents of blocks. -/
def Record.updates : Record g → List (Update UInt64 (Fin g.blocklen → UInt8))
  | .blocks bufs => bufs.1.flatMap DataBuf.updates
  | .revocations extents => extents.1.map fun extent =>
      .erase (extentBlocks g extent.daddr extent.len)
  | .inodes _ _ => []

/-- What a record does to the list of inodes. -/
def Record.nextInodes (old : List Inode) : Record g → List Inode
  | .inodes clear inos => (if clear then [] else old) ++ inos.1
  | _ => old

/-- The updates that enter `n` blocks of an extent, from block `j` on, with
their offsets.  The extent stands `disp` bytes after the origin. -/
def extentPlaces (g : Geometry) (origin : Nat) (daddr : UInt64) (disp j n : Nat) :
    List (Update UInt64 Nat) :=
  (List.range' j n).map fun k =>
    .write (blockAddr g.blocklen daddr k) (g.circAdd origin (disp + k * g.blocklen))

/-- The updates that enter the blocks of buffers with their offsets. -/
def dataPlaces (origin : Nat) : Nat → List (DataBuf g) → List (Update UInt64 Nat)
  | _, [] => []
  | disp, bp :: bps =>
    extentPlaces g origin bp.bBlkno disp 0 (bp.bBcount / g.blocklen) ++
      dataPlaces origin (disp + bp.bBcount) bps

/-- What a record that stands on the log does to the offsets of blocks. -/
def Record.places (origin disp : Nat) : Record g → List (Update UInt64 Nat)
  | .blocks bufs => dataPlaces origin (disp + g.blocklen) bufs.1
  | .revocations extents => extents.1.map fun extent =>
      .erase (extentBlocks g extent.daddr extent.len)
  | .inodes _ _ => []

/-- What records that stand on the log do to the offsets of blocks. -/
def recordPlaces (origin : Nat) : Nat → List (Record g) → List (Update UInt64 Nat)
  | _, [] => []
  | disp, record :: records =>
    record.places origin disp ++ recordPlaces origin (disp + record.len) records

/-- The block of the log at an offset. -/
def blockAt (g : Geometry) (dev : Device) (off : Nat) : Fin g.blocklen → UInt8 :=
  fun i => logByte g dev (g.circAdd off i)

end Updates

section Data

variable {g : Geometry} {dev : Device} {origin disp : Nat}

variable (area : g.InArea origin)
include area

/-- The offsets entered for a buffer hold its data. -/
theorem extentPlaces_map (bp : DataBuf g) (fits : disp + bp.bBcount ≤ g.circSize)
    (on : ∀ i < bp.bBcount, contents g dev origin (disp + i) = bp.bData i) :
    (extentPlaces g origin bp.bBlkno disp 0 (bp.bBcount / g.blocklen)).map
        (Update.map (blockAt g dev)) = bp.updates := by
  rw [extentPlaces, map_map]
  apply map_congr_left
  intro j member
  have below : j < bp.bBcount / g.blocklen := by
    simpa using member
  have inside : (j + 1) * g.blocklen ≤ bp.bBcount :=
    le_trans (Nat.mul_le_mul_right _ below) (Nat.div_mul_le_self _ _)
  rw [Nat.succ_mul] at inside
  simp only [Function.comp, Update.map]
  congr 1
  funext i
  rw [blockAt, Geometry.circAdd_circAdd area (by omega), add_assoc]
  exact on _ (by omega)

theorem dataPlaces_map {bufs : List (DataBuf g)} (fits : disp + dataLen bufs ≤ g.circSize)
    (on : DataOn (contents g dev origin) disp bufs) :
    (dataPlaces origin disp bufs).map (Update.map (blockAt g dev)) =
      bufs.flatMap DataBuf.updates := by
  induction bufs generalizing disp with
  | nil => rfl
  | cons bp bps ih =>
    have total : disp + dataLen (bp :: bps) = disp + bp.bBcount + dataLen bps := by
      simp [dataLen, add_assoc]
    rw [total] at fits
    rw [dataPlaces, map_append, flatMap_cons,
      extentPlaces_map area bp (by omega) on.1, ih fits on.2]

/-- The offsets entered for records hold the data of their blocks. -/
theorem recordPlaces_map {records : List (Record g)} (fits : disp + recordsLen records ≤ g.circSize)
    (laid : Laid (contents g dev origin) disp records) :
    (recordPlaces origin disp records).map (Update.map (blockAt g dev)) =
      records.flatMap Record.updates := by
  induction records generalizing disp with
  | nil => rfl
  | cons record records ih =>
    rw [recordsLen_cons] at fits
    rw [recordPlaces, map_append, ih (by omega) laid.2]
    congr 1
    cases record with
    | blocks bufs =>
      rw [Record.len_blocks] at fits
      exact dataPlaces_map area (by omega) laid.1.2
    | revocations extents =>
      rw [Record.places, map_map]
      rfl
    | inodes clear inos => rfl

end Data

/-! ## What a round does -/

/-- The state after some updates of the hash table and `len` more bytes of
records, with a given list of inodes. -/
structure Replayed (updates : List (Update UInt64 Nat)) (inodes : List Inode) (len : Nat)
    (wr wr' : WapblReplay) : Prop where
  get : wapblBlkhashGet wr' = Update.replay (wapblBlkhashGet wr) updates
  inodes : wr'.wrInodes = inodes
  visited : wr'.visited = wr.visited + len
  shift : wr'.wrFsDevBshift = wr.wrFsDevBshift

namespace Replayed

variable {wr wr' wr'' : WapblReplay} {first second : List (Update UInt64 Nat)}
  {inodes inodes' : List Inode} {m n : Nat}

theorem refl (wr : WapblReplay) : Replayed [] wr.wrInodes 0 wr wr :=
  ⟨rfl, rfl, rfl, rfl⟩

theorem trans (before : Replayed first inodes m wr wr')
    (after : Replayed second inodes' n wr' wr'') :
    Replayed (first ++ second) inodes' (m + n) wr wr'' where
  get := by rw [after.get, before.get, Update.replay_append]
  inodes := after.inodes
  visited := by rw [after.visited, before.visited, add_assoc]
  shift := after.shift.trans before.shift

theorem ins (wr : WapblReplay) (blk : UInt64) (off : Nat) :
    Replayed [.write blk off] wr.wrInodes 0 wr (wapblBlkhashIns wr blk off) where
  get := by
    funext other
    exact ChainTable.get_insert blk other off
  inodes := rfl
  visited := rfl
  shift := rfl

theorem rem (wr : WapblReplay) (blk : UInt64) :
    Replayed [.erase [blk]] wr.wrInodes 0 wr (wapblBlkhashRem wr blk) where
  get := by
    funext other
    simp only [Update.replay_cons, Update.replay_nil, Update.apply, mem_singleton]
    exact ChainTable.get_remove blk other
  inodes := rfl
  visited := rfl
  shift := rfl

end Replayed

section Rounds

variable {g : Geometry} {dev : Device} {origin disp : Nat} {i : Nat} {wc : Memory}
  {wr : WapblReplay} {record : Record g}

/-- Rows from index `i` on: the first one, and the others from `i + 1` on. -/
theorem rows_cons {α : Type} {item : α} {items : List α} {P : Nat → α → Prop}
    (rows : ∀ k row, (item :: items)[k]? = some row → P (i + k) row) :
    P i item ∧ ∀ k row, items[k]? = some row → P (i + 1 + k) row := by
  constructor
  · exact rows 0 item rfl
  · intro k row found
    rw [show i + 1 + k = i + (k + 1) by omega]
    exact rows (k + 1) row (by simpa using found)

theorem processExtent_replayed (disp : Nat) (area : g.InArea origin) (daddr : UInt64) {j n : Nat}
    (fits : disp + (j + n) * g.blocklen ≤ g.circSize) (wr : WapblReplay) :
    ∃ wr', processExtent g g.blocklen daddr j n wr (g.circAdd origin (disp + j * g.blocklen)) =
        .ok (wr', g.circAdd origin (disp + (j + n) * g.blocklen)) ∧
      Replayed (extentPlaces g origin daddr disp j n) wr.wrInodes 0 wr wr' := by
  induction n generalizing j wr with
  | zero => exact ⟨wr, rfl, .refl wr⟩
  | succ n ih =>
    have more : (j + (n + 1)) * g.blocklen = j * g.blocklen + g.blocklen + n * g.blocklen := by
      ring
    have next : disp + j * g.blocklen + g.blocklen = disp + (j + 1) * g.blocklen := by
      ring
    have advanced : wapblCircAdvance g g.blocklen (g.circAdd origin (disp + j * g.blocklen)) =
        .ok (g.circAdd origin (disp + (j + 1) * g.blocklen)) := by
      rw [wapblCircAdvance_eq (area.circAdd (by omega)) (by omega) (dvd_refl _),
        Geometry.circAdd_circAdd area (by omega), next]
    rw [show j + (n + 1) = j + 1 + n by omega] at fits ⊢
    rcases ih fits (wapblBlkhashIns wr (blockAddr g.blocklen daddr j)
      (g.circAdd origin (disp + j * g.blocklen))) with ⟨wr', rest, replayed⟩
    refine ⟨wr', ?_, (Replayed.ins wr _ _).trans replayed⟩
    simp only [processExtent, bind, Except.bind, advanced, rest]

theorem processBlocks_replayed (area : g.InArea origin) {bufs : List (DataBuf g)}
    (rows : ∀ k bp, bufs[k]? = some bp → peek wc (16 + (i + k) * 16) 8 = bp.bBlkno.toNat ∧
        peek wc (16 + (i + k) * 16 + 12) 4 = bp.bBcount) (fits : disp + dataLen bufs ≤ g.circSize)
    (wr : WapblReplay) :
    ∃ wr', processBlocks g g.blocklen wc i bufs.length wr (g.circAdd origin disp) =
        .ok (wr', g.circAdd origin (disp + dataLen bufs)) ∧
      Replayed (dataPlaces origin disp bufs) wr.wrInodes 0 wr wr' := by
  induction bufs generalizing i disp wr with
  | nil => exact ⟨wr, rfl, .refl wr⟩
  | cons bp bps ih =>
    have total : disp + dataLen (bp :: bps) = disp + bp.bBcount + dataLen bps := by
      simp [dataLen, add_assoc]
    have whole : bp.bBcount / g.blocklen * g.blocklen = bp.bBcount :=
      Nat.div_mul_cancel bp.bcount_dvd
    have bound := bp.bcount_le
    rcases rows_cons
      (P := fun n (bp : DataBuf g) => peek wc (16 + n * 16) 8 = bp.bBlkno.toNat ∧
        peek wc (16 + n * 16 + 12) 4 = bp.bBcount) rows with ⟨row, rest⟩
    rw [total] at fits ⊢
    rcases processExtent_replayed disp area bp.bBlkno
      (show disp + (0 + bp.bBcount / g.blocklen) * g.blocklen ≤ g.circSize by
        rw [zero_add]; omega) wr with ⟨wr', entered, replayed⟩
    rw [zero_mul, add_zero, zero_add, whole] at entered
    rcases ih rest fits wr' with ⟨wr'', left, replayed'⟩
    rw [replayed.inodes] at replayed'
    refine ⟨wr'', ?_, replayed.trans replayed'⟩
    simp only [length_cons, processBlocks, row.1, row.2, UInt64.ofNat_toNat, loopCount,
      if_pos (show bp.bBcount < 2 ^ 31 by omega), bind, Except.bind, entered, left]

theorem revokeExtent_replayed (daddr : UInt64) (j n : Nat) (wr : WapblReplay) :
    Replayed [.erase ((List.range' j n).map (blockAddr g.blocklen daddr))] wr.wrInodes 0 wr
      (revokeExtent g.blocklen daddr j n wr) := by
  induction n generalizing j wr with
  | zero =>
    refine ⟨?_, rfl, rfl, rfl⟩
    rfl
  | succ n ih =>
    have both := (Replayed.rem wr (blockAddr g.blocklen daddr j)).trans (ih (j + 1) _)
    refine ⟨?_, both.inodes, both.visited, both.shift⟩
    rw [List.range'_succ, map_cons, Update.replay_cons, Update.apply_erase_cons]
    exact both.get

theorem processRevocations_replayed {extents : List Extent}
    (rows : ∀ k extent, extents[k]? = some extent →
      peek wc (16 + (i + k) * 16) 8 = extent.daddr.toNat ∧
        peek wc (16 + (i + k) * 16 + 12) 4 = extent.len) (wr : WapblReplay) :
    Replayed (extents.map fun extent => .erase (extentBlocks g extent.daddr extent.len))
      wr.wrInodes 0 wr (processRevocations g.blocklen wc i extents.length wr) := by
  induction extents generalizing i wr with
  | nil => exact .refl wr
  | cons extent extents ih =>
    rcases rows_cons
      (P := fun n (extent : Extent) => peek wc (16 + n * 16) 8 = extent.daddr.toNat ∧
        peek wc (16 + n * 16 + 12) 4 = extent.len) rows with ⟨row, rest⟩
    have revoked := revokeExtent_replayed (g := g) extent.daddr 0 (extent.len / g.blocklen) wr
    have left := ih rest (revokeExtent g.blocklen extent.daddr 0 (extent.len / g.blocklen) wr)
    rw [revoked.inodes] at left
    simp only [length_cons, processRevocations, row.1, row.2, UInt64.ofNat_toNat, loopCount,
      if_pos extent.len_lt]
    exact revoked.trans left

theorem listedInodes_eq {inos : List Inode}
    (rows : ∀ k inode, inos[k]? = some inode → peek wc (16 + (i + k) * 8) 4 = inode.wiIno.toNat ∧
        peek wc (16 + (i + k) * 8 + 4) 4 = inode.wiMode.toNat) :
    listedInodes wc i inos.length = inos := by
  induction inos generalizing i with
  | nil => rfl
  | cons inode inos ih =>
    rcases rows_cons
      (P := fun n (inode : Inode) => peek wc (16 + n * 8) 4 = inode.wiIno.toNat ∧
        peek wc (16 + n * 8 + 4) 4 = inode.wiMode.toNat) rows with ⟨row, rest⟩
    simp only [length_cons, listedInodes, row.1, row.2, UInt32.ofNat_toNat, ih rest]

theorem wapblReplayProcessInodes_replayed {clear : Bool} {inos : UpTo Inode g.iph}
    (parses : (Record.inodes clear inos).Parses wr.wrScratch) (oldoff newoff : Nat) :
    ∃ wr', wapblReplayProcessInodes wr oldoff newoff = .ok wr' ∧
      Replayed [] ((Record.inodes clear inos).nextInodes wr.wrInodes) 0 wr wr' := by
  rcases parses with ⟨_, _, count, flag, rows⟩
  have listed : listedInodes wr.wrScratch 0 inos.1.length = inos.1 := by
    apply listedInodes_eq
    intro k inode found
    rw [zero_add]
    exact rows k inode found
  have small : inos.1.length < 2 ^ 31 := by
    have block := blocklen_le g
    have inodeRows := iph_mul_le g
    omega
  simp only [wapblReplayProcessInodes, count, flag, check_of_holds small, listed, bind,
    Except.bind, pure, Except.pure]
  by_cases none : inos.1.length = 0
  · rw [if_pos none]
    refine ⟨_, rfl, ?_⟩
    rw [Record.nextInodes, length_eq_zero_iff.mp none]
    cases clear <;> exact ⟨rfl, by simp, rfl, rfl⟩
  · rw [if_neg none]
    refine ⟨_, rfl, ?_⟩
    cases clear <;> exact ⟨rfl, rfl, rfl, rfl⟩

/-- The switch on the type of a record performs the updates of the record. -/
theorem processRecord_replayed (area : g.InArea origin) (shift : wr.wrFsDevBshift = g.logDevBshift)
    (parses : record.Parses wr.wrScratch) (fits : disp + record.len ≤ g.circSize) (saveoff : Nat) :
    ∃ wr', processRecord g wr saveoff (g.circAdd origin (disp + g.blocklen)) =
        .ok (wr', g.circAdd origin (disp + record.len)) ∧
      Replayed (record.places origin disp) (record.nextInodes wr.wrInodes) 0 wr wr' := by
  have block := blocklen_le g
  have blockRows := bph_mul_le g
  have size : 2 ^ wr.wrFsDevBshift = g.blocklen := by rw [shift]; rfl
  cases record with
  | blocks bufs =>
    rcases parses with ⟨kind, _, count, rows⟩
    have small : bufs.1.length < 2 ^ 31 := by
      omega
    rw [Record.len_blocks, ← add_assoc] at fits ⊢
    have bufRows : ∀ k bp, bufs.1[k]? = some bp →
        peek wr.wrScratch (16 + (0 + k) * 16) 8 = bp.bBlkno.toNat ∧
          peek wr.wrScratch (16 + (0 + k) * 16 + 12) 4 = bp.bBcount := by
      intro k bp found
      rw [zero_add]
      exact rows k (bp.bBlkno, bp.bBcount) (by rw [getElem?_map, found]; rfl)
    rcases processBlocks_replayed area bufRows fits wr with ⟨wr', entered, replayed⟩
    refine ⟨wr', ?_, replayed⟩
    rw [processRecord, if_pos kind, wapblReplayProcessBlocks, size, count, loopCount,
      if_pos small, entered]
  | revocations extents =>
    rcases parses with ⟨kind, _, count, rows⟩
    have small : extents.1.length < 2 ^ 31 := by
      omega
    have extentRows : ∀ k extent, extents.1[k]? = some extent →
        peek wr.wrScratch (16 + (0 + k) * 16) 8 = extent.daddr.toNat ∧
          peek wr.wrScratch (16 + (0 + k) * 16 + 12) 4 = extent.len := by
      intro k extent found
      rw [zero_add]
      exact rows k (extent.daddr, extent.len) (by rw [getElem?_map, found]; rfl)
    refine ⟨_, ?_, processRevocations_replayed extentRows wr⟩
    rw [processRecord, kind, if_pos rfl, wapblReplayProcessRevocations, size, count, loopCount,
      if_pos small]
    rfl
  | inodes clear inos =>
    rcases wapblReplayProcessInodes_replayed parses saveoff
      (g.circAdd origin (disp + g.blocklen)) with ⟨wr', listed, replayed⟩
    refine ⟨wr', ?_, replayed⟩
    rw [processRecord, parses.1, if_neg (by decide), if_pos rfl, listed]
    rfl

/-- The block that is read at a record parses to it. -/
theorem wapblCircRead_header (healthy : dev.Healthy) (area : g.InArea origin)
    (alignedOrigin : g.blocklen ∣ origin) (aligned : g.blocklen ∣ disp)
    (on : record.OnLog (contents g dev origin) disp) (fits : disp + record.len ≤ g.circSize) :
    ∃ header, wapblCircRead g dev g.blocklen (g.circAdd origin disp) =
        .ok (header, g.circAdd origin (disp + g.blocklen)) ∧ record.Parses header := by
  have block := record.blocklen_le_len
  rcases wapblCircRead_eq healthy (area.circAdd (show disp ≤ g.circSize by omega))
    (blocklen_dvd_circAdd alignedOrigin aligned) (show g.blocklen ≤ g.circSize by omega)
    (dvd_refl _) with ⟨header, read, bytes⟩
  rw [Geometry.circAdd_circAdd area (by omega)] at read
  refine ⟨header, read, on.1.congr fun i within => ?_⟩
  rw [bytes i within, Geometry.circAdd_circAdd area (by omega)]
  rfl

theorem Record.Parses.wcLen {header : Memory} (parses : record.Parses header) :
    toSize (peek header 4 4) = record.len := by
  have field : peek header 4 4 = record.len := by
    cases record with
    | blocks _ | revocations _ | inodes _ _ => exact parses.2.1
  rw [field, toSize, if_pos record.len_lt]

/-- One round of the replay loop, on a record that stands on the log. -/
theorem replayRecord_replayed (healthy : dev.Healthy) (area : g.InArea origin)
    (alignedOrigin : g.blocklen ∣ origin) (aligned : g.blocklen ∣ disp)
    (shift : wr.wrFsDevBshift = g.logDevBshift) (on : record.OnLog (contents g dev origin) disp)
    (fits : disp + record.len ≤ g.circSize) : ∃ wr', replayRecord g dev wr (g.circAdd origin disp) =
        .ok (wr', g.circAdd origin (disp + record.len)) ∧
      Replayed (record.places origin disp) (record.nextInodes wr.wrInodes) record.len wr wr' := by
  have offArea := area.circAdd (show disp ≤ g.circSize by omega)
  rcases wapblCircRead_header healthy area alignedOrigin aligned on fits with
    ⟨header, read, parses⟩
  replace parses : record.Parses (readHeader g wr header).wrScratch :=
    parses.congr fun i within => (if_pos within).symm
  have advanced : wapblCircAdvance g record.len (g.circAdd origin disp) =
      .ok (g.circAdd origin (disp + record.len)) := by
    rw [wapblCircAdvance_eq offArea (by omega) record.blocklen_dvd_len,
      Geometry.circAdd_circAdd area (by omega)]
  rcases processRecord_replayed area (show (readHeader g wr header).wrFsDevBshift = _ from shift)
    parses fits (g.circAdd origin disp) with ⟨wr', processed, replayed⟩
  refine ⟨{ wr' with visited := wr'.visited + record.len }, ?_, ?_⟩
  · simp only [replayRecord, bind, Except.bind, read, parses.wcLen, processed, advanced, ne_eq,
      not_true_eq_false, if_false, pure, Except.pure]
  · exact ⟨replayed.get, replayed.inodes, by rw [replayed.visited]; rfl, replayed.shift⟩

end Rounds

/-! ## Whole replays -/

section Loop

variable {g : Geometry} {dev : Device} {origin : Nat}

/-- Records that stand on the log are replayed one after the other, up to a head
that is not reached before the last of them. -/
theorem replayLoop_replayed (healthy : dev.Healthy) (area : g.InArea origin)
    (alignedOrigin : g.blocklen ∣ origin) {records : List (Record g)} {disp : Nat} (fuel : Nat)
    (wr : WapblReplay) (aligned : g.blocklen ∣ disp)
    (shift : wr.wrFsDevBshift = g.logDevBshift) (laid : Laid (contents g dev origin) disp records)
    (fits : disp + recordsLen records < g.circSize) (enough : records.length ≤ fuel) :
    ∃ wr', replayLoop g dev (g.circAdd origin (disp + recordsLen records)) fuel wr
        (g.circAdd origin disp) = .done wr' ∧
      Replayed (recordPlaces origin disp records)
        (records.foldl Record.nextInodes wr.wrInodes) (recordsLen records) wr wr' := by
  induction records generalizing disp fuel wr with
  | nil =>
    refine ⟨wr, ?_, .refl wr⟩
    cases fuel <;> simp [replayLoop]
  | cons record records ih =>
    have block := record.blocklen_le_len
    have blockPos := g.blocklen_pos
    rw [recordsLen_cons] at fits ⊢
    -- the head is a positive number of bytes ahead
    have apart : g.circAdd origin disp ≠
        g.circAdd origin (disp + (record.len + recordsLen records)) := by
      intro equal
      have dist := congrArg (g.circDist origin) equal
      rw [Geometry.circDist_circAdd area (by omega), Geometry.circDist_circAdd area (by omega)]
        at dist
      omega
    cases fuel with
    | zero => simp at enough
    | succ fuel =>
      rcases replayRecord_replayed healthy area alignedOrigin aligned shift laid.1 (by omega)
        with ⟨wr', replayedOne, replayed⟩
      rcases ih fuel wr' (dvd_add aligned record.blocklen_dvd_len)
        (replayed.shift.trans shift) laid.2 (by omega) (by simpa using enough) with
        ⟨wr'', done, rest⟩
      rw [replayed.inodes] at rest
      refine ⟨wr'', ?_, replayed.trans rest⟩
      rw [add_assoc] at done
      simp only [replayLoop, if_neg apart, replayedOne, done]

end Loop

end Bitrig.Wapbl
