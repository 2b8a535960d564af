import Bitrig.Lib.Buffer
import Bitrig.Wapbl.Circ

/-!
# Buffered writes

Writes of adjacent blocks are collected in a buffer and go to the device in
transfers that end at a multiple of `MAXPHYS`.  The device is looked at through
the buffer: with the buffered bytes stored where a flush will store them.  Seen
like this a buffered write is the write itself.
-/

namespace Bitrig.Wapbl

open Bitrig.Bytes

/-- The macro `MAXPHYS`. -/
def maxphys : Nat := 65536

/-- The fields of the log that buffer its writes, and its device. -/
structure LogBuffer where
  wlBuffer : Buffer UInt8
  wlBufferUsed : Nat
  wlBufferDblk : Nat
  dev : Device

namespace LogBuffer

/-- `memcpy` behind the buffered data.  A copy past the end of the buffer is
undefined. -/
def append (wl : LogBuffer) (data : Memory) (len : Nat) : Except Fault LogBuffer :=
  match wl.wlBuffer.splice wl.wlBufferUsed len data with
  | none => .error .panic
  | some buffer => .ok { wl with wlBuffer := buffer, wlBufferUsed := wl.wlBufferUsed + len }

/-- The transfer of the buffered data. -/
def doio (wl : LogBuffer) : Except Fault LogBuffer := do
  let dev ← wapblWrite wl.dev wl.wlBuffer.get wl.wlBufferUsed wl.wlBufferDblk
  pure { wl with dev := dev, wlBufferUsed := 0 }

end LogBuffer

/-- `wapbl_buffered_flush`. -/
def wapblBufferedFlush (wl : LogBuffer) : Except Fault LogBuffer :=
  if wl.wlBufferUsed = 0 then pure wl else wl.doio

namespace LogBuffer

/-- Data that are not adjacent are flushed, and an empty buffer gets the
address of the write. -/
def place (wl : LogBuffer) (pbn : Nat) : Except Fault LogBuffer :=
  let save wl := if wl.wlBufferUsed = 0 then { wl with wlBufferDblk := pbn } else wl
  if 0 < wl.wlBufferUsed ∧ pbn ≠ wl.wlBufferDblk + btodb wl.wlBufferUsed then
    save <$> wapblBufferedFlush wl
  else pure (save wl)

/-- The space up to the next multiple of `MAXPHYS`, of type `size_t`. -/
@[irreducible]
def resid (wl : LogBuffer) : Nat :=
  (maxphys - dbtob (wl.wlBufferDblk % btodb maxphys) + 2 ^ 64 - wl.wlBufferUsed) % 2 ^ 64

/-- A full buffer goes to the device.  The bytes and the length that are left
are returned with it. -/
def fill (wl : LogBuffer) (data : Memory) (len pbn : Nat) :
    Except Fault (LogBuffer × Memory × Nat) :=
  if wl.resid ≤ len then do
    let filled ← wl.append data wl.resid
    let sent ← filled.doio
    pure ({ sent with wlBufferDblk := pbn + btodb wl.resid }, (fun i => data (wl.resid + i)),
      len - wl.resid)
  else pure (wl, data, len)

end LogBuffer

/-- `wapbl_buffered_write`. -/
def wapblBufferedWrite (wl : LogBuffer) (data : Memory) (len pbn : Nat) :
    Except Fault LogBuffer := do
  let wl ← wl.place pbn
  check (0 < wl.resid)
  check (dbtob (btodb wl.resid) = wl.resid)
  let (wl, data, len) ← wl.fill data len pbn
  check (len < maxphys)
  if 0 < len then wl.append data len else pure wl

/-! ## The device behind the buffer -/

section Store

variable {dev : Device} {data data' : Memory} {len len' addr : Nat}

theorem Device.store_congr (same : ∀ i < len, data i = data' i) :
    dev.store data len addr = dev.store data' len addr := by
  unfold Device.store
  congr 1
  funext p
  split
  · exact same _ (by omega)
  · rfl

/-- Two stores of adjacent bytes are one. -/
theorem Device.store_store :
    (dev.store data len addr).store (fun i => data (len + i)) len' (addr + len) =
      dev.store data (len + len') addr := by
  unfold Device.store
  congr 1
  funext p
  by_cases behind : addr + len ≤ p ∧ p < addr + len + len'
  · rw [if_pos behind, if_pos (by omega)]
    exact congrArg data (by omega)
  · simp only [if_neg behind]
    exact if_congr (by omega) rfl rfl

/-- Bytes copied behind the first ones are stored behind them. -/
theorem Device.store_append :
    dev.store (fun i => if len ≤ i ∧ i < len + len' then data' (i - len) else data i)
        (len + len') addr =
      (dev.store data len addr).store data' len' (addr + len) := by
  rw [← Device.store_store]
  have front : dev.store (fun i => if len ≤ i ∧ i < len + len' then data' (i - len) else data i)
      len addr = dev.store data len addr :=
    Device.store_congr fun i below => if_neg (by omega)
  rw [front]
  apply Device.store_congr
  intro i below
  rw [if_pos (by omega), Nat.add_sub_cancel_left]

theorem Device.store_zero : dev.store data 0 addr = dev := by
  unfold Device.store
  congr 1
  funext p
  exact if_neg (by omega)

end Store

namespace LogBuffer

variable {wl : LogBuffer} {len pbn : Nat}

/-- The device with the buffered data stored on it. -/
def view (wl : LogBuffer) : Device :=
  wl.dev.store wl.wlBuffer.get wl.wlBufferUsed (dbtob wl.wlBufferDblk)

/-- The buffered data are whole blocks and end before the next multiple of
`MAXPHYS`. -/
structure Ready (wl : LogBuffer) : Prop where
  healthy : wl.dev.Healthy
  size : wl.wlBuffer.size = maxphys
  whole : 512 ∣ wl.wlBufferUsed
  room : wl.wlBufferUsed = 0 ∨
    wl.wlBufferUsed + dbtob (wl.wlBufferDblk % btodb maxphys) < maxphys

theorem Ready.used_le (ready : wl.Ready) : wl.wlBufferUsed ≤ maxphys := by
  rcases ready.room with empty | room
  · exact empty ▸ Nat.zero_le _
  · exact (Nat.le_add_right _ _).trans room.le

theorem doio_eq (healthy : wl.dev.Healthy) :
    wl.doio = .ok { wl with dev := wl.view, wlBufferUsed := 0 } := by
  simp only [doio, wapblWrite, healthy _ _]
  rfl

theorem flush_eq (healthy : wl.dev.Healthy) :
    wapblBufferedFlush wl = .ok { wl with dev := wl.view, wlBufferUsed := 0 } := by
  unfold wapblBufferedFlush
  split
  next empty =>
    have same : wl.view = wl.dev := by rw [view, empty, Device.store_zero]
    rw [same, ← empty]
    rfl
  next => exact doio_eq healthy

theorem dbtob_add (block : Nat) {bytes : Nat} (whole : 512 ∣ bytes) :
    dbtob (block + btodb bytes) = dbtob block + bytes := by
  rw [dbtob, btodb, Nat.add_mul, Nat.div_mul_cancel whole]
  rfl

/-- Data that fit are stored behind the buffered ones. -/
theorem append_eq (data : Memory) (fits : wl.wlBufferUsed + len ≤ wl.wlBuffer.size)
    (whole : 512 ∣ wl.wlBufferUsed) :
    ∃ wl', wl.append data len = .ok wl' ∧ wl'.wlBuffer.size = wl.wlBuffer.size ∧
      wl'.wlBufferUsed = wl.wlBufferUsed + len ∧ wl'.wlBufferDblk = wl.wlBufferDblk ∧
      wl'.dev = wl.dev ∧
      wl'.view = wl.view.store data len (dbtob (wl.wlBufferDblk + btodb wl.wlBufferUsed)) := by
  rw [append, Buffer.splice_of_le fits, dbtob_add _ whole]
  exact ⟨_, rfl, rfl, rfl, rfl, rfl, Device.store_append⟩

/-- The place of a write is behind the buffered data, and the buffer has room. -/
structure Adjacent (wl : LogBuffer) (pbn : Nat) : Prop extends wl.Ready where
  free : wl.wlBufferUsed + dbtob (wl.wlBufferDblk % btodb maxphys) < maxphys
  place : pbn = wl.wlBufferDblk + btodb wl.wlBufferUsed

theorem dbtob_mod_lt (block : Nat) : dbtob (block % btodb maxphys) < maxphys :=
  calc dbtob (block % btodb maxphys) < dbtob (btodb maxphys) :=
        Nat.mul_lt_mul_of_pos_right (Nat.mod_lt _ (by decide)) (by decide)
    _ = maxphys := rfl

/-- An empty buffer takes the place of the next write. -/
theorem Ready.adjacent_of_empty (ready : wl.Ready) (empty : wl.wlBufferUsed = 0) (pbn : Nat) :
    { wl with wlBufferDblk := pbn }.Adjacent pbn where
  healthy := ready.healthy
  size := ready.size
  whole := ready.whole
  room := .inl empty
  free := by
    rw [show (_ : LogBuffer).wlBufferUsed = 0 from empty, Nat.zero_add]
    exact dbtob_mod_lt pbn
  place := by
    rw [show (_ : LogBuffer).wlBufferUsed = 0 from empty]
    rfl

theorem Ready.place (ready : wl.Ready) (pbn : Nat) :
    ∃ wl', wl.place pbn = .ok wl' ∧ wl'.Adjacent pbn ∧ wl'.view = wl.view := by
  unfold LogBuffer.place
  by_cases apart : 0 < wl.wlBufferUsed ∧ pbn ≠ wl.wlBufferDblk + btodb wl.wlBufferUsed
  · rw [if_pos apart, flush_eq ready.healthy]
    have flushed : { wl with dev := wl.view, wlBufferUsed := 0 }.Ready :=
      ⟨ready.healthy, ready.size, Nat.dvd_zero _, .inl rfl⟩
    exact ⟨_, rfl, flushed.adjacent_of_empty rfl pbn, Device.store_zero⟩
  · rw [if_neg apart]
    refine ⟨_, rfl, ?_⟩
    by_cases empty : wl.wlBufferUsed = 0
    · simp only [if_pos empty]
      refine ⟨ready.adjacent_of_empty empty pbn, ?_⟩
      simp only [view, empty, Device.store_zero]
    · simp only [if_neg empty]
      exact ⟨⟨ready, ready.room.resolve_left empty, by omega⟩, trivial⟩

section

variable (adjacent : wl.Adjacent pbn)
include adjacent

/-- The space is positive and a number of blocks. -/
theorem Adjacent.resid : 0 < wl.resid ∧ 512 ∣ wl.resid ∧
      wl.wlBufferUsed + dbtob (wl.wlBufferDblk % btodb maxphys) + wl.resid = maxphys := by
  have free := adjacent.free
  have whole := adjacent.whole
  unfold LogBuffer.resid
  simp only [maxphys, dbtob] at free ⊢
  omega

theorem Adjacent.fits {n : Nat} (within : n ≤ wl.resid) : wl.wlBufferUsed + n ≤ maxphys :=
  calc wl.wlBufferUsed + n ≤ wl.wlBufferUsed + dbtob (wl.wlBufferDblk % btodb maxphys) +
        wl.resid := Nat.add_le_add (Nat.le_add_right _ _) within
    _ = maxphys := adjacent.resid.2.2

/-- A full buffer ends at a multiple of `MAXPHYS`. -/
theorem Adjacent.aligned : (pbn + btodb wl.resid) % btodb maxphys = 0 := by
  obtain ⟨-, wholeResid, sum⟩ := adjacent.resid
  rw [adjacent.place]
  simp only [maxphys, dbtob, btodb] at sum ⊢
  omega

/-- What is left after the transfer of a full buffer goes behind it. -/
theorem Adjacent.fill (data : Memory) (whole : 512 ∣ len) (short : len ≤ maxphys) :
    ∃ wl' data' len' pbn', wl.fill data len pbn = .ok (wl', data', len') ∧
      wl'.Adjacent pbn' ∧ 512 ∣ len' ∧ len' < wl'.resid ∧
      wl'.view.store data' len' (dbtob pbn') = wl.view.store data len (dbtob pbn) := by
  obtain ⟨positive, wholeResid, sum⟩ := adjacent.resid
  unfold LogBuffer.fill
  by_cases full : wl.resid ≤ len
  · have fits : wl.wlBufferUsed + wl.resid ≤ wl.wlBuffer.size :=
      (adjacent.fits le_rfl).trans_eq adjacent.size.symm
    obtain ⟨filled, appended, size, -, -, dev, stored⟩ := append_eq data fits adjacent.whole
    have healthy : filled.dev.Healthy := dev ▸ adjacent.healthy
    rw [← adjacent.place] at stored
    have emptied : { filled with dev := filled.view, wlBufferUsed := 0 }.Ready :=
      ⟨healthy, size.trans adjacent.size, Nat.dvd_zero _, .inl rfl⟩
    have next := emptied.adjacent_of_empty rfl (pbn + btodb wl.resid)
    obtain ⟨-, -, sumNext⟩ := next.resid
    refine ⟨_, fun i => data (wl.resid + i), len - wl.resid, _, ?_, next, ?_, ?_, ?_⟩
    · rw [if_pos full, appended]
      change filled.doio >>= _ = _
      rw [doio_eq healthy]
      rfl
    · exact Nat.dvd_sub whole wholeResid
    · have aligned := adjacent.aligned
      simp only [aligned, dbtob, Nat.zero_mul, Nat.zero_add] at sumNext
      rw [sumNext]
      exact (Nat.sub_lt (positive.trans_le full) positive).trans_le short
    · rw [view, Device.store_zero, stored, dbtob_add pbn wholeResid,
        Device.store_store, Nat.add_sub_cancel' full]
  · rw [if_neg full]
    exact ⟨_, _, _, _, rfl, adjacent, whole, Nat.lt_of_not_le full, rfl⟩

end

theorem ok_bind {α β : Type} (a : α) (f : α → Except Fault β) :
    (.ok a : Except Fault α) >>= f = f a :=
  rfl

/-- A write goes behind the buffered data, and the last bytes of the buffer
before a multiple of `MAXPHYS` go to the device. -/
theorem Ready.write (ready : wl.Ready) (data : Memory) (pbn : Nat) (whole : 512 ∣ len)
    (short : len ≤ maxphys) : ∃ wl', wapblBufferedWrite wl data len pbn = .ok wl' ∧ wl'.Ready ∧
      wl'.view = wl.view.store data len (dbtob pbn) := by
  obtain ⟨placed, place, adjacent, sameView⟩ := ready.place pbn
  obtain ⟨positive, wholeResid, -⟩ := adjacent.resid
  have blocks : dbtob (btodb placed.resid) = placed.resid := Nat.div_mul_cancel wholeResid
  obtain ⟨filled, rest, left, pbn', fill, adjacent', wholeLeft, lt, sameStore⟩ :=
    adjacent.fill data whole short
  have fits := adjacent'.fits lt.le
  obtain ⟨last, appended, size, used, dblk, dev, stored⟩ :=
    append_eq rest (fits.trans_eq adjacent'.size.symm) adjacent'.whole
  have below : left < maxphys :=
    lt.trans_le ((Nat.le_add_left _ _).trans (adjacent'.fits le_rfl))
  rw [← sameView, ← sameStore]
  rw [wapblBufferedWrite, place, ok_bind, check_of_holds positive, ok_bind,
    check_of_holds blocks, ok_bind, fill, ok_bind]
  dsimp only
  rw [check_of_holds below]
  by_cases some : 0 < left
  · rw [if_pos some]
    refine ⟨last, appended, ⟨dev ▸ adjacent'.healthy, size.trans adjacent'.size, ?_, .inr ?_⟩, ?_⟩
    · rw [used]
      exact Nat.dvd_add adjacent'.whole wholeLeft
    · rw [used, dblk, Nat.add_right_comm]
      exact (Nat.add_lt_add_left lt _).trans_eq adjacent'.resid.2.2
    · rw [stored, adjacent'.place]
  · rw [if_neg some]
    refine ⟨filled, rfl, adjacent'.toReady, ?_⟩
    rw [Nat.eq_zero_of_not_pos some, Device.store_zero]

/-- A write seen through the buffer. -/
theorem Ready.write_view (ready : wl.Ready) (data : Memory) (pbn : Nat) (whole : 512 ∣ len)
    (short : len ≤ maxphys) : ∃ wl', wapblBufferedWrite wl data len pbn = .ok wl' ∧ wl'.Ready ∧
      wapblWrite wl.view data len pbn = .ok wl'.view := by
  obtain ⟨wl', written, ready', view⟩ := ready.write data pbn whole short
  have healthy : wl.view.fault pbn len = none := ready.healthy _ _
  refine ⟨wl', written, ready', ?_⟩
  rw [wapblWrite, healthy, view]

/-- `wapbl_circ_write` writes through the buffer what it would write to the device behind it, and
`wapbl_buffered_flush` puts it there. -/
theorem Ready.circWrite (ready : wl.Ready) {g : Geometry} (data : Memory) {off : Nat}
    (whole : g.blocklen ∣ len) (short : len ≤ maxphys) (aligned : g.blocklen ∣ off) :
    ∃ wl' flushed off', Wapbl.circWrite wapblBufferedWrite g wl data len off = .ok (wl', off') ∧
      wl'.Ready ∧ wapblBufferedFlush wl' = .ok flushed ∧
      wapblCircWrite g wl.view data len off = .ok (flushed.dev, off') := by
  have blocks := dvd_512_blocklen g
  unfold wapblCircWrite Wapbl.circWrite
  simp only [check_of_holds whole, ok_bind]
  generalize startEq : (if off < g.circOff then g.circOff else off) = start
  have start_dvd : g.blocklen ∣ start := by
    rw [← startEq]
    split
    · exact blocklen_dvd_circOff g
    · exact aligned
  have wholeEnd : g.blocklen ∣ g.circOff + g.circSize - start :=
    Nat.dvd_sub (Nat.dvd_add (blocklen_dvd_circOff g) g.blocklen_dvd) start_dvd
  generalize g.circOff + g.circSize - start = slen at wholeEnd ⊢
  by_cases split : slen < len
  · obtain ⟨wl₁, first, ready₁, direct₁⟩ :=
      ready.write_view data (g.pbn start) (blocks.trans wholeEnd) (split.le.trans short)
    obtain ⟨wl₂, second, ready₂, direct₂⟩ :=
      ready₁.write_view (fun i => data (slen + i)) (g.pbn g.circOff)
        (blocks.trans (Nat.dvd_sub whole wholeEnd)) ((Nat.sub_le _ _).trans short)
    simp only [if_pos split, first, second, direct₁, direct₂, bind, Except.bind, pure, Except.pure]
    exact ⟨wl₂, _, _, rfl, ready₂, flush_eq ready₂.healthy, rfl⟩
  · obtain ⟨wl₁, only, ready₁, direct⟩ :=
      ready.write_view data (g.pbn start) (blocks.trans whole) short
    simp only [if_neg split, only, direct, bind, Except.bind, pure, Except.pure]
    exact ⟨wl₁, _, _, rfl, ready₁, flush_eq ready₁.healthy, rfl⟩

end LogBuffer

/-! ## Sequences of writes -/

/-- A call of `wapbl_buffered_write`. -/
structure LogWrite where
  data : Memory
  len : Nat
  pbn : Nat
  whole : 512 ∣ len
  short : len ≤ maxphys

/-- The calls, one after the other. -/
def bufferedWrites (wl : LogBuffer) (calls : List LogWrite) : Except Fault LogBuffer :=
  calls.foldlM (fun wl call => wapblBufferedWrite wl call.data call.len call.pbn) wl

/-- The same writes without a buffer. -/
def directWrites (dev : Device) (calls : List LogWrite) : Except Fault Device :=
  calls.foldlM (fun dev call => wapblWrite dev call.data call.len call.pbn) dev

theorem LogBuffer.Ready.writes {wl : LogBuffer} (ready : wl.Ready) (calls : List LogWrite) :
    ∃ wl', bufferedWrites wl calls = .ok wl' ∧ wl'.Ready ∧
      directWrites wl.view calls = .ok wl'.view := by
  induction calls generalizing wl with
  | nil => exact ⟨wl, rfl, ready, rfl⟩
  | cons call calls ih =>
    obtain ⟨next, written, ready', view⟩ :=
      ready.write_view call.data call.pbn call.whole call.short
    obtain ⟨wl', writes, ready'', direct⟩ := ih ready'
    refine ⟨wl', ?_, ready'', ?_⟩
    · rw [bufferedWrites, List.foldlM_cons, written]
      exact writes
    · rw [directWrites, List.foldlM_cons, view]
      exact direct

/-- Buffered writes and a flush leave the device as the writes themselves do.
No assertion fails, and the buffer is never overrun. -/
theorem buffered_writes_transparent (wl : LogBuffer) (healthy : wl.dev.Healthy)
    (size : wl.wlBuffer.size = maxphys) (empty : wl.wlBufferUsed = 0) (calls : List LogWrite) :
    ∃ wl' flushed, bufferedWrites wl calls = .ok wl' ∧ wl'.wlBufferUsed ≤ maxphys ∧
      wapblBufferedFlush wl' = .ok flushed ∧ directWrites wl.dev calls = .ok flushed.dev := by
  have ready : wl.Ready := ⟨healthy, size, empty ▸ Nat.dvd_zero _, .inl empty⟩
  obtain ⟨wl', written, ready', direct⟩ := ready.writes calls
  refine ⟨wl', _, written, ready'.used_le, LogBuffer.flush_eq ready'.healthy, ?_⟩
  rw [← direct, LogBuffer.view, empty, Device.store_zero]

/-- The buffer that `wapbl_start` sets up. -/
def LogBuffer.start (dev : Device) : LogBuffer where
  wlBuffer := ⟨maxphys, fun _ => 0⟩
  wlBufferUsed := 0
  wlBufferDblk := 0
  dev := dev

/-- Two blocks at an address, filled with a byte. -/
def twoBlocks (pbn : Nat) (byte : UInt8) : LogWrite where
  data _ := byte
  len := 1024
  pbn := pbn
  whole := by decide
  short := by decide

/-- A write over a multiple of `MAXPHYS`, one behind it and one over both. -/
theorem overlapping_writes : ∃ wl' flushed, bufferedWrites (.start ⟨fun _ => 0, fun _ _ => none⟩)
          [twoBlocks 127 1, twoBlocks 129 2, twoBlocks 128 3] = .ok wl' ∧
        wl'.wlBufferUsed ≤ maxphys ∧ wapblBufferedFlush wl' = .ok flushed ∧
        directWrites ⟨fun _ => 0, fun _ _ => none⟩
          [twoBlocks 127 1, twoBlocks 129 2, twoBlocks 128 3] = .ok flushed.dev :=
  buffered_writes_transparent (.start ⟨fun _ => 0, fun _ _ => none⟩) (fun _ _ => rfl) rfl rfl _

end Bitrig.Wapbl
