import Bitrig.Wapbl.Replay
import Bitrig.Wapbl.Sections

/-!
# The log and its replay

Transactions are written at the head and released at the tail.  In every state
of a run the live transactions stand on the log one after the other from the
tail to the head, however often the head went around the area.  So a replay of
a log that is not full finds exactly them.
-/

namespace Bitrig.Wapbl

open Bitrig.Bytes List
open Bitrig.Transition

universe u

/-! ## The records of a transaction -/

section Chunks

variable {α : Type u} {n : Nat} {fuel : Nat} {items : List α}

theorem chunks_flatten (positive : 0 < n) (enough : items.length ≤ fuel) :
    ((chunks n fuel items).map (·.1)).flatten = items := by
  induction fuel generalizing items with
  | zero => simp [chunks, length_eq_zero_iff.mp (Nat.le_zero.mp enough)]
  | succ fuel ih =>
    cases items with
    | nil => rfl
    | cons item items =>
      have rest : ((item :: items).drop n).length ≤ fuel := by
        rw [length_drop]
        omega
      rw [chunks, map_cons, flatten_cons, ih rest, take_append_drop]

theorem chunks_length (positive : 0 < n) (enough : items.length ≤ fuel) :
    (chunks n fuel items).length = howmany items.length n := by
  induction fuel generalizing items with
  | zero =>
    rw [length_eq_zero_iff.mp (Nat.le_zero.mp enough), length_nil, howmany,
      Nat.div_eq_of_lt (by omega)]
    rfl
  | succ fuel ih =>
    cases items with
    | nil =>
      rw [length_nil, howmany, Nat.div_eq_of_lt (by omega)]
      rfl
    | cons item items =>
      have rest : ((item :: items).drop n).length ≤ fuel := by
        rw [length_drop]
        omega
      have some : 0 < (item :: items).length := by simp
      rw [chunks, length_cons, ih rest, length_drop, howmany_pos some positive, add_comm]

end Chunks

namespace Transaction

variable {g : Geometry} (txn : Transaction g)

/-- The counters that the in-core log keeps of the transaction. -/
def counters : WapblLog g :=
  { WapblLog.fresh g with
    wlBcount := dataLen txn.wlBufs
    wlBufcount := txn.wlBufs.length
    wlDealloccnt := txn.wlDeallocs.length
    wlInohashcnt := txn.inodes.length }

/-- What the transaction does to the contents of blocks, in log order. -/
def updates : List (Update UInt64 (Fin g.blocklen → UInt8)) :=
  txn.wlBufs.flatMap DataBuf.updates ++
    txn.wlDeallocs.map fun extent => .erase (extentBlocks g extent.daddr extent.len)

/-- What stays of the transaction when only its inode list is kept. -/
def inodesOnly : Transaction g :=
  { txn with wlBufs := [], wlDeallocs := [] }

theorem recordsLen_blockRecords : recordsLen txn.blockRecords =
      dataLen txn.wlBufs + howmany txn.wlBufs.length g.bph * g.blocklen := by
  have split : ∀ groups : List (UpTo (DataBuf g) g.bph),
      recordsLen (groups.map Record.blocks) =
        dataLen (groups.map (·.1)).flatten + groups.length * g.blocklen := by
    intro groups
    induction groups with
    | nil => simp [dataLen]
    | cons group groups ih =>
      simp only [map_cons, recordsLen_cons, ih, Record.len_blocks, flatten_cons,
        length_cons, Nat.succ_mul, dataLen, map_append, sum_append]
      omega
  rw [blockRecords, split, chunks_flatten g.bph_pos (le_refl _),
    chunks_length g.bph_pos (le_refl _)]

omit txn in
/-- Records of one block each. -/
theorem recordsLen_map {β : Type} {record : β → Record g}
    (single : ∀ group, (record group).len = g.blocklen) (groups : List β) :
    recordsLen (groups.map record) = groups.length * g.blocklen := by
  induction groups with
  | nil => simp
  | cons group groups ih =>
    rw [map_cons, recordsLen_cons, ih, single, length_cons, Nat.succ_mul, add_comm]

theorem recordsLen_revocationRecords :
    recordsLen txn.revocationRecords = howmany txn.wlDeallocs.length g.bph * g.blocklen := by
  rw [revocationRecords, recordsLen_map fun _ => rfl, chunks_length g.bph_pos (le_refl _)]

theorem recordsLen_inodeRecords :
    recordsLen txn.inodeRecords = max 1 (howmany txn.inodes.length g.iph) * g.blocklen := by
  rw [← chunks_length g.iph_pos (le_refl _), inodeRecords]
  cases chunks g.iph txn.inodes.length txn.inodes with
  | nil => simp [Record.len]
  | cons first rest =>
    rw [recordsLen_cons, recordsLen_map fun _ => rfl, length_cons,
      Nat.max_eq_right (by omega), Nat.succ_mul, add_comm]
    rfl

/-- The records of a transaction have the length that its counters promise. -/
theorem recordsLen_records : recordsLen txn.records = wapblTransactionLen txn.counters := by
  rw [records, recordsLen_append, recordsLen_append, recordsLen_blockRecords,
    recordsLen_revocationRecords, recordsLen_inodeRecords]
  rfl

theorem recordsLen_inodeRecords_pos : 0 < recordsLen txn.inodeRecords := by
  rw [recordsLen_inodeRecords]
  exact Nat.mul_pos (lt_of_lt_of_le Nat.one_pos (le_max_left _ _)) g.blocklen_pos

theorem recordsLen_records_pos : 0 < recordsLen txn.records := by
  rw [records, recordsLen_append]
  exact Nat.add_pos_right _ txn.recordsLen_inodeRecords_pos

theorem records_inodesOnly : txn.inodesOnly.records = txn.inodeRecords :=
  rfl

/-- The records of a transaction do what the transaction does. -/
theorem updates_records : txn.records.flatMap Record.updates = txn.updates := by
  have blocks := congrArg (flatMap DataBuf.updates)
    (chunks_flatten g.bph_pos (le_refl txn.wlBufs.length))
  have revocations := congrArg
    (map fun extent : Extent => Update.erase (V := Fin g.blocklen → UInt8)
      (extentBlocks g extent.daddr extent.len))
    (chunks_flatten g.bph_pos (le_refl txn.wlDeallocs.length))
  rw [← flatMap_def, List.flatMap_assoc] at blocks
  rw [← flatMap_def, map_flatMap] at revocations
  have inodes : txn.inodeRecords.flatMap Record.updates = [] := by
    rw [inodeRecords]
    cases chunks g.iph txn.inodes.length txn.inodes with
    | nil => rfl
    | cons first rest =>
      rw [flatMap_cons, flatMap_map]
      simp [Record.updates]
  rw [records, flatMap_append, flatMap_append, inodes, append_nil, blockRecords, flatMap_map,
    revocationRecords, flatMap_map, updates, ← blocks, ← revocations]
  rfl

/-- The records of a transaction leave its inodes, whatever was listed before. -/
theorem nextInodes_records (old : List Inode) :
    txn.records.foldl Record.nextInodes old = txn.inodes := by
  have kept : ∀ {β : Type} {record : β → Record g},
      (∀ group old, Record.nextInodes old (record group) = old) →
      ∀ (groups : List β) (old : List Inode),
        (groups.map record).foldl Record.nextInodes old = old := by
    intro β record same groups old
    rw [foldl_map]
    exact foldl_fixed' (same · old) groups
  have others : ∀ (groups : List (UpTo Inode g.iph)) (old : List Inode),
      (groups.map (Record.inodes (g := g) false)).foldl Record.nextInodes old =
        old ++ (groups.map (·.1)).flatten := by
    intro groups
    induction groups with
    | nil => simp
    | cons group groups ih =>
      intro old
      rw [map_cons, foldl_cons, ih, map_cons, flatten_cons, ← append_assoc]
      rfl
  have flat := chunks_flatten g.iph_pos (le_refl txn.inodes.length)
  rw [records, foldl_append, foldl_append, blockRecords, revocationRecords, kept fun _ _ => rfl,
    inodeRecords]
  cases groups : chunks g.iph txn.inodes.length txn.inodes with
  | nil =>
    rw [groups] at flat
    exact flat
  | cons first rest =>
    rw [groups] at flat
    rw [foldl_cons, others]
    exact flat

end Transaction

/-! ## The log as a transition system -/

section Log

variable {g : Geometry}

/-- The records of a transaction as `wapbl_flush` writes them. -/
def writeTransaction (g : Geometry) (dev : Device) (wc : Memory) (txn : Transaction g)
    (off : Nat) : Except Fault (Device × Memory × Nat) := do
  let (dev, wc, off) ← wapblWriteBlocks g dev wc txn off
  let (dev, wc, off) ← wapblWriteRevocations g dev wc txn off
  wapblWriteInodes g dev wc txn off

/-- The log and its device between two commits. -/
structure LogState (g : Geometry) where
  dev : Device
  wlWcScratch : Memory
  wlHead : Nat
  wlTail : Nat
  /-- The transactions between the tail and the head, oldest first, which the
  code does not keep. -/
  live : List (Transaction g)

/-- The empty log on a device. -/
def LogState.fresh (g : Geometry) (dev : Device) (wc : Memory) : LogState g where
  dev := dev
  wlWcScratch := wc
  wlHead := 0
  wlTail := 0
  live := []

/-- The records between the tail and the head. -/
def LogState.records (log : LogState g) : List (Record g) :=
  log.live.flatMap Transaction.records

/-- What the live transactions do to the contents of blocks, in log order. -/
def LogState.updates (log : LogState g) : List (Update UInt64 (Fin g.blocklen → UInt8)) :=
  log.live.flatMap Transaction.updates

/-- The inodes of the last live transaction. -/
def LogState.inodes (log : LogState g) : List Inode :=
  match log.live.getLast? with
  | some txn => txn.inodes
  | none => []

/-- What happens to the log. -/
inductive LogStep (g : Geometry)
  /-- `wapbl_start_flush_inodes`: an unused log is started at an offset with a
  first transaction. -/
  | start (inodeshead : Nat) (txn : Transaction g)
  /-- `wapbl_flush` writes a transaction and advances the head. -/
  | flush (txn : Transaction g)
  /-- The tail is advanced over the oldest transactions. -/
  | release (count : Nat)
  /-- The tail is advanced up to the inode list of the last transaction, the
  reserved bytes. -/
  | reserve

/-- Advance the tail by `delta` bytes to leave some transactions. -/
def advanceTo (log : LogState g) (delta : Nat) (live : List (Transaction g)) :
    Option (LogState g) := do
  let (head, tail) ← wapblAdvanceTail g.circSize g.circOff delta log.wlHead log.wlTail
  pure { log with wlHead := head, wlTail := tail, live := live }

/-- One step of the log.  It is undefined where an assertion of the code fails. -/
def logNext : LogStep g → LogState g → Option (LogState g)
  | .start inodeshead txn, log => do
      kassert (log.live = [] ∧ log.wlTail = 0)
      kassert (g.InArea inodeshead ∧ g.blocklen ∣ inodeshead)
      -- the list that stands before the offset was read back from this log
      kassert (wapblTransactionLen txn.counters ≤ g.circSize)
      let (dev, wc, off) ←
        (writeTransaction g log.dev log.wlWcScratch txn inodeshead).toOption
      kassert (off ≠ inodeshead)
      kassert (off ≠ 0)
      pure { dev := dev, wlWcScratch := wc, wlHead := off, wlTail := inodeshead, live := [txn] }
  | .flush txn, log => do
      let (dev, wc, off) ← (writeTransaction g log.dev log.wlWcScratch txn log.wlHead).toOption
      let (head, tail) ←
        wapblAdvanceHead g.circSize g.circOff (wapblTransactionLen txn.counters) log.wlHead
          log.wlTail
      kassert (head = off)
      pure
        { dev := dev, wlWcScratch := wc, wlHead := head, wlTail := tail, live := log.live ++ [txn] }
  | .release count, log => do
      kassert (0 < count ∧ count ≤ log.live.length)
      advanceTo log (recordsLen ((log.live.take count).flatMap Transaction.records))
        (log.live.drop count)
  | .reserve, log => do
      let last ← log.live.getLast?
      let delta := recordsLen log.records - wapblTransactionInodesLen last.counters
      kassert (0 < delta)
      advanceTo log delta [last.inodesOnly]

/-! ## Writing a transaction -/

theorem writeRecords_append_eq (dev : Device) (wc : Memory) (first second : List (Record g))
    (off : Nat) :
    writeRecords g dev wc (first ++ second) off =
      writeRecords g dev wc first off >>= fun (dev, wc, off) =>
        writeRecords g dev wc second off := by
  induction first generalizing dev wc off with
  | nil => rfl
  | cons record records ih =>
    simp only [cons_append, writeRecords]
    cases writeRecord g dev wc record off with
    | error fault => rfl
    | ok written => exact ih _ _ _

theorem writeTransaction_eq (dev : Device) (wc : Memory) (txn : Transaction g) (off : Nat) :
    writeTransaction g dev wc txn off = writeRecords g dev wc txn.records off := by
  rw [Transaction.records, writeRecords_append_eq, writeRecords_append_eq, bind_assoc]
  rfl

theorem wapblCircWrite_start (dev : Device) (data : Memory) (len : Nat) :
    wapblCircWrite g dev data len 0 = wapblCircWrite g dev data len g.circOff := by
  simp only [wapblCircWrite, circWrite, if_pos g.circOff_pos, lt_irrefl, if_false]

/-- A transaction is never without records, so writing from offset zero is
writing from the start of the area. -/
theorem writeTransaction_start (dev : Device) (wc : Memory) (txn : Transaction g) :
    writeTransaction g dev wc txn 0 = writeTransaction g dev wc txn g.circOff := by
  rw [writeTransaction_eq, writeTransaction_eq]
  have positive := txn.recordsLen_records_pos
  cases records : txn.records with
  | nil =>
    rw [records] at positive
    exact absurd positive (lt_irrefl 0)
  | cons record rest =>
    have first : writeRecord g dev wc record 0 = writeRecord g dev wc record g.circOff := by
      rw [writeRecord, writeRecord, wapblCircWrite_start]
    rw [writeRecords, writeRecords, first]

/-! ## The live transactions stand on the log -/

/-- What holds of the log in every state. -/
structure LogState.Inv (log : LogState g) : Prop where
  healthy : log.dev.Healthy
  live : LiveLog g log.wlHead log.wlTail (recordsLen log.records)
  aligned : g.blocklen ∣ log.wlTail
  laid : Laid (contents g log.dev log.wlTail) 0 log.records

variable {log log' : LogState g} {dev : Device} {origin : Nat} {records : List (Record g)}
  {txn : Transaction g}

theorem LogState.fresh_inv (healthy : dev.Healthy) (wc : Memory) : (LogState.fresh g dev wc).Inv :=
  ⟨healthy, .empty, dvd_zero _, trivial⟩

/-- A transaction is written behind the live ones, seen from the tail. -/
theorem writeTransaction_laid (healthy : dev.Healthy) (area : g.InArea origin)
    (aligned : g.blocklen ∣ origin) (laid : Laid (contents g dev origin) 0 records) (wc : Memory)
    (txn : Transaction g) (fits : recordsLen records + recordsLen txn.records ≤ g.circSize) :
    ∃ dev' wc', writeTransaction g dev wc txn (g.circAdd origin (recordsLen records)) =
        .ok (dev', wc', g.circAdd origin (recordsLen (records ++ txn.records))) ∧
      dev'.Healthy ∧ Laid (contents g dev' origin) 0 (records ++ txn.records) := by
  rcases writeRecords_append healthy area aligned (blocklen_dvd_recordsLen records) wc fits with
    ⟨dev', wc', written, appended, laid'⟩
  refine ⟨dev', wc', ?_, appended.healthy, ?_⟩
  · rw [writeTransaction_eq, written, recordsLen_append]
  · rw [laid_append, zero_add]
    refine ⟨laid.congr ?_, laid'⟩
    intro i below
    exact (appended.below i (by omega)).symm

section

variable (inv : log.Inv)
include inv

theorem LogState.Inv.start {inodeshead : Nat}
    (stepped : logNext (.start inodeshead txn) log = some log') : log'.Inv := by
  simp only [logNext, Option.bind_eq_bind, Option.bind_eq_some_iff, kassert_eq_some_iff] at stepped
  rcases stepped with ⟨_, _, _, ⟨area, aligned⟩, _, bound, ⟨dev, wc, off⟩, written, _, apart, _, _,
    result⟩
  rw [← txn.recordsLen_records] at bound
  rcases writeTransaction_laid inv.healthy area aligned (show Laid _ 0 [] from trivial)
    log.wlWcScratch txn (by simpa using bound) with ⟨dev', wc', written', healthy, laid⟩
  rw [recordsLen_nil, Geometry.circAdd_zero area] at written'
  rw [written'] at written
  simp only [Except.toOption, Option.some.injEq, Prod.mk.injEq] at written
  rcases written with ⟨rfl, rfl, rfl⟩
  cases result
  have records : LogState.records (g := g)
      ⟨dev', wc', g.circAdd inodeshead (recordsLen ([] ++ txn.records)), inodeshead, [txn]⟩ =
        [] ++ txn.records := by
    simp [LogState.records]
  refine ⟨healthy, ?_, aligned, ?_⟩
  · rw [records]
    exact .run area txn.recordsLen_records_pos (by simpa using bound)
  · rw [records]
    exact laid

theorem LogState.Inv.flush (stepped : logNext (.flush txn) log = some log') : log'.Inv := by
  simp only [logNext, Option.bind_eq_bind, Option.bind_eq_some_iff, kassert_eq_some_iff] at stepped
  rcases stepped with ⟨⟨dev, wc, off⟩, written, ⟨head, tail⟩, advanced, _, same, result⟩
  cases result
  have records : ∀ dev wc head tail, LogState.records (g := g)
      ⟨dev, wc, head, tail, log.live ++ [txn]⟩ = log.records ++ txn.records := by
    simp [LogState.records]
  rw [← txn.recordsLen_records] at advanced
  -- the assertion of `wapbl_advance_head` bounds the length of the transaction
  have bound : recordsLen txn.records ≤ g.circSize - recordsLen log.records := by
    simp only [wapblAdvanceHead, inv.live.spaceFree, Option.bind_eq_bind, Option.bind_some,
      Option.bind_eq_some_iff, kassert_eq_some_iff] at advanced
    exact advanced.choose_spec.1
  have short : recordsLen log.records = 0 → recordsLen txn.records < g.circSize := by
    intro zero
    rcases lt_or_ge (recordsLen txn.records) g.circSize with less | whole
    · exact less
    · have equal : recordsLen txn.records = g.circSize := by omega
      rw [(inv.live.eq_zero zero).1, (inv.live.eq_zero zero).2, equal, wapblAdvanceHead_whole]
        at advanced
      cases advanced
  rcases inv.live.advanceHead bound short with ⟨head', tail', advanced', live, tailEq, tailStart⟩
  rw [advanced] at advanced'
  cases advanced'
  have positive := txn.recordsLen_records_pos
  -- the head of an empty log is the start of the area
  obtain ⟨dev', wc', off', written', healthy, aligned, laid⟩ : ∃ dev' wc' off',
      writeTransaction g log.dev log.wlWcScratch txn log.wlHead = .ok (dev', wc', off') ∧
        dev'.Healthy ∧
        g.blocklen ∣ tail ∧ Laid (contents g dev' tail) 0 (log.records ++ txn.records) := by
    by_cases zero : recordsLen log.records = 0
    · have start : tail = g.circOff := tailStart (by omega) zero
      rcases writeTransaction_laid inv.healthy g.inArea_circOff (blocklen_dvd_circOff g)
        (show Laid _ 0 [] from trivial) log.wlWcScratch txn (by rw [recordsLen_nil]; omega) with
        ⟨dev', wc', written', healthy, laid⟩
      rw [recordsLen_nil, Geometry.circAdd_zero g.inArea_circOff,
        ← writeTransaction_start] at written'
      rw [(inv.live.eq_zero zero).1, eq_nil_of_recordsLen zero, start]
      exact ⟨dev', wc', _, written', healthy, blocklen_dvd_circOff g, laid⟩
    · rcases writeTransaction_laid inv.healthy (inv.live.tail_inArea (by omega)) inv.aligned
        inv.laid log.wlWcScratch txn (by omega) with ⟨dev', wc', written', healthy, laid⟩
      rw [inv.live.head_eq (by omega)] at written'
      rw [show tail = log.wlTail from tailEq (by omega)]
      exact ⟨dev', wc', _, written', healthy, inv.aligned, laid⟩
  rw [written'] at written
  rcases written with ⟨rfl, rfl, _⟩
  refine ⟨healthy, ?_, aligned, ?_⟩
  · rw [records, recordsLen_append]
    exact live
  · rw [records]
    exact laid

/-- Advancing the tail over the first records leaves the others. -/
theorem LogState.Inv.advanceTo {front : List (Record g)} {left : List (Transaction g)}
    (split : log.records = front ++ left.flatMap Transaction.records)
    (positive : 0 < recordsLen front)
    (stepped : advanceTo log (recordsLen front) left = some log') : log'.Inv := by
  simp only [Wapbl.advanceTo, Option.bind_eq_bind, Option.bind_eq_some_iff] at stepped
  rcases stepped with ⟨⟨head, tail⟩, advanced, result⟩
  cases result
  have fits := inv.live.used_le
  have live := inv.live
  have laid := inv.laid
  rw [split, recordsLen_append] at live fits
  rw [split, laid_append, zero_add] at laid
  rcases live.advanceTail (Nat.le_add_right _ _) (.inl positive) with
    ⟨head', tail', advanced', live', moved⟩
  rw [advanced] at advanced'
  cases advanced'
  rw [Nat.add_sub_cancel_left] at live'
  by_cases zero : recordsLen (left.flatMap Transaction.records) = 0
  · have none := eq_nil_of_recordsLen zero
    refine ⟨inv.healthy, live', ?_, ?_⟩
    · rw [(live'.eq_zero zero).2]
      exact dvd_zero _
    · simp only [LogState.records, none]
      trivial
  · have tailEq : tail = g.circAdd log.wlTail (recordsLen front) := (moved (by omega)).2
    subst tailEq
    refine ⟨inv.healthy, live', ?_, ?_⟩
    · exact blocklen_dvd_circAdd inv.aligned (blocklen_dvd_recordsLen front)
    · -- the same bytes, counted from the new tail
      have area : g.InArea log.wlTail := inv.live.tail_inArea (by
        rw [split, recordsLen_append]
        omega)
      have shifted : Laid (fun i => contents g log.dev log.wlTail (recordsLen front + i)) 0
          (left.flatMap Transaction.records) :=
        Laid.drop laid.2
      apply shifted.congr
      intro i below
      exact (contents_circAdd area (by omega)).symm

theorem LogState.Inv.release {count : Nat} (stepped : logNext (.release count) log = some log') :
    log'.Inv := by
  simp only [logNext, Option.bind_eq_bind, Option.bind_eq_some_iff, kassert_eq_some_iff] at stepped
  rcases stepped with ⟨_, ⟨positive, bound⟩, stepped⟩
  refine inv.advanceTo ?_ ?_ stepped
  · rw [← flatMap_append, take_append_drop]
    rfl
  · cases live : log.live with
    | nil => simp [live] at bound; omega
    | cons txn rest =>
      rcases Nat.exists_eq_succ_of_ne_zero (ne_of_gt positive) with ⟨others, rfl⟩
      rw [take_succ_cons, flatMap_cons, recordsLen_append]
      exact Nat.add_pos_left txn.recordsLen_records_pos _

theorem LogState.Inv.reserve (stepped : logNext .reserve log = some log') : log'.Inv := by
  simp only [logNext, Option.bind_eq_bind, Option.bind_eq_some_iff, kassert_eq_some_iff] at stepped
  rcases stepped with ⟨last, isLast, _, positive, stepped⟩
  rcases getLast?_eq_some_iff.mp isLast with ⟨older, live⟩
  have split : log.records = (older.flatMap Transaction.records ++ last.blockRecords ++
      last.revocationRecords) ++ [last.inodesOnly].flatMap Transaction.records := by
    rw [flatMap_singleton, Transaction.records_inodesOnly, LogState.records, live,
      flatMap_append, flatMap_singleton, Transaction.records]
    simp only [append_assoc]
  have inodes : wapblTransactionInodesLen last.counters =
      recordsLen ([last.inodesOnly].flatMap Transaction.records) := by
    rw [flatMap_singleton, Transaction.records_inodesOnly, last.recordsLen_inodeRecords]
    rfl
  rw [inodes, split, recordsLen_append, Nat.add_sub_cancel] at stepped positive
  exact inv.advanceTo split positive stepped

/-- A step keeps the live transactions on the log. -/
theorem LogState.Inv.step {label : LogStep g} (stepped : logNext label log = some log') :
    log'.Inv := by
  cases label with
  | start inodeshead txn => exact inv.start stepped
  | flush txn => exact inv.flush stepped
  | release count => exact inv.release stepped
  | reserve => exact inv.reserve stepped

end

/-- In every state of a run the live transactions stand on the log. -/
theorem LogState.Inv.run (healthy : dev.Healthy) {wc : Memory}
    (run : Run logNext anyStep (.fresh g dev wc) log) : log.Inv :=
  Run.invariant (P := LogState.Inv) (fun _ _ _ inv _ stepped => inv.step stepped) run
    (LogState.fresh_inv healthy wc)

/-! ## Replay -/

/-- The last write of a block, with no later revocation that covers the block. -/
def Survives (updates : List (Update UInt64 (Fin g.blocklen → UInt8))) (b : UInt64)
    (data : Fin g.blocklen → UInt8) : Prop :=
  ∃ before after, updates = before ++ .write b data :: after ∧
    (∀ other, .write b other ∉ after) ∧ ∀ blocks, .erase blocks ∈ after → b ∉ blocks

theorem survives_iff {updates : List (Update UInt64 (Fin g.blocklen → UInt8))} {b : UInt64}
    {data : Fin g.blocklen → UInt8} :
    Survives updates b data ↔ Update.replay (fun _ => none) updates b = some data := by
  rw [Update.replay_eq_some_iff]
  constructor
  · rintro ⟨before, after, split, noWrite, noErase⟩
    refine ⟨before, after, split, ?_⟩
    intro update member touched
    cases update with
    | write key other =>
      have same : b = key := touched
      subst same
      exact noWrite other member
    | erase blocks => exact noErase blocks member touched
  · rintro ⟨before, after, split, untouched⟩
    refine ⟨before, after, split, ?_, ?_⟩
    · intro other member
      exact untouched _ member rfl
    · intro blocks member covered
      exact untouched _ member covered

theorem LogState.updates_eq (log : LogState g) :
    log.records.flatMap Record.updates = log.updates := by
  rw [LogState.records, LogState.updates, flatMap_assoc]
  exact congrArg (List.flatMap · log.live) (funext Transaction.updates_records)

theorem LogState.nextInodes_eq (log : LogState g) :
    log.records.foldl Record.nextInodes [] = log.inodes := by
  rw [LogState.records, LogState.inodes]
  rcases eq_nil_or_concat log.live with none | ⟨older, last, live⟩
  · rw [none]
    rfl
  · rw [live, concat_eq_append, flatMap_append, flatMap_singleton,
      foldl_append, last.nextInodes_records, getLast?_concat]

/-- Every block that is entered for records lies in the area, on a block
boundary. -/
theorem recordPlaces_inArea (area : g.InArea origin) (aligned : g.blocklen ∣ origin) {disp : Nat}
    (alignedDisp : g.blocklen ∣ disp) (fits : disp + recordsLen records ≤ g.circSize) :
    ∀ b off, .write b off ∈ recordPlaces origin disp records → g.InArea off ∧ g.blocklen ∣ off := by
  have data : ∀ (bufs : List (DataBuf g)) (disp : Nat), g.blocklen ∣ disp →
      disp + dataLen bufs ≤ g.circSize → ∀ b off, .write b off ∈ dataPlaces origin disp bufs →
        g.InArea off ∧ g.blocklen ∣ off := by
    intro bufs
    induction bufs with
    | nil =>
      intro disp _ _ b off member
      cases member
    | cons bp bps ih =>
      intro disp alignedDisp fits b off member
      have total : dataLen (bp :: bps) = bp.bBcount + dataLen bps := by
        simp [dataLen]
      rw [total] at fits
      rcases mem_append.mp member with here | later
      · rcases mem_map.mp here with ⟨j, inRange, isWrite⟩
        have below : j < bp.bBcount / g.blocklen := by
          simpa using inRange
        have inside : j * g.blocklen ≤ bp.bBcount :=
          le_trans (Nat.mul_le_mul_right _ (le_of_lt below)) (Nat.div_mul_le_self _ _)
        cases isWrite
        exact ⟨area.circAdd (by omega),
          blocklen_dvd_circAdd aligned (dvd_add alignedDisp (dvd_mul_left _ _))⟩
      · exact ih _ (dvd_add alignedDisp bp.bcount_dvd) (by omega) b off later
  induction records generalizing disp with
  | nil =>
    intro b off member
    cases member
  | cons record records ih =>
    intro b off member
    rw [recordsLen_cons] at fits
    rcases mem_append.mp member with here | later
    · cases record with
      | blocks bufs =>
        rw [Record.len_blocks] at fits
        exact data bufs.1 _ (dvd_add alignedDisp (dvd_refl _)) (by omega) b off here
      | revocations extents =>
        rcases mem_map.mp here with ⟨extent, _, isErase⟩
        cases isErase
      | inodes clear inos => cases here
    · exact ih (dvd_add alignedDisp record.blocklen_dvd_len) (by omega) b off later

theorem wapblReplayProcess_self (dev : Device) (fuel off : Nat) (wr : WapblReplay) :
    wapblReplayProcess g dev fuel wr off off = .done (wapblBlkhashClear wr) := by
  rw [wapblReplayProcess]
  cases fuel <;> simp [replayLoop]

/-- What a replay of a log that is not full leaves: the places of the live
records in the hash table, and the inodes of the last transaction. -/
theorem LogState.Inv.replayed (inv : log.Inv) (notWhole : recordsLen log.records ≠ g.circSize)
    (mask : Nat) {fuel : Nat} (enough : log.records.length ≤ fuel) :
    ∃ wr, wapblReplayProcess g log.dev fuel (.fresh g mask) log.wlHead log.wlTail = .done wr ∧
      wapblBlkhashGet wr = Update.replay (fun _ => none) (recordPlaces log.wlTail 0 log.records) ∧
      wr.wrInodes = log.inodes ∧ wr.visited = recordsLen log.records := by
  have fits := inv.live.used_le
  by_cases zero : recordsLen log.records = 0
  · have none := eq_nil_of_recordsLen zero
    have ends := inv.live.eq_zero zero
    refine ⟨wapblBlkhashClear (.fresh g mask), ?_, ?_, ?_, ?_⟩
    · rw [ends.1, ends.2, wapblReplayProcess_self]
    · rw [none]
      rfl
    · rw [← log.nextInodes_eq, none]
      rfl
    · rw [zero]
      rfl
  · have area := inv.live.tail_inArea (by omega)
    rcases replayLoop_replayed inv.healthy area inv.aligned fuel
      (wapblBlkhashClear (.fresh g mask)) (dvd_zero _) rfl inv.laid (by omega) enough with
      ⟨wr, done, replayed⟩
    rw [zero_add, inv.live.head_eq (by omega), Geometry.circAdd_zero area] at done
    refine ⟨wr, done, replayed.get, ?_, ?_⟩
    · rw [replayed.inodes]
      exact log.nextInodes_eq
    · rw [replayed.visited]
      exact zero_add _

/-- Writing and replaying are inverse: for every run on a healthy device that
leaves a log that is not full, the replay succeeds.  It finds a block exactly if
the last write of the block among the live transactions is not revoked later,
at an offset where the data of that write is read back, and the inodes of the
last live transaction. -/
theorem wapblReplayProcess_roundTrip {dev : Device} (healthy : dev.Healthy) {wc : Memory}
    (run : Run logNext anyStep (.fresh g dev wc) log)
    (notWhole : recordsLen log.records ≠ g.circSize) (mask : Nat) {fuel : Nat}
    (enough : log.records.length ≤ fuel) :
    ∃ wr, wapblReplayProcess g log.dev fuel (.fresh g mask) log.wlHead log.wlTail = .done wr ∧
      (∀ b, (wapblBlkhashGet wr b).isSome ↔ ∃ data, Survives log.updates b data) ∧
      (∀ b off, wapblBlkhashGet wr b = some off →
        ∃ block next, wapblCircRead g log.dev g.blocklen off = .ok (block, next) ∧
          Survives log.updates b fun i => block i) ∧
      wr.wrInodes = log.inodes := by
  have inv := LogState.Inv.run healthy run
  have fits := inv.live.used_le
  rcases inv.replayed notWhole mask enough with ⟨wr, done, get, inodes, _⟩
  have data : ∀ b, (wapblBlkhashGet wr b).map (blockAt g log.dev) =
      Update.replay (fun _ => none) log.updates b := by
    intro b
    rw [get, ← log.updates_eq]
    by_cases zero : recordsLen log.records = 0
    · rw [eq_nil_of_recordsLen zero]
      rfl
    · have area := inv.live.tail_inArea (by omega)
      rw [← recordPlaces_map area (by omega) inv.laid]
      exact (Update.replay_map _ _ b).symm
  refine ⟨wr, done, ?_, ?_, inodes⟩
  · intro b
    simp only [survives_iff, ← data b, Option.map_eq_some_iff, Option.isSome_iff_exists]
    constructor
    · rintro ⟨off, found⟩
      exact ⟨_, off, found, rfl⟩
    · rintro ⟨_, off, found, _⟩
      exact ⟨off, found⟩
  · intro b off found
    have placed : .write b off ∈ recordPlaces log.wlTail 0 log.records := by
      rw [get, Update.replay_eq_some_iff] at found
      rcases found with ⟨before, after, split, _⟩
      rw [split]
      simp
    have some : 0 < recordsLen log.records := by
      rcases Nat.eq_zero_or_pos (recordsLen log.records) with zero | positive
      · rw [eq_nil_of_recordsLen zero] at placed
        cases placed
      · exact positive
    have place := recordPlaces_inArea (inv.live.tail_inArea some) inv.aligned (dvd_zero _)
      (by omega) b off placed
    have blockFits : g.blocklen ≤ g.circSize := Nat.le_of_dvd g.circSize_pos g.blocklen_dvd
    rcases wapblCircRead_eq inv.healthy place.1 place.2 blockFits (dvd_refl _) with
      ⟨block, read, bytes⟩
    refine ⟨block, _, read, ?_⟩
    rw [survives_iff, ← data b, found]
    simp only [Option.map_some, Option.some.injEq]
    funext i
    exact (bytes i i.2).symm

end Log

/-! ## The smallest log -/

/-- A device without faults. -/
def quietDevice : Device where
  bytes _ := 0
  fault _ _ := none

/-- A transaction that fills half of the smallest log: a buffer of 61 blocks, its
header and an inode list. -/
def halfTransaction (blkno : UInt64) : Transaction minimalLog where
  wlBufs :=
    [{ bBlkno := blkno, bBcount := 61 * 512, bData := fun _ => 7
       bcount_pos := by decide, bcount_dvd := by decide, bcount_le := by decide }]
  wlDeallocs := []
  wlInohash := [[⟨3, 0⟩]]

/-- Three half transactions, the third one over the first one. -/
theorem wrappedRun_roundTrip :
    ∃ log, Run logNext anyStep (.fresh minimalLog quietDevice fun _ => 0) log ∧
      log.live.length = 1 ∧
      ∃ wr, wapblReplayProcess minimalLog log.dev 2 (.fresh minimalLog 127) log.wlHead log.wlTail =
          .done wr ∧
        (∀ b, (wapblBlkhashGet wr b).isSome ↔ ∃ data, Survives log.updates b data) ∧
        (∀ b off, wapblBlkhashGet wr b = some off →
          ∃ block next, wapblCircRead minimalLog log.dev minimalLog.blocklen off =
              .ok (block, next) ∧
            Survives log.updates b fun i => block i) ∧
        wr.wrInodes = log.inodes := by
  refine exec_implies (Q := fun log => log.live.length = 1 ∧
      recordsLen log.records ≠ minimalLog.circSize ∧ log.records.length ≤ 2)
    [.flush (halfTransaction 8), .flush (halfTransaction 16), .release 1,
      .flush (halfTransaction 8), .release 1] (by decide +kernel) ?_
  intro log run facts
  exact ⟨facts.1,
    wapblReplayProcess_roundTrip (fun _ _ => rfl) run facts.2.1 127 facts.2.2⟩

/-! ## The head of a flush -/

/-- A flush writes the bytes that the counters promise.  It ends at the offset to which it moves
the head, unless the log is empty and the transaction as long as the area. -/
theorem writeTransaction_reaches_head {g : Geometry} {dev : Device} (healthy : dev.Healthy)
    (wc : Memory) (txn : Transaction g) {head tail used free : Nat}
    (live : LiveLog g head tail used) (aligned : g.blocklen ∣ head)
    (space : wapblSpaceFree g.circSize head tail = some free)
    (fits : wapblTransactionLen txn.counters ≤ free) :
    recordsLen txn.records = wapblTransactionLen txn.counters ∧
      ((∃ dev' wc' off tail', writeTransaction g dev wc txn head = .ok (dev', wc', off) ∧
        off = g.circAdd (startOff g head) (wapblTransactionLen txn.counters) ∧
        wapblAdvanceHead g.circSize g.circOff (wapblTransactionLen txn.counters) head tail =
          some (off, tail')) ↔
      ¬(head = 0 ∧ wapblTransactionLen txn.counters = g.circSize)) := by
  have length := txn.recordsLen_records
  have positive := txn.recordsLen_records_pos
  rw [live.spaceFree, Option.some.injEq] at space
  refine ⟨length, ?_, fun notWhole => ?_⟩
  · rintro ⟨dev', wc', off, tail', -, -, advanced⟩ ⟨headZero, whole⟩
    have empty := live.eq_zero (by omega)
    rw [headZero, empty.2, whole, wapblAdvanceHead_whole] at advanced
    cases advanced
  obtain ⟨head', tail', advanced, live', sameTail, startTail⟩ :=
    live.advanceHead (show wapblTransactionLen txn.counters ≤ g.circSize - used by omega)
      fun zero => by have := (live.eq_zero zero).1; omega
  have headEq := live'.head_eq (by omega)
  have start : g.InArea (startOff g head) ∧ g.blocklen ∣ startOff g head ∧
      writeTransaction g dev wc txn head = writeTransaction g dev wc txn (startOff g head) ∧
      g.circAdd (startOff g head) (wapblTransactionLen txn.counters) = head' := by
    cases live with
    | empty =>
      rw [startTail (by omega) rfl, zero_add] at headEq
      exact ⟨g.inArea_circOff, blocklen_dvd_circOff g, writeTransaction_start _ _ _, headEq⟩
    | run area some within =>
      have headArea := area.circAdd within
      rw [startOff, if_neg (ne_of_gt headArea.pos), ← headEq, sameTail some]
      exact ⟨headArea, aligned, rfl, Geometry.circAdd_circAdd area (by omega)⟩
  obtain ⟨area, alignedStart, sameStart, headEq⟩ := start
  obtain ⟨dev', wc', written, -, -⟩ := writeRecords_append healthy area alignedStart
    (dvd_zero _) wc (show 0 + recordsLen txn.records ≤ g.circSize by omega)
  rw [Geometry.circAdd_zero area, zero_add, length, headEq] at written
  refine ⟨dev', wc', head', tail', ?_, headEq.symm, advanced⟩
  rw [sameStart, writeTransaction_eq, written]

theorem halfTransaction_reaches_head : wapblTransactionLen (halfTransaction 8).counters = 63 * 512 ∧
      ∃ dev' wc' off tail', writeTransaction minimalLog quietDevice (fun _ => 0)
          (halfTransaction 8) 0 = .ok (dev', wc', off) ∧
        wapblAdvanceHead minimalLog.circSize minimalLog.circOff (63 * 512) 0 0 =
          some (off, tail') := by
  obtain ⟨dev', wc', off, tail', written, -, advanced⟩ :=
    (writeTransaction_reaches_head (show quietDevice.Healthy from fun _ _ => rfl) (fun _ => 0)
      (halfTransaction 8) .empty (dvd_zero _) rfl (by decide)).2.mpr (by decide)
  exact ⟨by decide, dev', wc', off, tail', written, advanced⟩

/-- A transaction as long as the smallest log. -/
def wholeTransaction : Transaction minimalLog where
  wlBufs :=
    [{ bBlkno := 8, bBcount := 124 * 512, bData := fun _ => 7
       bcount_pos := by decide, bcount_dvd := by decide, bcount_le := by decide }]
  wlDeallocs := []
  wlInohash := [[⟨3, 0⟩]]

/-- The empty log has space for it, but the head cannot be moved: an assertion
of `wapbl_advance` fails. -/
theorem wholeTransaction_has_no_head :
    wapblSpaceFree minimalLog.circSize 0 0 = some (wapblTransactionLen wholeTransaction.counters) ∧
      wapblAdvanceHead minimalLog.circSize minimalLog.circOff
        (wapblTransactionLen wholeTransaction.counters) 0 0 = none := by
  decide

/-! ## The bytes that a replay visits -/

/-- A replay visits the bytes in use, unless the log is full: the loop condition
takes the full log for the empty one. -/
theorem wapblReplayProcess_visited {g : Geometry} {dev : Device} (healthy : dev.Healthy)
    {wc : Memory} {log : LogState g} (run : Run logNext anyStep (.fresh g dev wc) log) (mask : Nat)
    {fuel : Nat} (enough : log.records.length ≤ fuel) :
    ∃ wr, wapblReplayProcess g log.dev fuel (.fresh g mask) log.wlHead log.wlTail = .done wr ∧
      (wapblSpaceUsed g.circSize log.wlHead log.wlTail = some wr.visited ↔
        ¬(log.wlHead = log.wlTail ∧ log.wlHead ≠ 0)) := by
  have inv := LogState.Inv.run healthy run
  have sizePos := g.circSize_pos
  rw [inv.live.spaceUsed, ← inv.live.full_iff]
  by_cases whole : recordsLen log.records = g.circSize
  · refine ⟨wapblBlkhashClear (.fresh g mask), ?_, ?_⟩
    · rw [(inv.live.full_iff.mp whole).1, wapblReplayProcess_self]
    · have visited : (wapblBlkhashClear (.fresh g mask)).visited = 0 := rfl
      simp only [visited, whole, Option.some.injEq, not_true_eq_false, iff_false]
      omega
  · rcases inv.replayed whole mask enough with ⟨wr, done, _, _, visited⟩
    exact ⟨wr, done, by simp [visited, whole]⟩

theorem wrappedRun_visited :
    ∃ log, Run logNext anyStep (.fresh minimalLog quietDevice fun _ => 0) log ∧
      log.wlHead ≠ log.wlTail ∧
      ∃ wr, wapblReplayProcess minimalLog log.dev 2 (.fresh minimalLog 127) log.wlHead log.wlTail =
          .done wr ∧
        (wapblSpaceUsed minimalLog.circSize log.wlHead log.wlTail = some wr.visited ↔
          ¬(log.wlHead = log.wlTail ∧ log.wlHead ≠ 0)) := by
  refine exec_implies (Q := fun log => log.wlHead ≠ log.wlTail ∧ log.records.length ≤ 2)
    [.flush (halfTransaction 8), .flush (halfTransaction 16), .release 1] (by decide +kernel) ?_
  intro log run facts
  exact ⟨facts.1, wapblReplayProcess_visited (fun _ _ => rfl) run 127 facts.2⟩

/-- Two half transactions fill the smallest log.  Its replay visits nothing. -/
theorem fullRun_visits_nothing :
    ∃ log, Run logNext anyStep (.fresh minimalLog quietDevice fun _ => 0) log ∧
      log.wlHead = log.wlTail ∧ log.wlHead ≠ 0 ∧
      wapblSpaceUsed minimalLog.circSize log.wlHead log.wlTail = some minimalLog.circSize ∧
      ∀ fuel, ∃ wr, wapblReplayProcess minimalLog log.dev fuel (.fresh minimalLog 127) log.wlHead
          log.wlTail = .done wr ∧
        wr.visited = 0 := by
  refine exec_implies (Q := fun log => log.wlHead = log.wlTail ∧ log.wlHead ≠ 0 ∧
      wapblSpaceUsed minimalLog.circSize log.wlHead log.wlTail = some minimalLog.circSize)
    [.flush (halfTransaction 8), .flush (halfTransaction 16)] (by decide +kernel) ?_
  intro log run facts
  refine ⟨facts.1, facts.2.1, facts.2.2, fun fuel => ?_⟩
  rw [facts.1]
  exact ⟨_, wapblReplayProcess_self .., rfl⟩

end Bitrig.Wapbl
