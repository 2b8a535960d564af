import Bitrig.Wapbl.Space

/-!
# The journal as a transition system

The in-core log (`struct wapbl`), the queue of committed transactions and the
operations on them.  `wapbl_flush` and `wapbl_truncate` hold the file system
lock for writing but drop the mutex, so write completions fall between their
critical sections: each such section is one step, and the phase of the state
says which section the flushing process runs next, with its local variables.

Beside the in-core log the state holds the committed header and, for every
buffer of a committed transaction whose in-place write is outstanding, where
the record of that buffer lies in the log.
-/

namespace Bitrig.Wapbl

open Bitrig.Transition Option

/-- A buffer of the current transaction, identified by its address.  Its byte
count is a positive number of log blocks. -/
structure Buf (g : Geometry) where
  addr : Nat
  bBcount : Nat
  bBufsize : Nat
  bcount_pos : 0 < bBcount
  bcount_dvd : g.blocklen ∣ bBcount
  bufsize_pos : 0 < bBufsize
  deriving DecidableEq

/-- A committed transaction (`struct wapbl_entry`). -/
structure WapblEntry where
  weAddr : Nat
  /-- Count of unsynced buffers. -/
  weBufcount : Nat
  /-- Number of on-disk bytes of the transaction. -/
  weReclaimableBytes : Nat
  weError : Nat
  deriving DecidableEq

/-- The in-core log (`struct wapbl`).  A buffer is marked `B_LOCKED` exactly
while it is on `wlBufs`. -/
structure WapblLog (g : Geometry) where
  wlHead : Nat
  wlTail : Nat
  /-- Buffers of the current transaction, last added first. -/
  wlBufs : List (Buf g)
  wlBufbytes : Nat
  wlBufcount : Nat
  wlBcount : Nat
  wlReclaimableBytes : Nat
  wlErrorCount : Nat
  wlReservedBytes : Nat
  wlDealloccnt : Nat
  wlInohashcnt : Nat
  /-- Committed transactions, oldest first. -/
  wlEntries : List WapblEntry
  deriving DecidableEq

/-! ## The current transaction -/

section Transaction

variable {g : Geometry}

/-- `wapbl_add_buf`. -/
def wapblAddBuf (wl : WapblLog g) (bp : Buf g) : WapblLog g :=
  match wl.wlBufs.find? (·.addr = bp.addr) with
  | some locked =>
    { wl with wlBufs := locked :: wl.wlBufs.eraseP (·.addr = bp.addr) }
  | none =>
    { wl with
      wlBufs := bp :: wl.wlBufs
      wlBufbytes := wl.wlBufbytes + bp.bBufsize
      wlBcount := wl.wlBcount + bp.bBcount
      wlBufcount := wl.wlBufcount + 1 }

/-- `wapbl_remove_buf_locked`, on the buffer at an address. -/
def wapblRemoveBufLocked (wl : WapblLog g) (addr : Nat) : Option (WapblLog g) := do
  let bp ← wl.wlBufs.find? (·.addr = addr)
  kassert (bp.bBufsize ≤ wl.wlBufbytes)
  kassert (bp.bBcount ≤ wl.wlBcount)
  kassert (0 < wl.wlBufcount)
  let wl :=
    { wl with
      wlBufs := wl.wlBufs.eraseP (·.addr = addr)
      wlBufbytes := wl.wlBufbytes - bp.bBufsize
      wlBcount := wl.wlBcount - bp.bBcount
      wlBufcount := wl.wlBufcount - 1 }
  kassert (wl.wlBufcount = 0 ↔ wl.wlBufbytes = 0)
  kassert (wl.wlBufcount = 0 ↔ wl.wlBcount = 0)
  pure wl

/-- The macro `howmany`. -/
def howmany (x y : Nat) : Nat :=
  (x + (y - 1)) / y

/-- `wapbl_transaction_inodes_len`. -/
def wapblTransactionInodesLen (wl : WapblLog g) : Nat :=
  max 1 (howmany wl.wlInohashcnt g.iph) * g.blocklen

/-- `wapbl_transaction_len`. -/
def wapblTransactionLen (wl : WapblLog g) : Nat :=
  wl.wlBcount + howmany wl.wlBufcount g.bph * g.blocklen +
    howmany wl.wlDealloccnt g.bph * g.blocklen + wapblTransactionInodesLen wl

/-- The bytes that `wapbl_flush` reserves for the inode list. -/
def newReserved (wl : WapblLog g) : Nat :=
  if wl.wlInohashcnt = 0 then 0 else wapblTransactionInodesLen wl

/-- Where `wapbl_write_blocks` puts the buffers of a transaction: for each
buffer its address, the displacement of the block-list record that describes
and holds it, and the length of that record. -/
def blockRecords (g : Geometry) : Nat → Nat → List (Buf g) → List (Nat × Nat × Nat)
  | 0, _, _ => []
  | fuel + 1, disp, bufs =>
    if bufs = [] then []
    else
      let group := bufs.take g.bph
      let wcLen := g.blocklen + (group.map (·.bBcount)).sum
      group.map (fun bp => (bp.addr, disp, wcLen)) ++
        blockRecords g fuel (disp + wcLen) (bufs.drop g.bph)

end Transaction

/-! ## Critical sections -/

section Sections

variable {g : Geometry}

/-- How the critical section of `wapbl_truncate` ends. -/
inductive TruncateOutcome
  /-- More than the wanted space is free: return without a commit. -/
  | enough
  /-- Sleep until more bytes are reclaimable. -/
  | sleep
  /-- Return `EIO`. -/
  | failed
  /-- Return after waiting only. -/
  | waited
  /-- Commit this head and tail, which release `delta` bytes. -/
  | commit (head tail delta : Nat)
  deriving DecidableEq

/-- The bytes that `wapbl_truncate` releases: if every entry is flushed it keeps
the reserved bytes reserved. -/
def truncateDelta (wl : WapblLog g) : Nat :=
  if wl.wlEntries = [] ∧ wl.wlReservedBytes ≤ wl.wlReclaimableBytes then
    wl.wlReclaimableBytes - wl.wlReservedBytes
  else wl.wlReclaimableBytes

/-- The first critical section of `wapbl_truncate`.  The flag `debug` says
whether the kernel checks `KDASSERT`. -/
def wapblTruncate (debug : Bool) (wl : WapblLog g) (minfree : Nat) (waitonly : Bool) :
    Option TruncateOutcome := do
  kassert (minfree ≤ g.circSize - wl.wlReservedBytes)
  let avail ← wapblSpaceFree g.circSize wl.wlHead wl.wlTail
  if minfree < avail then
    return .enough
  let minfree := minfree - avail
  if wl.wlErrorCount = 0 ∧ wl.wlReclaimableBytes < minfree then
    return .sleep
  let delta := truncateDelta wl
  let (head, tail) ← wapblAdvanceTail g.circSize g.circOff delta wl.wlHead wl.wlTail
  if debug then
    let used ← wapblSpaceUsed g.circSize head tail
    kassert (wl.wlReservedBytes ≤ used)
  if wl.wlReclaimableBytes < minfree then
    return .failed
  if waitonly then
    return .waited
  return .commit head tail delta

/-- The log with `delta` bytes released. -/
def truncated (wl : WapblLog g) (head tail delta : Nat) : WapblLog g :=
  { wl with
    wlHead := head
    wlTail := tail
    wlReclaimableBytes := wl.wlReclaimableBytes - delta }

/-- The last critical section of `wapbl_truncate`, after the commit. -/
def wapblTruncateFinish (wl : WapblLog g) (head tail delta : Nat) : Option (WapblLog g) := do
  kassert (delta ≤ wl.wlReclaimableBytes)
  pure (truncated wl head tail delta)

/-- `wapbl_flush` between the writing of the records and the commit: the new
head and tail, and the bytes released by the opportunistic move of the tail. -/
def wapblFlushAdvance (wl : WapblLog g) (lazy : Bool) (flushsize : Nat) :
    Option (Nat × Nat × Nat) := do
  kassert (wl.wlHead = 0 ∨ (g.circOff ≤ wl.wlHead ∧ wl.wlHead < g.circOff + g.circSize))
  let (head, tail) ← wapblAdvanceHead g.circSize g.circOff flushsize wl.wlHead wl.wlTail
  if lazy then
    return (head, tail, 0)
  let delta := wl.wlReclaimableBytes
  let (head, tail) ← wapblAdvanceTail g.circSize g.circOff delta head tail
  return (head, tail, delta)

/-- The entry that `wapbl_flush` queues for the current transaction. -/
def newEntry (wl : WapblLog g) (entry flushsize : Nat) : WapblEntry :=
  { weAddr := entry
    weBufcount := wl.wlBufcount
    weReclaimableBytes := flushsize
    weError := 0 }

/-- The log with the entry of the current transaction queued. -/
def queued (wl : WapblLog g) (entry flushsize reserved head tail delta : Nat) : WapblLog g :=
  { wl with
    wlReservedBytes := reserved
    wlHead := head
    wlTail := tail
    wlReclaimableBytes := wl.wlReclaimableBytes - delta
    wlDealloccnt := 0
    wlEntries := wl.wlEntries ++ [newEntry wl entry flushsize] }

/-- `wapbl_flush` after the commit: queue an entry for the transaction. -/
def wapblFlushQueue (wl : WapblLog g) (entry flushsize reserved head tail delta : Nat) :
    Option (WapblLog g) := do
  kassert (delta ≤ wl.wlReclaimableBytes)
  pure (queued wl entry flushsize reserved head tail delta)

/-- The critical section of `wapbl_biodone` that records an error. -/
def wapblBiodoneError (wl : WapblLog g) : WapblLog g :=
  if wl.wlErrorCount = 0 then { wl with wlErrorCount := wl.wlErrorCount + 1 } else wl

/-- The loop of `wapbl_biodone` over the leading entries without buffers: the
bytes they give back, how many of them had an error, and the entries left. -/
def wapblReclaim : List WapblEntry → Nat × Nat × List WapblEntry
  | [] => (0, 0, [])
  | we :: rest =>
    if we.weBufcount = 0 then
      let (delta, errcnt, left) := wapblReclaim rest
      (we.weReclaimableBytes + delta, (if we.weError ≠ 0 then 1 else 0) + errcnt, left)
    else (0, 0, we :: rest)

/-- Take one buffer off the entry at an address. -/
def decrementBufcount (entry : Nat) (we : WapblEntry) : WapblEntry :=
  if we.weAddr = entry then { we with weBufcount := we.weBufcount - 1 } else we

/-- The critical section of `wapbl_biodone` for a buffer of an entry. -/
def wapblBiodone (wl : WapblLog g) (entry : Nat) : Option (WapblLog g) := do
  let we ← wl.wlEntries.find? (·.weAddr = entry)
  kassert (0 < we.weBufcount)
  let wl := { wl with wlEntries := wl.wlEntries.map (decrementBufcount entry) }
  if we.weBufcount - 1 = 0 then
    let (delta, errcnt, left) := wapblReclaim wl.wlEntries
    let wl := { wl with wlEntries := left }
    if delta ≠ 0 then
      kassert (errcnt ≤ wl.wlErrorCount)
      return { wl with
        wlReclaimableBytes := wl.wlReclaimableBytes + delta
        wlErrorCount := wl.wlErrorCount - errcnt }
    else return wl
  else return wl

end Sections

/-! ## The system -/

/-- Where `wapbl_flush` goes when `wapbl_truncate` has returned. -/
inductive AfterTruncate
  /-- Write a transaction of this size. -/
  | write (flushsize : Nat)
  /-- Return to the caller. -/
  | out
  deriving DecidableEq

/-- The next section of the flushing process. -/
inductive Phase
  /-- Nobody is in `wapbl_flush`. -/
  | idle
  | truncate (minfree : Nat) (waitonly : Bool) (after : AfterTruncate)
  | truncateCommit (head tail delta : Nat) (after : AfterTruncate)
  | truncateFinish (head tail delta : Nat) (after : AfterTruncate)
  | write (flushsize : Nat)
  | commit (flushsize reserved head tail delta : Nat)
  | queue (flushsize reserved head tail delta : Nat)
  /-- Start the in-place writes for this entry. -/
  | issue (entry : Nat)
  deriving DecidableEq

/-- An in-place write of a buffer of a committed transaction that has not
completed, with the record of the buffer in the log. -/
structure InPlace where
  entry : Nat
  buf : Nat
  off : Nat
  len : Nat
  /-- `bawrite` was called. -/
  started : Bool
  deriving DecidableEq

/-- The state of the journal. -/
structure Journal (g : Geometry) where
  wl : WapblLog g
  phase : Phase
  waitfor : Bool
  /-- The committed header. -/
  wcHead : Nat
  wcTail : Nat
  /-- The outstanding in-place writes. -/
  writes : List InPlace
  /-- Every in-place write for which an error was seen. -/
  errored : List InPlace
  /-- Offset and length of the inode list of the last commit, if it lists any
  inodes. -/
  inodeList : Option (Nat × Nat)
  /-- Address of the next entry from the pool. -/
  nextEntry : Nat
  deriving DecidableEq

/-- The labels of the journal. -/
inductive JournalStep (g : Geometry)
  | addBuf (bp : Buf g)
  | removeBuf (addr : Nat)
  | registerDeallocation
  | registerInode
  | unregisterInode
  /-- Enter `wapbl_flush`; its callback adds the buffers of `metadata`. -/
  | flush (waitfor lazy : Bool) (metadata : List (Buf g))
  | truncate
  | truncateCommit
  | truncateFinish
  | write (lazy : Bool)
  | commit
  | queue
  | issue (lazy : Bool)
  /-- A log write fails and the flush is aborted. -/
  | abort
  /-- `wapbl_biodone` sees an error for the outstanding write at an index. -/
  | biodoneError (index : Nat)
  /-- `wapbl_biodone` completes the outstanding write at an index. -/
  | biodone (index : Nat)

section System

variable {g : Geometry} {state next : Journal g}

/-- The in-place writes that the commit of the current transaction creates. -/
def newWrites (wl : WapblLog g) (entry : Nat) : List InPlace :=
  (blockRecords g wl.wlBufs.length 0 wl.wlBufs).map fun (buf, disp, wcLen) =>
    { entry := entry
      buf := buf
      off := g.circAdd (startOff g wl.wlHead) disp
      len := wcLen
      started := false }

/-- Mark the in-place write of a buffer of an entry as started. -/
def markStarted (entry buf : Nat) (write : InPlace) : InPlace :=
  if write.entry = entry ∧ write.buf = buf then { write with started := true } else write

/-- The inode list that the commit of the current transaction creates. -/
def newInodeList (wl : WapblLog g) (flushsize reserved : Nat) : Option (Nat × Nat) :=
  if wl.wlInohashcnt = 0 then none
  else some (g.circAdd (startOff g wl.wlHead) (flushsize - reserved), reserved)

/-- The phase after `wapbl_truncate` returns without an error. -/
def AfterTruncate.phase : AfterTruncate → Phase
  | .write flushsize => .write flushsize
  | .out => .idle

/-- The label `out` of `wapbl_flush`. -/
def flushOut (state : Journal g) (lazy : Bool) : Journal g :=
  { state with
    phase :=
      if state.waitfor then
        .truncate (g.circSize - state.wl.wlReservedBytes) lazy .out
      else .idle }

/-- `wapbl_flush` from the return of its callback up to its first call of
`wapbl_truncate`.  The undefined result is the panic on a transaction that is
too big. -/
def wapblFlushSize (state : Journal g) (lazy : Bool) : Option (Journal g) := do
  if state.wl.wlBufcount = 0 then
    return flushOut state lazy
  let flushsize := wapblTransactionLen state.wl
  kassert (flushsize ≤ g.circSize - state.wl.wlReservedBytes)
  return { state with phase := .truncate flushsize false (.write flushsize) }

/-- The log with its current transaction handed to the callback of
`wapbl_flush`. -/
def flushed (state : Journal g) (waitfor : Bool) (metadata : List (Buf g)) : Journal g :=
  { state with wl := metadata.foldl wapblAddBuf state.wl, waitfor := waitfor }

/-- Entry of `wapbl_flush`: the quick check that it can be skipped, and the
callback, which adds buffers. -/
def wapblFlushEnter (state : Journal g) (waitfor lazy : Bool) (metadata : List (Buf g)) :
    Option (Journal g) := do
  if waitfor = false then
    kassert (state.wl.wlBufcount = 0 ↔ state.wl.wlBufbytes = 0)
    kassert (state.wl.wlBufcount = 0 ↔ state.wl.wlBcount = 0)
    if state.wl.wlBufcount = 0 then
      return state
  wapblFlushSize (flushed state waitfor metadata) lazy

/-- One step of the journal.  A label is undefined where it does not apply, and
where an assertion of the code fails. -/
def journalNext (debug : Bool) : JournalStep g → Journal g → Option (Journal g)
  | .addBuf bp, state =>
    if state.phase = .idle then some { state with wl := wapblAddBuf state.wl bp } else none
  | .removeBuf addr, state =>
    if state.phase = .idle then
      (wapblRemoveBufLocked state.wl addr).map fun wl => { state with wl := wl }
    else none
  | .registerDeallocation, state =>
    if state.phase = .idle then
      some { state with wl := { state.wl with wlDealloccnt := state.wl.wlDealloccnt + 1 } }
    else none
  | .registerInode, state =>
    if state.phase = .idle then
      some { state with wl := { state.wl with wlInohashcnt := state.wl.wlInohashcnt + 1 } }
    else none
  | .unregisterInode, state =>
    if state.phase = .idle then
      some { state with wl := { state.wl with wlInohashcnt := state.wl.wlInohashcnt - 1 } }
    else none
  | .flush waitfor lazy metadata, state =>
    if state.phase = .idle then wapblFlushEnter state waitfor lazy metadata else none
  | .truncate, state =>
    match state.phase with
    | .truncate minfree waitonly after => do
        match ← wapblTruncate debug state.wl minfree waitonly with
        | .enough => return { state with phase := after.phase }
        | .sleep => return state
        | .failed => return { state with phase := .idle }
        | .waited => return { state with phase := after.phase }
        | .commit head tail delta =>
          return { state with phase := .truncateCommit head tail delta after }
    | _ => none
  | .truncateCommit, state =>
    match state.phase with
    | .truncateCommit head tail delta after =>
      some
        { state with
          phase := .truncateFinish head tail delta after
          wcHead := head
          wcTail := tail }
    | _ => none
  | .truncateFinish, state =>
    match state.phase with
    | .truncateFinish head tail delta after =>
      (wapblTruncateFinish state.wl head tail delta).map fun wl =>
        { state with wl := wl, phase := after.phase }
    | _ => none
  | .write lazy, state =>
    match state.phase with
    | .write flushsize => do
        let (head, tail, delta) ← wapblFlushAdvance state.wl lazy flushsize
        pure { state with phase := .commit flushsize (newReserved state.wl) head tail delta }
    | _ => none
  | .commit, state =>
    match state.phase with
    | .commit flushsize reserved head tail delta =>
      some
        { state with
          phase := .queue flushsize reserved head tail delta
          wcHead := head
          wcTail := tail
          writes := state.writes ++ newWrites state.wl state.nextEntry
          inodeList := newInodeList state.wl flushsize reserved }
    | _ => none
  | .queue, state =>
    match state.phase with
    | .queue flushsize reserved head tail delta =>
      (wapblFlushQueue state.wl state.nextEntry flushsize reserved head tail delta).map
        fun wl =>
          { state with
            wl := wl
            phase := .issue state.nextEntry
            nextEntry := state.nextEntry + 1 }
    | _ => none
  | .issue lazy, state =>
    match state.phase with
    | .issue entry =>
      match state.wl.wlBufs with
      | [] => some (flushOut state lazy)
      | bp :: _ =>
        (wapblRemoveBufLocked state.wl bp.addr).map fun wl =>
          { state with
            wl := wl
            writes := state.writes.map (markStarted entry bp.addr) }
    | _ => none
  | .abort, state =>
    match state.phase with
    | .truncateCommit .. | .write .. | .commit .. => some { state with phase := .idle }
    | _ => none
  | .biodoneError index, state => do
      let write ← state.writes[index]?
      if write.started then
        return { state with
          wl := wapblBiodoneError state.wl
          errored := state.errored ++ [write] }
      else none
  | .biodone index, state => do
      let write ← state.writes[index]?
      if write.started then
        let wl ← wapblBiodone state.wl write.entry
        return { state with wl := wl, writes := state.writes.eraseIdx index }
      else none

/-- The in-core log that `wapbl_start` allocates. -/
def WapblLog.fresh (g : Geometry) : WapblLog g :=
  { wlHead := 0, wlTail := 0, wlBufs := [], wlBufbytes := 0, wlBufcount := 0, wlBcount := 0
    wlReclaimableBytes := 0, wlErrorCount := 0, wlReservedBytes := 0, wlDealloccnt := 0
    wlInohashcnt := 0, wlEntries := [] }

/-- The journal of a log with nothing in it. -/
def Journal.fresh (g : Geometry) : Journal g :=
  { wl := .fresh g, phase := .idle, waitfor := false, wcHead := 0, wcTail := 0, writes := []
    errored := [], inodeList := none, nextEntry := 0 }

/-- The log that `wapbl_start` opens.  With recovered inodes, the count of them
and the offset behind their old list, the list is written again there. -/
def wapblStart (g : Geometry) (recovered : Option (Nat × Nat)) : Option (Journal g) :=
  match recovered with
  | none => some (.fresh g)
  | some (inodescnt, inodeshead) => do
      let wl := { WapblLog.fresh g with wlInohashcnt := inodescnt }
      let len := wapblTransactionLen wl
      -- the old list was read back from this log, behind which the new one goes
      kassert (0 < inodescnt ∧ len ≤ g.circSize)
      kassert (g.circOff ≤ inodeshead ∧ inodeshead < g.circOff + g.circSize)
      let head := g.circAdd inodeshead len
      kassert (head ≠ inodeshead)
      pure
        { Journal.fresh g with
          wl :=
            { wl with
              wlHead := head, wlTail := inodeshead
              wlReclaimableBytes := len, wlReservedBytes := len }
          wcHead := head
          wcTail := inodeshead
          inodeList := some (inodeshead, len) }

/-! ## What a step can do -/

/-- The behaviours of a label, with what each of them has tested. -/
inductive Next (debug : Bool) : JournalStep g → Journal g → Journal g → Prop
  | addBuf {state : Journal g} (bp : Buf g) (idle : state.phase = .idle) :
      Next debug (.addBuf bp) state { state with wl := wapblAddBuf state.wl bp }
  | removeBuf {state : Journal g} {addr : Nat} {wl : WapblLog g} (idle : state.phase = .idle)
      (removed : wapblRemoveBufLocked state.wl addr = some wl) :
      Next debug (.removeBuf addr) state { state with wl := wl }
  | registerDeallocation {state : Journal g} (idle : state.phase = .idle) :
      Next debug .registerDeallocation state
        { state with wl := { state.wl with wlDealloccnt := state.wl.wlDealloccnt + 1 } }
  | registerInode {state : Journal g} (idle : state.phase = .idle) :
      Next debug .registerInode state
        { state with wl := { state.wl with wlInohashcnt := state.wl.wlInohashcnt + 1 } }
  | unregisterInode {state : Journal g} (idle : state.phase = .idle) :
      Next debug .unregisterInode state
        { state with wl := { state.wl with wlInohashcnt := state.wl.wlInohashcnt - 1 } }
  | flushSkip {state : Journal g} {waitfor lazy : Bool} {metadata : List (Buf g)} :
      Next debug (.flush waitfor lazy metadata) state state
  | flushEmpty {state : Journal g} {waitfor lazy : Bool} {metadata : List (Buf g)}
      (idle : state.phase = .idle) :
      Next debug (.flush waitfor lazy metadata) state
        (flushOut (flushed state waitfor metadata) lazy)
  | flushSize {state : Journal g} {waitfor lazy : Bool} {metadata : List (Buf g)}
      {flushsize : Nat} (idle : state.phase = .idle)
      (sizeEq : flushsize = wapblTransactionLen (flushed state waitfor metadata).wl)
      (someBufs : 0 < (flushed state waitfor metadata).wl.wlBufcount)
      (bound : flushsize ≤ g.circSize - (flushed state waitfor metadata).wl.wlReservedBytes) :
      Next debug (.flush waitfor lazy metadata) state
        { flushed state waitfor metadata with
          phase := .truncate flushsize false (.write flushsize) }
  | truncateReturn {state : Journal g} {minfree : Nat} {waitonly : Bool} {after : AfterTruncate}
      {outcome : TruncateOutcome} (phaseEq : state.phase = .truncate minfree waitonly after)
      (result : wapblTruncate debug state.wl minfree waitonly = some outcome)
      (returned : outcome = .enough ∨ outcome = .waited) :
      Next debug .truncate state { state with phase := after.phase }
  | truncateSleep {state : Journal g} : Next debug .truncate state state
  | truncateFail {state : Journal g} {minfree : Nat} {waitonly : Bool} {after : AfterTruncate}
      (phaseEq : state.phase = .truncate minfree waitonly after) :
      Next debug .truncate state { state with phase := .idle }
  | truncateMove {state : Journal g} {minfree : Nat} {waitonly : Bool} {after : AfterTruncate}
      {head tail delta : Nat} (phaseEq : state.phase = .truncate minfree waitonly after)
      (result : wapblTruncate debug state.wl minfree waitonly = some (.commit head tail delta)) :
      Next debug .truncate state { state with phase := .truncateCommit head tail delta after }
  | truncateCommit {state : Journal g} {head tail delta : Nat} {after : AfterTruncate}
      (phaseEq : state.phase = .truncateCommit head tail delta after) :
      Next debug .truncateCommit state
        { state with
          phase := .truncateFinish head tail delta after
          wcHead := head
          wcTail := tail }
  | truncateFinish {state : Journal g} {head tail delta : Nat} {after : AfterTruncate}
      (phaseEq : state.phase = .truncateFinish head tail delta after) :
      Next debug .truncateFinish state
        { state with wl := truncated state.wl head tail delta, phase := after.phase }
  | write {state : Journal g} {lazy : Bool} {flushsize head tail delta : Nat}
      (phaseEq : state.phase = .write flushsize)
      (advanced : wapblFlushAdvance state.wl lazy flushsize = some (head, tail, delta)) :
      Next debug (.write lazy) state
        { state with phase := .commit flushsize (newReserved state.wl) head tail delta }
  | commit {state : Journal g} {flushsize reserved head tail delta : Nat}
      (phaseEq : state.phase = .commit flushsize reserved head tail delta) :
      Next debug .commit state
        { state with
          phase := .queue flushsize reserved head tail delta
          wcHead := head
          wcTail := tail
          writes := state.writes ++ newWrites state.wl state.nextEntry
          inodeList := newInodeList state.wl flushsize reserved }
  | queue {state : Journal g} {flushsize reserved head tail delta : Nat}
      (phaseEq : state.phase = .queue flushsize reserved head tail delta) :
      Next debug .queue state
        { state with
          wl := queued state.wl state.nextEntry flushsize reserved head tail delta
          phase := .issue state.nextEntry
          nextEntry := state.nextEntry + 1 }
  | issueOut {state : Journal g} {lazy : Bool} {entry : Nat}
      (phaseEq : state.phase = .issue entry) :
      Next debug (.issue lazy) state (flushOut state lazy)
  | issueBuf {state : Journal g} {lazy : Bool} {entry : Nat} {bp : Buf g}
      {rest : List (Buf g)} {wl : WapblLog g} (phaseEq : state.phase = .issue entry)
      (bufsEq : state.wl.wlBufs = bp :: rest)
      (removed : wapblRemoveBufLocked state.wl bp.addr = some wl) :
      Next debug (.issue lazy) state
        { state with wl := wl, writes := state.writes.map (markStarted entry bp.addr) }
  | abort {state : Journal g}
      (notFinish : ∀ head tail delta after, state.phase ≠ .truncateFinish head tail delta after)
      (notQueue : ∀ flushsize reserved head tail delta,
        state.phase ≠ .queue flushsize reserved head tail delta) :
      Next debug .abort state { state with phase := .idle }
  | biodoneError {state : Journal g} {index : Nat} {write : InPlace}
      (found : state.writes[index]? = some write) (started : write.started) :
      Next debug (.biodoneError index) state
        { state with wl := wapblBiodoneError state.wl, errored := state.errored ++ [write] }
  | biodone {state : Journal g} {index : Nat} {write : InPlace} {wl : WapblLog g}
      (found : state.writes[index]? = some write) (started : write.started)
      (completed : wapblBiodone state.wl write.entry = some wl) :
      Next debug (.biodone index) state
        { state with wl := wl, writes := state.writes.eraseIdx index }

theorem flushNext {debug waitfor lazy : Bool} {metadata : List (Buf g)} (idle : state.phase = .idle)
    (entered : wapblFlushEnter state waitfor lazy metadata = some next) :
    Next debug (.flush waitfor lazy metadata) state next := by
  have sized : wapblFlushSize (flushed state waitfor metadata) lazy = some next →
      Next debug (.flush waitfor lazy metadata) state next := by
    intro sized
    unfold wapblFlushSize at sized
    split at sized
    · cases sized
      exact .flushEmpty idle
    · simp only [bind_eq_bind, bind_eq_some_iff, kassert_eq_some_iff, pure_def, some.injEq] at sized
      rcases sized with ⟨_, bound, rfl⟩
      exact .flushSize idle rfl (Nat.pos_of_ne_zero ‹_›) bound
  cases waitfor with
  | true => exact sized (by simpa [wapblFlushEnter] using entered)
  | false =>
    simp only [wapblFlushEnter, if_true, bind_eq_bind, bind_eq_some_iff, pure_def] at entered
    rcases entered with ⟨_, _, _, _, entered⟩
    split at entered
    · cases entered
      exact .flushSkip
    · exact sized entered

/-- Every defined step is one of the behaviours. -/
theorem next_of_journalNext {debug : Bool} {label : JournalStep g}
    (stepped : journalNext debug label state = some next) : Next debug label state next := by
  cases label <;> simp only [journalNext] at stepped
  case addBuf bp =>
    split at stepped <;> cases stepped
    exact .addBuf bp ‹_›
  case removeBuf addr =>
    split at stepped
    · rcases map_eq_some_iff.mp stepped with ⟨wl, removed, rfl⟩
      exact .removeBuf ‹_› removed
    · cases stepped
  case registerDeallocation =>
    split at stepped <;> cases stepped
    exact .registerDeallocation ‹_›
  case registerInode =>
    split at stepped <;> cases stepped
    exact .registerInode ‹_›
  case unregisterInode =>
    split at stepped <;> cases stepped
    exact .unregisterInode ‹_›
  case flush waitfor lazy metadata =>
    split at stepped
    · exact flushNext ‹_› stepped
    · cases stepped
  case truncate =>
    split at stepped
    · simp only [bind_eq_bind, bind_eq_some_iff] at stepped
      rcases stepped with ⟨outcome, result, stepped⟩
      cases outcome <;> cases stepped
      · exact .truncateReturn ‹_› result (.inl rfl)
      · exact .truncateSleep
      · exact .truncateFail ‹_›
      · exact .truncateReturn ‹_› result (.inr rfl)
      · exact .truncateMove ‹_› result
    · cases stepped
  case truncateCommit =>
    split at stepped <;> cases stepped
    exact .truncateCommit ‹_›
  case truncateFinish =>
    split at stepped
    · simp only [wapblTruncateFinish, map_eq_some_iff, bind_eq_bind,
        bind_eq_some_iff, pure_def, some.injEq] at stepped
      rcases stepped with ⟨_, ⟨_, _, rfl⟩, rfl⟩
      exact .truncateFinish ‹_›
    · cases stepped
  case write lazy =>
    split at stepped
    · simp only [bind_eq_bind, bind_eq_some_iff] at stepped
      rcases stepped with ⟨_, advanced, stepped⟩
      cases stepped
      exact .write ‹_› advanced
    · cases stepped
  case commit =>
    split at stepped <;> cases stepped
    exact .commit ‹_›
  case queue =>
    split at stepped
    · simp only [wapblFlushQueue, map_eq_some_iff, bind_eq_bind,
        bind_eq_some_iff, pure_def, some.injEq] at stepped
      rcases stepped with ⟨_, ⟨_, _, rfl⟩, rfl⟩
      exact .queue ‹_›
    · cases stepped
  case issue lazy =>
    split at stepped
    · split at stepped
      · cases stepped
        exact .issueOut ‹_›
      · rcases map_eq_some_iff.mp stepped with ⟨wl, removed, rfl⟩
        exact .issueBuf ‹_› ‹_› removed
    · cases stepped
  case abort =>
    split at stepped <;> cases stepped <;> exact .abort (by simp [*]) (by simp [*])
  case biodoneError index =>
    simp only [bind_eq_bind, bind_eq_some_iff] at stepped
    rcases stepped with ⟨write, found, stepped⟩
    split at stepped <;> cases stepped
    exact .biodoneError found ‹_›
  case biodone index =>
    simp only [bind_eq_bind, bind_eq_some_iff] at stepped
    rcases stepped with ⟨write, found, stepped⟩
    split at stepped
    · rcases bind_eq_some_iff.mp stepped with ⟨wl, completed, stepped⟩
      cases stepped
      exact .biodone found ‹_› completed
    · cases stepped

end System

end Bitrig.Wapbl
