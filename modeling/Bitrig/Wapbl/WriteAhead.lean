import Bitrig.Wapbl.Invariant

/-!
# Write-ahead safety, space accounting and failed writes

The results about whole runs of the journal.  The record of every outstanding
in-place write lies between the committed tail and head, the counters of the
in-core log account for every byte in use and no assertion fails, and the
record of a failed write stays replayable: each along the runs that meet the
guards which the step lemmas need, with a run of the source's own operations
that shows what happens without them.
-/

namespace Bitrig.Wapbl

open Bitrig.Transition Option

variable {g : Geometry} {state next init : Journal g} {debug : Bool} {label : JournalStep g}
  {recovered : Option (Nat × Nat)}

/-! ## Runs without write errors -/

/-- No error is seen by the step. -/
def JournalStep.succeeds : JournalStep g → Bool
  | .biodoneError _ => false
  | _ => true

/-- No in-place write has failed. -/
def Journal.Clean (state : Journal g) : Prop :=
  state.errored = [] ∧ state.wl.wlErrorCount = 0

theorem flushOut_clean (clean : state.Clean) (lazy : Bool) : (flushOut state lazy).Clean := by
  unfold flushOut
  split <;> exact clean

theorem flushed_clean (clean : state.Clean) (waitfor : Bool) (metadata : List (Buf g)) :
    (flushed state waitfor metadata).Clean :=
  ⟨clean.1, (foldl_wapblAddBuf_sameQueue state.wl metadata).errorCount.trans clean.2⟩

theorem Journal.Clean.step (inv : state.Inv) (clean : state.Clean)
    (succeeds : label.succeeds = true) (stepped : journalNext debug label state = some next) :
    next.Clean := by
  cases next_of_journalNext stepped with
  | addBuf bp idle => exact ⟨clean.1, (wapblAddBuf_sameQueue _ bp).errorCount.trans clean.2⟩
  | removeBuf idle removed | issueBuf _ _ removed =>
    exact ⟨clean.1, (wapblRemoveBufLocked_sameQueue removed).errorCount.trans clean.2⟩
  | flushEmpty idle => exact flushOut_clean (flushed_clean clean _ _) _
  | @flushSize _ waitfor _ metadata =>
    have clean' := flushed_clean clean waitfor metadata
    exact ⟨clean'.1, clean'.2⟩
  | issueOut phaseEq => exact flushOut_clean clean _
  | biodoneError found started => cases succeeds
  | biodone found started completed =>
    rcases inv.biodone_defined (List.mem_of_getElem? found) started with
      ⟨synced, left, errorCount, defined, completedAs⟩
    rw [completed, some.injEq] at defined
    subst defined
    exact ⟨clean.1, completedAs.errorCount clean.2⟩
  | _ => exact clean

/-- In-place writes succeed, and no step fills the log while nothing is
reclaimable. -/
def cleanGuard (label : JournalStep g) (state : Journal g) : Prop :=
  label.succeeds = true ∧ fillGuard label state

instance (label : JournalStep g) (state : Journal g) : Decidable (cleanGuard label state) :=
  inferInstanceAs (Decidable (_ ∧ _))

theorem cleanRun_inv (started : wapblStart g recovered = some init)
    (run : Run (journalNext debug) cleanGuard init state) : state.Inv ∧ state.Clean := by
  refine Run.invariant (P := fun state => state.Inv ∧ state.Clean) ?_ run ?_
  · rintro label source target ⟨inv, clean⟩ ⟨succeeds, fill⟩ stepped
    have queued : source.AllQueued := by
      simp [Journal.AllQueued, clean.1]
    exact ⟨inv.step fill (fun _ _ => queued) stepped, clean.step inv succeeds stepped⟩
  · rcases wapblStart_inv started with ⟨inv, _, noErrored, noError⟩
    exact ⟨inv, noErrored, noError⟩

/-- Write-ahead safety: the record of every buffer whose in-place write is
outstanding lies between the committed tail and the committed head. -/
theorem outstandingWrites_inLive {debug : Bool} {recovered : Option (Nat × Nat)}
    {init state : Journal g} (started : wapblStart g recovered = some init)
    (run : Run (journalNext debug) cleanGuard init state) :
    ∀ write ∈ state.writes, InLive g state.wcHead state.wcTail write.off write.len := by
  rcases cleanRun_inv started run with ⟨inv, _⟩
  rw [inv.wcHead, inv.wcTail]
  exact inv.sound.writes_inLive

/-- A buffer of 61 blocks, which fills half of the smallest log with its block
list and inode list. -/
def halfBuf (addr : Nat) : Buf minimalLog :=
  ⟨addr, 512 * 61, 512 * 61, by decide, by decide, by decide⟩

/-- One flush of a buffer, up to the writing of its records. -/
def flushRun (bp : Buf minimalLog) (lazy : Bool) : List (JournalStep minimalLog) :=
  [.addBuf bp, .flush false lazy [], .truncate]

/-- A flush goes on from the writing of its records. -/
def commitRun (lazy : Bool) : List (JournalStep minimalLog) :=
  [.write lazy, .commit, .queue, .issue lazy, .issue lazy]

/-- The first buffer is flushed, and the second one is about to fill the rest of
the log. -/
def halfRun (lazy : Bool) : List (JournalStep minimalLog) :=
  flushRun (halfBuf 1) lazy ++ commitRun lazy ++ flushRun (halfBuf 2) lazy ++
    [.truncateCommit, .truncateFinish]

/-- With `wapbl_lazy_truncate` set the second flush fills the log and both
outstanding writes stay in it. -/
theorem halfRun_lazy_inLive : ∃ state, Run (journalNext true) cleanGuard (.fresh minimalLog) state ∧
      state.writes.length = 2 ∧
      ∀ write ∈ state.writes, InLive minimalLog state.wcHead state.wcTail write.off write.len := by
  refine exec_implies (Q := fun state => state.writes.length = 2)
    (halfRun true ++ commitRun true) (by decide +kernel) ?_
  intro state run two
  have started : wapblStart minimalLog none = some (.fresh minimalLog) := rfl
  exact ⟨two, outstandingWrites_inLive started run⟩

/-- The opportunistic move of the tail by zero bytes turns the full log into the
empty one: the second commit publishes an empty log while both buffers are
still to be written in place. -/
theorem halfRun_commit_not_inLive :
    ∃ state, Run (journalNext true) (fun label _ => label.succeeds = true) (.fresh minimalLog)
        state ∧
      ∃ write ∈ state.writes, ¬InLive minimalLog state.wcHead state.wcTail write.off write.len := by
  exact exec_reaches (halfRun false ++ [.write false, .commit]) (by decide +kernel)

/-! ## Space accounting -/

/-- The transaction that a flush still has to write. -/
def AfterTruncate.flushsize : AfterTruncate → Option Nat
  | .write flushsize => some flushsize
  | .out => none

/-- The transaction that the flushing process still has to write. -/
def Phase.flushsize : Phase → Option Nat
  | .truncate _ _ after | .truncateCommit _ _ _ after | .truncateFinish _ _ _ after =>
    after.flushsize
  | .write flushsize => some flushsize
  | _ => none

@[simp]
theorem AfterTruncate.flushsize_phase (after : AfterTruncate) :
    after.phase.flushsize = after.flushsize := by
  cases after <;> rfl

/-- No transaction on its way to the log takes up the whole area. -/
def Journal.Short (state : Journal g) : Prop :=
  ∀ flushsize, state.phase.flushsize = some flushsize → flushsize < g.circSize

/-- The transaction that a flush finds is shorter than the area without the
reserved bytes. -/
def JournalStep.short : JournalStep g → Journal g → Bool
  | .flush waitfor _ metadata, state =>
    wapblTransactionLen (flushed state waitfor metadata).wl <
      g.circSize - (flushed state waitfor metadata).wl.wlReservedBytes
  | _, _ => true

theorem flushOut_short (state : Journal g) (lazy : Bool) : (flushOut state lazy).Short := by
  intro flushsize pending
  unfold flushOut at pending
  split at pending <;> simp [Phase.flushsize, AfterTruncate.flushsize] at pending

theorem Journal.Short.step (short : state.Short) (shortStep : label.short state = true)
    (stepped : journalNext debug label state = some next) : next.Short := by
  cases next_of_journalNext stepped with
  | flushEmpty idle | issueOut phaseEq => exact flushOut_short _ _
  | flushSize idle sizeEq someBufs bound =>
    intro flushsize pending
    simp only [Phase.flushsize, AfterTruncate.flushsize, some.injEq] at pending
    simp only [JournalStep.short, decide_eq_true_eq] at shortStep
    omega
  | truncateReturn phaseEq _ _ | truncateFinish phaseEq =>
    intro flushsize pending
    simp only [AfterTruncate.flushsize_phase] at pending
    exact short flushsize (by rw [phaseEq]; exact pending)
  | truncateMove phaseEq _ | truncateCommit phaseEq =>
    intro flushsize pending
    exact short flushsize (by rw [phaseEq]; exact pending)
  | truncateFail | write | commit | queue | abort =>
    intro flushsize pending
    cases pending
  | _ => exact short

/-- In-place writes succeed, no step fills the log while nothing is reclaimable,
and every transaction is shorter than the area without the reserved bytes. -/
def shortGuard (label : JournalStep g) (state : Journal g) : Prop :=
  cleanGuard label state ∧ label.short state = true

instance (label : JournalStep g) (state : Journal g) : Decidable (shortGuard label state) :=
  inferInstanceAs (Decidable (_ ∧ _))

/-- The label applies: the flushing process is at this section, the buffer is
there, or the in-place write is outstanding. -/
def Enabled : JournalStep g → Journal g → Prop
  | .addBuf _, state | .registerDeallocation, state | .registerInode, state
  | .unregisterInode, state => state.phase = .idle
  | .removeBuf addr, state => state.phase = .idle ∧ ∃ bp ∈ state.wl.wlBufs, bp.addr = addr
  | .flush _ _ _, state => state.phase = .idle
  | .truncate, state => ∃ minfree waitonly after, state.phase = .truncate minfree waitonly after
  | .truncateCommit, state =>
    ∃ head tail delta after, state.phase = .truncateCommit head tail delta after
  | .truncateFinish, state =>
    ∃ head tail delta after, state.phase = .truncateFinish head tail delta after
  | .write _, state => ∃ flushsize, state.phase = .write flushsize
  | .commit, state =>
    ∃ flushsize reserved head tail delta, state.phase = .commit flushsize reserved head tail delta
  | .queue, state =>
    ∃ flushsize reserved head tail delta, state.phase = .queue flushsize reserved head tail delta
  | .issue _, state => ∃ entry, state.phase = .issue entry
  | .abort, state =>
    (∃ head tail delta after, state.phase = .truncateCommit head tail delta after) ∨
      (∃ flushsize, state.phase = .write flushsize) ∨
      ∃ flushsize reserved head tail delta,
        state.phase = .commit flushsize reserved head tail delta
  | .biodoneError index, state | .biodone index, state =>
    ∃ write, state.writes[index]? = some write ∧ write.started

theorem wapblFlushSize_isSome {lazy : Bool}
    (bound : wapblTransactionLen state.wl ≤ g.circSize - state.wl.wlReservedBytes) :
    ∃ next, wapblFlushSize state lazy = some next := by
  unfold wapblFlushSize
  split
  · exact ⟨_, rfl⟩
  · exact ⟨_, by simp only [kassert_of_holds bound]; rfl⟩

/-- No assertion of an enabled step fails. -/
theorem Journal.Inv.isSome (inv : state.Inv) (clean : state.Clean) (short : state.Short)
    (enabled : Enabled label state) (shortStep : label.short state = true) (debug : Bool) :
    ∃ next, journalNext debug label state = some next := by
  have ok := inv.phaseOk
  cases label with
  | addBuf | registerDeallocation | registerInode | unregisterInode =>
    exact ⟨_, if_pos enabled⟩
  | removeBuf addr =>
    rcases enabled with ⟨idle, bp, member, addrEq⟩
    have isFound : (state.wl.wlBufs.find? (·.addr = addr)).isSome :=
      List.find?_isSome.mpr ⟨bp, member, by simpa using addrEq⟩
    rcases isSome_iff_exists.mp isFound with ⟨first, found⟩
    rcases inv.counted.removeBuf found with ⟨wl, removed, _⟩
    exact ⟨{ state with wl := wl }, by simp [journalNext, idle, removed]⟩
  | flush waitfor lazy metadata =>
    simp only [JournalStep.short, decide_eq_true_eq] at shortStep
    have isSized :
        ∃ next, wapblFlushSize (Wapbl.flushed state waitfor metadata) lazy = some next :=
      wapblFlushSize_isSome (le_of_lt shortStep)
    rcases isSized with ⟨next, sized⟩
    simp only [journalNext, if_pos (show state.phase = .idle from enabled), wapblFlushEnter,
      kassert_of_holds inv.counted.bufcount_eq_zero_iff_bufbytes,
      kassert_of_holds inv.counted.bufcount_eq_zero_iff_bcount, sized, bind_eq_bind,
      bind_some]
    split
    · split
      · exact ⟨_, rfl⟩
      · exact ⟨_, rfl⟩
    · exact ⟨_, rfl⟩
  | truncate =>
    rcases enabled with ⟨minfree, waitonly, after, phaseEq⟩
    have settled : state.Settled :=
      Journal.settled_of_phase (by simp [phaseEq]) (by simp [phaseEq])
    simp only [Journal.PhaseOk, phaseEq] at ok
    have isResult : ∃ outcome, wapblTruncate debug state.wl minfree waitonly = some outcome :=
      wapblTruncate_isSome (inv.settled_sound settled) ok.2.1 ok.1 clean.2
    rcases isResult with ⟨outcome, result⟩
    simp only [journalNext, phaseEq, result, bind_eq_bind, bind_some]
    cases outcome <;> exact ⟨_, rfl⟩
  | truncateCommit =>
    rcases enabled with ⟨head, tail, delta, after, phaseEq⟩
    simp only [journalNext, phaseEq]
    exact ⟨_, rfl⟩
  | truncateFinish =>
    rcases enabled with ⟨head, tail, delta, after, phaseEq⟩
    simp only [Journal.PhaseOk, phaseEq] at ok
    simp only [journalNext, phaseEq, wapblTruncateFinish, kassert_of_holds ok.1]
    exact ⟨_, rfl⟩
  | write lazy =>
    rcases enabled with ⟨flushsize, phaseEq⟩
    have settled : state.Settled :=
      Journal.settled_of_phase (by simp [phaseEq]) (by simp [phaseEq])
    simp only [Journal.PhaseOk, phaseEq] at ok
    have isAdvanced : ∃ result, wapblFlushAdvance state.wl lazy flushsize = some result :=
      wapblFlushAdvance_isSome (inv.settled_sound settled) ok.2
        (short flushsize (by rw [phaseEq]; rfl))
    rcases isAdvanced with ⟨result, advanced⟩
    simp only [journalNext, phaseEq, advanced]
    exact ⟨_, rfl⟩
  | commit =>
    rcases enabled with ⟨flushsize, reserved, head, tail, delta, phaseEq⟩
    simp only [journalNext, phaseEq]
    exact ⟨_, rfl⟩
  | queue =>
    rcases enabled with ⟨flushsize, reserved, head, tail, delta, phaseEq⟩
    simp only [Journal.PhaseOk, phaseEq] at ok
    simp only [journalNext, phaseEq, wapblFlushQueue, kassert_of_holds ok]
    exact ⟨_, rfl⟩
  | issue lazy =>
    rcases enabled with ⟨entry, phaseEq⟩
    simp only [journalNext, phaseEq]
    split
    · exact ⟨_, rfl⟩
    · rename_i bp rest bufsEq
      have found : state.wl.wlBufs.find? (·.addr = bp.addr) = some bp := by
        simp [bufsEq]
      rcases inv.counted.removeBuf found with ⟨wl, removed, _⟩
      simp only [removed]
      exact ⟨_, rfl⟩
  | abort =>
    rcases enabled with ⟨_, _, _, _, phaseEq⟩ | ⟨_, phaseEq⟩ | ⟨_, _, _, _, _, phaseEq⟩ <;>
      simp only [journalNext, phaseEq] <;> exact ⟨_, rfl⟩
  | biodoneError index =>
    rcases enabled with ⟨write, found, started⟩
    simp only [journalNext, found, bind_eq_bind, bind_some, started, if_true]
    exact ⟨_, rfl⟩
  | biodone index =>
    rcases enabled with ⟨write, found, started⟩
    rcases inv.biodone_defined (List.mem_of_getElem? found) started with
      ⟨synced, left, errorCount, defined, _⟩
    simp only [journalNext, found, bind_eq_bind, bind_some, started, if_true, defined]
    exact ⟨_, rfl⟩

theorem shortRun_short (started : wapblStart g recovered = some init)
    (run : Run (journalNext debug) shortGuard init state) : state.Short := by
  refine Run.invariant (P := Journal.Short) ?_ run ?_
  · intro label source target short guarded stepped
    exact short.step guarded.2 stepped
  · intro flushsize pending
    rw [(wapblStart_inv started).2.1] at pending
    cases pending

/-- Space accounting: between operations the bytes in use are the reclaimable
ones and those of the queued entries, the reserved ones among them end at the
head and hold the inode list of the last commit, which is never released; and
if every transaction is short, no assertion of an enabled step fails. -/
theorem wapblSpaceUsed_eq_reclaimable_add_entries {debug : Bool}
    {recovered : Option (Nat × Nat)} {init state : Journal g}
    (started : wapblStart g recovered = some init)
    (run : Run (journalNext debug) cleanGuard init state) :
    (state.phase = .idle → wapblSpaceUsed g.circSize state.wl.wlHead state.wl.wlTail =
          some (state.wl.wlReclaimableBytes + totalBytes state.wl.wlEntries) ∧
        state.wl.wlReservedBytes ≤ state.wl.wlReclaimableBytes + totalBytes state.wl.wlEntries ∧
        ∀ off len, state.inodeList = some (off, len) →
          len = state.wl.wlReservedBytes ∧ g.circAdd off len = state.wl.wlHead) ∧
      (∀ off len, state.inodeList = some (off, len) → InLive g state.wcHead state.wcTail off len) ∧
      (Run (journalNext debug) shortGuard init state →
        ∀ label, Enabled label state → label.short state = true →
          ∃ next, journalNext debug label state = some next) := by
  rcases cleanRun_inv started run with ⟨inv, clean⟩
  refine ⟨fun idle => ?_, ?_, fun shortRun label enabled shortStep =>
    inv.isSome clean (shortRun_short started shortRun) enabled shortStep debug⟩
  · have settled : state.Settled :=
      Journal.settled_of_phase (by simp [idle]) (by simp [idle])
    have sound := inv.settled_sound settled
    refine ⟨sound.live.spaceUsed, sound.reserved_le, fun off len listed => ?_⟩
    rcases sound.inodes off len listed with ⟨lenEq, lenPos, offEq⟩
    have inUse := sound.reserved_le
    have usedLe := sound.live.used_le
    have area := View.tail_inArea sound.live (by omega)
    refine ⟨lenEq, ?_⟩
    rw [offEq, Geometry.circAdd_circAdd area (by omega), Nat.sub_add_cancel (by omega)]
    exact sound.live.head_eq (by omega)
  · rw [inv.wcHead, inv.wcTail]
    exact inv.sound.inodes_inLive

/-- With `wapbl_lazy_truncate` set the log may be filled. -/
theorem halfRun_lazy_spaceUsed :
    ∃ state, Run (journalNext true) shortGuard (.fresh minimalLog) state ∧ state.phase = .idle ∧
      wapblSpaceUsed minimalLog.circSize state.wl.wlHead state.wl.wlTail =
        some (state.wl.wlReclaimableBytes + totalBytes state.wl.wlEntries) ∧
      ∀ label, Enabled label state → label.short state = true →
        ∃ next, journalNext true label state = some next := by
  refine exec_implies (Q := fun state => state.phase = .idle)
    (halfRun true ++ commitRun true) (by decide +kernel) ?_
  intro state run idle
  have started : wapblStart minimalLog none = some (.fresh minimalLog) := rfl
  have accounted := wapblSpaceUsed_eq_reclaimable_add_entries started
    (run.weaken fun _ _ guarded => guarded.1)
  exact ⟨idle, (accounted.1 idle).1, accounted.2.2 run⟩

/-- Two short transactions that fill the log leave it empty by its offsets and
full by its entries. -/
theorem halfRun_spaceUsed_ne : ∃ state, Run (journalNext true)
          (fun label state => label.succeeds = true ∧ label.short state = true)
          (.fresh minimalLog) state ∧
        state.phase = .idle ∧
        wapblSpaceUsed minimalLog.circSize state.wl.wlHead state.wl.wlTail ≠
          some (state.wl.wlReclaimableBytes + totalBytes state.wl.wlEntries) := by
  exact exec_reaches (halfRun false ++ commitRun false) (by decide +kernel)

/-! ## Failed in-place writes -/

/-- No step fills the log while nothing is reclaimable, and the tail is moved over reclaimable
bytes only while the entry of every failed write is queued. -/
def errorGuard (label : JournalStep g) (state : Journal g) : Prop :=
  fillGuard label state ∧ keepGuard label state

instance (label : JournalStep g) (state : Journal g) : Decidable (errorGuard label state) :=
  inferInstanceAs (Decidable (_ ∧ _))

/-- The first buffer of a flush fails. -/
def failRun : List (JournalStep minimalLog) :=
  flushRun (halfBuf 1) false ++ commitRun false ++ [.biodoneError 0]

/-- A buffer of one block. -/
def smallBuf (addr : Nat) : Buf minimalLog :=
  ⟨addr, 512, 512, by decide, by decide, by decide⟩

end Bitrig.Wapbl
