import Bitrig.Wapbl.Sections

/-!
# The invariant of the journal

In every phase the committed header describes a sound view.  While a commit is
in progress the view that it will publish is sound as well, so the header may
change at any moment between the completions of other writes.

The invariant holds at the start and is kept by every step, with two
exceptions that are stated as guards of the step: `wapbl_flush` filling the log
to the last byte with nothing to reclaim, and a move of the tail when the
entry of a failed write is no longer queued.
-/

namespace Bitrig.Wapbl

open Bitrig.Transition List Option

variable {g : Geometry}

namespace Journal

/-- The view that the committed header describes.  Between a commit and the
update of the in-core log these differ. -/
def committed (state : Journal g) : View :=
  match state.phase with
  | .truncateFinish head tail delta _ => state.wl.pending head tail delta []
  | .queue flushsize _ head tail delta =>
    state.wl.pending head tail delta [newEntry state.wl state.nextEntry flushsize]
  | _ => state.wl.view

/-- The bytes reserved for the inode list of the last commit. -/
def reserved (state : Journal g) : Nat :=
  match state.phase with
  | .queue _ reserved _ _ _ => reserved
  | _ => state.wl.wlReservedBytes

/-- The current transaction has this size and some buffers. -/
def Ready (state : Journal g) (flushsize : Nat) : Prop :=
  flushsize = wapblTransactionLen state.wl ∧ 0 < state.wl.wlBufcount

/-- What the local variables of the flushing process satisfy. -/
def PhaseOk (state : Journal g) : Prop :=
  match state.phase with
  | .idle => True
  | .truncate minfree waitonly after =>
    0 < minfree ∧ minfree ≤ g.circSize - state.wl.wlReservedBytes ∧
      ∀ flushsize, after = .write flushsize →
        state.Ready flushsize ∧ minfree = flushsize ∧ waitonly = false
  | .truncateCommit head tail delta after =>
    delta ≤ state.wl.wlReclaimableBytes ∧
      (state.wl.pending head tail delta []).Sound g state.writes state.errored state.inodeList
        state.wl.wlReservedBytes ∧
      ∀ flushsize, after = .write flushsize →
        state.Ready flushsize ∧
          (state.wl.pending head tail delta []).used + flushsize ≤ g.circSize
  | .truncateFinish head tail delta after =>
    delta ≤ state.wl.wlReclaimableBytes ∧
      ∀ flushsize, after = .write flushsize →
        state.Ready flushsize ∧
          (state.wl.pending head tail delta []).used + flushsize ≤ g.circSize
  | .write flushsize =>
    state.Ready flushsize ∧ state.wl.view.used + flushsize ≤ g.circSize
  | .commit flushsize reserved head tail delta =>
    delta ≤ state.wl.wlReclaimableBytes ∧
      (state.wl.pending head tail delta [newEntry state.wl state.nextEntry flushsize]).Sound g
        (state.writes ++ newWrites state.wl state.nextEntry) state.errored
        (newInodeList state.wl flushsize reserved) reserved
  | .queue _ _ _ _ delta => delta ≤ state.wl.wlReclaimableBytes
  | .issue _ => True

/-- The invariant of the journal. -/
structure Inv (state : Journal g) : Prop where
  counted : state.wl.Counted
  sound : state.committed.Sound g state.writes state.errored state.inodeList state.reserved
  wcHead : state.wcHead = state.committed.head
  wcTail : state.wcTail = state.committed.tail
  entry_lt : ∀ we ∈ state.wl.wlEntries, we.weAddr < state.nextEntry
  errored_lt : ∀ write ∈ state.errored, write.entry < state.nextEntry
  started_lt : ∀ write ∈ state.writes, write.started → write.entry < state.nextEntry
  phaseOk : state.PhaseOk

/-- The in-core log agrees with the committed header. -/
def Settled (state : Journal g) : Prop :=
  state.committed = state.wl.view ∧ state.reserved = state.wl.wlReservedBytes

/-- The entry of every failed write is still queued. -/
def AllQueued (state : Journal g) : Prop :=
  ∀ write ∈ state.errored, ∃ we ∈ state.wl.wlEntries, we.weAddr = write.entry

/-- The phase of the flushing process is not one between a commit and the update
of the in-core log. -/
theorem settled_of_phase {state : Journal g}
    (notFinish : ∀ head tail delta after, state.phase ≠ .truncateFinish head tail delta after)
    (notQueue : ∀ flushsize reserved head tail delta,
      state.phase ≠ .queue flushsize reserved head tail delta) : state.Settled := by
  unfold Settled committed reserved
  cases phaseEq : state.phase with
  | truncateFinish head tail delta after => exact absurd phaseEq (notFinish _ _ _ _)
  | queue flushsize reserved head tail delta => exact absurd phaseEq (notQueue _ _ _ _ _)
  | _ => exact ⟨rfl, rfl⟩

/-- The entries in front of the committed head are those queued and the one
about to be queued. -/
theorem committed_entries (state : Journal g) :
    ∃ more, state.committed.entries = state.wl.wlEntries ++ more ∧
      ∀ we ∈ more, we.weAddr = state.nextEntry := by
  unfold committed
  split
  · exact ⟨[], rfl, by simp⟩
  · exact ⟨_, rfl, by simp [newEntry]⟩
  · exact ⟨[], by simp [WapblLog.view], by simp⟩

namespace Inv

variable {state : Journal g} {wl : WapblLog g} {after : AfterTruncate} {debug waitonly : Bool}
  {minfree head tail delta flushsize reserved index : Nat}

variable (inv : state.Inv)
include inv

theorem settled_sound (settled : state.Settled) :
    state.wl.view.Sound g state.writes state.errored state.inodeList state.wl.wlReservedBytes := by
  have sound := inv.sound
  rwa [settled.1, settled.2] at sound

/-- A step that changes the current transaction, between flushes. -/
theorem transaction (idle : state.phase = .idle) (same : state.wl.SameQueue wl)
    (counted : wl.Counted) : Inv { state with wl := wl } := by
  have sound := inv.sound
  have headEq := inv.wcHead
  have tailEq := inv.wcTail
  have entriesEq : wl.wlEntries = state.wl.wlEntries := congrArg View.entries same.view
  constructor
  case counted => exact counted
  case sound =>
    simpa only [committed, reserved, idle, same.view, same.reserved] using sound
  case wcHead => simpa only [committed, idle, same.view] using headEq
  case wcTail => simpa only [committed, idle, same.view] using tailEq
  case entry_lt =>
    simp only [entriesEq]
    exact inv.entry_lt
  case errored_lt => exact inv.errored_lt
  case started_lt => exact inv.started_lt
  case phaseOk => simp only [PhaseOk, idle]

/-- A step that only moves the flushing process on. -/
theorem rephase (settled : state.Settled) {phase : Phase}
    (settled' : Settled { state with phase := phase })
    (ok : PhaseOk { state with phase := phase }) : Inv { state with phase := phase } := by
  have sound := inv.settled_sound settled
  have headEq := inv.wcHead
  have tailEq := inv.wcTail
  rw [settled.1] at headEq tailEq
  constructor
  case counted => exact inv.counted
  case sound => rwa [settled'.1, settled'.2]
  case wcHead => rwa [settled'.1]
  case wcTail => rwa [settled'.1]
  case entry_lt => exact inv.entry_lt
  case errored_lt => exact inv.errored_lt
  case started_lt => exact inv.started_lt
  case phaseOk => exact ok

/-- The phase after `wapbl_truncate` returns. -/
theorem afterPhase (settled : state.Settled) (room : ∀ flushsize, after = .write flushsize →
      state.Ready flushsize ∧ state.wl.view.used + flushsize ≤ g.circSize) :
    Inv { state with phase := after.phase } := by
  cases after with
  | write flushsize =>
    exact inv.rephase settled ⟨rfl, rfl⟩ (room flushsize rfl)
  | out => exact inv.rephase settled ⟨rfl, rfl⟩ trivial

/-- `wapbl_truncate` returns without a commit: the space was there before. -/
theorem truncateReturn {outcome : TruncateOutcome}
    (phaseEq : state.phase = .truncate minfree waitonly after)
    (result : wapblTruncate debug state.wl minfree waitonly = some outcome)
    (returned : outcome = .enough ∨ outcome = .waited) :
    Inv { state with phase := after.phase } := by
  have settled : state.Settled := settled_of_phase (by simp [phaseEq]) (by simp [phaseEq])
  have ok := inv.phaseOk
  simp only [PhaseOk, phaseEq] at ok
  rcases ok with ⟨_, bound, wanted⟩
  refine inv.afterPhase settled fun flushsize afterEq => ?_
  rcases wanted flushsize afterEq with ⟨ready, rfl, rfl⟩
  have enough := wapblTruncate_enough (inv.settled_sound settled) bound returned result
  exact ⟨ready, by omega⟩

theorem truncateMove (phaseEq : state.phase = .truncate minfree waitonly after)
    (keep : state.wl.wlReclaimableBytes ≠ 0 → state.AllQueued)
    (result : wapblTruncate debug state.wl minfree waitonly = some (.commit head tail delta)) :
    Inv { state with phase := .truncateCommit head tail delta after } := by
  have settled : state.Settled := settled_of_phase (by simp [phaseEq]) (by simp [phaseEq])
  have ok := inv.phaseOk
  simp only [PhaseOk, phaseEq] at ok
  rcases ok with ⟨positive, bound, wanted⟩
  rcases wapblTruncate_commit (inv.settled_sound settled) bound positive keep result with
    ⟨atMost, pending, space⟩
  have usedEq : (state.wl.pending head tail delta []).used = state.wl.view.used - delta := by
    simp only [View.used, WapblLog.pending, WapblLog.view, append_nil]
    omega
  refine inv.rephase settled ⟨rfl, rfl⟩ ⟨atMost, ?_, ?_⟩
  · simpa only [WapblLog.pending, append_nil] using pending
  · intro flushsize afterEq
    rcases wanted flushsize afterEq with ⟨ready, rfl, _⟩
    exact ⟨ready, usedEq ▸ space⟩

theorem truncateCommit (phaseEq : state.phase = .truncateCommit head tail delta after) :
    Inv { state with
        phase := .truncateFinish head tail delta after
        wcHead := head
        wcTail := tail } := by
  have ok := inv.phaseOk
  simp only [PhaseOk, phaseEq] at ok
  rcases ok with ⟨atMost, pending, room⟩
  exact
    { inv with
      sound := pending
      wcHead := rfl
      wcTail := rfl
      phaseOk := ⟨atMost, room⟩ }

theorem truncateFinish (phaseEq : state.phase = .truncateFinish head tail delta after) :
    Inv { state with wl := truncated state.wl head tail delta, phase := after.phase } := by
  have sound := inv.sound
  have headEq := inv.wcHead
  have tailEq := inv.wcTail
  have ok := inv.phaseOk
  simp only [PhaseOk, phaseEq, WapblLog.pending, append_nil] at ok
  simp only [committed, phaseEq, WapblLog.pending, append_nil] at sound headEq tailEq
  simp only [reserved, phaseEq] at sound
  cases after with
  | write flushsize =>
    exact ⟨⟨inv.counted.1, inv.counted.2, inv.counted.3⟩, sound, headEq, tailEq,
      inv.entry_lt, inv.errored_lt, inv.started_lt, ok.2 flushsize rfl⟩
  | out =>
    exact ⟨⟨inv.counted.1, inv.counted.2, inv.counted.3⟩, sound, headEq, tailEq,
      inv.entry_lt, inv.errored_lt, inv.started_lt, trivial⟩

theorem write {lazy : Bool} (phaseEq : state.phase = .write flushsize)
    (fill : lazy = false → state.wl.wlReclaimableBytes = 0 →
      wapblSpaceFree g.circSize state.wl.wlHead state.wl.wlTail ≠ some flushsize)
    (keep : delta = 0 ∨ state.AllQueued)
    (advanced : wapblFlushAdvance state.wl lazy flushsize = some (head, tail, delta)) :
    Inv { state with phase := .commit flushsize (newReserved state.wl) head tail delta } := by
  have settled : state.Settled := settled_of_phase (by simp [phaseEq]) (by simp [phaseEq])
  have sound := inv.settled_sound settled
  have ok := inv.phaseOk
  simp only [PhaseOk, phaseEq] at ok
  rcases ok with ⟨⟨rfl, someBufs⟩, room⟩
  have proper : lazy = false → state.wl.wlReclaimableBytes = 0 →
      state.wl.view.used + wapblTransactionLen state.wl < g.circSize := by
    intro eager zero
    have free : wapblSpaceFree g.circSize state.wl.wlHead state.wl.wlTail =
        some (g.circSize - state.wl.view.used) := sound.live.spaceFree
    have apart := fill eager zero
    rw [free, ne_eq, some.injEq] at apart
    omega
  have newAddr : ∀ old ∈ state.wl.wlEntries, old.weAddr ≠ state.nextEntry :=
    fun old member => Nat.ne_of_lt (inv.entry_lt old member)
  have newErrored : ∀ write ∈ state.errored, write.entry ≠ state.nextEntry :=
    fun write member => Nat.ne_of_lt (inv.errored_lt write member)
  exact inv.rephase settled ⟨rfl, rfl⟩
    (wapblFlushAdvance_spec inv.counted someBufs sound room proper keep newAddr newErrored advanced)

theorem commit (phaseEq : state.phase = .commit flushsize reserved head tail delta) :
    Inv { state with
        phase := .queue flushsize reserved head tail delta
        wcHead := head
        wcTail := tail
        writes := state.writes ++ newWrites state.wl state.nextEntry
        inodeList := newInodeList state.wl flushsize reserved } := by
  have ok := inv.phaseOk
  simp only [PhaseOk, phaseEq] at ok
  refine
    { inv with
      sound := ok.2
      wcHead := rfl
      wcTail := rfl
      started_lt := ?_
      phaseOk := ok.1 }
  intro write member started
  rcases mem_append.mp member with old | new
  · exact inv.started_lt write old started
  · have notStarted := (newWrites_place inv.counted write new).2.1
    simp [notStarted] at started

theorem queue (phaseEq : state.phase = .queue flushsize reserved head tail delta) : Inv { state with
        wl := queued state.wl state.nextEntry flushsize reserved head tail delta
        phase := .issue state.nextEntry
        nextEntry := state.nextEntry + 1 } := by
  have sound := inv.sound
  have headEq := inv.wcHead
  have tailEq := inv.wcTail
  simp only [committed, Journal.reserved, phaseEq] at sound headEq tailEq
  refine ⟨⟨inv.counted.1, inv.counted.2, inv.counted.3⟩, sound, headEq, tailEq, ?_, ?_, ?_, trivial⟩
  · exact forall_mem_append.mpr ⟨fun we old => Nat.lt_succ_of_lt (inv.entry_lt we old),
      forall_mem_singleton.mpr (Nat.lt_succ_self _)⟩
  · exact fun write member => Nat.lt_succ_of_lt (inv.errored_lt write member)
  · exact fun write member started => Nat.lt_succ_of_lt (inv.started_lt write member started)

/-- The label `out` of `wapbl_flush`. -/
theorem out (settled : state.Settled) (lazy : Bool) : (flushOut state lazy).Inv := by
  have below := (inv.settled_sound settled).reserved_lt
  unfold flushOut
  split
  · refine inv.rephase settled ⟨rfl, rfl⟩ ⟨by omega, Nat.le_refl _, ?_⟩
    intro flushsize afterEq
    cases afterEq
  · exact inv.rephase settled ⟨rfl, rfl⟩ trivial

theorem issueBuf {entry : Nat} {bp : Buf g} (phaseEq : state.phase = .issue entry)
    (removed : wapblRemoveBufLocked state.wl bp.addr = some wl) :
    Inv { state with wl := wl, writes := state.writes.map (markStarted entry bp.addr) } := by
  have settled : state.Settled := settled_of_phase (by simp [phaseEq]) (by simp [phaseEq])
  have sound := inv.settled_sound settled
  have same := wapblRemoveBufLocked_sameQueue removed
  have headEq := inv.wcHead
  have tailEq := inv.wcTail
  have marked := sound.start (markStarted entry bp.addr)
    (fun write => by unfold markStarted; split <;> rfl)
    (fun write => by unfold markStarted; split <;> rfl)
    (fun write => by unfold markStarted; split <;> rfl)
  constructor
  case counted => exact inv.counted.removed removed
  case sound => simpa only [committed, reserved, phaseEq, same.view, same.reserved] using marked
  case wcHead => simpa only [committed, phaseEq, same.view] using headEq
  case wcTail => simpa only [committed, phaseEq, same.view] using tailEq
  case entry_lt =>
    simp only [show wl.wlEntries = state.wl.wlEntries from congrArg View.entries same.view]
    exact inv.entry_lt
  case errored_lt => exact inv.errored_lt
  case started_lt =>
    -- an outstanding write belongs to a queued entry
    intro write member _
    rcases mem_map.mp member with ⟨old, oldMember, rfl⟩
    rcases sound.located old oldMember with ⟨before, we, after, _, entriesEq, addrEq, _⟩
    have below := inv.entry_lt we (show we ∈ state.wl.view.entries by simp [entriesEq])
    unfold markStarted
    split <;> simp only <;> omega
  case phaseOk => simp only [PhaseOk, phaseEq]

/-- The state that the callback of `wapbl_flush` leaves. -/
theorem flushed (idle : state.phase = .idle) (waitfor : Bool) (metadata : List (Buf g)) :
    (flushed state waitfor metadata).Inv := by
  have added := inv.transaction idle (foldl_wapblAddBuf_sameQueue state.wl metadata)
    (inv.counted.addBufs metadata)
  exact ⟨added.counted, added.sound, added.wcHead, added.wcTail, added.entry_lt,
    added.errored_lt, added.started_lt, added.phaseOk⟩

theorem flushSize (settled : state.Settled) (sizeEq : flushsize = wapblTransactionLen state.wl)
    (someBufs : 0 < state.wl.wlBufcount)
    (bound : flushsize ≤ g.circSize - state.wl.wlReservedBytes) :
    Inv { state with phase := .truncate flushsize false (.write flushsize) } := by
  have positive := wapblTransactionInodesLen_lt inv.counted someBufs
  refine inv.rephase settled ⟨rfl, rfl⟩ ⟨by omega, bound, ?_⟩
  intro size afterEq
  cases afterEq
  exact ⟨⟨sizeEq, someBufs⟩, rfl, rfl⟩

theorem biodoneError {write : InPlace} (found : state.writes[index]? = some write)
    (started : write.started) :
    Inv { state with wl := wapblBiodoneError state.wl, errored := state.errored ++ [write] } := by
  have member := mem_of_getElem? found
  have sameLog : ∃ errorCount,
      wapblBiodoneError state.wl = { state.wl with wlErrorCount := errorCount } := by
    unfold wapblBiodoneError
    split
    · exact ⟨_, rfl⟩
    · exact ⟨state.wl.wlErrorCount, rfl⟩
  rcases sameLog with ⟨errorCount, logEq⟩
  rw [logEq]
  constructor
  case counted => exact ⟨inv.counted.1, inv.counted.2, inv.counted.3⟩
  case sound => exact inv.sound.error member
  case wcHead => exact inv.wcHead
  case wcTail => exact inv.wcTail
  case entry_lt => exact inv.entry_lt
  case errored_lt =>
    exact forall_mem_append.mpr ⟨inv.errored_lt,
      forall_mem_singleton.mpr (inv.started_lt write member started)⟩
  case started_lt => exact inv.started_lt
  case phaseOk =>
    have ok := inv.phaseOk
    unfold PhaseOk at ok ⊢
    cases phaseEq : state.phase with
    | truncateCommit head tail delta after =>
      simp only [phaseEq] at ok ⊢
      exact ⟨ok.1, ok.2.1.error member, ok.2.2⟩
    | commit flushsize reserved head tail delta =>
      simp only [phaseEq] at ok ⊢
      exact ⟨ok.1, ok.2.error (mem_append_left _ member)⟩
    | _ =>
      simp only [phaseEq] at ok ⊢
      try exact ok

/-- The entry of a started write is queued and counts it. -/
theorem biodone_defined {write : InPlace} (member : write ∈ state.writes)
    (started : write.started) :
    ∃ synced left errorCount,
      wapblBiodone state.wl write.entry = some (state.wl.complete synced left errorCount) ∧
        Completed state.wl write.entry synced left errorCount := by
  rcases state.committed_entries with ⟨more, committedEq, moreAddr⟩
  have below := inv.started_lt write member started
  rcases inv.sound.located write member with ⟨before, we, after, _, entriesEq, addrEq, _⟩
  have queued : we ∈ state.wl.wlEntries := by
    have weMember : we ∈ state.wl.wlEntries ++ more := by
      rw [← committedEq, entriesEq]
      simp
    rcases mem_append.mp weMember with old | new
    · exact old
    · have := moreAddr we new
      omega
  have isFound : (state.wl.wlEntries.find? (·.weAddr = write.entry)).isSome :=
    find?_isSome.mpr ⟨we, queued, by simpa using addrEq⟩
  rcases isSome_iff_exists.mp isFound with ⟨first, found⟩
  have firstMember : ∀ other ∈ state.wl.wlEntries, other ∈ state.committed.entries := by
    intro other otherMember
    rw [committedEq]
    exact mem_append_left _ otherMember
  have firstAddr : first.weAddr = write.entry := by
    simpa using find?_some found
  refine wapblBiodone_spec found ?_ ?_
  · rw [inv.sound.bufcount first (firstMember first (mem_of_find?_eq_some found))]
    exact countP_pos_iff.mpr ⟨write, member, by simp [firstAddr]⟩
  · exact fun other otherMember => inv.sound.error_zero other (firstMember other otherMember)

theorem complete {write : InPlace} {synced left : List WapblEntry} {errorCount : Nat}
    (found : state.writes[index]? = some write) (started : write.started)
    (completed : Completed state.wl write.entry synced left errorCount) : Inv { state with
        wl := state.wl.complete synced left errorCount
        writes := state.writes.eraseIdx index } := by
  have below := inv.started_lt write (mem_of_getElem? found) started
  have sound := inv.sound
  have headEq := inv.wcHead
  have tailEq := inv.wcTail
  have ok := inv.phaseOk
  have fresh : ∀ flushsize, ∀ we ∈ [newEntry state.wl state.nextEntry flushsize],
      we.weAddr ≠ write.entry := by
    intro flushsize we member
    rw [mem_singleton.mp member]
    exact Nat.ne_of_gt below
  have foundMore : ∀ more, (state.writes ++ more)[index]? = some write := by
    intro more
    rw [getElem?_append_left (List.getElem?_eq_some_iff.mp found).1]
    exact found
  constructor
  case counted => exact ⟨inv.counted.1, inv.counted.2, inv.counted.3⟩
  case sound =>
    unfold committed reserved at sound ⊢
    unfold PhaseOk at ok
    cases phaseEq : state.phase with
    | truncateFinish head tail delta after =>
      simp only [phaseEq] at sound ok ⊢
      exact completed.sound ok.1 sound found (by simp)
    | queue flushsize reserved head tail delta =>
      simp only [phaseEq] at sound ok ⊢
      exact completed.sound ok sound found (fresh flushsize)
    | _ =>
      simp only [phaseEq] at sound ⊢
      rw [← WapblLog.pending_self] at sound ⊢
      exact completed.sound (Nat.zero_le _) sound found (by simp)
  case wcHead =>
    unfold committed at headEq ⊢
    cases phaseEq : state.phase <;> simp only [phaseEq] at headEq ⊢ <;> exact headEq
  case wcTail =>
    unfold committed at tailEq ⊢
    cases phaseEq : state.phase <;> simp only [phaseEq] at tailEq ⊢ <;> exact tailEq
  case entry_lt =>
    intro we member
    have mapped : we ∈ state.wl.wlEntries.map (decrementBufcount write.entry) := by
      rw [completed.entries]
      exact mem_append_right _ member
    rcases mem_map.mp mapped with ⟨old, oldMember, rfl⟩
    simpa using inv.entry_lt old oldMember
  case errored_lt => exact inv.errored_lt
  case started_lt =>
    exact fun other member => inv.started_lt other (mem_of_mem_eraseIdx member)
  case phaseOk =>
    have more : state.wl.wlReclaimableBytes ≤
        (state.wl.complete synced left errorCount).wlReclaimableBytes :=
      Nat.le_add_right _ _
    unfold PhaseOk at ok ⊢
    cases phaseEq : state.phase with
    | truncateCommit head tail delta after =>
      simp only [phaseEq] at ok ⊢
      rcases ok with ⟨atMost, pending, room⟩
      refine ⟨by omega, completed.sound atMost pending found (by simp), ?_⟩
      rwa [completed.used atMost]
    | truncateFinish head tail delta after =>
      simp only [phaseEq] at ok ⊢
      refine ⟨by omega, ?_⟩
      rw [completed.used ok.1]
      exact ok.2
    | write flushsize =>
      simp only [phaseEq] at ok ⊢
      rw [← WapblLog.pending_self] at ok ⊢
      rwa [completed.used (Nat.zero_le _)]
    | commit flushsize reserved head tail delta =>
      simp only [phaseEq] at ok ⊢
      rcases ok with ⟨atMost, pending⟩
      refine ⟨by omega, ?_⟩
      rw [← eraseIdx_append_of_lt_length (List.getElem?_eq_some_iff.mp found).1]
      exact completed.sound atMost pending (foundMore _) (fresh flushsize)
    | queue flushsize reserved head tail delta =>
      simp only [phaseEq] at ok ⊢
      omega
    | idle | issue => trivial
    | truncate minfree waitonly after =>
      simp only [phaseEq] at ok ⊢
      exact ok

end Inv

end Journal

/-! ## Guards -/

/-- The step lets `wapbl_flush` fill the log to the last byte, move the tail,
and find nothing reclaimable. -/
def JournalStep.fills : JournalStep g → Journal g → Bool
  | .write false, state =>
    match state.phase with
    | .write flushsize =>
      state.wl.wlReclaimableBytes = 0 ∧
        wapblSpaceFree g.circSize state.wl.wlHead state.wl.wlTail = some flushsize
    | _ => false
  | _, _ => false

/-- The step may move the tail: `wapbl_truncate`, or `wapbl_flush` without
`wapbl_lazy_truncate`. -/
def JournalStep.movesTail : JournalStep g → Bool
  | .truncate | .write false => true
  | _ => false

/-- No step fills the log while nothing is reclaimable. -/
def fillGuard (label : JournalStep g) (state : Journal g) : Prop :=
  label.fills state = false

/-- No step moves the tail while there are reclaimable bytes and the entry of a failed write is
off `wl_entries`. -/
def keepGuard (label : JournalStep g) (state : Journal g) : Prop :=
  label.movesTail = true → state.wl.wlReclaimableBytes ≠ 0 → state.AllQueued

instance (label : JournalStep g) (state : Journal g) : Decidable (fillGuard label state) :=
  inferInstanceAs (Decidable (_ = _))

instance (state : Journal g) : Decidable state.AllQueued :=
  inferInstanceAs (Decidable (∀ write ∈ _, ∃ we ∈ _, _))

instance (label : JournalStep g) (state : Journal g) : Decidable (keepGuard label state) :=
  inferInstanceAs (Decidable (_ → _ → _))

/-- `wapbl_flush` releases nothing, or it may move the tail and releases the
reclaimable bytes. -/
theorem wapblFlushAdvance_delta {lazy : Bool} {wl : WapblLog g} {flushsize head tail delta : Nat}
    (advanced : wapblFlushAdvance wl lazy flushsize = some (head, tail, delta)) :
    delta = 0 ∨ (JournalStep.write lazy : JournalStep g).movesTail = true ∧
      delta = wl.wlReclaimableBytes := by
  simp only [wapblFlushAdvance, bind_eq_bind, bind_eq_some_iff] at advanced
  rcases advanced with ⟨_, _, _, _, rest⟩
  cases lazy with
  | true =>
    cases rest
    exact .inl rfl
  | false =>
    simp only [Bool.false_eq_true, if_false, Option.pure_def, bind_eq_some_iff] at rest
    rcases rest with ⟨_, _, rest⟩
    cases rest
    exact .inr ⟨rfl, rfl⟩

/-- Every step that meets the guards keeps the invariant. -/
theorem Journal.Inv.step {debug : Bool} {label : JournalStep g} {state next : Journal g}
    (inv : state.Inv) (fill : fillGuard label state) (keep : keepGuard label state)
    (stepped : journalNext debug label state = some next) : next.Inv := by
  cases next_of_journalNext stepped with
  | addBuf bp idle =>
    exact inv.transaction idle (wapblAddBuf_sameQueue _ bp) (inv.counted.addBuf bp)
  | removeBuf idle removed =>
    exact inv.transaction idle (wapblRemoveBufLocked_sameQueue removed)
      (inv.counted.removed removed)
  | registerDeallocation idle | registerInode idle | unregisterInode idle =>
    exact inv.transaction idle ⟨rfl, rfl, rfl⟩ ⟨inv.counted.1, inv.counted.2, inv.counted.3⟩
  | flushSkip => exact inv
  | @flushEmpty _ waitfor lazy metadata idle =>
    exact (inv.flushed idle waitfor metadata).out
      (settled_of_phase (by simp [Wapbl.flushed, idle]) (by simp [Wapbl.flushed, idle])) lazy
  | @flushSize _ waitfor lazy metadata flushsize idle sizeEq someBufs bound =>
    exact (inv.flushed idle waitfor metadata).flushSize
      (settled_of_phase (by simp [Wapbl.flushed, idle]) (by simp [Wapbl.flushed, idle]))
      sizeEq someBufs bound
  | truncateReturn phaseEq result returned => exact inv.truncateReturn phaseEq result returned
  | truncateSleep => exact inv
  | truncateFail phaseEq =>
    exact inv.rephase (settled_of_phase (by simp [phaseEq]) (by simp [phaseEq])) ⟨rfl, rfl⟩
      trivial
  | truncateMove phaseEq result => exact inv.truncateMove phaseEq (keep rfl) result
  | truncateCommit phaseEq => exact inv.truncateCommit phaseEq
  | truncateFinish phaseEq => exact inv.truncateFinish phaseEq
  | @write _ lazy flushsize _ _ delta phaseEq advanced =>
    refine inv.write phaseEq ?_ ?_ advanced
    · rintro rfl zero
      simpa [fillGuard, JournalStep.fills, phaseEq, zero] using fill
    · rcases wapblFlushAdvance_delta advanced with zero | ⟨moves, deltaEq⟩
      · exact .inl zero
      · by_cases zero : delta = 0
        · exact .inl zero
        · exact .inr (keep moves (by omega))
  | commit phaseEq => exact inv.commit phaseEq
  | queue phaseEq => exact inv.queue phaseEq
  | issueOut phaseEq =>
    exact inv.out (settled_of_phase (by simp [phaseEq]) (by simp [phaseEq])) _
  | issueBuf phaseEq bufsEq removed => exact inv.issueBuf phaseEq removed
  | abort notFinish notQueue =>
    exact inv.rephase (settled_of_phase notFinish notQueue) ⟨rfl, rfl⟩ trivial
  | biodoneError found started => exact inv.biodoneError found started
  | biodone found started completed =>
    rcases inv.biodone_defined (mem_of_getElem? found) started with
      ⟨synced, left, errorCount, defined, completedAs⟩
    rw [completed, some.injEq] at defined
    subst defined
    exact inv.complete found started completedAs

/-- A view without entries and writes, whose bytes are an inode list. -/
theorem sound_inodeList {head tail reclaimable reserved : Nat} {inodeList : Option (Nat × Nat)}
    (live : LiveLog g head tail reclaimable) (keeps : reserved ≤ reclaimable)
    (short : reserved < g.circSize)
    (listed : ∀ off len, inodeList = some (off, len) →
      len = reserved ∧ 0 < len ∧ off = g.circAdd tail (reclaimable - len)) :
    View.Sound g ⟨head, tail, reclaimable, []⟩ [] [] inodeList reserved := by
  constructor
  case live => simpa [View.used] using live
  case reserved_le => simpa [View.used] using keeps
  case reserved_lt => exact short
  case inodes => simpa [View.used] using listed
  all_goals simp

/-- `wapbl_start` establishes the invariant. -/
theorem wapblStart_inv {recovered : Option (Nat × Nat)} {init : Journal g}
    (started : wapblStart g recovered = some init) :
    init.Inv ∧ init.phase = .idle ∧ init.errored = [] ∧ init.wl.wlErrorCount = 0 := by
  have none : ∀ {α : Type} {P : α → Prop}, ∀ item ∈ ([] : List α), P item := by simp
  cases recovered with
  | none =>
    cases started
    have sound : View.Sound g ⟨0, 0, 0, []⟩ [] [] Option.none 0 :=
      sound_inodeList .empty (Nat.le_refl 0) g.circSize_pos (by simp)
    exact ⟨⟨⟨rfl, rfl, rfl⟩, sound, rfl, rfl, none, none, none, trivial⟩, rfl, rfl, rfl⟩
  | some recovered =>
    rcases recovered with ⟨inodescnt, inodeshead⟩
    simp only [wapblStart, bind_eq_bind, bind_eq_some_iff, kassert_eq_some_iff,
      Option.pure_def, some.injEq] at started
    rcases started with ⟨_, ⟨_, fits⟩, _, area, _, moved, rfl⟩
    refine ⟨⟨⟨rfl, rfl, rfl⟩, ?_, rfl, rfl, none, none, none, trivial⟩, rfl, rfl, rfl⟩
    have lenPos : 0 < wapblTransactionLen
        { WapblLog.fresh g with wlInohashcnt := inodescnt } :=
      Nat.lt_of_lt_of_le (wapblTransactionInodesLen_pos _) (Nat.le_add_left _ _)
    have short : wapblTransactionLen { WapblLog.fresh g with wlInohashcnt := inodescnt } <
        g.circSize := by
      refine Nat.lt_of_le_of_ne fits fun whole => moved ?_
      rw [whole]
      exact Geometry.circAdd_circSize area
    refine sound_inodeList (.run area lenPos fits) (Nat.le_refl _) short ?_
    intro off len listed
    cases listed
    exact ⟨rfl, lenPos, by rw [Nat.sub_self, Geometry.circAdd_zero area]⟩

end Bitrig.Wapbl
