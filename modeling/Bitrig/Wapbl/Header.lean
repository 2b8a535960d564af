import Bitrig.Wapbl.Space

/-!
# Commit headers

The two blocks in front of the circular area hold commit headers.  A commit
writes the slot selected by the parity of its generation, and a commit of
generation zero writes a second time, with generation one.  Recovery reads both
slots and takes slot 0 unless slot 1 carries a larger generation.

The transition system below takes one header block at a time, so that a crash
may fall between any two block writes.  It covers any number of opens of one
log, each with or without the inodes that a preceding replay recovered.
-/

namespace Bitrig.Wapbl

open Bitrig.Transition Option

/-- The type tag `WAPBL_WC_HEADER`. -/
def wapblWcHeader : UInt32 :=
  0x5741424c

/-- The commit header (`struct wapbl_wc_header`), without its time stamp,
checksum, version and file system identifier, which no code reads back. -/
structure WcHeader where
  wcType : UInt32
  wcGeneration : UInt32
  wcLogDevBshift : Nat
  wcFsDevBshift : Nat
  wcHead : Nat
  wcTail : Nat
  wcCircOff : Nat
  wcCircSize : Nat
  deriving DecidableEq

/-- The part of the header that a commit publishes. -/
def WcHeader.offsets (wc : WcHeader) : Nat × Nat :=
  (wc.wcHead, wc.wcTail)

/-- The header with the offsets of a commit filled in. -/
def WcHeader.publish (wc : WcHeader) (head tail : Nat) : WcHeader :=
  { wc with wcHead := head, wcTail := tail }

@[simp]
theorem WcHeader.publish_wcGeneration (wc : WcHeader) (head tail : Nat) :
    (wc.publish head tail).wcGeneration = wc.wcGeneration :=
  rfl

@[simp]
theorem WcHeader.publish_offsets (wc : WcHeader) (head tail : Nat) :
    (wc.publish head tail).offsets = (head, tail) :=
  rfl

/-- The two header blocks on disk. -/
structure Slots where
  slot0 : WcHeader
  slot1 : WcHeader
  deriving DecidableEq

namespace Slots

/-- Write one header block at the slot its generation selects. -/
def write (slots : Slots) (wc : WcHeader) : Slots :=
  if wc.wcGeneration % 2 = 0 then { slots with slot0 := wc } else { slots with slot1 := wc }

/-- The choice of `wapbl_replay_start` between the two headers. -/
def chosen (slots : Slots) : WcHeader :=
  if slots.slot0.wcGeneration < slots.slot1.wcGeneration then slots.slot1 else slots.slot0

end Slots

/-- The header part of `wapbl_replay_start`: `none` is the `EFTYPE` return on an
unrecognised tag in slot 0. -/
def wapblReplayStartHeader (slots : Slots) : Option WcHeader :=
  if slots.slot0.wcType ≠ wapblWcHeader then none else some slots.chosen

/-- One activation of `wapbl_write_commit` up to its recursive call: the header
block it writes, the in-core header afterwards, and whether the generation was
zero, so that the function calls itself again. -/
def wapblWriteCommitBlock (slots : Slots) (wc : WcHeader) (head tail : Nat) :
    Slots × WcHeader × Bool :=
  let wc := wc.publish head tail
  let slots := slots.write wc
  (slots, { wc with wcGeneration := wc.wcGeneration + 1 }, wc.wcGeneration = 0)

/-- The in-core header that `wapbl_start` initialises; with recovered inodes,
`wapbl_start_flush_inodes` continues the generation of the replayed header. -/
def wapblStartHeader (g : Geometry) (recovered : Option UInt32) : WcHeader where
  wcType := wapblWcHeader
  wcGeneration :=
    match recovered with
    | none => 0
    | some generation => generation + 1
  wcLogDevBshift := g.logDevBshift
  wcFsDevBshift := g.logDevBshift
  wcHead := 0
  wcTail := 0
  wcCircOff := g.circOff
  wcCircSize := g.circSize

/-! ## Opens, commits and crashes -/

/-- The in-core side of the log. -/
inductive LogCore
  /-- No log is open. -/
  | closed
  /-- A log is open and no commit is in progress. -/
  | ready (wc : WcHeader)
  /-- A `wapbl_write_commit` call is in progress and about to write a block. -/
  | committing (wc : WcHeader) (head tail : Nat)

/-- The header blocks, the in-core log, and the offsets of the last completed
`wapbl_write_commit` call. -/
structure HeaderState where
  slots : Slots
  core : LogCore
  completed : Nat × Nat

/-- The labels of the header system. -/
inductive HeaderStep
  /-- `wapbl_start`, up to its commit.  With `some (head, tail)` a preceding
  `wapbl_replay_start` has recovered inodes and their list was rewritten there;
  with `none` there was no replay, or it recovered no inodes. -/
  | start (recovered : Option (Nat × Nat))
  /-- Entry of `wapbl_write_commit`. -/
  | commit (head tail : Nat)
  /-- One header block reaches the disk. -/
  | block
  /-- A crash, or the orderly end of the log. -/
  | crash

/-- One step.  After a crash the header that recovery selects stands for the
last completed commit. -/
def headerNext (g : Geometry) : HeaderStep → HeaderState → Option HeaderState
  | .start recovered, state =>
    match state.core, recovered with
    | .closed, none =>
      some { state with core := .committing (wapblStartHeader g none) 0 0 }
    | .closed, some (head, tail) =>
      (wapblReplayStartHeader state.slots).map fun replayed =>
        { state with
          core := .committing (wapblStartHeader g (some replayed.wcGeneration)) head tail }
    | _, _ => none
  | .commit head tail, state =>
    match state.core with
    | .ready wc => some { state with core := .committing wc head tail }
    | _ => none
  | .block, state =>
    match state.core with
    | .committing wc head tail =>
      let (slots, wc, again) := wapblWriteCommitBlock state.slots wc head tail
      if again then
        some { state with slots := slots, core := .committing wc head tail }
      else
        some { slots := slots, core := .ready wc, completed := (head, tail) }
    | _ => none
  | .crash, state =>
    some { state with core := .closed, completed := state.slots.chosen.offsets }

/-- Before the first open the slots may hold headers of any generation. -/
def headerInit (slots : Slots) : HeaderState :=
  { slots := slots, core := .closed, completed := slots.chosen.offsets }

/-- The offsets of the call in progress. -/
def HeaderState.inProgress (state : HeaderState) : Option (Nat × Nat) :=
  match state.core with
  | .committing _ head tail => some (head, tail)
  | _ => none

/-- Were the machine to crash now, recovery would find the offsets of the last
completed commit or of the commit in progress. -/
def HeaderState.Atomic (state : HeaderState) : Prop :=
  state.slots.chosen.offsets = state.completed ∨
    some state.slots.chosen.offsets = state.inProgress

instance (state : HeaderState) : Decidable state.Atomic :=
  inferInstanceAs (Decidable (_ ∨ _))

/-- The slots allow a header of generation zero for `offsets` to go to slot 0:
slot 1 has generation zero as well, or carries the offsets of the selected
header or those being committed. -/
def Slots.RestartSafe (slots : Slots) (offsets : Nat × Nat) : Prop :=
  slots.slot1.wcGeneration = 0 ∨ slots.slot1.offsets = slots.chosen.offsets ∨
    slots.slot1.offsets = offsets

/-- The condition on a step: a header block of generation zero is written only
over slots that allow it. -/
def headerGuard : HeaderStep → HeaderState → Prop
  | .block, state =>
    match state.core with
    | .committing wc head tail =>
      wc.wcGeneration = 0 → state.slots.RestartSafe (head, tail)
    | _ => True
  | _, _ => True

instance (slots : Slots) (offsets : Nat × Nat) : Decidable (slots.RestartSafe offsets) :=
  inferInstanceAs (Decidable (_ ∨ _ ∨ _))

instance : ∀ label state, Decidable (headerGuard label state)
  | .block, ⟨slots, .committing wc head tail, _⟩ =>
    inferInstanceAs (Decidable (wc.wcGeneration = 0 → slots.RestartSafe (head, tail)))
  | .block, ⟨_, .closed, _⟩ => isTrue trivial
  | .block, ⟨_, .ready _, _⟩ => isTrue trivial
  | .start _, _ => isTrue trivial
  | .commit _ _, _ => isTrue trivial
  | .crash, _ => isTrue trivial

/-! ## Generations along a run -/

/-- A header of generation `generation`, if not zero, will be the selected one
once it is written. -/
def Slots.Accepts (slots : Slots) (generation : UInt32) : Prop :=
  generation ≠ 0 →
    if generation % 2 = 0 then slots.slot1.wcGeneration ≤ generation
    else slots.slot0.wcGeneration < generation

variable {wc : WcHeader} {state : HeaderState} {g : Geometry} {label : HeaderStep}

theorem Slots.Accepts.chosen_write {slots : Slots} (accepts : slots.Accepts wc.wcGeneration)
    (nonzero : wc.wcGeneration ≠ 0) : (slots.write wc).chosen = wc := by
  have bound := accepts nonzero
  unfold Slots.write Slots.chosen
  by_cases even : wc.wcGeneration % 2 = 0
  · rw [if_pos even] at bound
    simp only [even, if_true, UInt32.not_lt.mpr bound, if_false]
  · rw [if_neg even] at bound
    simp only [even, if_false, bound, if_true]

private theorem generation_succ_toNat {generation : UInt32} (nonzero : generation + 1 ≠ 0) :
    (generation + 1).toNat = generation.toNat + 1 := by
  have bound := generation.toNat_lt
  have notZero : (generation + 1).toNat ≠ 0 := fun zero =>
    nonzero (UInt32.toNat_inj.mp zero)
  rw [UInt32.toNat_add] at notZero ⊢
  simp only [UInt32.reduceToNat] at notZero ⊢
  omega

private theorem generation_even_iff (generation : UInt32) :
    generation % 2 = 0 ↔ generation.toNat % 2 = 0 := by
  rw [← UInt32.toNat_inj]
  rfl

/-- After a write the other slot is the next one, and accepts the next
generation. -/
theorem Slots.accepts_succ (slots : Slots) (wc : WcHeader) :
    (slots.write wc).Accepts (wc.wcGeneration + 1) := by
  intro nonzero
  have next := generation_succ_toNat nonzero
  unfold Slots.write
  by_cases even : wc.wcGeneration % 2 = 0
  · have odd : ¬(wc.wcGeneration + 1) % 2 = 0 := by
      rw [generation_even_iff] at even ⊢
      omega
    rw [if_neg odd, if_pos even, UInt32.lt_iff_toNat_lt]
    simp only
    omega
  · have even' : (wc.wcGeneration + 1) % 2 = 0 := by
      rw [generation_even_iff] at even ⊢
      omega
    rw [if_pos even', if_neg even, UInt32.le_iff_toNat_le]
    simp only
    omega

/-- Continuing the generation of the selected header, as an open with
recovered inodes does, is accepted. -/
theorem Slots.accepts_chosen_succ (slots : Slots) :
    slots.Accepts (slots.chosen.wcGeneration + 1) := by
  intro nonzero
  have next := generation_succ_toNat nonzero
  have largest : slots.slot0.wcGeneration.toNat ≤ slots.chosen.wcGeneration.toNat ∧
      slots.slot1.wcGeneration.toNat ≤ slots.chosen.wcGeneration.toNat := by
    unfold Slots.chosen
    split
    · rename_i larger
      rw [UInt32.lt_iff_toNat_lt] at larger
      omega
    · rename_i notLarger
      rw [UInt32.lt_iff_toNat_lt] at notLarger
      omega
  split
  · rw [UInt32.le_iff_toNat_le]
    omega
  · rw [UInt32.lt_iff_toNat_lt]
    omega

/-- What holds between any two header writes of a guarded run.  The second
alternative for a commit in progress is the moment between the two blocks of a
commit of generation zero. -/
def HeaderState.Consistent (state : HeaderState) : Prop :=
  match state.core with
  | .closed => state.slots.chosen.offsets = state.completed
  | .ready wc =>
    state.slots.chosen.offsets = state.completed ∧ state.slots.Accepts wc.wcGeneration
  | .committing wc head tail =>
    (state.slots.chosen.offsets = state.completed ∧ state.slots.Accepts wc.wcGeneration) ∨
      (wc.wcGeneration = 1 ∧ state.slots.slot0.wcGeneration = 0 ∧
        (state.slots.chosen.offsets = state.completed ∨ state.slots.chosen.offsets = (head, tail)))

theorem HeaderState.Consistent.atomic (consistent : state.Consistent) : state.Atomic := by
  rcases state with ⟨slots, core, completed⟩
  cases core with
  | closed => exact .inl consistent
  | ready wc => exact .inl consistent.1
  | committing wc head tail =>
    rcases consistent with ⟨chosenEq, _⟩ | ⟨_, _, chosenEq | chosenEq⟩
    · exact .inl chosenEq
    · exact .inl chosenEq
    · exact .inr (congrArg some chosenEq)

/-- The first block of a commit of generation zero replaces slot 0 only. -/
private theorem chosen_write_zero (slots : Slots) (wc : WcHeader) (zero : wc.wcGeneration = 0) :
    (slots.write wc).slot0.wcGeneration = 0 ∧
      (slots.write wc).chosen = if slots.slot1.wcGeneration = 0 then wc else slots.slot1 := by
  have positive : (0 : UInt32) < slots.slot1.wcGeneration ↔ slots.slot1.wcGeneration ≠ 0 :=
    UInt32.pos_iff_ne_zero
  have even : (0 : UInt32) % 2 = 0 := rfl
  simp only [Slots.write, Slots.chosen, zero, even, if_true, true_and]
  by_cases slotZero : slots.slot1.wcGeneration = 0
  · rw [if_neg (by rw [positive]; exact fun differ => differ slotZero), if_pos slotZero]
  · rw [if_pos (positive.mpr slotZero), if_neg slotZero]

private theorem headerNext_block_zero (g : Geometry) (slots : Slots) (completed : Nat × Nat)
    (head tail : Nat) (zero : wc.wcGeneration = 0) :
    headerNext g .block ⟨slots, .committing wc head tail, completed⟩ =
      some ⟨slots.write (wc.publish head tail),
        .committing { wc.publish head tail with wcGeneration := wc.wcGeneration + 1 } head tail,
        completed⟩ := by
  simp [headerNext, wapblWriteCommitBlock, zero]

private theorem headerNext_block_nonzero (g : Geometry) (slots : Slots) (completed : Nat × Nat)
    (head tail : Nat) (nonzero : wc.wcGeneration ≠ 0) :
    headerNext g .block ⟨slots, .committing wc head tail, completed⟩ =
      some ⟨slots.write (wc.publish head tail),
        .ready { wc.publish head tail with wcGeneration := wc.wcGeneration + 1 },
        (head, tail)⟩ := by
  simp [headerNext, wapblWriteCommitBlock, nonzero]

/-- A header block keeps the slots consistent if the guard holds. -/
theorem HeaderState.Consistent.block {next : HeaderState} (consistent : state.Consistent)
    (guarded : headerGuard .block state) (stepped : headerNext g .block state = some next) :
    next.Consistent := by
  rcases state with ⟨slots, core, completed⟩
  cases core with
  | closed | ready wc => simp [headerNext] at stepped
  | committing wc head tail =>
    by_cases zero : wc.wcGeneration = 0
    · -- first block of generation zero: slot 1 still decides
      rw [headerNext_block_zero g slots completed head tail zero, some.injEq] at stepped
      subst next
      have chosenEq : slots.chosen.offsets = completed := by
        rcases consistent with ⟨chosenEq, _⟩ | ⟨one, _⟩
        · exact chosenEq
        · rw [zero] at one
          exact absurd one (by decide)
      have written := chosen_write_zero slots (wc.publish head tail) zero
      refine .inr ⟨by simp [zero], written.1, ?_⟩
      rw [written.2]
      by_cases slotZero : slots.slot1.wcGeneration = 0
      · rw [if_pos slotZero]
        exact .inr rfl
      · rw [if_neg slotZero]
        have safe : slots.RestartSafe (head, tail) := guarded zero
        rcases safe with absurdZero | same | same
        · exact absurd absurdZero slotZero
        · exact .inl (same.trans chosenEq)
        · exact .inr same
    · rw [headerNext_block_nonzero g slots completed head tail zero, some.injEq] at stepped
      subst next
      have accepts : slots.Accepts wc.wcGeneration := by
        rcases consistent with ⟨_, accepts⟩ | ⟨one, slotZero, _⟩
        · exact accepts
        · -- second block of generation zero: generation one over generation zero
          intro _
          rw [one, if_neg (by decide), slotZero]
          decide
      have chosenEq : (slots.write (wc.publish head tail)).chosen = wc.publish head tail :=
        Slots.Accepts.chosen_write accepts zero
      exact ⟨by rw [chosenEq]; rfl, slots.accepts_succ (wc.publish head tail)⟩

/-- Every guarded step keeps the slots consistent. -/
theorem HeaderState.Consistent.next {next : HeaderState} (consistent : state.Consistent)
    (guarded : headerGuard label state) (stepped : headerNext g label state = some next) :
    next.Consistent := by
  rcases state with ⟨slots, core, completed⟩
  cases label with
  | start recovered =>
    cases core with
    | closed =>
      cases recovered with
      | none =>
        simp only [headerNext, some.injEq] at stepped
        subst next
        exact .inl ⟨consistent, fun nonzero => absurd rfl nonzero⟩
      | some offsets =>
        simp only [headerNext, map_eq_some_iff] at stepped
        rcases stepped with ⟨replayed, read, rfl⟩
        have replayedEq : replayed = slots.chosen := by
          unfold wapblReplayStartHeader at read
          split at read
          · contradiction
          · exact (some.inj read).symm
        subst replayed
        exact .inl ⟨consistent, slots.accepts_chosen_succ⟩
    | ready wc | committing wc head tail => simp [headerNext] at stepped
  | commit head tail =>
    cases core with
    | closed => simp [headerNext] at stepped
    | ready wc =>
      simp only [headerNext, some.injEq] at stepped
      subst next
      exact .inl consistent
    | committing wc _ _ => simp [headerNext] at stepped
  | block => exact HeaderState.Consistent.block consistent guarded stepped
  | crash =>
    simp only [headerNext, some.injEq] at stepped
    subst next
    exact rfl

/-- A block of generation zero that the guard forbids makes the stale header in
slot 1 the selected one. -/
theorem HeaderState.Consistent.not_atomic {next : HeaderState} (consistent : state.Consistent)
    (unguarded : ¬headerGuard label state) (stepped : headerNext g label state = some next) :
    ¬next.Atomic := by
  rcases state with ⟨slots, core, completed⟩
  cases label with
  | block =>
    cases core with
    | closed | ready wc => exact absurd trivial unguarded
    | committing wc head tail =>
      simp only [headerGuard, Slots.RestartSafe, not_forall, not_or] at unguarded
      rcases unguarded with ⟨zero, slotNonzero, notChosen, notWritten⟩
      rw [headerNext_block_zero g slots completed head tail zero, some.injEq] at stepped
      subst next
      have chosenEq : slots.chosen.offsets = completed := by
        rcases consistent with ⟨chosenEq, _⟩ | ⟨one, _⟩
        · exact chosenEq
        · rw [zero] at one
          exact absurd one (by decide)
      have written := (chosen_write_zero slots (wc.publish head tail) zero).2
      rw [if_neg slotNonzero] at written
      simp only [HeaderState.Atomic, HeaderState.inProgress, written, some.injEq, not_or]
      exact ⟨fun same => notChosen (same.trans chosenEq.symm), notWritten⟩
  | start recovered | commit head tail | crash => exact absurd trivial unguarded

/-- Along every run whose blocks of generation zero meet the guard, a crash at
any point finds the offsets of the last completed commit or of the one in
progress, and the guard is exactly what the next step needs to keep it so. -/
theorem wapblWriteCommit_atomic_iff (g : Geometry) (slots : Slots) (state : HeaderState)
    (run : Run (headerNext g) headerGuard (headerInit slots) state) :
    state.Atomic ∧ ∀ label next, headerNext g label state = some next →
      (next.Atomic ↔ headerGuard label state) := by
  have consistent : state.Consistent :=
    Run.invariant (fun _ _ _ holds guarded stepped => holds.next guarded stepped) run rfl
  refine ⟨consistent.atomic, fun label next stepped => ⟨fun atomic => ?_, fun guarded => ?_⟩⟩
  · by_contra unguarded
    exact consistent.not_atomic unguarded stepped atomic
  · exact (consistent.next guarded stepped).atomic

/-- A log is opened, its area is committed three times, and it is opened again. -/
def reopenRun : List HeaderStep :=
  [.start none, .block, .block, .commit 2048 1024, .block, .commit 3072 1024, .block,
    .commit 4096 2048, .block, .crash, .start none]

/-- The header blocks before the first open of the log. -/
def freshSlots : Slots :=
  ⟨wapblStartHeader minimalLog none, wapblStartHeader minimalLog none⟩

/-- Up to its second open the run meets the guard at every step. -/
theorem reopenRun_atomic :
    ∃ state, exec (headerNext minimalLog) headerGuard reopenRun (headerInit freshSlots) =
        some state ∧ state.completed = (4096, 2048) ∧ state.Atomic := by
  refine ⟨_, rfl, rfl, ?_⟩
  exact (wapblWriteCommit_atomic_iff minimalLog freshSlots _ (exec_run reopenRun rfl)).1

/-- The first block of the second open: generation zero replaces the last
commit in slot 0, and recovery falls back to the commit before it. -/
theorem reopenRun_block_not_atomic :
    ∃ state, Run (headerNext minimalLog) anyStep (headerInit freshSlots) state ∧ ¬state.Atomic := by
  refine ⟨_, exec_run (reopenRun ++ [.block]) rfl, ?_⟩
  decide

end Bitrig.Wapbl
