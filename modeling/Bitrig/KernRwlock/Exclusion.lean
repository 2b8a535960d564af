import Bitrig.KernRwlock.Rwlock

/-!
# The word of a lock encodes its holders

`Holders` relates the word to those who have the lock.  A step of a process makes one of seven
changes to the word and the holders; each keeps `Holders`.
-/

namespace Bitrig.KernRwlock

open Bitrig.Transition List

/-! ### Flags of a word -/

section Word

variable {k g m : Nat}

theorem and_low (small : m < 8) (low : g < 8) : (8 * k + g) &&& m = g &&& m := by
  have bounded : (8 * k + g) &&& m < 8 := lt_of_le_of_lt Nat.and_le_right small
  have reduced : ((8 * k + g) &&& m) % 2 ^ 3 = (8 * k + g) % 2 ^ 3 &&& m % 2 ^ 3 :=
    Nat.and_mod_two_pow
  have first : (8 * k + g) % 2 ^ 3 = g := by omega
  have second : m % 2 ^ 3 = m := by omega
  rw [first, second] at reduced
  omega

theorem or_low (small : m < 8) (low : g < 8) : (8 * k + g) ||| m = 8 * k + (g ||| m) := by
  have joined : (g ||| m) < 2 ^ 3 := Nat.or_lt_two_pow low small
  have first : 8 * k + g = 8 * k ||| g := Nat.two_pow_add_eq_or_of_lt (i := 3) low k
  have second : 8 * k + (g ||| m) = 8 * k ||| (g ||| m) :=
    Nat.two_pow_add_eq_or_of_lt (i := 3) joined k
  rw [first, second, Nat.or_assoc]

theorem rwProc_eq (low : g < 8) : rwProc (8 * k + g) = 8 * k := by
  unfold rwProc
  omega

theorem rwProc_aligned : rwProc (8 * k) = 8 * k :=
  rwProc_eq (g := 0) (by omega)

theorem and_both {o : Nat} (flagged : o &&& rwlockWait ≠ 0) (wrlock : o &&& rwlockWrlock ≠ 0) :
    o &&& (rwlockWrlock ||| rwlockWait) = rwlockWrlock ||| rwlockWait := by
  have low : o % 8 < 8 := Nat.mod_lt _ (by decide)
  have word : o = 8 * (o / 8) + o % 8 := (Nat.div_add_mod o 8).symm
  rw [word, and_low (by decide) low] at flagged wrlock ⊢
  have table : ∀ g < 8, g &&& rwlockWait ≠ 0 → g &&& rwlockWrlock ≠ 0 →
      g &&& (rwlockWrlock ||| rwlockWait) = rwlockWrlock ||| rwlockWait := by
    decide
  exact table _ low flagged wrlock

end Word

/-- The flags of waiting processes: a writer sets both. -/
def IsWaiting (f : Nat) : Prop :=
  f = 0 ∨ f = rwlockWait ∨ f = rwlockWait ||| rwlockWrwant

/-! ### The word and the holders -/

/-- The word of a lock, its readers and its writers. -/
inductive Holders : Nat → List Proc → List Proc → Prop
  | free : Holders 0 [] []
  | reading (r : Proc) (rs : List Proc) (f : Nat) (flags : IsWaiting f) :
      Holders (8 * (rs.length + 1) + f) (r :: rs) []
  | writing (k f : Nat) (flags : IsWaiting f) : Holders (8 * k + (rwlockWrlock + f)) [] [8 * k]

namespace Holders

variable {o : Nat} {p : Proc} {readers writers : List Proc}

theorem isWrlock_iff (holders : Holders o readers writers) :
    o &&& rwlockWrlock ≠ 0 ↔ writers ≠ [] := by
  cases holders with
  | free => decide
  | reading r rs f flags =>
    rcases flags with rfl | rfl | rfl <;> rw [and_low (by decide) (by decide)] <;> decide
  | writing k f flags =>
    rcases flags with rfl | rfl | rfl <;> rw [and_low (by decide) (by decide)] <;>
      simp [rwlockWrlock] <;> decide

theorem readers_eq_nil (holders : Holders o readers writers) (held : writers ≠ []) :
    readers = [] := by
  cases holders with
  | free => rfl
  | reading r rs f flags => exact absurd rfl held
  | writing k f flags => rfl

/-- A process that waits sets its flags. -/
theorem flag (op : Op) (holders : Holders o readers writers) (busy : op.check o ≠ 0) :
    Holders (o ||| op.waitSet) readers writers := by
  cases holders with
  | free => cases op <;> simp [Op.check] at busy
  | reading r rs f flags =>
    rcases flags with rfl | rfl | rfl <;> cases op <;> rw [or_low (by decide) (by decide)] <;>
      exact .reading r rs _ (by unfold IsWaiting; decide)
  | writing k f flags =>
    rcases flags with rfl | rfl | rfl <;> cases op <;> rw [or_low (by decide) (by decide)] <;>
      first
      | exact .writing k 0 (by unfold IsWaiting; decide)
      | exact .writing k 1 (by unfold IsWaiting; decide)
      | exact .writing k 3 (by unfold IsWaiting; decide)

theorem enterRead (holders : Holders o readers writers) (free : o &&& rwlockWrlock = 0) :
    Holders (o + rwlockReadIncr) (p :: readers) writers := by
  cases holders with
  | free => exact .reading p [] 0 (.inl rfl)
  | reading r rs f flags =>
    have word : 8 * (rs.length + 1) + f + rwlockReadIncr = 8 * ((r :: rs).length + 1) + f := by
      simp only [length_cons, rwlockReadIncr]
      omega
    rw [word]
    exact .reading p (r :: rs) f flags
  | writing k f flags => exact absurd free ((Holders.writing k f flags).isWrlock_iff.mpr (by simp))

theorem enterWrite (k : Nat) (holders : Holders 0 readers writers) :
    Holders (8 * k + rwlockWrlock) readers (8 * k :: writers) := by
  generalize word : 0 = o at holders
  cases holders with
  | free => exact .writing k 0 (.inl rfl)
  | reading r rs f flags => omega
  | writing k f flags =>
    unfold rwlockWrlock at word
    omega

section

variable (holders : Holders o readers writers)
include holders

theorem downgrade (mem : p ∈ writers) :
    Holders (Op.downgrade.add p o) (p :: readers) (writers.erase p) := by
  cases holders with
  | free => cases mem
  | reading r rs f flags => cases mem
  | writing k f flags =>
    obtain rfl := mem_singleton.mp mem
    have word : Op.downgrade.add (8 * k) (8 * k + (rwlockWrlock + f)) =
        8 * (([] : List Proc).length + 1) + f := by
      simp only [Op.add, Op.inc, Op.procMult, rwProc_aligned, rwlockWrlock, rwlockReadIncr,
        length_nil]
      omega
    rw [word, erase_cons_head]
    exact .reading (8 * k) [] f flags

/-- A reader that is the last one leaves no flags; otherwise it may clear them or leave them. -/
theorem exitRead {o' : Nat} (mem : p ∈ readers)
    (word : o &&& rwlockWait = 0 ∧ o' = o - rwlockReadIncr ∨ o' = lastFlags o) :
    Holders o' (readers.erase p) writers := by
  cases holders with
  | free => cases mem
  | writing k f flags => cases mem
  | reading r rs f flags =>
    -- The flags that remain.
    obtain ⟨f', flags', alone, eq⟩ : ∃ f', IsWaiting f' ∧ (rs = [] → f' = 0) ∧
        o' = 8 * rs.length + f' := by
      rcases word with ⟨quiet, rfl⟩ | rfl
      · rcases flags with rfl | rfl | rfl
        · refine ⟨0, .inl rfl, fun _ => rfl, ?_⟩
          unfold rwlockReadIncr
          omega
        · rw [and_low (by decide) (by decide)] at quiet
          exact absurd quiet (by decide)
        · rw [and_low (by decide) (by decide)] at quiet
          exact absurd quiet (by decide)
      · refine ⟨0, .inl rfl, fun _ => rfl, ?_⟩
        have small : f < 4 := by rcases flags with rfl | rfl | rfl <;> decide
        unfold lastFlags rwlockReadIncr
        omega
    have length : ((r :: rs).erase p).length = rs.length := by
      rw [length_erase_of_mem mem, length_cons, Nat.add_sub_cancel]
    generalize (r :: rs).erase p = left at length
    subst eq
    rw [← length]
    cases left with
    | nil =>
      rw [alone (length_eq_zero_iff.mp length.symm)]
      exact .free
    | cons q qs => exact .reading q qs f' flags'

theorem exitWrite (mem : p ∈ writers) : Holders 0 readers (writers.erase p) := by
  cases holders with
  | free => cases mem
  | reading r rs f flags => cases mem
  | writing k f flags =>
    obtain rfl := mem_singleton.mp mem
    rw [erase_cons_head]
    exact .free

end

end Holders

/-! ### Those who wait -/

/-- The word keeps the operation waiting and says that somebody waits. -/
structure Blocked (op : Op) (owner : Nat) : Prop where
  wait : owner &&& rwlockWait ≠ 0
  wrlock : op = .read → owner &&& rwlockWrlock ≠ 0

section Blocked

variable {o : Nat} {op : Op} {m flags : Nat}

theorem and_add_readIncr (small : m < 8) : (o + rwlockReadIncr) &&& m = o &&& m := by
  have low : o % 8 < 8 := Nat.mod_lt _ (by decide)
  have word : o = 8 * (o / 8) + o % 8 := (Nat.div_add_mod o 8).symm
  have more : o + rwlockReadIncr = 8 * (o / 8 + 1) + o % 8 := by
    unfold rwlockReadIncr
    omega
  rw [more, and_low small low]
  conv_rhs => rw [word, and_low small low]

theorem and_or_ne_zero (set : o &&& m ≠ 0) : (o ||| flags) &&& m ≠ 0 := by
  rw [Nat.and_or_distrib_right]
  intro none
  exact set (Nat.or_eq_zero_iff.mp none).1

theorem Blocked.ne_zero (blocked : Blocked op o) : o ≠ 0 := by
  rintro rfl
  exact blocked.wait rfl

/-- Flags of another process are added. -/
theorem Blocked.flag (blocked : Blocked op o) : Blocked op (o ||| flags) where
  wait := and_or_ne_zero blocked.wait
  wrlock read := and_or_ne_zero (blocked.wrlock read)

/-- The process has set its own flags. -/
theorem Blocked.of_busy (busy : op.check o ≠ 0) : Blocked op (o ||| op.waitSet) where
  wait := by
    rw [Nat.and_or_distrib_right]
    intro none
    cases op with
    | write | read => exact absurd (Nat.or_eq_zero_iff.mp none).2 (by decide)
    | downgrade => exact busy rfl
  wrlock := by
    rintro rfl
    exact and_or_ne_zero busy

/-- Readers that come in do not wait, so that nobody waits to read. -/
theorem Blocked.enterRead (blocked : Blocked op o) (free : o &&& rwlockWrlock = 0) :
    Blocked op (o + rwlockReadIncr) where
  wait := by
    rw [and_add_readIncr (by decide)]
    exact blocked.wait
  wrlock read := absurd free (blocked.wrlock read)

end Blocked

/-! ### What a step does -/

/-- A process on the queue that is going to sleep or sleeps. -/
def Waiting (s : Sys) (p : Proc) (op : Op) : Prop :=
  match s.pc p with
  | .finish op' _ true => op' = op ∧ s.onq p = true
  | .asleep op' _ => op' = op
  | _ => False

/-- What is known of a process by where it is. -/
def Placed (readers writers : List Proc) (p : Proc) : Pc → Prop
  | .out | .wake => True
  | .enterRead | .enterWriteCas => p % 8 = 0
  | .enterReadCas o => p % 8 = 0 ∧ o &&& rwlockWrlock = 0
  | .enter op _ => p % 8 = 0 ∧ (op = .downgrade → p ∈ writers)
  | .diag op _ o | .setup op _ o | .waitCas op _ o => p % 8 = 0 ∧ op.check o ≠ 0
  | .finish op _ _ | .asleep op _ | .awake op _ => p % 8 = 0 ∧ op ≠ .downgrade
  | .cas op _ o => p % 8 = 0 ∧ op.check o = 0 ∧ (op = .downgrade → p ∈ writers)
  | .exitRead | .exitReadAssert _ => p ∈ readers
  | .exitReadCas o => p ∈ readers ∧ o &&& rwlockWait = 0
  | .exitWrite | .exitWriteAssert _ => p ∈ writers
  | .exitWriteCas o => p ∈ writers ∧ o &&& rwlockWait = 0
  | .exit => p ∈ readers ∨ p ∈ writers
  | .exitAssert wrlock | .exitLoop wrlock | .exitCas wrlock _ =>
    if wrlock then p ∈ writers else p ∈ readers

/-- How a step changes the word, the readers and the writers. -/
inductive Change (p : Proc) (o : Nat) (readers writers : List Proc) :
    Nat → List Proc → List Proc → Prop
  | quiet : Change p o readers writers o readers writers
  | flag (op : Op) (busy : op.check o ≠ 0) :
      Change p o readers writers (o ||| op.waitSet) readers writers
  | enterRead (free : o &&& rwlockWrlock = 0) :
      Change p o readers writers (o + rwlockReadIncr) (p :: readers) writers
  | enterWrite (aligned : p % 8 = 0) (free : o = 0) :
      Change p o readers writers (p + rwlockWrlock) readers (p :: writers)
  | downgrade (mem : p ∈ writers) :
      Change p o readers writers (Op.downgrade.add p o) (p :: readers) (writers.erase p)
  | exitRead (o' : Nat) (mem : p ∈ readers)
      (word : o &&& rwlockWait = 0 ∧ o' = o - rwlockReadIncr ∨ o' = lastFlags o) :
      Change p o readers writers o' (readers.erase p) writers
  | exitWrite (mem : p ∈ writers) : Change p o readers writers 0 readers (writers.erase p)

/-- The effect of a step on the lock, and what it does for those who wait: they stay blocked, or the
process is going to wake them. -/
structure Effect (p : Proc) (s s' : Sys) : Prop where
  change : Change p s.owner s.readers s.writers s'.owner s'.readers s'.writers
  pc : ∀ q, q ≠ p → s'.pc q = s.pc q
  onq : ∀ q, q ≠ p → s'.onq q = s.onq q
  own : ∀ op, Waiting s' p op → Blocked op s'.owner ∨ Waiting s p op
  kept : ∀ op, Blocked op s.owner → s'.pc p = .wake ∨ Blocked op s'.owner

/-- The call of `wakeup`: the other processes are behind their sleep if they slept. -/
structure Woken (p : Proc) (s s' : Sys) : Prop where
  before : s.pc p = .wake
  after : s' = (wakeup s).goto p .out

section Goto

variable {s t : Sys} {p q : Proc} {pc : Pc} {op : Op} {o : Nat}

@[simp]
theorem goto_pc : (s.goto p pc).pc p = pc :=
  Function.update_self ..

theorem goto_pc_of_ne (other : q ≠ p) : (s.goto p pc).pc q = s.pc q :=
  Function.update_of_ne other ..

/-- Is the process going to sleep, or does it sleep? -/
def Pc.sleeps : Pc → Bool
  | .finish _ _ true | .asleep .. => true
  | _ => false

theorem not_waiting_goto (awake : pc.sleeps = false) : ¬ Waiting (t.goto p pc) p op := by
  unfold Waiting
  rw [goto_pc]
  cases pc with
  | finish op' flags doSleep =>
    cases doSleep with
    | false => exact id
    | true => cases awake
  | asleep op' flags => cases awake
  | _ => exact id

/-- What a step of a process does, and where the process is then. -/
structure Outcome (p : Proc) (s s' : Sys) : Prop where
  effect : Woken p s s' ∨ s.pc p ≠ .wake ∧ Effect p s s'
  placed : Placed s'.readers s'.writers p (s'.pc p)

theorem Outcome.of_effect (here : s.pc p ≠ .wake) (effect : Effect p s (t.goto p pc))
    (placed : Placed t.readers t.writers p pc) : Outcome p s (t.goto p pc) where
  effect := .inr ⟨here, effect⟩
  placed := by
    rw [goto_pc]
    exact placed

/-- The word is swapped. -/
theorem Outcome.swap (here : s.pc p ≠ .wake) (awake : pc.sleeps = false)
    (change : Change p s.owner s.readers s.writers o readers writers)
    (kept : ∀ op, Blocked op s.owner → pc = .wake ∨ Blocked op o)
    (placed : Placed readers writers p pc) :
    Outcome p s ({ s with owner := o, readers := readers, writers := writers }.goto p pc) := by
  refine .of_effect here ⟨change, fun q other => goto_pc_of_ne other, fun _ _ => rfl,
    fun op waiting => absurd waiting (not_waiting_goto awake), ?_⟩ placed
  rw [goto_pc]
  exact kept

theorem Outcome.goto (here : s.pc p ≠ .wake) (awake : pc.sleeps = false)
    (placed : Placed s.readers s.writers p pc) : Outcome p s (s.goto p pc) :=
  .swap here awake .quiet (fun _ => .inr) placed

/-- The process is put on the queue or taken off. -/
theorem Outcome.queue (onq : Bool) (here : s.pc p ≠ .wake) (awake : pc.sleeps = false)
    (placed : Placed s.readers s.writers p pc) :
    Outcome p s ({ s with onq := Function.update s.onq p onq }.goto p pc) :=
  .of_effect here ⟨.quiet, fun _ other => goto_pc_of_ne other,
    fun _ other => Function.update_of_ne other ..,
    fun _ waiting => absurd waiting (not_waiting_goto awake), fun _ => .inr⟩ placed

/-- The process goes one way or the other. -/
theorem Outcome.branch {c : Prop} [Decidable c] {pc' : Pc} (here : s.pc p ≠ .wake)
    (yes : c → pc.sleeps = false ∧ Placed s.readers s.writers p pc)
    (no : ¬ c → pc'.sleeps = false ∧ Placed s.readers s.writers p pc') :
    Outcome p s (s.goto p (if c then pc else pc')) := by
  by_cases holds : c
  · rw [if_pos holds]
    exact .goto here (yes holds).1 (yes holds).2
  · rw [if_neg holds]
    exact .goto here (no holds).1 (no holds).2

/-- A compare and swap takes place, or the word has changed. -/
theorem Outcome.cas {swapped failed s' : Sys}
    (step : (if s.owner = o then some swapped else some failed) = some s')
    (swap : s.owner = o → Outcome p s swapped) (retry : Outcome p s failed) : Outcome p s s' := by
  split at step
  case isTrue same =>
    cases step
    exact swap same
  case isFalse =>
    cases step
    exact retry

end Goto

variable {diagnostic : Bool} {s s' : Sys}

theorem stepProc_outcome {signal : Bool} (holders : Holders s.owner s.readers s.writers)
    (placed : Placed s.readers s.writers p (s.pc p))
    (step : stepProc diagnostic signal p s = some s') : Outcome p s s' := by
  unfold stepProc at step
  by_cases wakes : s.pc p = .wake
  · rw [wakes] at step
    cases step
    exact ⟨.inl ⟨wakes, rfl⟩, by rw [goto_pc]; trivial⟩
  generalize here : s.pc p = pc at step placed
  -- The cases are in the order of the source.
  cases pc with
  | out => cases step
  | asleep op flags => cases step
  | enterRead =>
    cases step
    exact .branch wakes (fun _ => ⟨rfl, placed, nofun⟩) fun free => ⟨rfl, placed, not_not.mp free⟩
  | enterReadCas owner =>
    obtain ⟨aligned, free⟩ := placed
    refine .cas step (fun same => ?_) (.goto wakes rfl ⟨aligned, nofun⟩)
    subst same
    exact .swap wakes rfl (.enterRead free) (fun _ before => .inr (before.enterRead free)) trivial
  | enterWriteCas =>
    refine .cas step (fun free => ?_) (.goto wakes rfl ⟨placed, nofun⟩)
    have word : rwProc p ||| rwlockWrlock = p + rwlockWrlock := by
      obtain ⟨k, rfl⟩ := Nat.dvd_of_mod_eq_zero placed
      rw [rwProc_aligned]
      exact or_low (g := 0) (by decide) (by decide)
    rw [word]
    exact .swap wakes rfl (.enterWrite placed free)
      (fun _ before => absurd free before.ne_zero) trivial
  | enter op flags =>
    obtain ⟨aligned, writer⟩ := placed
    cases step
    exact .branch wakes (fun busy => ⟨rfl, aligned, busy⟩)
      fun free => ⟨rfl, aligned, not_not.mp free, writer⟩
  | diag op flags o =>
    obtain ⟨-, -, step⟩ := Option.bind_eq_some_iff.mp step
    cases step
    exact .branch wakes (fun _ => ⟨rfl, trivial⟩) fun _ => ⟨rfl, placed⟩
  | setup op flags o =>
    cases step
    exact .queue _ wakes rfl placed
  | waitCas op flags o =>
    obtain ⟨aligned, busy⟩ := placed
    have notDowngrade : op ≠ .downgrade := by
      rintro rfl
      exact busy rfl
    refine .cas step (fun same => ?_) (.goto wakes rfl ⟨aligned, notDowngrade⟩)
    subst same
    refine .of_effect wakes ⟨.flag op busy, fun _ other => goto_pc_of_ne other, fun _ _ => rfl,
      fun op' waiting => .inl ?_, fun _ before => .inr before.flag⟩ ⟨aligned, notDowngrade⟩
    unfold Waiting at waiting
    rw [goto_pc] at waiting
    rw [← waiting.1]
    exact .of_busy busy
  | finish op flags doSleep =>
    dsimp only at step
    split at step
    case isTrue sleeps =>
      cases step
      obtain ⟨rfl, onq⟩ := (Bool.and_eq_true _ _).mp sleeps
      refine .of_effect wakes ⟨.quiet, fun _ other => goto_pc_of_ne other, fun _ _ => rfl,
        fun op' waiting => .inr ?_, fun _ => .inr⟩ placed
      unfold Waiting at waiting ⊢
      rw [goto_pc] at waiting
      rw [here]
      exact ⟨waiting, onq⟩
    case isFalse =>
      cases step
      exact .queue _ wakes rfl placed
  | awake op flags =>
    obtain ⟨aligned, notDowngrade⟩ := placed
    cases step
    refine .branch wakes (fun _ => ⟨rfl, trivial⟩) fun _ => ?_
    split
    case isTrue => exact ⟨rfl, trivial⟩
    case isFalse => exact ⟨rfl, aligned, fun same => absurd same notDowngrade⟩
  | cas op flags o =>
    obtain ⟨aligned, free, writer⟩ := placed
    refine .cas step (fun same => ?_) (.goto wakes rfl ⟨aligned, writer⟩)
    subst same
    have sleeps : (if s.owner &&& (rwlockWrlock ||| rwlockWait) = rwlockWrlock ||| rwlockWait
        then Pc.wake else .out).sleeps = false := by split <;> rfl
    cases op with
    | read =>
      have word : Op.read.add p s.owner = s.owner + rwlockReadIncr := by
        simp only [Op.add, Op.inc, Op.procMult]
        omega
      exact .swap wakes sleeps (.enterRead free) (fun _ before => .inr (before.enterRead free))
        (by split <;> trivial)
    | write =>
      have word : Op.write.add p s.owner = p + rwlockWrlock := by
        obtain ⟨k, rfl⟩ := Nat.dvd_of_mod_eq_zero aligned
        have empty : s.owner = 0 := free
        simp only [Op.add, Op.inc, Op.procMult, rwProc_aligned, empty]
        omega
      rw [word]
      exact .swap wakes sleeps (.enterWrite aligned free)
        (fun _ before => absurd free before.ne_zero) (by split <;> trivial)
    | downgrade =>
      have mem := writer rfl
      have wrlock := holders.isWrlock_iff.mpr (ne_nil_of_mem mem)
      exact .swap wakes sleeps (.downgrade mem)
        (fun _ before => .inl (if_pos (and_both before.wait wrlock))) (by split <;> trivial)
  | wake => exact absurd here wakes
  | exitRead =>
    cases step
    exact .goto wakes rfl placed
  | exitReadAssert owner =>
    obtain ⟨-, -, step⟩ := Option.bind_eq_some_iff.mp step
    cases step
    exact .branch wakes (fun _ => ⟨rfl, .inl placed⟩) fun quiet => ⟨rfl, placed, not_not.mp quiet⟩
  | exitReadCas owner =>
    obtain ⟨mem, quiet⟩ := placed
    refine .cas step (fun same => ?_) (.goto wakes rfl (.inl mem))
    subst same
    exact .swap wakes rfl (.exitRead _ mem (.inl ⟨quiet, rfl⟩))
      (fun _ before => absurd quiet before.wait) trivial
  | exitWrite =>
    cases step
    exact .goto wakes rfl placed
  | exitWriteAssert owner =>
    obtain ⟨-, -, step⟩ := Option.bind_eq_some_iff.mp step
    cases step
    exact .branch wakes (fun _ => ⟨rfl, .inr placed⟩) fun quiet => ⟨rfl, placed, not_not.mp quiet⟩
  | exitWriteCas owner =>
    obtain ⟨mem, quiet⟩ := placed
    refine .cas step (fun same => ?_) (.goto wakes rfl (.inr mem))
    subst same
    exact .swap wakes rfl (.exitWrite mem) (fun _ before => absurd quiet before.wait) trivial
  | exit =>
    cases step
    refine .goto wakes rfl ?_
    change if (s.owner &&& rwlockWrlock != 0) = true then p ∈ s.writers else p ∈ s.readers
    have wrlock := holders.isWrlock_iff
    rw [← bne_iff_ne] at wrlock
    split
    case isTrue held =>
      rcases placed with mem | mem
      · exact absurd (holders.readers_eq_nil (wrlock.mp held)) (ne_nil_of_mem mem)
      · exact mem
    case isFalse held =>
      rcases placed with mem | mem
      · exact mem
      · exact absurd (wrlock.mpr (ne_nil_of_mem mem)) held
  | exitAssert wrlock =>
    obtain ⟨-, -, step⟩ := Option.bind_eq_some_iff.mp step
    cases step
    exact .goto wakes rfl placed
  | exitLoop wrlock =>
    cases step
    exact .goto wakes rfl placed
  | exitCas wrlock owner =>
    have sleeps : (if owner &&& rwlockWait ≠ 0 then Pc.wake else .out).sleeps = false := by
      split <;> rfl
    cases wrlock with
    | true =>
      refine .cas step (fun same => ?_) (.goto wakes rfl placed)
      subst same
      exact .swap wakes sleeps (.exitWrite placed) (fun _ before => .inl (if_pos before.wait))
        (by split <;> trivial)
    | false =>
      refine .cas step (fun same => ?_) (.goto wakes rfl placed)
      subst same
      exact .swap wakes sleeps (.exitRead _ placed (.inr rfl))
        (fun _ before => .inl (if_pos before.wait)) (by split <;> trivial)

/-! ### All runs -/

section Steps

variable {p q : Proc} {o o' : Nat} {readers readers' writers writers' : List Proc}

/-- The change of a step keeps the encoding. -/
theorem Change.holders (change : Change p o readers writers o' readers' writers')
    (holders : Holders o readers writers) : Holders o' readers' writers' := by
  cases change with
  | quiet => exact holders
  | flag op busy => exact holders.flag op busy
  | enterRead free => exact holders.enterRead free
  | enterWrite aligned free =>
    obtain ⟨k, rfl⟩ := Nat.dvd_of_mod_eq_zero aligned
    rw [free] at holders
    exact holders.enterWrite k
  | downgrade mem => exact holders.downgrade mem
  | exitRead o' mem word => exact holders.exitRead mem word
  | exitWrite mem => exact holders.exitWrite mem

/-- What a process has is not taken from it by another one. -/
theorem Change.kept (change : Change p o readers writers o' readers' writers') (other : q ≠ p) :
    (q ∈ readers → q ∈ readers') ∧ (q ∈ writers → q ∈ writers') := by
  cases change with
  | quiet | flag => exact ⟨id, id⟩
  | enterRead | enterWrite | downgrade | exitRead | exitWrite =>
    simp +contextual [mem_erase_of_ne other]

theorem Placed.mono (read : p ∈ readers → p ∈ readers') (write : p ∈ writers → p ∈ writers')
    (placed : Placed readers writers p pc) : Placed readers' writers' p pc := by
  cases pc with
  | enter op flags => exact ⟨placed.1, fun same => write (placed.2 same)⟩
  | cas op flags o => exact ⟨placed.1, placed.2.1, fun same => write (placed.2.2 same)⟩
  | exitRead | exitReadAssert owner => exact read placed
  | exitReadCas owner => exact ⟨read placed.1, placed.2⟩
  | exitWrite | exitWriteAssert owner => exact write placed
  | exitWriteCas owner => exact ⟨write placed.1, placed.2⟩
  | exit => exact placed.imp read write
  | exitAssert wrlock | exitLoop wrlock | exitCas wrlock owner =>
    cases wrlock with
    | true => exact write placed
    | false => exact read placed
  | _ => exact placed

end Steps

/-- The word encodes the holders, and every process is where it may be. -/
structure Encoded (s : Sys) : Prop where
  holders : Holders s.owner s.readers s.writers
  placed : ∀ p, Placed s.readers s.writers p (s.pc p)

namespace Encoded

variable {s s' : Sys} {p : Proc}

theorem of_effect (encoded : Encoded s) (effect : Effect p s s')
    (placed : Placed s'.readers s'.writers p (s'.pc p)) : Encoded s' where
  holders := effect.change.holders encoded.holders
  placed q := by
    by_cases same : q = p
    · rw [same]
      exact placed
    · obtain ⟨read, write⟩ := effect.change.kept same
      rw [effect.pc q same]
      exact (encoded.placed q).mono read write

theorem woken (encoded : Encoded s) (woken : Woken p s s') : Encoded s' := by
  obtain ⟨-, rfl⟩ := woken
  refine ⟨encoded.holders, fun q => ?_⟩
  by_cases same : q = p
  · rw [same, goto_pc]
    trivial
  · rw [goto_pc_of_ne same]
    have placed := encoded.placed q
    unfold wakeup
    dsimp only [Sys.goto]
    generalize s.pc q = pc at placed
    cases pc <;> exact placed

theorem outcome (encoded : Encoded s) (outcome : Outcome p s s') : Encoded s' := by
  rcases outcome.effect with woken | ⟨-, effect⟩
  · exact encoded.woken woken
  · exact encoded.of_effect effect outcome.placed

end Encoded

/-- A call or a signal changes neither the word nor the holders. -/
theorem next_outcome {label : Label} (encoded : Encoded s) (legal : Legal label s)
    (step : next diagnostic label s = some s') : ∃ p, Outcome p s s' := by
  cases label with
  | step p signal => exact ⟨p, stepProc_outcome encoded.holders (encoded.placed p) step⟩
  | call p call =>
    obtain ⟨⟨-, aligned⟩, may⟩ := legal
    unfold next at step
    dsimp only at step
    split at step
    case h_2 => cases step
    case h_1 here =>
      cases step
      have notWake : s.pc p ≠ .wake := here ▸ nofun
      refine ⟨p, .goto notWake (by cases call <;> rfl) ?_⟩
      cases call with
      | enter op flags =>
        refine ⟨aligned, ?_⟩
        rintro rfl
        exact may
      | enterRead => exact aligned
      | enterWrite => exact aligned
      | exit => exact may
      | exitRead => exact may
      | exitWrite => exact may
  | interrupt p =>
    unfold next at step
    dsimp only at step
    split at step
    case h_2 => cases step
    case h_1 op flags here =>
      split at step
      case isFalse => cases step
      case isTrue =>
        cases step
        have placed := encoded.placed p
        rw [here] at placed
        have notWake : s.pc p ≠ .wake := here ▸ nofun
        exact ⟨p, .queue _ notWake rfl placed⟩

theorem encoded_run (run : Run (next diagnostic) Legal rwInit s) : Encoded s := by
  refine run.invariant (P := Encoded) ?_ ⟨.free, fun _ => trivial⟩
  intro label source target encoded legal step
  obtain ⟨p, outcome⟩ := next_outcome encoded legal step
  exact encoded.outcome outcome

/-- After any steps of any processes the word has the flag and the address of a process if and only
if that process alone has the lock, and has it for writing.  Otherwise it counts the readers. -/
theorem word_encodes_holders {diagnostic : Bool} {s : Sys}
    (run : Run (next diagnostic) Legal rwInit s) :
    (∀ p, s.owner &&& rwlockWrlock ≠ 0 ∧ rwProc s.owner = p ↔ s.writers = [p] ∧ s.readers = []) ∧
    (s.owner &&& rwlockWrlock = 0 → s.writers = [] ∧ readCount s.owner = s.readers.length) ∧
    (∀ p ∈ s.writers, s.writers = [p] ∧ s.readers = []) := by
  have holders := (encoded_run run).holders
  have wrlock := holders.isWrlock_iff
  generalize s.owner = o, s.readers = readers, s.writers = writers at holders wrlock
  cases holders with
  | free => simp [readCount]
  | reading r rs f flags =>
    have clear : 8 * (rs.length + 1) + f &&& rwlockWrlock = 0 := by simpa using wrlock
    have count : readCount (8 * (rs.length + 1) + f) = (r :: rs).length := by
      have small : f < 8 := by rcases flags with rfl | rfl | rfl <;> decide
      unfold readCount
      rw [length_cons]
      omega
    simp [clear, count]
  | writing k f flags =>
    have small : rwlockWrlock + f < 8 := by rcases flags with rfl | rfl | rfl <;> decide
    have set : 8 * k + (rwlockWrlock + f) &&& rwlockWrlock ≠ 0 := wrlock.mpr (by simp)
    simp [set, rwProc_eq small]

/-- Process 16 waits for process 8, which goes on as a reader and leaves. -/
def sampleLabels : List Label :=
  [.call 8 .enterWrite, .step 8 false, .call 16 (.enter .write noFlags)] ++
  List.replicate 5 (.step 16 false) ++
  [.call 8 (.enter .downgrade noFlags)] ++ List.replicate 3 (.step 8 false) ++
  [.call 8 .exitRead] ++ List.replicate 7 (.step 8 false) ++ List.replicate 3 (.step 16 false)

theorem sample_word_encodes :
    ∃ s, Run (next true) Legal rwInit s ∧ s.writers = [16] ∧ rwProc s.owner = 16 := by
  refine exec_implies (Q := fun s => s.writers = [16] ∧ s.readers = [])
    sampleLabels (by decide +kernel) ?_
  intro s run alone
  exact ⟨alone.1, (((word_encodes_holders run).1 16).mpr alone).2⟩

theorem Holders.assertions {o : Nat} {p : Proc} {readers writers : List Proc}
    (holders : Holders o readers writers) :
    (p ∈ writers → rwAssertWrlock p o) ∧ (p ∈ readers → rwAssertRdlock o) := by
  have wrlock := holders.isWrlock_iff
  cases holders with
  | free => simp
  | reading r rs f flags =>
    have small : f < 8 := by rcases flags with rfl | rfl | rfl <;> decide
    exact ⟨by simp, fun _ => ⟨by rw [rwProc_eq small]; omega, by simpa using wrlock⟩⟩
  | writing k f flags =>
    have small : rwlockWrlock + f < 8 := by rcases flags with rfl | rfl | rfl <;> decide
    refine ⟨fun mem => ⟨wrlock.mpr (by simp), ?_⟩, by simp⟩
    rw [mem_singleton.mp mem, rwProc_eq small, rwProc_aligned]

/-- An exit checks the word as others have left it, and the check passes. -/
theorem exit_assertions_hold {diagnostic : Bool} {s : Sys}
    (run : Run (next diagnostic) Legal rwInit s) (p : Proc) :
    (∀ o, s.pc p = .exitReadAssert o → rwAssertRdlock s.owner) ∧
    (∀ o, s.pc p = .exitWriteAssert o → rwAssertWrlock p s.owner) ∧
    ∀ wrlock, s.pc p = .exitAssert wrlock →
      if wrlock then rwAssertWrlock p s.owner else rwAssertRdlock s.owner := by
  have placed := (encoded_run run).placed p
  obtain ⟨writer, reader⟩ := (encoded_run run).holders.assertions (p := p)
  refine ⟨fun o here => ?_, fun o here => ?_, fun wrlock here => ?_⟩ <;> rw [here] at placed
  · exact reader placed
  · exact writer placed
  · cases wrlock with
    | true => exact writer placed
    | false => exact reader placed

theorem sample_exit_assertion :
    ∃ s : Sys, s.pc 8 = .exitWriteAssert 12 ∧ rwAssertWrlock 8 s.owner := by
  have run : Run (next true) Legal rwInit _ :=
    exec_run [.call 8 .enterWrite, .step 8 false, .call 8 .exitWrite, .step 8 false] rfl
  exact ⟨_, rfl, (exit_assertions_hold run 8).2.1 12 rfl⟩

end Bitrig.KernRwlock
