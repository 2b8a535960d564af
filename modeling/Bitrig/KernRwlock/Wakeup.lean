import Bitrig.KernRwlock.Exclusion

/-!
# No process sleeps for a lock that is free

A process goes to sleep with `RWLOCK_WAIT` set in the word it has seen.  Whoever takes the flag
away, or gives up the write lock readers wait for, calls `wakeup` as its next step.  Between those
two steps the flag is clear and the process still sleeps.
-/

namespace Bitrig.KernRwlock

open Bitrig.Transition

/-- Some process is in front of its call of `wakeup`. -/
def WakeupDue (s : Sys) : Prop :=
  ∃ q, s.pc q = .wake

/-- Whoever waits is blocked or is going to be woken. -/
def Covered (s : Sys) : Prop :=
  ∀ p op, Waiting s p op → WakeupDue s ∨ Blocked op s.owner

section Steps

variable {s s' : Sys} {p : Proc}

theorem Effect.waiting {q : Proc} {op : Op} (effect : Effect p s s') (other : q ≠ p) :
    Waiting s' q op ↔ Waiting s q op := by
  unfold Waiting
  rw [effect.pc q other, effect.onq q other]

theorem Effect.wakeupDue (effect : Effect p s s') (here : s.pc p ≠ .wake) (due : WakeupDue s) :
    WakeupDue s' := by
  obtain ⟨q, wakes⟩ := due
  have other : q ≠ p := by
    rintro rfl
    exact here wakes
  exact ⟨q, (effect.pc q other).trans wakes⟩

theorem Covered.of_effect (covered : Covered s) (here : s.pc p ≠ .wake) (effect : Effect p s s') :
    Covered s' := by
  intro q op waiting
  have before : Blocked op s'.owner ∨ Waiting s q op := by
    by_cases same : q = p
    · subst same
      exact effect.own op waiting
    · exact .inr ((effect.waiting same).mp waiting)
  rcases before with now | before
  · exact .inr now
  · rcases covered q op before with due | before
    · exact .inl (effect.wakeupDue here due)
    · exact (effect.kept op before).imp_left fun wakes => ⟨p, wakes⟩

/-- After `wakeup` nobody waits. -/
theorem Woken.not_waiting (woken : Woken p s s') (q : Proc) (op : Op) : ¬ Waiting s' q op := by
  obtain ⟨-, rfl⟩ := woken
  by_cases same : q = p
  · rw [same]
    exact not_waiting_goto rfl
  · unfold Waiting
    rw [goto_pc_of_ne same]
    unfold wakeup
    dsimp only [Sys.goto]
    generalize s.pc q = pc
    cases pc with
    | finish op' flags doSleep => cases doSleep <;> simp
    | _ => exact id

theorem Covered.outcome (covered : Covered s) (outcome : Outcome p s s') : Covered s' := by
  rcases outcome.effect with woken | ⟨here, effect⟩
  · exact fun q op waiting => absurd waiting (woken.not_waiting q op)
  · exact covered.of_effect here effect

end Steps

theorem covered_run {diagnostic : Bool} {s : Sys} (run : Run (next diagnostic) Legal rwInit s) :
    Covered s := by
  have both := run.invariant (P := fun s => Encoded s ∧ Covered s) ?_
    ⟨⟨.free, fun _ => trivial⟩, fun _ _ waiting => waiting.elim⟩
  · exact both.2
  · intro label source target before legal step
    obtain ⟨p, outcome⟩ := next_outcome before.1 legal step
    exact ⟨before.1.outcome outcome, before.2.outcome outcome⟩

/-- A process that sleeps in `rw_enter` waits for a lock that somebody has, in the way that keeps it
waiting, and the flag is set; or a process has just changed the word and its next step is the call
of `wakeup`, after which nobody sleeps. -/
theorem sleeper_is_blocked_or_woken {diagnostic : Bool} {s : Sys}
    (run : Run (next diagnostic) Legal rwInit s) :
    (∀ p op flags, s.pc p = .asleep op flags →
      (s.owner &&& rwlockWait ≠ 0 ∧ (s.readers ≠ [] ∨ s.writers ≠ []) ∧
        (op = .read → s.writers ≠ [])) ∨
      ∃ q, s.pc q = .wake) ∧
    ∀ q, s.pc q = .wake → ∀ signal, ∃ s', next diagnostic (.step q signal) s = some s' ∧
      ∀ p op flags, s'.pc p ≠ .asleep op flags := by
  constructor
  · intro p op flags here
    have waiting : Waiting s p op := by
      unfold Waiting
      rw [here]
    rcases covered_run run p op waiting with due | blocked
    · exact .inr due
    · have holders := (encoded_run run).holders
      refine .inl ⟨blocked.wait, ?_, fun read => holders.isWrlock_iff.mp (blocked.wrlock read)⟩
      -- A free lock has no flags.
      by_contra nobody
      simp only [not_or, not_not] at nobody
      rw [nobody.1, nobody.2] at holders
      have wait := blocked.wait
      generalize s.owner = o at holders wait
      cases holders
      exact wait rfl
  · intro q here signal
    have step : next diagnostic (.step q signal) s = some ((wakeup s).goto q .out) := by
      unfold next stepProc
      simp only [here]
    refine ⟨_, step, fun p op flags asleep => ?_⟩
    have woken : Woken q s ((wakeup s).goto q .out) := ⟨here, rfl⟩
    refine woken.not_waiting p op ?_
    unfold Waiting
    rw [asleep]

/-- Process 16 sleeps for the lock that process 8 has for writing. -/
def sleepingLabels : List Label :=
  [.call 8 .enterWrite, .step 8 false, .call 16 (.enter .read noFlags)] ++
    List.replicate 5 (.step 16 false)

/-- Where a process sleeps. -/
def Pc.isAsleep : Pc → Bool
  | .asleep .read _ => true
  | _ => false

theorem Pc.eq_asleep {pc : Pc} (asleep : pc.isAsleep = true) :
    ∃ flags, pc = .asleep .read flags := by
  cases pc with
  | asleep op flags =>
    cases op with
    | read => exact ⟨flags, rfl⟩
    | _ => cases asleep
  | _ => cases asleep

theorem sleeping_reader_blocked : ∃ s flags, Run (next true) Legal rwInit s ∧
    s.pc 16 = .asleep .read flags ∧
    ((s.owner &&& rwlockWait ≠ 0 ∧ (s.readers ≠ [] ∨ s.writers ≠ []) ∧
        (Op.read = .read → s.writers ≠ [])) ∨
      ∃ q, s.pc q = .wake) := by
  have passed :
      (exec (next true) Legal sleepingLabels rwInit).any (fun s => (s.pc 16).isAsleep) = true := by
    decide +kernel
  obtain ⟨s, run, test⟩ := exec_any_run passed
  obtain ⟨flags, asleep⟩ := Pc.eq_asleep test
  exact ⟨s, flags, run, asleep, (sleeper_is_blocked_or_woken run).1 16 .read flags asleep⟩

/-- Process 8 gives the lock back.  Before it calls `wakeup`, process 16 sleeps while the word is
zero. -/
theorem sleeper_before_wakeup : ∃ s flags, Run (next true) Legal rwInit s ∧
    s.pc 16 = .asleep .read flags ∧ s.owner = 0 ∧ s.readers = [] ∧ s.writers = [] := by
  obtain ⟨s, run, sleeps, free⟩ : ∃ s, Run (next true) Legal rwInit s ∧ (s.pc 16).isAsleep = true ∧
      s.owner = 0 ∧ s.readers = [] ∧ s.writers = [] :=
    exec_reaches (sleepingLabels ++ [.call 8 .exit] ++ List.replicate 4 (.step 8 false))
      (by decide +kernel)
  obtain ⟨flags, asleep⟩ := Pc.eq_asleep sleeps
  exact ⟨s, flags, run, asleep, free⟩

end Bitrig.KernRwlock
