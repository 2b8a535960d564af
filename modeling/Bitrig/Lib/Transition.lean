import Mathlib

/-!
# Guarded partial transitions

Stateful kernel code is modelled as a partial step function that takes a label
(which operation, on which arguments) and a state.  A run is a finite sequence
of defined steps whose labels all meet a guard in the state they are taken
from; with the trivial guard these are all runs of the system.

Assertions of the modelled code are partial too: a failed assertion leaves the
option undefined, so that "no assertion fires" is definedness.
-/

namespace Bitrig.Transition

universe u v

/-- An assertion of option-valued code.  Failure is the undefined result. -/
def kassert (condition : Prop) [Decidable condition] : Option Unit :=
  if condition then some () else none

@[simp]
theorem kassert_eq_some_iff (condition : Prop) [Decidable condition] (result : Unit) :
    kassert condition = some result ↔ condition := by
  by_cases holds : condition <;> simp [kassert, holds]

theorem kassert_of_holds {condition : Prop} [Decidable condition]
    (holds : condition) : kassert condition = some () :=
  (kassert_eq_some_iff condition ()).mpr holds

variable {σ : Type u} {α : Type v} {next : α → σ → Option σ} {guard : α → σ → Prop} {P : σ → Prop}
  {start finish : σ}

/-- `source` steps to `target` by some label that meets `guard` there. -/
def Step (next : α → σ → Option σ) (guard : α → σ → Prop)
    (source target : σ) : Prop :=
  ∃ label, guard label source ∧ next label source = some target

/-- A finite run all of whose steps meet the guard. -/
abbrev Run (next : α → σ → Option σ) (guard : α → σ → Prop) : σ → σ → Prop :=
  Relation.ReflTransGen (Step next guard)

/-- The guard that admits every step. -/
def anyStep : α → σ → Prop :=
  fun _ _ => True

instance (label : α) (state : σ) : Decidable (anyStep label state) :=
  isTrue trivial

/-- What holds at the start and is preserved by each guarded step holds at the
end of every guarded run. -/
theorem Run.invariant (preserved : ∀ label source target, P source → guard label source →
      next label source = some target → P target) (run : Run next guard start finish)
    (initial : P start) : P finish := by
  induction run with
  | refl => exact initial
  | tail _ step holds =>
    rcases step with ⟨label, guarded, stepped⟩
    exact preserved label _ _ holds guarded stepped

/-- A run under a guard is a run under every weaker one. -/
theorem Run.weaken {weaker : α → σ → Prop}
    (implies : ∀ label state, guard label state → weaker label state)
    (run : Run next guard start finish) : Run next weaker start finish := by
  induction run with
  | refl => exact Relation.ReflTransGen.refl
  | tail _ step before =>
    rcases step with ⟨label, guarded, stepped⟩
    exact before.tail ⟨label, implies label _ guarded, stepped⟩

/-- Execute a list of labels, stopping at the first that is undefined or does
not meet the guard. -/
def exec (next : α → σ → Option σ) (guard : α → σ → Prop)
    [∀ label state, Decidable (guard label state)] : List α → σ → Option σ
  | [], state => some state
  | label :: labels, state =>
    if guard label state then (next label state).bind (exec next guard labels) else none

/-- A completed execution is a guarded run. -/
theorem exec_run [∀ label state, Decidable (guard label state)] (labels : List α)
    (executed : exec next guard labels start = some finish) : Run next guard start finish := by
  induction labels generalizing start with
  | nil =>
    cases executed
    exact Relation.ReflTransGen.refl
  | cons label labels ih =>
    simp only [exec] at executed
    split at executed
    · rename_i guarded
      rcases Option.bind_eq_some_iff.mp executed with ⟨middle, stepped, rest⟩
      exact Relation.ReflTransGen.head ⟨label, guarded, stepped⟩ (ih rest)
    · contradiction

/-- An execution whose final state passes a test is a run to such a state. -/
theorem exec_any_run [∀ label state, Decidable (guard label state)] {labels : List α}
    {test : σ → Bool} (passed : (exec next guard labels start).any test = true) :
    ∃ finish, Run next guard start finish ∧ test finish = true := by
  rcases (Option.any_eq_true _ _).mp passed with ⟨finish, executed, holds⟩
  exact ⟨finish, exec_run labels executed, holds⟩

/-- An execution whose final state has a property is a run to such a state. -/
theorem exec_reaches [∀ label state, Decidable (guard label state)] [DecidablePred P]
    (labels : List α)
    (passed : (exec next guard labels start).any (fun state => decide (P state)) = true) :
    ∃ finish, Run next guard start finish ∧ P finish := by
  rcases exec_any_run passed with ⟨finish, run, holds⟩
  exact ⟨finish, run, of_decide_eq_true holds⟩

/-- What follows from a property that the final state of an execution has. -/
theorem exec_implies [∀ label state, Decidable (guard label state)] {Q : σ → Prop}
    [DecidablePred Q] (labels : List α)
    (passed : (exec next guard labels start).any (fun state => decide (Q state)) = true)
    (implies : ∀ state, Run next guard start state → Q state → P state) :
    ∃ state, Run next guard start state ∧ P state := by
  obtain ⟨state, run, holds⟩ := exec_reaches labels passed
  exact ⟨state, run, implies state run holds⟩

/-- An execution that is followed by a call with a reply, and whose states have a property. -/
theorem exec_replies [∀ label state, Decidable (guard label state)] {τ ρ : Type} [DecidableEq ρ]
    {call : σ → Option (τ × ρ)} {reply : ρ} {P Q : σ → τ → Prop} [∀ state, DecidablePred (Q state)]
    (labels : List α)
    (passed : (exec next guard labels start).any (fun state => (call state).any fun result =>
      decide (result.2 = reply ∧ Q state result.1)) = true)
    (implies : ∀ state state', Run next guard start state → call state = some (state', reply) →
      Q state state' → P state state') :
    ∃ state state', Run next guard start state ∧ call state = some (state', reply) ∧
      P state state' := by
  obtain ⟨state, run, outcome⟩ := exec_any_run passed
  obtain ⟨⟨state', reply⟩, called, test⟩ := (Option.any_eq_true _ _).mp outcome
  obtain ⟨rfl, holds⟩ := of_decide_eq_true test
  exact ⟨state, state', run, called, implies state state' run called holds⟩

end Bitrig.Transition
