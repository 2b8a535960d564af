import Mathlib

/-!
# Runs with a trace

An interpreter is a step function that gives the events of a step, and then either the next
state or the result.  A run takes a given number of steps at most.  Such a run is safe and
comes to a result when an invariant holds along it and a rank goes down with every step, and
two interpreters whose steps agree have the same results.
-/

namespace Bitrig.TracedRun

universe u v w

variable {σ : Type u} {ρ : Type v} {ε : Type w} {step : σ → List ε × (σ ⊕ ρ)} {s : σ}

/-- At most the given number of steps; no result if they do not suffice. -/
def run (step : σ → List ε × (σ ⊕ ρ)) : Nat → σ → List ε × Option ρ
  | 0, _ => ([], none)
  | fuel + 1, s =>
    match step s with
    | (events, .inr result) => (events, some result)
    | (events, .inl s') => (events ++ (run step fuel s').1, (run step fuel s').2)

/-- What one step has to do for a run to be safe and to end. -/
structure StepOk (step : σ → List ε × (σ ⊕ ρ)) (inv : σ → Prop) (rank : σ → Nat)
    (safe : ε → Prop) : Prop where
  positive : ∀ s, inv s → 0 < rank s
  events : ∀ s, inv s → ∀ event ∈ (step s).1, safe event
  descends : ∀ s s', inv s → (step s).2 = .inl s' → inv s' ∧ rank s' < rank s

/-- As many steps as the rank of the state suffice, and all their events are safe. -/
theorem StepOk.run {inv : σ → Prop} {rank : σ → Nat} {safe : ε → Prop}
    (ok : StepOk step inv rank safe) {fuel : Nat} (holds : inv s) (enough : rank s ≤ fuel) :
    (∃ result, (run step fuel s).2 = some result) ∧ ∀ event ∈ (run step fuel s).1, safe event := by
  induction fuel generalizing s with
  | zero => exact absurd enough (Nat.not_le.mpr (ok.positive s holds))
  | succ fuel ih =>
    have events := ok.events s holds
    have descends := ok.descends s
    unfold TracedRun.run
    generalize step s = outcome at events descends ⊢
    rcases outcome with ⟨now, s' | result⟩
    · obtain ⟨kept, less⟩ := descends s' holds rfl
      obtain ⟨ends, later⟩ := ih kept (by omega)
      constructor
      · exact ends
      · intro event member
        rcases List.mem_append.mp member with first | rest
        · exact events event first
        · exact later event rest
    · exact ⟨⟨result, rfl⟩, events⟩

/-- Steps that agree but for their events lead to the same result. -/
theorem run_congr {step' : σ → List ε × (σ ⊕ ρ)} (agree : ∀ s, (step s).2 = (step' s).2)
    (fuel : Nat) (s : σ) : (run step fuel s).2 = (run step' fuel s).2 := by
  induction fuel generalizing s with
  | zero => rfl
  | succ fuel ih =>
    have same := agree s
    unfold run
    generalize step s = outcome at same ⊢
    generalize step' s = outcome' at same ⊢
    rcases outcome with ⟨_, next⟩
    rcases outcome' with ⟨_, next'⟩
    obtain rfl := same
    cases next with
    | inl s' => exact ih s'
    | inr result => rfl

/-- More steps than those to a result change nothing. -/
theorem run_of_le {fuel more : Nat} {trace : List ε} {result : ρ}
    (ends : run step fuel s = (trace, some result)) (le : fuel ≤ more) :
    run step more s = (trace, some result) := by
  induction fuel generalizing more s trace with
  | zero => cases congrArg Prod.snd ends
  | succ fuel ih =>
    obtain ⟨more, rfl⟩ : ∃ n, more = n + 1 := ⟨more - 1, by omega⟩
    unfold run at ends ⊢
    generalize step s = outcome at ends ⊢
    rcases outcome with ⟨now, s' | last⟩
    · obtain ⟨rfl, last⟩ := Prod.mk.inj ends
      have later : run step fuel s' = ((run step fuel s').1, some result) :=
        Prod.ext rfl last
      simp only [ih later (Nat.le_of_succ_le_succ le)]
    · exact ends

end Bitrig.TracedRun
