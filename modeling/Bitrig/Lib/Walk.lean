import Mathlib.Data.Finset.Card

/-!
# Walks along edges

Relations without cycles, and the bounded search that follows the only edge of
each node until it meets its target.
-/

namespace Bitrig.Walk

open Relation

universe u

variable {α : Type u} {R S : α → α → Prop}

/-- No node reaches itself. -/
def Acyclic (R : α → α → Prop) : Prop :=
  ∀ a, ¬TransGen R a a

theorem Acyclic.mono (acyclic : Acyclic R) (fewer : ∀ a b, S a b → R a b) : Acyclic S :=
  fun a cycle => acyclic a (TransGen.mono fewer _ _ cycle)

theorem acyclic_of_isEmpty (none : ∀ a b, ¬R a b) : Acyclic R := by
  intro a cycle
  rcases TransGen.head'_iff.mp cycle with ⟨b, edge, _⟩
  exact none a b edge

/-- An edge is added whose target does not reach its source. -/
theorem Acyclic.insert (acyclic : Acyclic R) {source target : α}
    (apart : ¬ReflTransGen R target source)
    (more : ∀ a b, S a b → R a b ∨ a = source ∧ b = target) : Acyclic S := by
  -- a path uses the new edge at most once
  have split : ∀ {a b}, TransGen S a b →
      TransGen R a b ∨ ReflTransGen R a source ∧ ReflTransGen R target b := by
    intro a b path
    induction path with
    | single edge =>
      rcases more _ _ edge with old | ⟨rfl, rfl⟩
      · exact .inl (.single old)
      · exact .inr ⟨.refl, .refl⟩
    | tail _ edge ih =>
      rcases more _ _ edge with old | ⟨rfl, rfl⟩
      · exact ih.imp (·.tail old) (fun parts => ⟨parts.1, parts.2.tail old⟩)
      · rcases ih with path | parts
        · exact .inr ⟨path.to_reflTransGen, .refl⟩
        · exact absurd parts.2 apart
  intro a cycle
  rcases split cycle with path | ⟨first, second⟩
  · exact acyclic a path
  · exact apart (second.trans first)

section Search

variable [DecidableEq α] (next : α → Option α) (target : α)

/-- Follow the edges of `next` for a number of steps, looking for a node. -/
def walk : Nat → α → Bool
  | 0, _ => false
  | depth + 1, a =>
    match next a with
    | none => false
    | some b => if b = target then true else walk depth b

variable {next target}

/-- In a relation without cycles a walk finds what it looks for in as many steps
as there are nodes ahead. -/
theorem walk_of_transGen (acyclic : Acyclic R) (follows : ∀ a b, R a b → next a = some b)
    {depth : Nat} {nodes : Finset α} {a : α} (ahead : ∀ b, TransGen R a b → b ∈ nodes)
    (short : nodes.card ≤ depth) (path : TransGen R a target) :
    walk next target depth a = true := by
  induction depth generalizing nodes a with
  | zero =>
    have empty := Finset.card_eq_zero.mp (Nat.le_zero.mp short)
    exact absurd (ahead target path) (empty ▸ Finset.notMem_empty target)
  | succ depth ih =>
    rcases TransGen.head'_iff.mp path with ⟨b, edge, rest⟩
    have inNodes := ahead b (.single edge)
    simp only [walk, follows a b edge]
    split
    · rfl
    · rename_i notTarget
      -- no node ahead of `b` is `b` again
      refine ih (fun c later => ?_) (?_ : (nodes.erase b).card ≤ depth) ?_
      · refine Finset.mem_erase.mpr ⟨?_, ahead c (later.head edge)⟩
        rintro rfl
        exact acyclic c later
      · rw [Finset.card_erase_of_mem inNodes]
        omega
      · rcases reflTransGen_iff_eq_or_transGen.mp rest with same | further
        · exact absurd same.symm notTarget
        · exact further

end Search

end Bitrig.Walk
