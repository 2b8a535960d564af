import Bitrig.Lib.TracedRun

/-!
# The rule loop of pf (net/pf.c)

The loop of `pf_test_rule` goes through a tree of rulesets: a rule may be an anchor, which has
a ruleset of its own, and children with rulesets.  The loop keeps a stack of the anchors it is
in.  What a rule tests and does is left to a `Tester` here.  A pointer to a rule is the part
of its list from the rule on, the empty list for NULL.
-/

namespace Bitrig.Pf

open Bitrig.TracedRun

/-- A rule, with the anchor that it calls if it is an anchor rule. -/
inductive Rule (α : Type) where
  | plain (attr : α)
  | anchor (attr : α) (wildcard : Bool) (ruleset : List (Rule α)) (children : List (List (Rule α)))

abbrev Ruleset (α : Type) := List (Rule α)

def Rule.attr {α : Type} : Rule α → α
  | .plain attr => attr
  | .anchor attr _ _ _ => attr

/-- The outcome of the tests of a rule; a test that fails may name the skip step to take. -/
inductive Tested (σ κ : Type) where
  | fails (s : σ) (step : Option κ)
  | passes (s : σ)

/-- What rules do to a state of evaluation. -/
structure Tester (α σ κ : Type) where
  /-- The tests, up to `if (r->tag) tag = r->tag`. -/
  test : α → σ → Tested σ κ
  /-- `r->action == PF_MATCH` -/
  isMatch : α → Bool
  /-- The actions of a match rule; they may fail. -/
  apply : α → σ → Option σ
  /-- `r->quick` -/
  quick : α → Bool

/-- The number of rules that are skipped with the rule at the given place of a ruleset. -/
abbrev Hop (α κ : Type) := Ruleset α → List (Rule α) → κ → Nat

section Loop

variable {α σ κ : Type}

/-- `struct pf_anchor_stackframe`; `child` has the rulesets of the child and of those behind it
in the tree, and is empty if one of `parent` and `child` is NULL. -/
structure Frame (α : Type) where
  rs : Ruleset α
  r : Rule α
  /-- The list behind `r`. -/
  next : List (Rule α)
  child : List (Ruleset α)

/-- The values that `*rm`, `*am`, `*rsm` and `arsm` are set to. -/
structure Decision (α : Type) where
  rule : α
  anchor : Option α
  ruleset : Ruleset α
  aruleset : Option (Ruleset α)

/-- The variables of the loop. -/
structure Machine (α σ : Type) where
  /-- The used part of `pf_anchor_stack`, the top first. -/
  stack : List (Frame α)
  ruleset : Ruleset α
  r : List (Rule α)
  a : Option α
  aruleset : Option (Ruleset α)
  match_ : Nat
  eval : σ
  rm : Option (Decision α)

/-- The ways to leave the loop. -/
inductive Result (α σ : Type) where
  /-- There is no rule left. -/
  | ended (m : Machine α σ)
  /-- A quick rule, or a quick anchor with a match. -/
  | quick (m : Machine α σ)
  /-- `goto cleanup` -/
  | cleanup (m : Machine α σ)

namespace Machine

/-- The variable `asd` -/
def asd (m : Machine α σ) : Nat :=
  m.stack.length

/-- The variables before the loop. -/
def start (rules : Ruleset α) (s : σ) : Machine α σ where
  stack := []
  ruleset := rules
  r := rules
  a := none
  aruleset := none
  match_ := 0
  eval := s
  rm := none

end Machine

/-- The size of `pf_anchor_stack` -/
def anchorStackSize : Nat := 64

/-- `pf_step_into_anchor`, at an anchor rule and with the list behind it. -/
def stepIntoAnchor (m : Machine α σ) (r : Rule α) (next : List (Rule α)) (wildcard : Bool)
    (ruleset : Ruleset α) (children : List (Ruleset α)) : Machine α σ :=
  if m.asd ≥ anchorStackSize then { m with r := next }
  else if wildcard then
    let m := { m with a := some r.attr, stack := ⟨m.ruleset, r, next, children⟩ :: m.stack }
    match children with
    | [] => { m with r := [] }
    | child :: _ => { m with ruleset := child, r := child }
  else
    { m with
      a := some r.attr
      stack := ⟨m.ruleset, r, next, []⟩ :: m.stack
      ruleset := ruleset
      r := ruleset }

/-- The next child whose ruleset is not empty, with those behind it. -/
def nextChild : List (Ruleset α) → List (Ruleset α)
  | [] => []
  | [] :: later => nextChild later
  | (r :: rules) :: later => (r :: rules) :: later

/-- `pf_step_out_of_anchor`, with whether it says to stop. -/
def stepOutOfAnchor (quick : α → Bool) (m : Machine α σ) : List (Frame α) → Bool × Machine α σ
  | [] => (false, { m with stack := [] })
  | f :: stack =>
    match nextChild f.child.tail with
    | child :: later =>
      (false, { m with
        stack := { f with child := child :: later } :: stack
        ruleset := child
        r := child })
    | [] =>
      let inside := m.match_ > stack.length
      let m := { m with
        stack := stack
        a := if stack.isEmpty then none else some f.r.attr
        ruleset := f.rs
        match_ := if inside then stack.length else m.match_
        r := f.next }
      let stop := decide inside && quick f.r.attr
      if f.next.isEmpty then
        let (more, m) := stepOutOfAnchor quick m stack
        (stop || more, m)
      else (stop, m)

/-- The label `nextrule`. -/
def nextrule (quick : α → Bool) (m : Machine α σ) : Machine α σ ⊕ Result α σ :=
  if m.r.isEmpty then
    match stepOutOfAnchor quick m m.stack with
    | (true, m) => .inr (.quick m)
    | (false, m) => .inl m
  else .inl m

/-- The part of an iteration that a rule comes to when it has passed its tests. -/
def matchRule (t : Tester α σ κ) (m : Machine α σ) (next : List (Rule α)) :
    Rule α → Machine α σ ⊕ Result α σ
  | .plain attr =>
    if t.isMatch attr then
      match t.apply attr m.eval with
      | none => .inr (.cleanup m)
      | some s =>
        if t.quick attr then .inr (.quick { m with eval := s })
        else nextrule t.quick { m with eval := s, r := next }
    else
      let m := { m with match_ := m.asd, rm := some ⟨attr, m.a, m.ruleset, m.aruleset⟩ }
      if t.quick attr then .inr (.quick m) else nextrule t.quick { m with r := next }
  | .anchor attr wildcard ruleset children =>
    nextrule t.quick
      (stepIntoAnchor { m with aruleset := some m.ruleset }
        (.anchor attr wildcard ruleset children) next wildcard ruleset children)

/-- One iteration of the loop, with the rule that matches. -/
def iterate (t : Tester α σ κ) (hop : Hop α κ) (m : Machine α σ) :
    List α × (Machine α σ ⊕ Result α σ) :=
  match m.r with
  | [] => ([], .inr (.ended m))
  | r :: next =>
    match t.test r.attr m.eval with
    | .fails s none => ([], nextrule t.quick { m with eval := s, r := next })
    | .fails s (some step) =>
      ([], nextrule t.quick { m with eval := s, r := next.drop (hop m.ruleset (r :: next) step) })
    | .passes s => ([r.attr], matchRule t { m with eval := s } next r)

/-- The loop, for a number of iterations at most. -/
def ruleLoop (t : Tester α σ κ) (hop : Hop α κ) (fuel : Nat) (m : Machine α σ) :
    List α × Option (Result α σ) :=
  run (iterate t hop) fuel m

end Loop

end Bitrig.Pf
