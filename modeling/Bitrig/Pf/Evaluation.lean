import Bitrig.Pf.Traversal

/-!
# Evaluation of a tree of rulesets

What the rules of a tree of rulesets come to, as a recursion over the tree: an anchor rule that
matches evaluates its ruleset, or those of its children, and goes on behind itself.
-/

namespace Bitrig.Pf


/-- How the evaluation of some rules ends. -/
inductive Control where
  /-- Go on behind the rules; there may have been a match among them. -/
  | goOn (matched : Bool)
  /-- A quick match, or a match in a quick anchor. -/
  | stop
  /-- The actions of a match rule have failed. -/
  | cleanup
  deriving DecidableEq

/-- The state of evaluation, and the last rule that matched. -/
structure Outcome (α σ : Type) where
  eval : σ
  deciding : Option α
  control : Control

section Recursive

variable {α σ κ : Type}

/-- An earlier match counts, too. -/
def Outcome.orMatched (matched : Bool) (o : Outcome α σ) : Outcome α σ :=
  match o.control with
  | .goOn later => { o with control := .goOn (matched || later) }
  | _ => o

/-- A match in a quick anchor stops the evaluation behind the anchor. -/
def Outcome.leave (quick : Bool) (o : Outcome α σ) : Outcome α σ :=
  match o.control with
  | .goOn true => { o with control := if quick then .stop else .goOn true }
  | _ => o

/-- The evaluation goes on with what has been found, unless it has ended. -/
def Outcome.andThen (o : Outcome α σ) (later : σ → Option α → Outcome α σ) : Outcome α σ :=
  match o.control with
  | .goOn matched => (later o.eval o.deciding).orMatched matched
  | _ => o

section Outcomes

variable {o : Outcome α σ} {matched later quick : Bool} {next : σ → Option α → Outcome α σ}

theorem Outcome.eq_of_control (control : o.control = .goOn matched) :
    o = ⟨o.eval, o.deciding, .goOn matched⟩ := by
  rw [← control]

theorem Outcome.andThen_goOn (control : o.control = .goOn matched) :
    o.andThen next = (next o.eval o.deciding).orMatched matched := by
  rw [andThen, control]

theorem Outcome.andThen_stopped (stopped : ∀ matched, o.control ≠ .goOn matched) :
    o.andThen next = o := by
  unfold andThen
  split
  · exact absurd ‹_› (stopped _)
  · rfl

theorem Outcome.orMatched_goOn (control : o.control = .goOn later) :
    o.orMatched matched = ⟨o.eval, o.deciding, .goOn (matched || later)⟩ := by
  rw [orMatched, control]

theorem Outcome.orMatched_stopped (stopped : ∀ later, o.control ≠ .goOn later) :
    o.orMatched matched = o := by
  unfold orMatched
  split
  · exact absurd ‹_› (stopped _)
  · rfl

theorem Outcome.leave_stopped (stopped : ∀ later, o.control ≠ .goOn later) : o.leave quick = o := by
  unfold leave
  split
  · exact absurd ‹_› (stopped _)
  · rfl

theorem Outcome.orMatched_false : o.orMatched false = o := by
  by_cases goesOn : ∃ later, o.control = .goOn later
  · obtain ⟨later, control⟩ := goesOn
    rw [orMatched_goOn control, Bool.false_or, ← control]
  · exact orMatched_stopped (not_exists.mp goesOn)

theorem Outcome.orMatched_orMatched :
    (o.orMatched later).orMatched matched = o.orMatched (matched || later) := by
  by_cases goesOn : ∃ last, o.control = .goOn last
  · obtain ⟨last, control⟩ := goesOn
    rw [orMatched_goOn control, orMatched_goOn control, orMatched_goOn rfl, Bool.or_assoc]
  · have stopped := not_exists.mp goesOn
    rw [orMatched_stopped stopped, orMatched_stopped stopped, orMatched_stopped stopped]

end Outcomes

variable (t : Tester α σ κ) (hop : Hop α κ) (enter : Nat → Bool)

mutual

/-- A rule that has passed its tests; anchors are entered at the depths that `enter` allows. -/
def evalMatched (depth : Nat) : Rule α → σ → Option α → Outcome α σ
  | .plain attr, s, deciding =>
    if t.isMatch attr then
      match t.apply attr s with
      | none => ⟨s, deciding, .cleanup⟩
      | some s => ⟨s, deciding, if t.quick attr then .stop else .goOn false⟩
    else ⟨s, some attr, if t.quick attr then .stop else .goOn true⟩
  | .anchor attr wildcard ruleset children, s, deciding =>
    if enter depth then
      (if wildcard then evalChildren (depth + 1) children s deciding
        else evalRules (depth + 1) ruleset 0 ruleset s deciding).leave (t.quick attr)
    else ⟨s, deciding, .goOn false⟩

/-- The rules of a ruleset, of which some are skipped first. -/
def evalRules (depth : Nat) (ruleset : Ruleset α) :
    Nat → List (Rule α) → σ → Option α → Outcome α σ
  | _, [], s, deciding => ⟨s, deciding, .goOn false⟩
  | skipped + 1, _ :: rest, s, deciding => evalRules depth ruleset skipped rest s deciding
  | 0, r :: rest, s, deciding =>
    match t.test r.attr s with
    | .fails s none => evalRules depth ruleset 0 rest s deciding
    | .fails s (some step) =>
      evalRules depth ruleset (hop ruleset (r :: rest) step) rest s deciding
    | .passes s =>
      (evalMatched depth r s deciding).andThen
        (fun s deciding => evalRules depth ruleset 0 rest s deciding)

/-- The rulesets of the children of a wildcard anchor, in their order. -/
def evalChildren (depth : Nat) : List (Ruleset α) → σ → Option α → Outcome α σ
  | [], s, deciding => ⟨s, deciding, .goOn false⟩
  | child :: later, s, deciding =>
    (evalRules depth child 0 child s deciding).andThen
      (fun s deciding => evalChildren depth later s deciding)

end

end Recursive

section Equations

variable {α σ κ : Type} {t : Tester α σ κ} {hop : Hop α κ}

/-- The number of rules that a test that fails skips with its rule. -/
def skipped (hop : Hop α κ) (ruleset : Ruleset α) (l : List (Rule α)) (step : Option κ) : Nat :=
  step.elim 0 (hop ruleset l)

variable {enter : Nat → Bool} {depth : Nat} {ruleset : Ruleset α} {r : Rule α}
  {rest : List (Rule α)} {before s : σ} {deciding : Option α}

theorem evalRules_fails {step : Option κ} (tested : t.test r.attr before = .fails s step) :
    evalRules t hop enter depth ruleset 0 (r :: rest) before deciding =
      evalRules t hop enter depth ruleset (skipped hop ruleset (r :: rest) step) rest s
        deciding := by
  simp only [evalRules, tested]
  cases step <;> rfl

theorem evalRules_passes (tested : t.test r.attr before = .passes s) :
    evalRules t hop enter depth ruleset 0 (r :: rest) before deciding =
      (evalMatched t hop enter depth r s deciding).andThen
        (fun s deciding => evalRules t hop enter depth ruleset 0 rest s deciding) := by
  simp only [evalRules, tested]

theorem evalChildren_cons {child : Ruleset α} {later : List (Ruleset α)} :
    evalChildren t hop enter depth (child :: later) before deciding =
      (evalRules t hop enter depth child 0 child before deciding).andThen
        (fun s deciding => evalChildren t hop enter depth later s deciding) := by
  simp only [evalChildren]

end Equations

/-! ### Trees that fit on the stack -/

/-- The depths at which there is room on the stack. -/
def hasRoom (depth : Nat) : Bool :=
  decide (depth < anchorStackSize)

section Height

variable {α σ κ : Type} {t : Tester α σ κ} {hop : Hop α κ}

mutual

/-- The number of anchors that can be called inside each other from a rule. -/
def Rule.height : Rule α → Nat
  | .plain _ => 0
  | .anchor _ wildcard ruleset children =>
    1 + if wildcard then childrenHeight children else rulesHeight ruleset

def rulesHeight : List (Rule α) → Nat
  | [] => 0
  | r :: rest => max r.height (rulesHeight rest)

def childrenHeight : List (List (Rule α)) → Nat
  | [] => 0
  | child :: later => max (rulesHeight child) (childrenHeight later)

end

/-- All anchors are entered. -/
def always (_depth : Nat) : Bool := true

theorem hasRoom_of_height {depth height : Nat} (fits : depth + (1 + height) ≤ anchorStackSize) :
    hasRoom depth = true := by
  rw [hasRoom, decide_eq_true_eq]
  omega

mutual

theorem evalMatched_fits : ∀ (r : Rule α) (depth : Nat) (s : σ) (deciding : Option α),
    depth + r.height ≤ anchorStackSize →
    evalMatched t hop hasRoom depth r s deciding = evalMatched t hop always depth r s deciding
  | .plain attr, depth, s, deciding, _ => by
      rw [evalMatched, evalMatched]
  | .anchor attr wildcard ruleset children, depth, s, deciding, fits => by
      rw [Rule.height] at fits
      have entered : always depth = true := rfl
      rw [evalMatched, evalMatched, if_pos (hasRoom_of_height fits), if_pos entered]
      cases wildcard with
      | true =>
        rw [if_pos rfl, ← Nat.add_assoc] at fits
        rw [if_pos rfl, if_pos rfl, evalChildren_fits children _ s deciding fits]
      | false =>
        rw [if_neg Bool.false_ne_true, ← Nat.add_assoc] at fits
        rw [if_neg Bool.false_ne_true, if_neg Bool.false_ne_true,
          evalRules_fits ruleset ruleset 0 _ s deciding fits]

theorem evalRules_fits : ∀ (l : List (Rule α)) (ruleset : Ruleset α) (n depth : Nat) (s : σ)
    (deciding : Option α), depth + rulesHeight l ≤ anchorStackSize →
    evalRules t hop hasRoom depth ruleset n l s deciding =
      evalRules t hop always depth ruleset n l s deciding
  | [], ruleset, n, depth, s, deciding, _ => by
      rw [evalRules, evalRules]
  | r :: rest, ruleset, n + 1, depth, s, deciding, fits => by
      rw [rulesHeight] at fits
      rw [evalRules, evalRules]
      exact evalRules_fits rest ruleset n depth s deciding (by omega)
  | r :: rest, ruleset, 0, depth, s, deciding, fits => by
      rw [rulesHeight] at fits
      have later : depth + rulesHeight rest ≤ anchorStackSize := by omega
      cases tested : t.test r.attr s with
      | fails s' step =>
        rw [evalRules_fails tested, evalRules_fails tested]
        exact evalRules_fits rest ruleset _ depth s' deciding later
      | passes s' =>
        rw [evalRules_passes tested, evalRules_passes tested,
          evalMatched_fits r depth s' deciding (by omega)]
        congr 1
        funext s'' deciding'
        exact evalRules_fits rest ruleset 0 depth s'' deciding' later

theorem evalChildren_fits : ∀ (children : List (Ruleset α)) (depth : Nat) (s : σ)
    (deciding : Option α), depth + childrenHeight children ≤ anchorStackSize →
    evalChildren t hop hasRoom depth children s deciding =
      evalChildren t hop always depth children s deciding
  | [], depth, s, deciding, _ => by
      rw [evalChildren, evalChildren]
  | child :: later, depth, s, deciding, fits => by
      rw [childrenHeight] at fits
      rw [evalChildren_cons, evalChildren_cons,
        evalRules_fits child child 0 depth s deciding (by omega)]
      congr 1
      funext s' deciding'
      exact evalChildren_fits later depth s' deciding' (by omega)

end

end Height

end Bitrig.Pf
