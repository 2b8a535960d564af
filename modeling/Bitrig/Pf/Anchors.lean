import Bitrig.Pf.Evaluation

/-!
# The stack of anchors

The loop with its stack of anchors comes to the same end as the recursion over the tree of
rulesets.  The stack is what is left to do behind the rules that are evaluated.
-/

namespace Bitrig.Pf

open Bitrig.TracedRun List

/-! ### Runs of the loop -/

section Runs

variable {α σ κ : Type} {t : Tester α σ κ} {hop : Hop α κ} {m m' : Machine α σ}
  {x y z : Machine α σ ⊕ Result α σ} {stack : List (Frame α)} {o o' : Outcome α σ}
  {next : List (Rule α)} {matched : Bool} {rules : Ruleset α} {s : σ}

/-- A number of iterations, unless the loop has been left. -/
def runFrom (t : Tester α σ κ) (hop : Hop α κ) (fuel : Nat) :
    Machine α σ ⊕ Result α σ → List α × Option (Result α σ)
  | .inl m => ruleLoop t hop fuel m
  | .inr result => ([], some result)

theorem ruleLoop_succ {fuel : Nat} :
    ruleLoop t hop (fuel + 1) m =
      ((iterate t hop m).1 ++ (runFrom t hop fuel (iterate t hop m).2).1,
        (runFrom t hop fuel (iterate t hop m).2).2) := by
  simp only [ruleLoop, run]
  generalize iterate t hop m = result
  rcases result with ⟨trace, next | last⟩
  · rfl
  · simp [runFrom]

/-- The loop comes from one point to another one. -/
def Leads (t : Tester α σ κ) (hop : Hop α κ) (x y : Machine α σ ⊕ Result α σ) : Prop :=
  ∃ n trace, ∀ fuel, runFrom t hop (n + fuel) x =
    (trace ++ (runFrom t hop fuel y).1, (runFrom t hop fuel y).2)

theorem Leads.refl : Leads t hop x x :=
  ⟨0, [], fun fuel => by rw [Nat.zero_add, nil_append]⟩

theorem Leads.trans (first : Leads t hop x y) (second : Leads t hop y z) : Leads t hop x z := by
  obtain ⟨n, trace, first⟩ := first
  obtain ⟨n', trace', second⟩ := second
  refine ⟨n + n', trace ++ trace', fun fuel => ?_⟩
  rw [Nat.add_assoc, first, second, append_assoc]

/-- One iteration. -/
theorem Leads.step : Leads t hop (.inl m) (iterate t hop m).2 := by
  refine ⟨1, (iterate t hop m).1, fun fuel => ?_⟩
  rw [Nat.add_comm]
  exact ruleLoop_succ

namespace Machine

/-- The rule that decides so far. -/
def deciding (m : Machine α σ) : Option α :=
  m.rm.map Decision.rule

end Machine

/-- Stepping out of anchors does not change what has been found. -/
theorem stepOutOfAnchor_found {quick : α → Bool} : (stepOutOfAnchor quick m stack).2.eval = m.eval ∧
      (stepOutOfAnchor quick m stack).2.rm = m.rm := by
  induction stack generalizing m with
  | nil => exact ⟨rfl, rfl⟩
  | cons f stack ih =>
    unfold stepOutOfAnchor
    split
    · exact ⟨rfl, rfl⟩
    · dsimp only
      split
      · exact ih
      · exact ⟨rfl, rfl⟩

/-- The loop has gone on behind some rules, at the same place of the tree. -/
structure Behind (matched : Bool) (m m' : Machine α σ) : Prop where
  stack : m'.stack = m.stack
  ruleset : m'.ruleset = m.ruleset
  match_ : m'.match_ = if matched then m.asd else m.match_

/-- What the evaluation of some rules has to come to: the loop is behind the rules with what
they have found, or it is left. -/
def Follows (t : Tester α σ κ) (hop : Hop α κ) (x : Machine α σ ⊕ Result α σ)
    (m : Machine α σ) (o : Outcome α σ) (next : List (Rule α)) : Prop :=
  ∃ m', m'.eval = o.eval ∧ m'.deciding = o.deciding ∧
    match o.control with
    | .goOn matched =>
      Leads t hop x (nextrule t.quick { m' with r := next }) ∧ Behind matched m m'
    | .stop => Leads t hop x (.inr (.quick m'))
    | .cleanup => Leads t hop x (.inr (.cleanup m'))

/-- The loop comes to the same from another point, and another place is as far behind. -/
theorem Follows.imp (follows : Follows t hop x m o next)
    (leads : ∀ {z}, Leads t hop x z → Leads t hop y z)
    (place : ∀ {matched m''}, Behind matched m m'' → Behind matched m' m'') :
    Follows t hop y m' o next := by
  obtain ⟨m'', eval, deciding, rest⟩ := follows
  refine ⟨m'', eval, deciding, ?_⟩
  cases control : o.control with
  | goOn matched =>
    rw [control] at rest
    exact ⟨leads rest.1, place rest.2⟩
  | stop | cleanup =>
    rw [control] at rest
    exact leads rest

theorem Follows.of_leads (leads : Leads t hop x y) (follows : Follows t hop y m o next) :
    Follows t hop x m o next :=
  follows.imp leads.trans id

/-- The place behind some rules is as deep in the tree, and its match is not deeper. -/
theorem Behind.bounded (behind : Behind matched m m') (bounded : m.match_ ≤ m.asd) :
    m'.asd = m.asd ∧ m'.match_ ≤ m'.asd := by
  have depth : m'.asd = m.asd := congrArg List.length behind.stack
  refine ⟨depth, ?_⟩
  rw [depth, behind.match_]
  split
  · exact Nat.le_refl _
  · exact bounded

/-- Some rules, and then what the loop comes to behind them; rules that have ended the
evaluation have ended it. -/
theorem Follows.andThen {next' : List (Rule α)} (first : Follows t hop x m' o next)
    (stopped : (∀ matched, o.control ≠ .goOn matched) → o' = o)
    (later : ∀ matched m'', o.control = .goOn matched → Behind matched m' m'' →
      m''.eval = o.eval → m''.deciding = o.deciding →
      Follows t hop (nextrule t.quick { m'' with r := next }) m o' next') :
    Follows t hop x m o' next' := by
  obtain ⟨m'', eval, deciding, rest⟩ := first
  cases control : o.control with
  | goOn matched =>
    rw [control] at rest
    exact .of_leads rest.1 (later matched m'' control rest.2 eval deciding)
  | stop | cleanup =>
    rw [stopped (by simp [control])]
    refine ⟨m'', eval, deciding, ?_⟩
    rw [control] at rest ⊢
    exact rest

/-- Rules behind a place that is behind other rules. -/
theorem Follows.append (behind : Behind matched m m') (follows : Follows t hop x m' o' next) :
    Follows t hop x m (o'.orMatched matched) next := by
  refine follows.andThen Outcome.orMatched_stopped ?_
  intro later m'' control behind' eval deciding
  rw [Outcome.orMatched_goOn control]
  refine ⟨m'', eval, deciding, .refl, behind'.stack.trans behind.stack,
    behind'.ruleset.trans behind.ruleset, ?_⟩
  have depth : m'.asd = m.asd := congrArg List.length behind.stack
  rw [behind'.match_, behind.match_, depth]
  cases matched <;> cases later <;> rfl

/-! ### Leaving an anchor -/

/-- The anchor at the top of the stack is left. -/
def leaveAnchor (m : Machine α σ) (f : Frame α) (stack : List (Frame α)) : Machine α σ :=
  { m with
    stack := stack
    a := if stack.isEmpty then none else some f.r.attr
    ruleset := f.rs
    match_ := if m.match_ > stack.length then stack.length else m.match_
    r := f.next }

/-- There are no rules left in the anchor at the top of the stack: the loop is left if there
was a match in a quick anchor, else it goes on behind the anchor. -/
theorem nextrule_leave (quick : α → Bool) {f : Frame α} (done : m.r = [])
    (top : m.stack = f :: stack) (last : nextChild f.child.tail = []) :
    (m.match_ > stack.length ∧ quick f.r.attr = true ∧
      ∃ m', nextrule quick m = .inr (.quick m') ∧ m'.eval = m.eval ∧ m'.rm = m.rm) ∨
    (¬(m.match_ > stack.length ∧ quick f.r.attr = true) ∧
      nextrule quick m = nextrule quick (leaveAnchor m f stack)) := by
  have unfolded : stepOutOfAnchor quick m (f :: stack) =
      (let stop := decide (m.match_ > stack.length) && quick f.r.attr
      if f.next.isEmpty then
        (stop || (stepOutOfAnchor quick (leaveAnchor m f stack) stack).1,
          (stepOutOfAnchor quick (leaveAnchor m f stack) stack).2)
      else (stop, leaveAnchor m f stack)) := by
    conv_lhs => unfold stepOutOfAnchor
    rw [last]
    rfl
  by_cases stops : m.match_ > stack.length ∧ quick f.r.attr = true
  · refine .inl ⟨stops.1, stops.2, ?_⟩
    unfold nextrule
    rw [done, top, unfolded]
    simp only [isEmpty_nil, if_true, stops.1, stops.2, decide_true, Bool.and_true,
      Bool.true_or]
    by_cases none : f.next.isEmpty = true
    · rw [if_pos none]
      exact ⟨_, rfl, stepOutOfAnchor_found⟩
    · rw [if_neg none]
      exact ⟨_, rfl, rfl, rfl⟩
  · refine .inr ⟨stops, ?_⟩
    have goesOn : (decide (m.match_ > stack.length) && quick f.r.attr) = false := by
      simpa using stops
    conv_lhs => unfold nextrule
    rw [done, top, unfolded]
    simp only [isEmpty_nil, if_true, goesOn, Bool.false_or]
    have rest : (leaveAnchor m f stack).r = f.next := rfl
    unfold nextrule
    rw [rest]
    by_cases none : f.next.isEmpty = true
    · rw [if_pos none, if_pos none]
      rfl
    · rw [if_neg none, if_neg none]

/-- There are no rules left in the anchor at the top of the stack. -/
theorem follows_leave (m m' : Machine α σ) (f : Frame α) (matched : Bool)
    (bounded : m.match_ ≤ m.asd)
    (rs : f.rs = m.ruleset) (last : f.child.tail = []) (top : m'.stack = f :: m.stack)
    (match_ : m'.match_ = if matched then m.asd + 1 else m.match_) (done : m'.r = []) :
    Follows t hop (nextrule t.quick m') m
      (Outcome.leave (t.quick f.r.attr) ⟨m'.eval, m'.deciding, .goOn matched⟩) f.next := by
  have inside : (m'.match_ > m.stack.length) ↔ matched = true := by
    rw [match_]
    cases matched with
    | true => simp [Machine.asd]
    | false => simpa [Machine.asd] using bounded
  rcases nextrule_leave t.quick done top (by rw [last]; rfl) with
    ⟨found, quick, m'', left, eval, rm⟩ | ⟨goesOn, left⟩
  · rw [inside.mp found, quick]
    refine ⟨m'', eval, congrArg (Option.map Decision.rule) rm, ?_⟩
    rw [left]
    exact .refl
  · have control : (Outcome.leave (t.quick f.r.attr)
        ⟨m'.eval, m'.deciding, .goOn matched⟩ : Outcome α σ) =
          ⟨m'.eval, m'.deciding, .goOn matched⟩ := by
      rw [inside] at goesOn
      cases matched with
      | true =>
        have slow : t.quick f.r.attr = false := by simpa using goesOn
        simp [Outcome.leave, slow]
      | false => rfl
    rw [control]
    refine ⟨leaveAnchor m' f m.stack, rfl, rfl, ?_, rfl, rs, ?_⟩
    · rw [left]
      exact .refl
    · change (if m'.match_ > m.stack.length then m.stack.length else m'.match_) = _
      by_cases found : matched = true
      · rw [if_pos (inside.mpr found), if_pos found]
        rfl
      · rw [if_neg (fun is => found (inside.mp is)), match_, if_neg found, if_neg found]

/-! ### Rules, anchors and children -/

section OneRule

variable {r : Rule α} {rest : List (Rule α)} {s : σ}

theorem iterate_fails {step : Option κ} (here : m.r = r :: rest)
    (tested : t.test r.attr m.eval = .fails s step) :
    iterate t hop m =
      ([], nextrule t.quick
        { m with eval := s, r := rest.drop (skipped hop m.ruleset (r :: rest) step) }) := by
  simp only [iterate, here, tested]
  cases step <;> rfl

theorem iterate_passes (here : m.r = r :: rest) (tested : t.test r.attr m.eval = .passes s) :
    iterate t hop m = ([r.attr], matchRule t { m with eval := s } rest r) := by
  simp only [iterate, here, tested]

end OneRule

/-- A rule that is not an anchor and has passed its tests. -/
theorem follows_plain {attr : α} {depth : Nat} : Follows t hop (matchRule t m next (.plain attr)) m
      (evalMatched t hop hasRoom depth (.plain attr) m.eval m.deciding) next := by
  simp only [evalMatched, matchRule]
  by_cases isMatch : t.isMatch attr = true
  · rw [if_pos isMatch, if_pos isMatch]
    cases applied : t.apply attr m.eval with
    | none => exact ⟨m, rfl, rfl, .refl⟩
    | some s =>
      dsimp only
      by_cases quick : t.quick attr = true
      · rw [if_pos quick, if_pos quick]
        exact ⟨{ m with eval := s }, rfl, rfl, .refl⟩
      · rw [if_neg quick, if_neg quick]
        exact ⟨{ m with eval := s }, rfl, rfl, .refl, rfl, rfl, rfl⟩
  · rw [if_neg isMatch, if_neg isMatch]
    by_cases quick : t.quick attr = true
    · rw [if_pos quick, if_pos quick]
      exact ⟨{ m with match_ := m.asd, rm := some ⟨attr, m.a, m.ruleset, m.aruleset⟩ },
        rfl, rfl, .refl⟩
    · rw [if_neg quick, if_neg quick]
      exact ⟨{ m with match_ := m.asd, rm := some ⟨attr, m.a, m.ruleset, m.aruleset⟩ },
        rfl, rfl, .refl, rfl, rfl, rfl⟩

mutual

/-- A rule that has passed its tests. -/
theorem follows_matched : ∀ (r : Rule α) (m : Machine α σ) (next : List (Rule α)),
    m.match_ ≤ m.asd →
    Follows t hop (matchRule t m next r) m
      (evalMatched t hop hasRoom m.asd r m.eval m.deciding) next
  | .plain _, m, next, _ => follows_plain
  | .anchor attr wildcard ruleset children, m, next, bounded => by
      rw [evalMatched, matchRule, stepIntoAnchor]
      have limit : Machine.asd { m with aruleset := some m.ruleset } ≥ anchorStackSize ↔
          ¬hasRoom m.asd = true := by
        rw [hasRoom, decide_eq_true_iff, Nat.not_lt]
        rfl
      by_cases room : hasRoom m.asd = true
      · rw [if_pos room, if_neg (fun full => limit.mp full room)]
        cases wildcard with
        | true =>
          rw [if_pos rfl, if_pos rfl]
          cases children with
          | nil =>
            exact follows_leave m
              { m with
                aruleset := some m.ruleset
                a := some attr
                stack := ⟨m.ruleset, .anchor attr true ruleset [], next, []⟩ :: m.stack
                r := [] }
              ⟨m.ruleset, .anchor attr true ruleset [], next, []⟩ false bounded rfl rfl rfl rfl
              rfl
          | cons child later =>
            rw [evalChildren_cons]
            refine .andThen (o := evalRules t hop hasRoom (m.asd + 1) child 0 child m.eval
              m.deciding)
              (follows_rules child 0
                { m with
                  aruleset := some m.ruleset
                  a := some attr
                  stack := ⟨m.ruleset, .anchor attr true ruleset (child :: later), next,
                    child :: later⟩ :: m.stack
                  ruleset := child }
                (Nat.le_succ_of_le bounded)) ?_ ?_
            · intro stopped
              rw [Outcome.andThen_stopped stopped, Outcome.leave_stopped stopped]
            · intro matched m' control behind eval deciding
              rw [Outcome.andThen_goOn control, ← eval, ← deciding]
              exact follows_children later m { m' with r := [] } _ child matched bounded rfl rfl
                behind.stack behind.match_ rfl
        | false =>
          refine .andThen (o := evalRules t hop hasRoom (m.asd + 1) ruleset 0 ruleset m.eval
            m.deciding)
            (follows_rules ruleset 0
              { m with
                aruleset := some m.ruleset
                a := some attr
                stack := ⟨m.ruleset, .anchor attr false ruleset children, next, []⟩ :: m.stack
                ruleset := ruleset }
              (Nat.le_succ_of_le bounded)) Outcome.leave_stopped ?_
          intro matched m' control behind eval deciding
          rw [Outcome.eq_of_control control, ← eval, ← deciding]
          exact follows_leave m { m' with r := [] } _ matched bounded rfl rfl behind.stack
            behind.match_ rfl
      · rw [if_neg room, if_pos (limit.mpr room)]
        exact ⟨{ m with aruleset := some m.ruleset }, rfl, rfl, .refl, rfl, rfl, rfl⟩

/-- The rules of a ruleset from a place on, of which some are skipped first. -/
theorem follows_rules : ∀ (l : List (Rule α)) (n : Nat) (m : Machine α σ),
    m.match_ ≤ m.asd →
    Follows t hop (nextrule t.quick { m with r := l.drop n }) m
      (evalRules t hop hasRoom m.asd m.ruleset n l m.eval m.deciding) []
  | [], n, m, bounded => by
      rw [drop_nil, evalRules]
      exact ⟨m, rfl, rfl, .refl, rfl, rfl, rfl⟩
  | r :: rest, n + 1, m, bounded => by
      rw [evalRules]
      exact follows_rules rest n m bounded
  | r :: rest, 0, m, bounded => by
      refine .of_leads .step ?_
      cases tested : t.test r.attr m.eval with
      | fails s step =>
        rw [evalRules_fails tested, drop_zero,
          iterate_fails (m := { m with r := r :: rest }) rfl tested]
        exact (follows_rules rest _ { m with eval := s } bounded).imp id fun behind =>
          ⟨behind.stack, behind.ruleset, behind.match_⟩
      | passes s =>
        rw [evalRules_passes tested, drop_zero,
          iterate_passes (m := { m with r := r :: rest }) rfl tested]
        refine .andThen (o := evalMatched t hop hasRoom m.asd r s m.deciding)
          (follows_matched r { m with eval := s, r := r :: rest } rest bounded)
          Outcome.andThen_stopped ?_
        intro matched m' control behind eval deciding
        have place := behind.bounded bounded
        rw [Outcome.andThen_goOn control, ← eval, ← deciding]
        refine .append ⟨behind.stack, behind.ruleset, behind.match_⟩ ?_
        have depth : m.asd = m'.asd := place.1.symm
        have ruleset : m.ruleset = m'.ruleset := behind.ruleset.symm
        rw [depth, ruleset]
        exact follows_rules rest 0 m' place.2

/-- The children behind the one that is done. -/
theorem follows_children : ∀ (later : List (Ruleset α)) (m m' : Machine α σ) (f : Frame α)
    (child : Ruleset α) (matched : Bool), m.match_ ≤ m.asd → f.rs = m.ruleset →
    f.child = child :: later → m'.stack = f :: m.stack →
    m'.match_ = (if matched then m.asd + 1 else m.match_) → m'.r = [] →
    Follows t hop (nextrule t.quick m') m
      (((evalChildren t hop hasRoom (m.asd + 1) later m'.eval m'.deciding).orMatched
        matched).leave (t.quick f.r.attr)) f.next
  | [], m, m', f, child, matched, bounded, rs, children, top, match_, done => by
      rw [evalChildren, Outcome.orMatched_goOn rfl, Bool.or_false]
      exact follows_leave m m' f matched bounded rs (congrArg List.tail children) top match_ done
  | [] :: later, m, m', f, child, matched, bounded, rs, children, top, match_, done => by
      have next : nextrule t.quick m' = nextrule t.quick { m' with
          stack := { f with child := [] :: later } :: m.stack } := by
        unfold nextrule
        rw [done, top]
        unfold stepOutOfAnchor
        rw [children]
        rfl
      rw [next, evalChildren_cons]
      simp only [evalRules, Outcome.andThen, Outcome.orMatched_false]
      exact follows_children later m { m' with stack := _ } { f with child := [] :: later } []
        matched bounded rs rfl rfl match_ done
  | (r :: rules) :: later, m, m', f, child, matched, bounded, rs, children, top, match_, done => by
      have next : nextrule t.quick m' = nextrule t.quick { m' with
          stack := { f with child := (r :: rules) :: later } :: m.stack
          ruleset := r :: rules
          r := r :: rules } := by
        unfold nextrule
        rw [done, top]
        unfold stepOutOfAnchor
        rw [children]
        rfl
      rw [next, evalChildren_cons]
      have place : m'.match_ ≤ m.asd + 1 := by
        rw [match_]
        split
        · exact Nat.le_refl _
        · exact Nat.le_succ_of_le bounded
      refine .andThen (o := evalRules t hop hasRoom (m.asd + 1) (r :: rules) 0 (r :: rules) m'.eval
        m'.deciding)
        (follows_rules (r :: rules) 0
          { m' with
            stack := { f with child := (r :: rules) :: later } :: m.stack
            ruleset := r :: rules }
          place) ?_ ?_
      · intro stopped
        rw [Outcome.andThen_stopped stopped, Outcome.orMatched_stopped stopped,
          Outcome.leave_stopped stopped]
      · intro inside m'' control behind eval deciding
        rw [Outcome.andThen_goOn control, Outcome.orMatched_orMatched, ← eval, ← deciding]
        refine follows_children later m { m'' with r := [] }
          { f with child := (r :: rules) :: later } (r :: rules) (matched || inside) bounded rs rfl
          behind.stack ?_ rfl
        refine behind.match_.trans ?_
        cases inside with
        | true => rw [Bool.or_true, if_pos rfl, if_pos rfl]; rfl
        | false => rw [Bool.or_false]; exact match_

end

/-! ### The whole loop -/

/-- The end of the loop that an outcome asks for. -/
def Ends (o : Outcome α σ) (result : Result α σ) : Prop :=
  ∃ m : Machine α σ, m.eval = o.eval ∧ m.deciding = o.deciding ∧
    match o.control with
    | .goOn _ => result = .ended m ∧ m.stack = []
    | .stop => result = .quick m
    | .cleanup => result = .cleanup m

theorem Leads.result {result : Result α σ} (leads : Leads t hop (.inl m) (.inr result)) :
    ∃ enough trace, ∀ fuel ≥ enough, ruleLoop t hop fuel m = (trace, some result) := by
  obtain ⟨n, trace, ends⟩ := leads
  refine ⟨n, trace, fun fuel enough => ?_⟩
  obtain ⟨more, rfl⟩ := Nat.exists_eq_add_of_le enough
  have last := ends more
  simp only [runFrom, append_nil] at last
  exact last

/-- There is no rule left, and no anchor to step out of. -/
theorem leads_ended (done : m.r = []) (outside : m.stack = []) :
    Leads t hop (nextrule t.quick m) (.inr (.ended m)) := by
  have stays : nextrule t.quick m = .inl m := by
    obtain ⟨stack, ruleset, r, a, aruleset, match_, eval, rm⟩ := m
    cases done
    cases outside
    rfl
  rw [stays]
  refine .trans .step ?_
  unfold iterate
  rw [done]
  exact .refl

theorem nextrule_start :
    nextrule t.quick (Machine.start rules s) = .inl (Machine.start rules s) := by
  cases rules <;> rfl

/-- The loop ends, as the evaluation by recursion does. -/
theorem ruleLoop_ends : ∃ enough trace result,
      (∀ fuel ≥ enough, ruleLoop t hop fuel (Machine.start rules s) = (trace, some result)) ∧
      Ends (evalRules t hop hasRoom 0 rules 0 rules s none) result := by
  have follows : Follows t hop (nextrule t.quick (Machine.start rules s)) (Machine.start rules s)
      (evalRules t hop hasRoom 0 rules 0 rules s none) [] :=
    follows_rules rules 0 (Machine.start rules s) (Nat.le_refl 0)
  obtain ⟨m, eval, deciding, rest⟩ := follows
  rw [nextrule_start] at rest
  cases control : (evalRules t hop hasRoom 0 rules 0 rules s none).control with
  | goOn matched =>
    rw [control] at rest
    obtain ⟨leads, behind⟩ := rest
    obtain ⟨enough, trace, ends⟩ := (leads.trans (leads_ended rfl behind.stack)).result
    refine ⟨enough, trace, _, ends, { m with r := [] }, eval, deciding, ?_⟩
    rw [control]
    exact ⟨rfl, behind.stack⟩
  | stop | cleanup =>
    rw [control] at rest
    obtain ⟨enough, trace, ends⟩ := rest.result
    refine ⟨enough, trace, _, ends, m, eval, deciding, ?_⟩
    rw [control]

end Runs

end Bitrig.Pf
