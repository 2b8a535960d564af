import Bitrig.Pf.Verdict

/-!
# The anchor of the deciding rule

With the rule that decides, `pf_test_rule` returns the ruleset that contains it and the anchor
rule that leads there.  Behind an anchor inside another one, `pf_step_out_of_anchor` leaves the
inner anchor rule for the rest of the outer ruleset.  So the anchor is right for every packet
exactly if inside of the anchors no other rule stands behind an anchor rule.
-/

namespace Bitrig.Pf

open Bitrig.TracedRun List

variable {α σ κ : Type}

/-- The rulesets that an anchor rule leads to. -/
def Rule.rulesets : Rule α → List (Ruleset α)
  | .plain _ => []
  | .anchor _ wildcard ruleset children => if wildcard then children else [ruleset]

/-- The rules that an anchor rule leads to, in the order of the loop. -/
def Rule.body (r : Rule α) : List (Rule α) :=
  r.rulesets.flatten

def Rule.isPlain : Rule α → Bool
  | .plain _ => true
  | .anchor _ _ _ _ => false

/-- A ruleset of the tree, with the anchor rule that leads to it, if it is not the main one. -/
inductive Within (rules : Ruleset α) : Option α → Ruleset α → Prop
  | main : Within rules none rules
  | anchor {a : Option α} {outer inner : Ruleset α} {r : Rule α} (outside : Within rules a outer)
      (mem : r ∈ outer) (leads : inner ∈ r.rulesets) : Within rules (some r.attr) inner

/-- Inside of the anchors, no other rule stands behind an anchor rule. -/
def AnchorsLast (rules : Ruleset α) : Prop :=
  ∀ {a outer r}, Within rules a outer → r ∈ outer →
    r.body.Pairwise fun q p => p.isPlain = true → q.isPlain = true

/-- The rule that decides is in the ruleset, to which the anchor rule leads. -/
def Decision.Right (rules : Ruleset α) (d : Decision α) : Prop :=
  Within rules d.anchor d.ruleset ∧ .plain d.rule ∈ d.ruleset

/-! ### Where the loop is -/

/-- The anchor rule at the top of the stack. -/
def topAttr (stack : List (Frame α)) : Option α :=
  stack.head?.map fun f => f.r.attr

namespace Machine

/-- The children that are left in the anchor. -/
def children (m : Machine α σ) : List (Ruleset α) :=
  m.stack.head?.elim [] fun f => f.child.tail

/-- The rules that are left in the anchor, or in the main ruleset. -/
def remaining (m : Machine α σ) : List (Rule α) :=
  m.r ++ m.children.flatten

end Machine

/-- A frame is for an anchor in the tree, with what is left there behind it. -/
structure Entered (rules : Ruleset α) (f : Frame α) (stack : List (Frame α)) : Prop where
  within : Within rules (topAttr stack) f.rs
  place : f.r :: f.next <:+ f.rs
  anchor : f.r.isPlain = false
  child : ∀ child ∈ f.child, child ∈ f.r.rulesets
  body : ∀ g ∈ stack.head?, f.r :: f.next ++ g.child.tail.flatten <:+ g.r.body

def Stacked (rules : Ruleset α) : List (Frame α) → Prop
  | [] => True
  | f :: stack => Entered rules f stack ∧ Stacked rules stack

/-- Where the loop is.  If no rule stands behind an anchor rule where it may not, the variable `a`
is right, or there are only anchor rules left that set it anew. -/
structure Located (rules : Ruleset α) (m : Machine α σ) : Prop where
  here : m.r = [] ∨ Within rules (topAttr m.stack) m.ruleset ∧ m.r <:+ m.ruleset
  stack : Stacked rules m.stack
  body : ∀ f ∈ m.stack.head?, m.remaining <:+ f.r.body
  anchor : AnchorsLast rules → m.a = topAttr m.stack ∨ ∀ r ∈ m.remaining, r.isPlain = false
  rm : AnchorsLast rules → ∀ d, m.rm = some d → d.Right rules

/-- The loop goes on, or it has ended. -/
def Settled (rules : Ruleset α) : Machine α σ ⊕ Result α σ → Prop :=
  Sum.elim (Located rules) fun result => Located rules result.machine

theorem nextChild_flatten (children : List (Ruleset α)) :
    (nextChild children).flatten = children.flatten := by
  induction children with
  | nil => rfl
  | cons child later ih =>
    cases child with
    | nil => exact ih
    | cons r rules => rfl

theorem nextChild_ne_nil {children later : List (Ruleset α)} {child : Ruleset α}
    (next : nextChild children = child :: later) : child ≠ [] := by
  induction children with
  | nil => cases next
  | cons first rest ih =>
    cases first with
    | nil => exact ih next
    | cons r rules =>
      cases next
      exact cons_ne_nil r rules

section Loop

variable {rules : Ruleset α} {m : Machine α σ} {quick : α → Bool} {t : Tester α σ κ} {hop : Hop α κ}

theorem suffix_append {l l' : List (Rule α)} (suffix : l <:+ l') (rest : List (Rule α)) :
    l ++ rest <:+ l' ++ rest := by
  obtain ⟨front, rfl⟩ := suffix
  exact ⟨front, (append_assoc front l rest).symm⟩

/-- The loop goes on to later rules of the ruleset. -/
theorem Located.goTo {l : List (Rule α)} (located : Located rules m) (suffix : l <:+ m.r) (s : σ) :
    Located rules { m with eval := s, r := l } where
  here := by
    rcases located.here with done | ⟨within, place⟩
    · exact .inl (by simpa [done] using suffix)
    · exact .inr ⟨within, suffix.trans place⟩
  stack := located.stack
  body f top := (suffix_append suffix _).trans (located.body f top)
  anchor last := (located.anchor last).imp_right fun only r mem =>
    only r ((suffix_append suffix _).subset mem)
  rm := located.rm

theorem Located.stepOut (quick : α → Bool) {stack : List (Frame α)} (located : Located rules m)
    (isStack : m.stack = stack) (done : m.r = []) :
    Located rules (stepOutOfAnchor quick m stack).2 := by
  induction stack generalizing m with
  | nil =>
    have same : { m with stack := [] } = m := by rw [← isStack]
    rw [stepOutOfAnchor, same]
    exact located
  | cons f stack ih =>
    have stacked := located.stack
    have left : m.remaining = f.child.tail.flatten := by
      simp [Machine.remaining, Machine.children, done, isStack]
    have body := located.body f (by simp [isStack])
    have anchor := located.anchor
    rw [isStack] at stacked anchor
    obtain ⟨entered, below⟩ := stacked
    rw [stepOutOfAnchor]
    cases children : nextChild f.child.tail with
    | cons child later =>
      have suffix := nextChild_suffix f.child.tail
      have flat := nextChild_flatten f.child.tail
      rw [children] at suffix flat
      have leads : ∀ c ∈ child :: later, c ∈ f.r.rulesets :=
        fun c mem => entered.child c (mem_of_mem_tail (suffix.subset mem))
      have mem : f.r ∈ f.rs := entered.place.subset mem_cons_self
      rw [left, ← flat] at body anchor
      refine ⟨.inr ⟨.anchor entered.within mem (leads child mem_cons_self), suffix_refl _⟩,
        ⟨⟨entered.within, entered.place, entered.anchor, leads, entered.body⟩, below⟩, ?_, anchor,
        located.rm⟩
      rintro _ ⟨⟩
      exact body
    | nil =>
      have out : Located rules { m with
          stack := stack
          a := if stack.isEmpty then none else some f.r.attr
          ruleset := f.rs
          match_ := if m.match_ > stack.length then stack.length else m.match_
          r := f.next } := by
        refine ⟨.inr ⟨entered.within, (suffix_cons _ _).trans entered.place⟩, below, ?_, ?_,
          located.rm⟩
        · intro g top
          have rest := entered.body g top
          simp only [Machine.remaining, Machine.children, Option.mem_def.mp top]
          exact (suffix_cons _ _).trans rest
        · -- what is left behind the anchor is anchors
          intro last
          cases stack with
          | nil => exact .inl rfl
          | cons g stack =>
            have rest := entered.body g rfl
            have inner := last below.1.within (below.1.place.subset mem_cons_self)
            obtain ⟨only, -⟩ := pairwise_cons.mp (inner.sublist rest.sublist)
            refine .inr fun r mem => Bool.eq_false_of_not_eq_true fun plain => ?_
            exact Bool.false_ne_true (entered.anchor.symm.trans (only r mem plain))
      dsimp only
      split
      · next empty => exact ih out rfl (isEmpty_iff.mp empty)
      · exact out

theorem Located.nextrule (located : Located rules m) : Settled rules (nextrule quick m) := by
  unfold Pf.nextrule
  split_ifs with done
  · have stepped := located.stepOut quick rfl (isEmpty_iff.mp done)
    generalize stepOutOfAnchor quick m m.stack = out at stepped ⊢
    rcases out with ⟨_ | _, m'⟩
    · exact stepped
    · exact stepped
  · exact located

/-- The loop has gone into an anchor. -/
structure Enters (r : Rule α) (next : List (Rule α)) (m m' : Machine α σ) : Prop where
  frame : ∃ child, m'.stack = ⟨m.ruleset, r, next, child⟩ :: m.stack ∧ ∀ c ∈ child, c ∈ r.rulesets
  here : m'.r = [] ∨ m'.ruleset ∈ r.rulesets ∧ m'.r = m'.ruleset
  remaining : m'.remaining = r.body
  a : m'.a = some r.attr
  same : m'.eval = m.eval ∧ m'.match_ = m.match_ ∧ m'.rm = m.rm

theorem stepIntoAnchor_enters {attr : α} {wildcard : Bool} {inner : Ruleset α}
    {children : List (Ruleset α)} (next : List (Rule α)) (room : m.asd < anchorStackSize) :
    Enters (.anchor attr wildcard inner children) next m
      (stepIntoAnchor m (.anchor attr wildcard inner children) next wildcard inner children) := by
  rw [stepIntoAnchor, if_neg (Nat.not_le.mpr room)]
  cases wildcard with
  | true =>
    cases children with
    | nil => exact ⟨⟨_, rfl, fun _ => id⟩, .inl rfl, rfl, rfl, rfl, rfl, rfl⟩
    | cons child later =>
      exact ⟨⟨_, rfl, fun _ => id⟩, .inr ⟨mem_cons_self, rfl⟩, rfl, rfl, rfl, rfl, rfl⟩
  | false =>
    exact ⟨⟨_, rfl, nofun⟩, .inr ⟨mem_cons_self, rfl⟩, rfl, rfl, rfl, rfl, rfl⟩

theorem Located.enter {r : Rule α} {next : List (Rule α)} {m' : Machine α σ}
    (located : Located rules m) (at_ : m.r = r :: next) (anchor : r.isPlain = false)
    (enters : Enters r next m m') : Located rules m' := by
  obtain ⟨within, suffix⟩ := located.here.resolve_left (at_ ▸ cons_ne_nil _ _)
  rw [at_] at suffix
  have mem : r ∈ m.ruleset := suffix.subset mem_cons_self
  obtain ⟨child, stack, leads⟩ := enters.frame
  constructor
  case here =>
    rw [stack]
    exact enters.here.imp_right fun ⟨leads, whole⟩ =>
      ⟨.anchor within mem leads, whole ▸ suffix_refl _⟩
  case stack =>
    rw [stack]
    refine ⟨⟨within, suffix, anchor, leads, fun g top => ?_⟩, located.stack⟩
    have rest := located.body g top
    simp only [Machine.remaining, Machine.children, at_, Option.mem_def.mp top] at rest
    exact rest
  case body =>
    rw [stack, enters.remaining]
    rintro f ⟨⟩
    exact suffix_refl _
  case anchor =>
    rw [stack, enters.a]
    exact fun _ => .inl rfl
  case rm =>
    rw [enters.same.2.2]
    exact located.rm

theorem Located.matchRule {r : Rule α} {next : List (Rule α)} (located : Located rules m)
    (at_ : m.r = r :: next) : Settled rules (matchRule t m next r) := by
  obtain ⟨within, suffix⟩ := located.here.resolve_left (at_ ▸ cons_ne_nil _ _)
  rw [at_] at suffix
  have mem : r ∈ m.ruleset := suffix.subset mem_cons_self
  have behind : next <:+ m.r := at_ ▸ suffix_cons _ _
  cases r with
  | plain attr =>
    have goesOn : ∀ (m' : Machine α σ) (done : Bool), Located rules m' → next <:+ m'.r →
        Settled rules (if done then .inr (.quick m')
          else Pf.nextrule t.quick { m' with r := next }) := by
      intro m' done last behind
      split
      · exact last
      · exact (last.goTo behind m'.eval).nextrule
    unfold Pf.matchRule
    dsimp only
    split
    · cases t.apply attr m.eval with
      | none => exact located
      | some s =>
        exact goesOn { m with eval := s } _ (located.goTo (suffix_refl _) s) behind
    · refine goesOn { m with match_ := m.asd, rm := _ } _
        ⟨located.here, located.stack, located.body, located.anchor, ?_⟩ behind
      rintro last d ⟨⟩
      have right := (located.anchor last).resolve_right fun only => by
        have := only (.plain attr) (by simp [Machine.remaining, at_])
        cases this
      refine ⟨?_, mem⟩
      dsimp only
      rw [right]
      exact within
  | anchor attr wildcard inner children =>
    have inside : Located rules { m with aruleset := some m.ruleset } :=
      ⟨located.here, located.stack, located.body, located.anchor, located.rm⟩
    refine Located.nextrule ?_
    by_cases room : m.asd < anchorStackSize
    · exact inside.enter at_ rfl (stepIntoAnchor_enters next room)
    · have full : stepIntoAnchor { m with aruleset := some m.ruleset }
          (.anchor attr wildcard inner children) next wildcard inner children =
          { m with aruleset := some m.ruleset, r := next } := if_pos (Nat.not_lt.mp room)
      rw [full]
      exact inside.goTo behind m.eval

theorem Located.iterate (located : Located rules m) : Settled rules (iterate t hop m).2 := by
  unfold Pf.iterate
  cases at_ : m.r with
  | nil => exact located
  | cons r next =>
    have behind : ∀ k, next.drop k <:+ m.r := fun k =>
      at_ ▸ (drop_suffix k next).trans (suffix_cons _ _)
    dsimp only
    cases t.test r.attr m.eval with
    | fails s step =>
      cases step with
      | none => exact (located.goTo (behind 0) s).nextrule
      | some step => exact (located.goTo (behind _) s).nextrule
    | passes s =>
      have here : Located rules { m with eval := s, r := r :: next } :=
        located.goTo (at_ ▸ suffix_refl _) s
      exact here.matchRule rfl

theorem located_start (rules : Ruleset α) (s : σ) : Located rules (Machine.start rules s) :=
  ⟨.inr ⟨.main, suffix_refl _⟩, trivial, nofun, fun _ => .inl rfl, fun _ => nofun⟩

theorem ruleLoop_located {fuel : Nat} {trace : List α} {result : Result α σ}
    (located : Located rules m) (ends : ruleLoop t hop fuel m = (trace, some result)) :
    Located rules result.machine := by
  induction fuel generalizing m trace with
  | zero => cases congrArg Prod.snd ends
  | succ fuel ih =>
    have settled : Settled rules (Pf.iterate t hop m).2 := located.iterate
    unfold ruleLoop run at ends
    generalize Pf.iterate t hop m = outcome at settled ends
    rcases outcome with ⟨now, m' | last⟩
    · exact ih settled (Prod.ext rfl (Prod.mk.inj ends).2)
    · exact Option.some.inj (Prod.mk.inj ends).2 ▸ settled

end Loop

/-- Whatever the rules test, the anchor and the ruleset that are returned are those of the rule
that decides. -/
def ReportsAnchor (rules : Ruleset α) : Prop :=
  ∀ {σ κ : Type} (t : Tester α σ κ) (hop : Hop α κ) {fuel : Nat} {s : σ} {trace : List α}
    {result : Result α σ} {d : Decision α},
    ruleLoop t hop fuel (Machine.start rules s) = (trace, some result) →
    result.machine.rm = some d →
    .plain d.rule ∈ d.ruleset ∧ Within rules d.anchor d.ruleset ∧
      (d.anchor = none → d.ruleset = rules)

theorem AnchorsLast.reportsAnchor {rules : Ruleset α} (last : AnchorsLast rules) :
    ReportsAnchor rules := by
  intro σ κ t hop fuel s trace result d ends decided
  obtain ⟨within, mem⟩ := (ruleLoop_located (located_start rules s) ends).rm last d decided
  refine ⟨mem, within, fun isMain => ?_⟩
  rw [isMain] at within
  cases within
  rfl

/-! ### A rule behind an anchor -/

/-- The rules fail the given number of times, then one passes, and so on. -/
def countdown : Tester α (List Nat) Unit where
  test _ s :=
    match s with
    | [] => .fails [] none
    | 0 :: later => .passes later
    | (n + 1) :: later => .fails (n :: later) none
  isMatch _ := false
  apply _ s := some s
  quick _ := true

section Walk

variable {m : Machine α (List Nat)} {later : List Nat} {rules : Ruleset α}

/-- The points that the loop comes to. -/
def Walk : (x y : Machine α (List Nat) ⊕ Result α (List Nat)) → Prop :=
  Relation.ReflTransGen fun x y => ∃ m, x = .inl m ∧ y = (iterate countdown nextOnly m).2

theorem Walk.step {y : Machine α (List Nat) ⊕ Result α (List Nat)}
    (next : (iterate countdown nextOnly m).2 = y) : Walk (.inl m) y :=
  .single ⟨m, rfl, next.symm⟩

theorem Walk.ends {result : Result α (List Nat)} (walk : Walk (.inl m) (.inr result)) :
    ∃ fuel trace, ruleLoop countdown nextOnly fuel m = (trace, some result) := by
  generalize isStart : Sum.inl m = x at walk
  induction walk using Relation.ReflTransGen.head_induction_on generalizing m with
  | refl => cases isStart
  | head first rest ih =>
    obtain ⟨_, rfl, rfl⟩ := first
    cases isStart
    cases next : (iterate countdown nextOnly m).2 with
    | inl m' =>
      rw [next] at ih
      obtain ⟨fuel, trace, ends⟩ := ih rfl
      refine ⟨fuel + 1, (iterate countdown nextOnly m).1 ++ trace, ?_⟩
      rw [ruleLoop_succ, next, runFrom, ends]
    | inr last =>
      rw [next] at rest
      obtain rfl : last = result := by
        rcases Relation.ReflTransGen.cases_head rest with same | ⟨_, ⟨_, isInl, _⟩, _⟩
        · exact Sum.inr.inj same
        · cases isInl
      refine ⟨1, (iterate countdown nextOnly m).1 ++ [], ?_⟩
      rw [ruleLoop_succ, next, runFrom]

theorem Walk.located {m' : Machine α (List Nat)} (walk : Walk (.inl m) (.inl m'))
    (located : Located rules m) : Located rules m' := by
  have settled : Settled rules (.inl m : Machine α (List Nat) ⊕ Result α (List Nat)) := located
  suffices ∀ {x y}, Walk x y → Settled rules x → Settled rules y from this walk settled
  intro x y walk start
  induction walk with
  | refl => exact start
  | tail _ last ih =>
    obtain ⟨m, rfl, rfl⟩ := last
    exact Located.iterate ih

/-- The same stack, but for the children that are left at its top. -/
inductive SameFrames : List (Frame α) → List (Frame α) → Prop
  | nil : SameFrames [] []
  | cons (f : Frame α) (child : List (Ruleset α)) (stack : List (Frame α)) :
      SameFrames (f :: stack) ({ f with child := child } :: stack)

theorem SameFrames.refl (stack : List (Frame α)) : SameFrames stack stack := by
  cases stack with
  | nil => exact .nil
  | cons f stack => exact .cons f f.child stack

theorem SameFrames.trans {s₁ s₂ s₃ : List (Frame α)} (first : SameFrames s₁ s₂)
    (second : SameFrames s₂ s₃) : SameFrames s₁ s₃ := by
  cases first with
  | nil => exact second
  | cons f child stack =>
    cases second
    exact .cons f _ stack

theorem SameFrames.length {s₁ s₂ : List (Frame α)} (same : SameFrames s₁ s₂) :
    s₂.length = s₁.length := by
  cases same <;> rfl

/-- Another place in the same anchor, with nothing found since. -/
structure Along (m m' : Machine α (List Nat)) : Prop where
  stack : SameFrames m.stack m'.stack
  a : m'.a = m.a
  match_ : m'.match_ = m.match_

/-- If there are rules left, the loop goes on to the first one. -/
theorem nextrule_remaining (some : m.remaining ≠ []) : ∃ m', nextrule (fun _ => true) m = .inl m' ∧
    m'.r ≠ [] ∧ m'.remaining = m.remaining ∧ m'.eval = m.eval ∧ Along m m' := by
  by_cases done : m.r = []
  · have left : m.children.flatten ≠ [] := by simpa [Machine.remaining, done] using some
    cases isStack : m.stack with
    | nil => simp [Machine.children, isStack] at left
    | cons f stack =>
      have children : m.children = f.child.tail := by simp [Machine.children, isStack]
      rw [children, ← nextChild_flatten] at left
      cases next : nextChild f.child.tail with
      | nil => simp [next] at left
      | cons child later =>
        have flat := nextChild_flatten f.child.tail
        rw [next] at flat
        have present : child ≠ [] := nextChild_ne_nil next
        refine ⟨{ m with
          stack := { f with child := child :: later } :: stack
          ruleset := child
          r := child }, ?_, present, ?_, rfl, ?_, rfl, rfl⟩
        · unfold nextrule
          rw [done, isStack, stepOutOfAnchor, next]
          rfl
        · rw [Machine.remaining, Machine.remaining, children, done, ← flat]
          rfl
        · rw [isStack]
          exact .cons f _ stack
  · refine ⟨m, ?_, done, rfl, rfl, .refl _, rfl, rfl⟩
    unfold nextrule
    rw [if_neg (by simpa using done)]

/-- A rule fails, and the loop goes on behind it. -/
theorem walk_fail {n : Nat} {r : Rule α} {rest : List (Rule α)} (left : m.remaining = r :: rest)
    (eval : m.eval = (n + 1) :: later) : ∃ m', Along m m' ∧ m'.remaining = rest ∧
      m'.eval = n :: later ∧
      Walk (nextrule (fun _ => true) m) (nextrule (fun _ => true) m') := by
  obtain ⟨m₁, next, some, same, eval₁, along⟩ := nextrule_remaining (left ▸ cons_ne_nil r rest)
  obtain ⟨r', behind, at_⟩ := exists_cons_of_ne_nil some
  rw [left, Machine.remaining, at_, cons_append, cons.injEq] at same
  refine ⟨{ m₁ with eval := n :: later, r := behind }, ⟨along.stack, along.a, along.match_⟩, same.2,
    rfl, ?_⟩
  rw [next]
  apply Walk.step
  simp only [iterate, at_, countdown, eval₁, eval]

/-- The rules of a segment fail, and the loop comes to the next one. -/
theorem walk_to {seg post : List (Rule α)} {x : Rule α} (left : m.remaining = seg ++ x :: post)
    (eval : m.eval = seg.length :: later) : ∃ m', Along m m' ∧ m'.remaining = x :: post ∧
      m'.eval = 0 :: later ∧ (∃ next, m'.r = x :: next) ∧
      Walk (nextrule (fun _ => true) m) (.inl m') := by
  induction seg generalizing m with
  | nil =>
    rw [nil_append] at left
    obtain ⟨m', next, some, same, eval', along⟩ := nextrule_remaining (left ▸ cons_ne_nil x post)
    obtain ⟨r, behind, at_⟩ := exists_cons_of_ne_nil some
    rw [left] at same
    have isRule := same
    rw [Machine.remaining, at_, cons_append, cons.injEq] at isRule
    exact ⟨m', along, same, eval'.trans eval, ⟨behind, isRule.1 ▸ at_⟩, next ▸ .refl⟩
  | cons r seg ih =>
    obtain ⟨m₁, along, left₁, eval₁, walk⟩ := walk_fail left eval
    obtain ⟨m', along', left', eval', at_, walk'⟩ := ih left₁ eval₁
    exact ⟨m', ⟨along.stack.trans along'.stack, along'.a.trans along.a,
      along'.match_.trans along.match_⟩, left', eval', at_, walk.trans walk'⟩

/-- The loop is in an anchor, of which all rules are left, with some of the rules behind it. -/
structure Inside (r : Rule α) (outer : Machine α (List Nat)) (post : List (Rule α))
    (m : Machine α (List Nat)) : Prop where
  frame : ∃ f stack, m.stack = f :: stack ∧ f.r = r ∧ SameFrames outer.stack stack ∧
    f.next ++ (stack.head?.elim [] fun g => g.child.tail).flatten = post
  remaining : m.remaining = r.body
  a : m.a = some r.attr
  match_ : m.match_ = outer.match_

/-- The loop comes to an anchor and goes into it. -/
theorem walk_into {seg post : List (Rule α)} {r : Rule α} (left : m.remaining = seg ++ r :: post)
    (eval : m.eval = seg.length :: later) (anchor : r.isPlain = false)
    (room : m.asd < anchorStackSize) : ∃ m', Inside r m post m' ∧ m'.eval = later ∧
      Walk (nextrule (fun _ => true) m) (nextrule (fun _ => true) m') := by
  obtain ⟨m₁, along, left₁, eval₁, ⟨next, at_⟩, walk⟩ := walk_to left eval
  have depth : m₁.asd = m.asd := along.stack.length
  cases r with
  | plain attr => cases anchor
  | anchor attr wildcard inner children =>
    have enters := @stepIntoAnchor_enters _ _
      { m₁ with eval := later, aruleset := some m₁.ruleset } attr wildcard inner children next
      (depth ▸ room)
    obtain ⟨child, stack, -⟩ := enters.frame
    refine ⟨_, ⟨⟨_, _, stack, rfl, along.stack, ?_⟩, enters.remaining, enters.a,
      enters.same.2.1.trans along.match_⟩, enters.same.1, ?_⟩
    · rw [Machine.remaining, at_, cons_append, cons.injEq] at left₁
      exact left₁.2
    · refine walk.trans (Walk.step ?_)
      simp only [iterate, at_, countdown, eval₁, matchRule]

/-- The rules of an inner anchor fail, and the loop leaves it. -/
theorem walk_out {n : Nat} {l post : List (Rule α)} {f g : Frame α} {stack : List (Frame α)}
    (isStack : m.stack = f :: g :: stack) (left : m.remaining = l)
    (eval : m.eval = (l.length + n) :: later) (low : m.match_ = 0)
    (behind : f.next ++ g.child.tail.flatten = post) : ∃ m', m'.stack = g :: stack ∧
      m'.a = some f.r.attr ∧ m'.remaining = post ∧ m'.eval = n :: later ∧
      Walk (nextrule (fun _ => true) m) (nextrule (fun _ => true) m') := by
  induction l generalizing m f with
  | nil =>
    have empty := append_eq_nil_iff.mp left
    have none : nextChild f.child.tail = [] := by
      have flat := empty.2
      rw [Machine.children, isStack] at flat
      cases next : nextChild f.child.tail with
      | nil => rfl
      | cons child later =>
        have same := (nextChild_flatten f.child.tail).trans flat
        rw [next] at same
        exact absurd (append_eq_nil_iff.mp same).1 (nextChild_ne_nil next)
    rcases nextrule_leave (fun _ => true) empty.1 isStack none with ⟨high, -, -⟩ | ⟨-, leaves⟩
    · omega
    · refine ⟨leaveAnchor m f (g :: stack), rfl, rfl, behind, ?_, leaves ▸ .refl⟩
      rw [length_nil, zero_add] at eval
      exact eval
  | cons r l ih =>
    rw [length_cons, Nat.add_right_comm] at eval
    obtain ⟨m₁, along, left₁, eval₁, walk⟩ := walk_fail left eval
    have same := along.stack
    rw [isStack] at same
    generalize isStack₁ : m₁.stack = stack₁ at same
    cases same with
    | cons _ child _ =>
      obtain ⟨m', stack', a, rest, eval', walk'⟩ :=
        ih isStack₁ left₁ eval₁ (along.match_.trans low) behind
      exact ⟨m', stack', a, rest, eval', walk.trans walk'⟩

/-! ### The way to an anchor -/

theorem rulesHeight_append (l l' : List (Rule α)) :
    rulesHeight (l ++ l') = max (rulesHeight l) (rulesHeight l') := by
  induction l with
  | nil => rw [nil_append, rulesHeight, Nat.zero_max]
  | cons r l ih => rw [cons_append, rulesHeight, rulesHeight, ih, Nat.max_assoc]

theorem childrenHeight_eq (children : List (Ruleset α)) :
    childrenHeight children = rulesHeight children.flatten := by
  induction children with
  | nil => rw [childrenHeight, flatten_nil, rulesHeight]
  | cons child later ih => rw [childrenHeight, flatten_cons, rulesHeight_append, ih]

theorem height_body {r : Rule α} (anchor : r.isPlain = false) :
    r.height = 1 + rulesHeight r.body := by
  cases r with
  | plain attr => cases anchor
  | anchor attr wildcard inner children =>
    rw [Rule.height, Rule.body, Rule.rulesets]
    split
    · rw [childrenHeight_eq]
    · rw [flatten_cons, flatten_nil, append_nil]

/-- The loop can be led into every anchor of a tree that fits on the stack. -/
theorem walk_within {a : Option α} {outer : Ruleset α} {r : Rule α}
    (fits : rulesHeight rules ≤ anchorStackSize) (within : Within rules a outer)
    (mem : r ∈ outer) (anchor : r.isPlain = false) : ∃ path, ∀ later, ∃ m before post,
      Inside r before post m ∧ m.eval = later ∧ m.match_ = 0 ∧
      m.asd + rulesHeight r.body ≤ anchorStackSize ∧
      Walk (.inl (Machine.start rules (path ++ later))) (nextrule (fun _ => true) m) := by
  -- the depth grows by one, and the height of what is left goes down
  have deeper {m m' : Machine α (List Nat)} {r : Rule α} {seg post : List (Rule α)}
      (room : m.asd + rulesHeight (seg ++ r :: post) ≤ anchorStackSize)
      (inside : Inside r m post m') (anchor : r.isPlain = false) :
      m'.asd + rulesHeight r.body ≤ anchorStackSize := by
    obtain ⟨f, stack, isStack, -, same, -⟩ := inside.frame
    have depth : m'.asd = m.asd + 1 := by
      rw [Machine.asd, isStack, length_cons, same.length, Machine.asd]
    rw [rulesHeight_append, rulesHeight, height_body anchor] at room
    omega
  induction within generalizing r with
  | main =>
    obtain ⟨seg, post, split⟩ := append_of_mem mem
    refine ⟨[seg.length], fun later => ?_⟩
    have left : (Machine.start rules (seg.length :: later)).remaining = seg ++ r :: post := by
      rw [← split]
      exact append_nil _
    obtain ⟨m, inside, eval, walk⟩ := walk_into left rfl anchor (show 0 < 64 by decide)
    have start : nextrule (fun _ => true) (Machine.start rules (seg.length :: later)) =
        .inl (Machine.start rules (seg.length :: later)) := nextrule_start (t := countdown)
    rw [start] at walk
    have room : (Machine.start rules (seg.length :: later)).asd +
        rulesHeight (seg ++ r :: post) ≤ anchorStackSize := by
      rw [← split]
      exact (Nat.zero_add _).trans_le fits
    exact ⟨m, _, post, inside, eval, inside.match_, deeper room inside anchor, walk⟩
  | @anchor a outer inner r₀ outside mem₀ leads ih =>
    have anchor₀ : r₀.isPlain = false := by
      cases r₀ with
      | plain attr => cases leads
      | anchor _ _ _ _ => rfl
    obtain ⟨path, reach⟩ := ih mem₀ anchor₀
    obtain ⟨seg, post, split⟩ := append_of_mem (mem_flatten.mpr ⟨inner, leads, mem⟩)
    refine ⟨path ++ [seg.length], fun later => ?_⟩
    obtain ⟨m₀, _, _, inside₀, eval₀, low, room, walk₀⟩ := reach (seg.length :: later)
    have left : m₀.remaining = seg ++ r :: post := inside₀.remaining.trans split
    have height : rulesHeight r₀.body = rulesHeight (seg ++ r :: post) := congrArg _ split
    rw [height] at room
    have some : m₀.asd < anchorStackSize := by
      rw [rulesHeight_append, rulesHeight, height_body anchor] at room
      omega
    obtain ⟨m, inside, eval, walk⟩ := walk_into left eval₀ anchor some
    rw [append_assoc]
    exact ⟨m, m₀, post, inside, eval, inside.match_.trans low, deeper room inside anchor,
      walk₀.trans walk⟩

end Walk

/-- The attributes of a rule tell which anchor rule leads to it. -/
def Identified (rules : Ruleset α) : Prop :=
  ∀ {a outer r a' outer' r'}, Within rules a outer → r ∈ outer → Within rules a' outer' →
    r' ∈ outer' → r.attr = r'.attr → a = a'

section Exact

variable {rules : Ruleset α} (single : Identified rules)
include single

/-- An anchor is not inside of itself. -/
theorem Within.ne_own {a : Option α} {outer : Ruleset α} {r : Rule α}
    (within : Within rules a outer) (mem : r ∈ outer) : a ≠ some r.attr := by
  induction within generalizing r with
  | main => exact nofun
  | anchor outside mem₀ leads ih =>
    intro same
    have up := single (.anchor outside mem₀ leads) mem outside mem₀ (Option.some.inj same).symm
    exact ih mem₀ up.symm

/-- A rule behind an inner anchor can be made to decide, and the inner anchor is returned. -/
theorem ReportsAnchor.anchorsLast (fits : rulesHeight rules ≤ anchorStackSize)
    (reports : ReportsAnchor rules) : AnchorsLast rules := by
  intro a outer r within mem
  by_contra mixed
  obtain ⟨q, p, ordered, isPlain, anchor⟩ : ∃ q p, [q, p] <+ r.body ∧ p.isPlain = true ∧
      q.isPlain = false := by
    rw [pairwise_iff_forall_sublist] at mixed
    push Not at mixed
    obtain ⟨q, p, ordered, isPlain, anchor⟩ := mixed
    exact ⟨q, p, ordered, isPlain, Bool.eq_false_of_not_eq_true anchor⟩
  obtain ⟨front, back, body, memQ, rest⟩ := cons_sublist_iff.mp ordered
  obtain ⟨pre, mid, rfl⟩ := append_of_mem memQ
  obtain ⟨mid', post, rfl⟩ := append_of_mem (singleton_sublist.mp rest)
  have anchorR : r.isPlain = false := by
    cases r with
    | plain attr => simp [Rule.body, Rule.rulesets] at body
    | anchor _ _ _ _ => rfl
  obtain ⟨path, reach⟩ := walk_within fits within mem anchorR
  obtain ⟨m, _, _, inside, eval, low, room, walk⟩ :=
    reach [pre.length, q.body.length + (mid ++ mid').length]
  rw [append_assoc, cons_append, ← append_assoc] at body
  have space : m.asd < anchorStackSize := by
    rw [body, rulesHeight_append, rulesHeight, height_body anchor] at room
    omega
  obtain ⟨m₁, inner, eval₁, walk₁⟩ := walk_into (inside.remaining.trans body) eval anchor space
  obtain ⟨fr, below, isStack, rfl, -, -⟩ := inside.frame
  obtain ⟨fq, stack, isStack₁, rfl, same, behind⟩ := inner.frame
  rw [isStack] at same
  cases same with
  | cons _ child _ =>
    obtain ⟨m₂, isStack₂, a₂, left₂, eval₂, walk₂⟩ := walk_out isStack₁ inner.remaining eval₁
      (inner.match_.trans low) behind
    obtain ⟨m₃, along, left₃, eval₃, ⟨next, at_⟩, walk₃⟩ := walk_to left₂ eval₂
    have toRule := walk.trans (walk₁.trans (walk₂.trans walk₃))
    cases p with
    | anchor _ _ _ _ => cases isPlain
    | plain attr =>
      have last : (iterate countdown nextOnly m₃).2 = .inr (.quick
          { m₃ with eval := [], match_ := m₃.asd
                    rm := some ⟨attr, m₃.a, m₃.ruleset, m₃.aruleset⟩ }) := by
        simp only [iterate, at_, countdown, eval₃, matchRule]
        rfl
      obtain ⟨fuel, trace, ends⟩ := Walk.ends (toRule.trans (Walk.step last))
      obtain ⟨memP, wrong, -⟩ := reports countdown nextOnly ends rfl
      dsimp only at memP wrong
      have located := Walk.located toRule (located_start rules _)
      obtain ⟨right, -⟩ := located.here.resolve_left (at_ ▸ cons_ne_nil _ _)
      have top : topAttr m₃.stack = some fr.r.attr := by
        have same := along.stack
        rw [isStack₂] at same
        generalize m₃.stack = stack₃ at same ⊢
        cases same
        rfl
      rw [top] at right
      rw [along.a, a₂] at wrong
      have inside : ∃ inner ∈ fr.r.rulesets, fq.r ∈ inner := by
        have among : fq.r ∈ fr.r.body := by simp [body]
        exact mem_flatten.mp among
      obtain ⟨ruleset, leads, memQ⟩ := inside
      exact Within.ne_own single (.anchor within mem leads) memQ (single right memP wrong memP rfl)

end Exact

/-- An anchor with an anchor in front of a rule. -/
def innerAnchor : Ruleset RuleAttr :=
  [.anchor (anyRule 0) false [.anchor (anyRule 1) false [] [], .plain (anyRule 2)] []]

/-- The numbers of the rule that decides and of its anchor. -/
def decision (rules : Ruleset RuleAttr) : Option (Nat × Option Nat) := do
  let result ← (ruleLoop (pfTester translatingEnv udpPacket) skipHop 10
    (Machine.start rules (startEval udpPacket ()))).2
  let d ← result.machine.rm
  some (d.rule.nr, d.anchor.map RuleAttr.nr)

end Bitrig.Pf
