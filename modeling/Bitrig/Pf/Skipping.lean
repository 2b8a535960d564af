import Bitrig.Pf.Anchors

/-!
# Loops that skip rules

A test that fails may skip rules.  When the rules that are skipped would fail as well, the loop
selects the same rules as the one in which every failing test goes on to the next rule.
-/

namespace Bitrig.Pf

open Bitrig.TracedRun List

section Trees

variable {α : Type} {P : Ruleset α → Prop} {ruleset : Ruleset α}

/-- What holds of every ruleset of a tree. -/
inductive Everywhere (P : Ruleset α → Prop) : Ruleset α → Prop
  | intro {ruleset : Ruleset α} (here : P ruleset)
      (anchors : ∀ attr wildcard inner children,
        Rule.anchor attr wildcard inner children ∈ ruleset → Everywhere P inner)
      (children : ∀ attr wildcard inner children,
        Rule.anchor attr wildcard inner children ∈ ruleset →
        ∀ child ∈ children, Everywhere P child) : Everywhere P ruleset

theorem Everywhere.here (everywhere : Everywhere P ruleset) : P ruleset := by
  cases everywhere
  assumption

theorem Everywhere.anchor (everywhere : Everywhere P ruleset) {attr : α} {wildcard : Bool}
    {inner : Ruleset α} {children : List (Ruleset α)}
    (mem : Rule.anchor attr wildcard inner children ∈ ruleset) :
    Everywhere P inner ∧ ∀ child ∈ children, Everywhere P child := by
  cases everywhere with
  | intro _ anchors childs =>
    exact ⟨anchors _ _ _ _ mem, childs _ _ _ _ mem⟩

theorem Everywhere.mono {Q : Ruleset α → Prop} (weaker : ∀ ruleset, P ruleset → Q ruleset)
    (everywhere : Everywhere P ruleset) : Everywhere Q ruleset := by
  induction everywhere with
  | intro here _ _ anchors childs => exact .intro (weaker _ here) anchors childs

end Trees

section Skipping

variable {α σ κ : Type}

/-- Every failing test goes on to the next rule. -/
def nextOnly : Hop α κ :=
  fun _ _ _ => 0

/-- The rules of a ruleset keep an invariant of the state of evaluation, and the rules that a
failing test skips fail as well, and change nothing. -/
structure Sound (t : Tester α σ κ) (hop : Hop α κ) (inv : σ → Prop) (ruleset : Ruleset α) :
    Prop where
  skips : ∀ r rest s s' step, (r :: rest) <:+ ruleset → inv s →
    t.test r.attr s = .fails s' (some step) →
    ∀ q ∈ rest.take (hop ruleset (r :: rest) step),
      ∃ step', t.test q.attr s' = .fails s' step'
  fails : ∀ r ∈ ruleset, ∀ s s' step, inv s → t.test r.attr s = .fails s' step → inv s'
  passes : ∀ r ∈ ruleset, ∀ s s', inv s → t.test r.attr s = .passes s' → inv s'
  applies : ∀ attr, Rule.plain attr ∈ ruleset → ∀ s s', inv s → t.isMatch attr = true →
    t.apply attr s = some s' → inv s'

variable {t : Tester α σ κ} {hop : Hop α κ} {inv : σ → Prop} {m m' : Machine α σ} {quick : α → Bool}
  {s : σ} {next l : List (Rule α)} {trace : List α} {result : Result α σ}

/-! ### Machines in a sound tree -/

/-- A frame for a place in a sound tree. -/
structure FramePlaced (t : Tester α σ κ) (hop : Hop α κ) (inv : σ → Prop) (f : Frame α) :
    Prop where
  rs : Everywhere (Sound t hop inv) f.rs
  next : f.next <:+ f.rs
  child : ∀ child ∈ f.child, Everywhere (Sound t hop inv) child

/-- The loop is at a place in a sound tree. -/
structure Placed (t : Tester α σ κ) (hop : Hop α κ) (inv : σ → Prop) (m : Machine α σ) :
    Prop where
  eval : inv m.eval
  ruleset : Everywhere (Sound t hop inv) m.ruleset
  r : m.r <:+ m.ruleset
  stack : ∀ f ∈ m.stack, FramePlaced t hop inv f

theorem nextChild_suffix (children : List (Ruleset α)) : nextChild children <:+ children := by
  induction children with
  | nil => exact suffix_refl _
  | cons child later ih =>
    cases child with
    | nil => exact ih.trans (suffix_cons _ _)
    | cons r rules => exact suffix_refl _

section

variable (placed : Placed t hop inv m)
include placed

theorem stepOutOfAnchor_placed {stack : List (Frame α)}
    (frames : ∀ f ∈ stack, FramePlaced t hop inv f) :
    Placed t hop inv (stepOutOfAnchor quick m stack).2 := by
  induction stack generalizing m with
  | nil => exact ⟨placed.eval, placed.ruleset, placed.r, frames⟩
  | cons f stack ih =>
    have top := frames f mem_cons_self
    have below : ∀ f ∈ stack, FramePlaced t hop inv f :=
      fun f mem => frames f (mem_cons_of_mem _ mem)
    have suffix := nextChild_suffix f.child.tail
    unfold stepOutOfAnchor
    split
    · rename_i child later next
      rw [next] at suffix
      have among : ∀ c ∈ child :: later, Everywhere (Sound t hop inv) c :=
        fun c mem => top.child c (mem_of_mem_tail (suffix.subset mem))
      exact ⟨placed.eval, among child mem_cons_self, suffix_refl _,
        forall_mem_cons.mpr ⟨⟨top.rs, top.next, among⟩, below⟩⟩
    · dsimp only
      split
      · exact ih ⟨placed.eval, top.rs, top.next, below⟩ below
      · exact ⟨placed.eval, top.rs, top.next, below⟩

theorem nextrule_placed (next : nextrule quick m = .inl m') : Placed t hop inv m' := by
  unfold nextrule at next
  split at next
  · have out : Placed t hop inv (stepOutOfAnchor quick m m.stack).2 :=
      stepOutOfAnchor_placed placed placed.stack
    generalize stepOutOfAnchor quick m m.stack = stepped at next out
    obtain ⟨stop, m''⟩ := stepped
    cases stop with
    | true => cases next
    | false =>
      cases next
      exact out
  · cases next
    exact placed

theorem Placed.goTo {r : List (Rule α)} (kept : inv s) (suffix : r <:+ m.ruleset) :
    Placed t hop inv { m with eval := s, r := r } :=
  ⟨kept, placed.ruleset, suffix, placed.stack⟩

theorem stepIntoAnchor_placed {attr : α} {wildcard : Bool} {inner : Ruleset α}
    {children : List (Ruleset α)}
    (suffix : (Rule.anchor attr wildcard inner children :: next) <:+ m.ruleset) : Placed t hop inv
      (stepIntoAnchor m (.anchor attr wildcard inner children) next wildcard inner children) := by
  have behind : next <:+ m.ruleset := (suffix_cons _ _).trans suffix
  have inside := placed.ruleset.anchor (suffix.subset mem_cons_self)
  unfold stepIntoAnchor
  split
  · exact ⟨placed.eval, placed.ruleset, behind, placed.stack⟩
  · split
    · have frames : ∀ f ∈ Frame.mk m.ruleset (.anchor attr wildcard inner children) next children ::
          m.stack, FramePlaced t hop inv f :=
        forall_mem_cons.mpr ⟨⟨placed.ruleset, behind, inside.2⟩, placed.stack⟩
      cases children with
      | nil => exact ⟨placed.eval, placed.ruleset, nil_suffix, frames⟩
      | cons child later =>
        exact ⟨placed.eval, inside.2 child mem_cons_self, suffix_refl _, frames⟩
    · refine ⟨placed.eval, inside.1, suffix_refl _, forall_mem_cons.mpr ⟨?_, placed.stack⟩⟩
      exact ⟨placed.ruleset, behind, fun c mem => absurd mem not_mem_nil⟩

theorem matchRule_placed {r : Rule α} (suffix : (r :: next) <:+ m.ruleset)
    (goesOn : matchRule t m next r = .inl m') : Placed t hop inv m' := by
  have behind : next <:+ m.ruleset := (suffix_cons _ _).trans suffix
  cases r with
  | plain attr =>
    simp only [matchRule] at goesOn
    by_cases isMatch : t.isMatch attr = true
    · rw [if_pos isMatch] at goesOn
      cases applied : t.apply attr m.eval with
      | none =>
        rw [applied] at goesOn
        cases goesOn
      | some s =>
        simp only [applied] at goesOn
        split at goesOn
        · cases goesOn
        · have kept := placed.ruleset.here.applies attr
            (suffix.subset mem_cons_self) m.eval s placed.eval isMatch applied
          exact nextrule_placed (placed.goTo kept behind) goesOn
    · rw [if_neg isMatch] at goesOn
      split at goesOn
      · cases goesOn
      · refine nextrule_placed ?_ goesOn
        exact ⟨placed.eval, placed.ruleset, behind, placed.stack⟩
  | anchor attr wildcard inner children =>
    have called : Placed t hop inv { m with aruleset := some m.ruleset } :=
      ⟨placed.eval, placed.ruleset, placed.r, placed.stack⟩
    exact nextrule_placed (stepIntoAnchor_placed called suffix) goesOn

end

/-! ### The two loops -/

theorem skipped_nextOnly {ruleset : Ruleset α} {step : Option κ} :
    skipped nextOnly ruleset l step = 0 := by
  cases step <;> rfl

/-- The loop without skips comes over rules that fail and change nothing. -/
theorem runFrom_over {n fuel : Nat}
    (fail : ∀ q ∈ l.take n, ∃ step, t.test q.attr m.eval = .fails m.eval step)
    (ends : runFrom t nextOnly fuel (nextrule t.quick { m with r := l }) = (trace, some result)) :
    ∃ less ≤ fuel,
      runFrom t nextOnly less (nextrule t.quick { m with r := l.drop n }) =
        (trace, some result) := by
  induction l generalizing n fuel with
  | nil => exact ⟨fuel, Nat.le_refl _, by rwa [drop_nil]⟩
  | cons q l ih =>
    cases n with
    | zero => exact ⟨fuel, Nat.le_refl _, ends⟩
    | succ n =>
      obtain ⟨step, tested⟩ := fail q mem_cons_self
      cases fuel with
      | zero => cases congrArg Prod.snd ends
      | succ fuel =>
        change ruleLoop t nextOnly (fuel + 1) { m with r := q :: l } = _ at ends
        rw [ruleLoop_succ, iterate_fails (m := { m with r := q :: l }) rfl tested,
          skipped_nextOnly] at ends
        obtain ⟨less, le, later⟩ :=
          ih (fun q mem => fail q (mem_cons_of_mem _ mem)) ends
        exact ⟨less, Nat.le_succ_of_le le, later⟩

/-- A result of the loop without skips is a result of the loop that skips rules. -/
theorem ruleLoop_skips {fuel : Nat} (placed : Placed t hop inv m)
    (ends : ruleLoop t nextOnly fuel m = (trace, some result)) :
    ruleLoop t hop fuel m = (trace, some result) := by
  induction fuel using Nat.strongRecOn generalizing m trace with
  | ind fuel ih =>
    cases fuel with
    | zero => cases congrArg Prod.snd ends
    | succ fuel =>
      -- the iterations behind the first one, of which the loop without skips may need fewer
      have later : ∀ less ≤ fuel, ∀ x trace, (∀ m', x = .inl m' → Placed t hop inv m') →
          runFrom t nextOnly less x = (trace, some result) →
          runFrom t hop fuel x = (trace, some result) := by
        intro less le x trace placed ends
        cases x with
        | inl m' =>
          exact run_of_le (ih less (Nat.lt_succ_of_le le) (placed m' rfl) ends) le
        | inr last => exact ends
      cases here : m.r with
      | nil =>
        have same : iterate t hop m = iterate t nextOnly m := by
          simp only [iterate, here]
        rw [ruleLoop_succ] at ends ⊢
        simp only [iterate, here] at ends ⊢
        exact ends
      | cons r rest =>
        have suffix : (r :: rest) <:+ m.ruleset := here ▸ placed.r
        have mem : r ∈ m.ruleset := suffix.subset mem_cons_self
        have sound := placed.ruleset.here
        rw [ruleLoop_succ] at ends ⊢
        cases tested : t.test r.attr m.eval with
        | fails s step =>
          have kept := sound.fails r mem m.eval s step placed.eval tested
          rw [iterate_fails here tested] at ends ⊢
          rw [skipped_nextOnly] at ends
          have fail : ∀ q ∈ rest.take (skipped hop m.ruleset (r :: rest) step),
              ∃ step', t.test q.attr s = .fails s step' := by
            cases step with
            | none => exact fun q mem => absurd mem (by simp [skipped])
            | some step =>
              exact sound.skips r rest m.eval s step suffix placed.eval tested
          obtain ⟨less, le, ends⟩ := runFrom_over (m := { m with eval := s }) fail ends
          refine later less le _ trace (fun m' next => ?_) ends
          exact nextrule_placed (placed.goTo kept
            ((drop_suffix _ _).trans ((suffix_cons _ _).trans suffix))) next
        | passes s =>
          have kept := sound.passes r mem m.eval s placed.eval tested
          rw [iterate_passes here tested] at ends ⊢
          obtain ⟨rfl, last⟩ := Prod.mk.inj ends
          have matched : Placed t hop inv { m with eval := s } :=
            ⟨kept, placed.ruleset, placed.r, placed.stack⟩
          rw [later fuel (Nat.le_refl _) (matchRule t { m with eval := s } rest r) _
            (fun m' goesOn => matchRule_placed matched suffix goesOn)
            (Prod.ext rfl last)]

/-- Both loops end, with the same rules and with the same values. -/
theorem ruleLoop_eq_nextOnly {rules : Ruleset α} (sound : Everywhere (Sound t hop inv) rules)
    (start : inv s) : ∃ enough trace result, ∀ fuel ≥ enough,
      ruleLoop t hop fuel (Machine.start rules s) = (trace, some result) ∧
      ruleLoop t nextOnly fuel (Machine.start rules s) = (trace, some result) := by
  obtain ⟨enough, trace, result, ends, -⟩ := ruleLoop_ends
  have placed : Placed t hop inv (Machine.start rules s) :=
    ⟨start, sound, suffix_refl _, fun f mem => absurd mem not_mem_nil⟩
  refine ⟨enough, trace, result, fun fuel le => ?_⟩
  exact ⟨ruleLoop_skips placed (ends fuel le), ends fuel le⟩

end Skipping

end Bitrig.Pf
