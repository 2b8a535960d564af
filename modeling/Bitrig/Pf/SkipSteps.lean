import Bitrig.Pf.Rules
import Bitrig.Pf.Skipping

/-!
# Skip steps (net/pf.c)

`pf_calc_skip_steps` goes once over a ruleset and compares each rule with the one before it, for
each of the skip steps.  Between a rule and the target of its skip pointer no two neighbours
differ, so that a test which depends on what is compared only fails for all of them.
-/

namespace Bitrig.Pf

open List

/-! ### The pass over a ruleset -/

/-- What the pass keeps for one skip step: the variable `head[i]`, and the pointers
`skip[i].ptr` that have been set, by the numbers of the rules. -/
structure Chain where
  head : Nat
  ptr : Nat → Nat

/-- `PF_SET_SKIP_STEPS`, for a number of iterations at most. -/
def setSkipSteps (cur : Nat) : Nat → Chain → Chain
  | 0, chain => chain
  | fuel + 1, chain =>
    if chain.head ≠ cur then
      setSkipSteps cur fuel ⟨chain.head + 1, Function.update chain.ptr chain.head cur⟩
    else chain

section Pass

variable {α κ : Type} (differ : κ → α → α → Bool)

/-- The `while` loop of `pf_calc_skip_steps`; `n` is the number of `cur`. -/
def calcPass : Nat → α → List α → (κ → Chain) → Nat × (κ → Chain)
  | n, _, [], chains => (n, chains)
  | n, prev, cur :: rest, chains =>
    calcPass (n + 1) cur rest
      (fun i => if differ i cur prev then setSkipSteps n n (chains i) else chains i)

/-- `pf_calc_skip_steps`: for a step and the number of a rule the number of the rule that the
pointer leads to, and the number of rules for NULL. -/
def calcSkipSteps : List α → κ → Nat → Nat
  | [] => fun _ n => n
  | first :: rest =>
    let (n, chains) := calcPass differ 0 first (first :: rest) (fun _ => ⟨0, id⟩)
    fun i => (setSkipSteps n n (chains i)).ptr

variable {differ} {chain : Chain} {rules : List α} {n : Nat}

/-- No rule from one number to another one differs from the one before it. -/
def Alike (differ : α → α → Bool) (rules : List α) (low high : Nat) : Prop :=
  ∀ k prev cur, low ≤ k → k + 1 < high → rules[k]? = some prev → rules[k + 1]? = some cur →
    differ cur prev = false

/-- The pointers that have been set stay among rules that do not differ, and so does the part
from `head[i]` on. -/
structure ChainOk (differ : α → α → Bool) (rules : List α) (n : Nat) (chain : Chain) : Prop where
  head : chain.head ≤ n
  set : ∀ j < chain.head, j < chain.ptr j ∧ chain.ptr j ≤ n ∧ Alike differ rules j (chain.ptr j)
  unset : Alike differ rules chain.head n

theorem setSkipSteps_eq {cur fuel : Nat} (le : chain.head ≤ cur)
    (enough : cur ≤ chain.head + fuel) :
    setSkipSteps cur fuel chain =
      ⟨cur, fun j => if chain.head ≤ j ∧ j < cur then cur else chain.ptr j⟩ := by
  induction fuel generalizing chain with
  | zero =>
    obtain rfl : chain.head = cur := by omega
    obtain ⟨head, ptr⟩ := chain
    have none : ∀ j, ¬(head ≤ j ∧ j < head) := by omega
    simp only [setSkipSteps, none, if_false]
  | succ fuel ih =>
    obtain ⟨head, ptr⟩ := chain
    unfold setSkipSteps
    by_cases more : head ≠ cur
    · rw [if_pos more, ih (by dsimp only at le ⊢; omega) (by dsimp only at enough ⊢; omega)]
      congr 1
      funext j
      dsimp only at le ⊢
      by_cases first : j = head
      · subst first
        rw [if_neg (by omega), if_pos (by omega), Function.update_self]
      · rw [Function.update_of_ne first]
        by_cases later : head + 1 ≤ j ∧ j < cur
        · rw [if_pos later, if_pos (by omega)]
        · rw [if_neg later, if_neg (by omega)]
    · obtain rfl := not_ne_iff.mp more
      have none : ∀ j, ¬(head ≤ j ∧ j < head) := by omega
      simp only [ne_eq, not_true_eq_false, if_false, none]

theorem ChainOk.setSkipSteps {differ : α → α → Bool} (ok : ChainOk differ rules n chain) :
    ChainOk differ rules n (setSkipSteps n n chain) ∧ (setSkipSteps n n chain).head = n := by
  rw [setSkipSteps_eq ok.head (Nat.le_add_left _ _)]
  refine ⟨⟨Nat.le_refl n, ?_, ?_⟩, rfl⟩
  · intro j before
    dsimp only at before ⊢
    by_cases now : chain.head ≤ j ∧ j < n
    · rw [if_pos now]
      refine ⟨before, Nat.le_refl n, ?_⟩
      exact fun k prev cur low => ok.unset k prev cur (Nat.le_trans now.1 low)
    · rw [if_neg now]
      exact ok.set j (by omega)
  · intro k prev cur low high
    dsimp only at low
    omega

/-- The pass over one more rule, for one skip step. -/
theorem ChainOk.next {differ : α → α → Bool} {prev cur : α} (ok : ChainOk differ rules n chain)
    (here : rules[n]? = some cur) (before : 0 < n → rules[n - 1]? = some prev) :
    ChainOk differ rules (n + 1)
      (if differ cur prev then Pf.setSkipSteps n n chain else chain) := by
  by_cases differs : differ cur prev = true
  · obtain ⟨ok, head⟩ := ok.setSkipSteps
    rw [if_pos differs]
    refine ⟨Nat.le_succ_of_le ok.head, fun j less => ?_, fun k prev cur low high => ?_⟩
    · obtain ⟨above, below, alike⟩ := ok.set j less
      exact ⟨above, Nat.le_succ_of_le below, alike⟩
    · omega
  · rw [if_neg differs]
    refine ⟨Nat.le_succ_of_le ok.head, fun j less => ?_, fun k prev' cur' low high => ?_⟩
    · obtain ⟨above, below, alike⟩ := ok.set j less
      exact ⟨above, Nat.le_succ_of_le below, alike⟩
    · intro atPrev atCur
      by_cases last : k + 1 = n
      · -- the new pair of neighbours
        have positive : 0 < n := by omega
        have prevAt := before positive
        rw [← last] at prevAt
        rw [last] at atCur
        obtain rfl := Option.some.inj (here.symm.trans atCur)
        obtain rfl := Option.some.inj (prevAt.symm.trans atPrev)
        exact Bool.not_eq_true _ ▸ differs
      · exact ok.unset k prev' cur' low (by omega) atPrev atCur

theorem calcPass_ok {rest : List α} {prev : α} {chains : κ → Chain} (left : rules.drop n = rest)
    (within : n ≤ rules.length) (before : 0 < n → rules[n - 1]? = some prev)
    (ok : ∀ i, ChainOk (differ i) rules n (chains i)) :
    (calcPass differ n prev rest chains).1 = rules.length ∧
      ∀ i, ChainOk (differ i) rules rules.length ((calcPass differ n prev rest chains).2 i) := by
  induction rest generalizing n prev chains with
  | nil =>
    obtain rfl := Nat.le_antisymm within (drop_eq_nil_iff.mp left)
    exact ⟨rfl, ok⟩
  | cons cur rest ih =>
    have here : rules[n]? = some cur := by
      rw [← head?_drop, left, head?_cons]
    have less : n < rules.length := (List.getElem?_eq_some_iff.mp here).1
    have later : rules.drop (n + 1) = rest := by
      rw [← drop_drop, left, drop_one, tail_cons]
    exact ih later less (fun _ => here) (fun i => (ok i).next here before)

/-- A pointer leads forward, and over rules that do not differ from those before them. -/
theorem calcSkipSteps_ok {i : κ} {j : Nat} (inside : j < rules.length) :
    j < calcSkipSteps differ rules i j ∧ calcSkipSteps differ rules i j ≤ rules.length ∧
      Alike (differ i) rules j (calcSkipSteps differ rules i j) := by
  cases rules with
  | nil => exact absurd inside (Nat.not_lt_zero _)
  | cons first rest =>
    have pass : (calcPass differ 0 first (first :: rest) (fun _ => ⟨0, id⟩)).1 =
        (first :: rest).length ∧
        ∀ i, ChainOk (differ i) (first :: rest) (first :: rest).length
          ((calcPass differ 0 first (first :: rest) (fun _ => ⟨0, id⟩)).2 i) := by
      refine calcPass_ok rfl (Nat.zero_le _) (fun positive => ?_) (fun i => ?_)
      · exact absurd positive (Nat.lt_irrefl 0)
      · exact ⟨Nat.le_refl 0, fun j less => absurd less (Nat.not_lt_zero j),
          fun k prev cur _ high => absurd high (Nat.not_lt_zero _)⟩
    obtain ⟨length, ok⟩ := pass
    obtain ⟨last, head⟩ := (ok i).setSkipSteps
    have set := last.set j (head.symm ▸ inside)
    unfold calcSkipSteps
    dsimp only
    rw [length]
    exact set

/-- Rules that do not differ from those before them are like the first of them. -/
theorem Alike.same {differ : α → α → Bool} {same : α → α → Prop} {low high : Nat} {first last : α}
    (refl : ∀ a, same a a) (trans : ∀ a b c, same a b → same b c → same a c)
    (of_not_differ : ∀ cur prev, differ cur prev = false → same prev cur)
    (alike : Alike differ rules low high) (atLow : rules[low]? = some first) (n : Nat)
    (below : low + n < high) (here : rules[low + n]? = some last) : same first last := by
  induction n generalizing last with
  | zero =>
    obtain rfl := Option.some.inj (atLow.symm.trans here)
    exact refl first
  | succ n ih =>
    have inside : low + n < rules.length :=
      Nat.lt_of_succ_lt (List.getElem?_eq_some_iff.mp here).1
    have before : rules[low + n]? = some rules[low + n] := getElem?_eq_getElem inside
    refine trans _ _ _ (ih (Nat.lt_of_succ_lt below) before) ?_
    exact of_not_differ _ _ (alike (low + n) _ _ (Nat.le_add_right _ _) below before here)

end Pass

/-! ### The comparisons of pf -/

/-- `pf_addr_wrap_neq` -/
def addrWrapNeq : AddrWrap → AddrWrap → Bool
  | .addrmask addr mask, .addrmask addr' mask' => addr != addr' || mask != mask'
  | .range addr mask, .range addr' mask' => addr != addr' || mask != mask'
  | .dyniftl kt, .dyniftl kt' => kt != kt'
  | .none, .none => false
  | .noroute, .noroute => false
  | .urpffailed, .urpffailed => false
  | .table tbl, .table tbl' => tbl != tbl'
  | .rtlabel label, .rtlabel label' => label != label'
  | _, _ => true

/-- The comparisons of `pf_calc_skip_steps`. -/
def fieldsDiffer : SkipStep → RuleAttr → RuleAttr → Bool
  | .ifp, cur, prev => cur.kif != prev.kif || cur.ifnot != prev.ifnot
  | .dir, cur, prev => cur.direction != prev.direction
  | .rdom, cur, prev => cur.onrdomain != prev.onrdomain || cur.ifnot != prev.ifnot
  | .af, cur, prev => cur.af != prev.af
  | .proto, cur, prev => cur.proto != prev.proto
  | .srcAddr, cur, prev => cur.src.neg != prev.src.neg || addrWrapNeq cur.src.addr prev.src.addr
  | .dstAddr, cur, prev => cur.dst.neg != prev.dst.neg || addrWrapNeq cur.dst.addr prev.dst.addr
  | .srcPort, cur, prev =>
    cur.src.port0 != prev.src.port0 || cur.src.port1 != prev.src.port1 ||
      cur.src.portOp != prev.src.portOp
  | .dstPort, cur, prev =>
    cur.dst.port0 != prev.dst.port0 || cur.dst.port1 != prev.dst.port1 ||
      cur.dst.portOp != prev.dst.portOp

/-- The skip pointers of a ruleset, by the number of rules that they skip. -/
def skipHop : Hop RuleAttr SkipStep := fun ruleset l step =>
  let n := ruleset.length - l.length
  calcSkipSteps fieldsDiffer (ruleset.map Rule.attr) step n - (n + 1)

/-- Rules that are the same for a skip step. -/
def Same : SkipStep → RuleAttr → RuleAttr → Prop
  | .ifp, a, b => a.kif = b.kif ∧ a.ifnot = b.ifnot
  | .dir, a, b => a.direction = b.direction
  | .rdom, a, b => a.onrdomain = b.onrdomain ∧ a.ifnot = b.ifnot
  | .af, a, b => a.af = b.af
  | .proto, a, b => a.proto = b.proto
  | .srcAddr, a, b => a.src.neg = b.src.neg ∧ a.src.addr = b.src.addr
  | .dstAddr, a, b => a.dst.neg = b.dst.neg ∧ a.dst.addr = b.dst.addr
  | .srcPort, a, b =>
    a.src.port0 = b.src.port0 ∧ a.src.port1 = b.src.port1 ∧ a.src.portOp = b.src.portOp
  | .dstPort, a, b =>
    a.dst.port0 = b.dst.port0 ∧ a.dst.port1 = b.dst.port1 ∧ a.dst.portOp = b.dst.portOp

theorem Same.refl (step : SkipStep) (a : RuleAttr) : Same step a a := by
  cases step <;> simp [Same]

variable {step : SkipStep}

theorem Same.trans {a b c : RuleAttr} (first : Same step a b) (second : Same step b c) :
    Same step a c := by
  cases step <;> simp only [Same] at first second ⊢ <;> simp [first, second]

theorem eq_of_addrWrapNeq {a b : AddrWrap} (same : addrWrapNeq a b = false) : a = b := by
  cases a <;> cases b <;> simp_all [addrWrapNeq]

theorem same_of_fieldsDiffer {cur prev : RuleAttr} (same : fieldsDiffer step cur prev = false) :
    Same step prev cur := by
  cases step with
  | srcAddr | dstAddr =>
    simp only [fieldsDiffer, Bool.or_eq_false_iff, bne_eq_false_iff_eq] at same
    exact ⟨same.1.symm, (eq_of_addrWrapNeq same.2).symm⟩
  | _ =>
    simp only [fieldsDiffer, Bool.or_eq_false_iff, bne_eq_false_iff_eq] at same
    simp [Same, same]

/-- The rules that a skip pointer skips are the same for its step. -/
theorem skipHop_same {ruleset rest : List (Rule RuleAttr)} {r q : Rule RuleAttr}
    (suffix : (r :: rest) <:+ ruleset) (mem : q ∈ rest.take (skipHop ruleset (r :: rest) step)) :
    Same step r.attr q.attr := by
  obtain ⟨before, rfl⟩ := suffix
  have number : (before ++ r :: rest).length - (r :: rest).length = before.length := by
    rw [length_append, Nat.add_sub_cancel]
  have inside : before.length < ((before ++ r :: rest).map Rule.attr).length := by simp
  obtain ⟨-, -, alike⟩ := calcSkipSteps_ok inside
  obtain ⟨k, less, found⟩ := mem_take_iff_getElem.mp mem
  have skips : k < calcSkipSteps fieldsDiffer ((before ++ r :: rest).map Rule.attr) step
      before.length - (before.length + 1) := by
    have less := Nat.lt_of_lt_of_le less (Nat.min_le_left _ _)
    unfold skipHop at less
    rwa [number] at less
  have here : ((before ++ r :: rest).map Rule.attr)[before.length + (k + 1)]? =
      some q.attr := by
    rw [getElem?_map, getElem?_append_right (Nat.le_add_right _ _),
      Nat.add_sub_cancel_left, getElem?_cons_succ, ← found, getElem?_eq_getElem]
    rfl
  exact alike.same (Same.refl step) (fun _ _ _ => Same.trans) (fun _ _ => same_of_fieldsDiffer)
    (by simp) (k + 1) (by omega) here

/-! ### Tests of rules that are the same for a skip step -/

section Tests

variable {η : Type} {env : Env η} {pd : Packet} {r q : RuleAttr} {s s' : Eval η}
  {step : SkipStep} {ruleAf ruleAf' af : Family} {x : Addr} {tests : List (Bool × Option SkipStep)}
  {a : Option SkipStep} {t : Bool}

/-- Whether the entries of a family are counted for the dynamic addresses of a rule. -/
def Counts (ruleAf af : Family) : Prop :=
  ruleAf = .unspec ∨ ruleAf = af

theorem pfiMatchAddr_congr {kt : Nat} (counts : Counts ruleAf af ↔ Counts ruleAf' af) :
    pfiMatchAddr env (dynaddrUpdate env kt ruleAf) kt x af =
      pfiMatchAddr env (dynaddrUpdate env kt ruleAf') kt x af := by
  unfold Counts at counts
  cases af with
  | inet | inet6 => simp only [pfiMatchAddr, dynaddrUpdate, counts]
  | unspec => rfl
  | other code => rfl

/-- The family of a rule matters for dynamic addresses only, and there by what is counted. -/
theorem mismatchaw_congr {addr addr' : RuleAddr} {ifp : Option Nat} {rtid : Int}
    (neg : addr.neg = addr'.neg) (same : addr.addr = addr'.addr)
    (counts : (∃ kt, addr.addr = .dyniftl kt) → (Counts ruleAf af ↔ Counts ruleAf' af)) :
    mismatchaw env ruleAf addr x af ifp rtid = mismatchaw env ruleAf' addr' x af ifp rtid := by
  unfold mismatchaw
  rw [← neg, ← same]
  cases kind : addr.addr with
  | dyniftl kt =>
    simp only [mismatch]
    rw [pfiMatchAddr_congr (counts ⟨kt, kind⟩)]
  | _ => rfl

/-- The families of two rules with the same dynamic source address, of which the first one can
skip the second one.  For a rule without a family the entries of all families are counted: if it
stands behind one with a family, it may match where the other one does not, and the other way round
if the address is negated. -/
def FamiliesFit (r q : RuleAttr) : Prop :=
  (r.src.neg = 0 → q.af = .unspec → r.af = .unspec) ∧
    (r.src.neg = 1 → r.af = .unspec → q.af = .unspec)

/-- What is asked of two rules with the same dynamic source address: that the family of the
packet has not been changed, or that the families of the rules fit. -/
def SourceOk (pd : Packet) (r q : RuleAttr) (s : Eval η) : Prop :=
  s.naf = pd.af ∨ ((∃ kt, r.src.addr = .dyniftl kt) → FamiliesFit r q)

theorem counts_of_skipTest (passes : skipTest env pd r s .af = false) : Counts r.af pd.af := by
  simp only [skipTest, Bool.and_eq_false_iff, bne_eq_false_iff_eq] at passes
  exact passes

/-- No entry matches if none is counted. -/
theorem mismatch_of_not_counts {kt : Nat} {ifp : Option Nat} {rtid : Int}
    (none : ¬Counts ruleAf af) : mismatch env ruleAf (.dyniftl kt) x af ifp rtid = true := by
  unfold Counts at none
  cases af with
  | inet | inet6 => simp [mismatch, pfiMatchAddr, dynaddrUpdate, none]
  | unspec => rfl
  | other code => rfl

/-- The source test of a rule with a dynamic address fails, and so does the one of a rule that it
skips, if their families fit. -/
theorem srcAddr_fails {kt : Nat} (same : Same .srcAddr r q) (dynamic : r.src.addr = .dyniftl kt)
    (fit : FamiliesFit r q) (rAf : Counts r.af pd.af) (qAf : Counts q.af pd.af)
    (fails : skipTest env pd r s .srcAddr = true) : skipTest env pd q s .srcAddr = true := by
  obtain ⟨neg, addr⟩ := same
  by_cases counts : Counts r.af s.naf ↔ Counts q.af s.naf
  · exact (mismatchaw_congr neg.symm addr.symm fun _ => counts.symm).trans fails
  have changed : ¬Counts pd.af s.naf := by
    unfold Counts at *
    grind
  simp only [skipTest, mismatchaw, ← addr, ← neg, dynamic, bne_iff_ne] at fails ⊢
  obtain zero | one | more : r.src.neg = 0 ∨ r.src.neg = 1 ∨ 2 ≤ r.src.neg := by omega
  · -- the second rule counts less
    have none : ¬Counts q.af s.naf := by
      have := fit.1 zero
      unfold Counts at *
      grind
    rw [mismatch_of_not_counts none, zero]
    decide
  · -- the first rule matches, so that it counts
    have some : Counts r.af s.naf := by
      by_contra none
      rw [mismatch_of_not_counts none, one] at fails
      exact fails rfl
    have := fit.2 one
    unfold Counts at *
    grind
  · have le := Bool.toNat_le (mismatch env q.af (.dyniftl kt) s.addrs.nsaddr s.naf
      (some pd.kif) s.act.rtableid)
    omega

theorem skipTest_same (same : Same step r q) (source : step = .srcAddr → SourceOk pd r q s)
    (rAf : step = .srcAddr ∨ step = .dstAddr → skipTest env pd r s .af = false)
    (qAf : skipTest env pd q s .af = false) (fails : skipTest env pd r s step = true) :
    skipTest env pd q s step = true := by
  have counts := counts_of_skipTest qAf
  cases step with
  | srcAddr =>
    have first := counts_of_skipTest (rAf (.inl rfl))
    by_cases dynamic : ∃ kt, r.src.addr = .dyniftl kt
    · rcases source rfl with unchanged | fit
      · refine (mismatchaw_congr same.1.symm same.2.symm fun _ => ?_).trans fails
        rw [unchanged]
        exact iff_of_true counts first
      · exact srcAddr_fails same dynamic.choose_spec (fit dynamic) first counts fails
    · refine (mismatchaw_congr same.1.symm same.2.symm fun found => ?_).trans fails
      exact absurd (same.2 ▸ found) dynamic
  | dstAddr =>
    refine (mismatchaw_congr same.1.symm same.2.symm fun _ => ?_).trans fails
    exact iff_of_true counts (counts_of_skipTest (rAf (.inr rfl)))
  | _ =>
    simp only [Same] at same
    simp only [skipTest, portFails, same] at fails ⊢
    exact fails

/-! ### The first test that fails -/

theorem testAttribs_of_mem (mem : (true, a) ∈ tests) : ∃ step, testAttribs tests = some step := by
  induction tests with
  | nil => cases mem
  | cons test rest ih =>
    obtain ⟨t, b⟩ := test
    cases t with
    | true => exact ⟨b, rfl⟩
    | false =>
      rcases mem_cons.mp mem with first | later
      · cases first
      · exact ih later

theorem mem_of_testAttribs (found : testAttribs tests = some a) : (true, a) ∈ tests := by
  induction tests with
  | nil => cases found
  | cons test rest ih =>
    obtain ⟨t, b⟩ := test
    cases t with
    | true =>
      cases found
      exact mem_cons_self
    | false => exact mem_cons_of_mem _ (ih found)

theorem mem_stepTests (steps : List SkipStep)
    (mem : (t, some step) ∈ steps.map (stepTest env pd r s)) : t = skipTest env pd r s step ∧
      ∀ q, stepTest env pd q s step ∈ steps.map (stepTest env pd q s) := by
  obtain ⟨found, among, same⟩ := mem_map.mp mem
  obtain ⟨rfl, stepEq⟩ := Prod.mk.inj same
  obtain rfl := Option.some.inj stepEq
  exact ⟨rfl, fun q => mem_map_of_mem among⟩

/-- A test with a skip step at the switch is one of the ports. -/
theorem mem_protoTests (mem : (t, some step) ∈ protoTests env pd r s) :
    t = skipTest env pd r s step ∧ ∀ q, stepTest env pd q s step ∈ protoTests env pd q s := by
  unfold protoTests at mem ⊢
  cases vproto : pd.virtualProto with
  | tcp =>
    simp only [vproto, mem_cons, Prod.mk.injEq, reduceCtorEq, and_false, false_or] at mem ⊢
    obtain ⟨test, among⟩ := mem_stepTests [.srcPort, .dstPort]
      (mem_cons.mpr (mem.imp_right mem_cons.mpr))
    refine ⟨test, fun q => .inr (.inr ?_)⟩
    exact (mem_cons.mp (among q)).imp_right mem_cons.mp
  | udp =>
    simp only [vproto] at mem ⊢
    exact mem_stepTests [.srcPort, .dstPort] mem
  | _ => simp [vproto] at mem

/-- A test with a skip step is among the tests of every rule. -/
theorem mem_firstTests (mem : (t, some step) ∈ firstTests env pd r s) :
    t = skipTest env pd r s step ∧ ∀ q, stepTest env pd q s step ∈ firstTests env pd q s := by
  rcases mem_append.mp mem with first | proto
  · obtain ⟨test, among⟩ := mem_stepTests [.ifp, .dir, .rdom, .af, .proto, .srcAddr, .dstAddr] first
    exact ⟨test, fun q => mem_append_left _ (among q)⟩
  · obtain ⟨test, among⟩ := mem_protoTests proto
    exact ⟨test, fun q => mem_append_right _ (among q)⟩

/-- The tests of the addresses come behind the one of the family. -/
theorem af_of_testAttribs (found : testAttribs (firstTests env pd r s) = some (some step))
    (address : step = .srcAddr ∨ step = .dstAddr) : skipTest env pd r s .af = false := by
  by_contra fails
  rw [Bool.not_eq_false] at fails
  simp only [firstTests, stepTest, cons_append, testAttribs, fails, if_true] at found
  split_ifs at found <;> cases found <;> simp at address

theorem testRule_of_some (found : testAttribs (firstTests env pd r s) = some a) :
    testRule env pd r s = .fails s a := by
  rw [testRule, found]

/-- The tests behind the first ones have no skip step, and do not change the family of the
packet. -/
def Harmless (s : Eval η) : Tested (Eval η) SkipStep → Prop
  | .fails s' a => a = none ∧ s'.naf = s.naf
  | .passes s' => s'.naf = s.naf

theorem lookupSocket_naf : (lookupSocket env s).naf = s.naf := by
  unfold lookupSocket
  split <;> rfl

/-- One more test that is not the last one. -/
theorem Harmless.test {p : Prop} [Decidable p] {rest : Tested (Eval η) SkipStep}
    (kept : s'.naf = s.naf) (harmless : Harmless s rest) :
    Harmless s (if p then .fails s' none else rest) := by
  split
  · exact ⟨rfl, kept⟩
  · exact harmless

theorem ownerTests_harmless : Harmless s (ownerTests env pd r s) := by
  have looked : ∀ (op : Op) (s : Eval η),
      (if op ≠ .none then lookupSocket env s else s).naf = s.naf := by
    intro op s
    split
    · exact lookupSocket_naf
    · rfl
  unfold ownerTests
  split
  · apply Harmless.test (looked _ s)
    have both := (looked r.gid.op _).trans (looked r.uid.op s)
    exact .test both both
  · rfl

theorem lastTests_harmless : Harmless s (lastTests env pd r s) := by
  have tagged : (if r.matchTag ≠ 0 ∧ s.tag = -1 then { s with tag := pd.tag } else s).naf =
      s.naf := by
    split <;> rfl
  have tags : ∀ s₁ : Eval η, s₁.naf = s.naf →
      (if r.tag ≠ 0 then { s₁ with tag := (r.tag : Int) } else s₁).naf = s.naf := by
    intro s₁ kept
    split
    · exact kept
    · exact kept
  apply Harmless.test rfl
  apply Harmless.test rfl
  apply Harmless.test tagged
  apply Harmless.test tagged
  apply Harmless.test tagged
  exact tags _ tagged

/-- A test with a skip step has failed: nothing has been changed before it. -/
theorem testRule_step (tested : testRule env pd r s = .fails s' (some step)) :
    s' = s ∧ testAttribs (firstTests env pd r s) = some (some step) := by
  unfold testRule at tested
  cases found : testAttribs (firstTests env pd r s) with
  | some a =>
    rw [found] at tested
    cases tested
    exact ⟨rfl, rfl⟩
  | none =>
    rw [found] at tested
    have owner : Harmless s (ownerTests env pd r s) := ownerTests_harmless
    cases after : ownerTests env pd r s with
    | fails s'' a =>
      rw [after] at owner tested
      cases tested
      cases owner.1
    | passes s'' =>
      rw [after] at tested
      have last : Harmless s'' (lastTests env pd r s'') := lastTests_harmless
      rw [show lastTests env pd r s'' = _ from tested] at last
      cases last.1

/-- A rule that is the same for the step that another one takes fails as well. -/
theorem testRule_same (tested : testRule env pd r s = .fails s' (some step))
    (same : Same step r q) (source : step = .srcAddr → SourceOk pd r q s) :
    ∃ a, testRule env pd q s' = .fails s' a := by
  obtain ⟨rfl, found⟩ := testRule_step tested
  obtain ⟨fails, among⟩ := mem_firstTests (mem_of_testAttribs found)
  have afAmong : (skipTest env pd q s' .af, some .af) ∈ firstTests env pd q s' := by
    simp [firstTests, stepTest]
  by_cases qAf : skipTest env pd q s' .af = true
  · rw [qAf] at afAmong
    obtain ⟨a, first⟩ := testAttribs_of_mem afAmong
    exact ⟨a, testRule_of_some first⟩
  · have qFails : skipTest env pd q s' step = true :=
      skipTest_same same source (af_of_testAttribs found) ((Bool.not_eq_true _).mp qAf) fails.symm
    have here := among q
    rw [stepTest, qFails] at here
    obtain ⟨a, first⟩ := testAttribs_of_mem here
    exact ⟨a, testRule_of_some first⟩

/-- One entry in the tables of a family that is not the one of the packet. -/
def withEntry (env : Env η) (pd : Packet) (entry : Entry) : Env η :=
  if pd.af = .inet then { env with tableIp6 := fun _ => [entry] }
  else { env with tableIp4 := fun _ => [entry] }

/-- That family. -/
def otherFamily (pd : Packet) : Family :=
  if pd.af = .inet then .inet6 else .inet

theorem not_counts_other (counts : Counts ruleAf pd.af) (family : ruleAf ≠ .unspec) :
    ¬Counts ruleAf (otherFamily pd) := by
  unfold Counts otherFamily at *
  grind

theorem withEntry_mismatch {aw : AddrWrap} {ifp : Option Nat} {rtid : Int} (entry : Entry) :
    mismatch (withEntry env pd entry) ruleAf aw x pd.af ifp rtid =
      mismatch env ruleAf aw x pd.af ifp rtid := by
  unfold withEntry
  split
  next isInet =>
    rw [isInet]
    cases aw <;> rfl
  next notInet =>
    generalize pd.af = af at notInet
    cases af with
    | inet => exact absurd rfl notInet
    | _ => cases aw <;> rfl

/-- The entry matches its address where it is counted. -/
theorem withEntry_matches {kt : Nat} {mask : Addr} {ifp : Option Nat} {rtid : Int}
    (counts : Counts ruleAf (otherFamily pd)) :
    mismatch (withEntry env pd ⟨x, mask⟩) ruleAf (.dyniftl kt) x (otherFamily pd) ifp rtid =
      false := by
  unfold withEntry otherFamily Counts at *
  split <;> simp_all [mismatch, pfiMatchAddr, dynaddrUpdate, matchFirst, matchAddr]

theorem withEntry_skipTest {entry : Entry} (other : step ≠ .srcAddr) :
    skipTest (withEntry env pd entry) pd r { s with naf := af } step =
      skipTest env pd r s step := by
  cases step with
  | srcAddr => exact absurd rfl other
  | ifp =>
    unfold withEntry
    split <;> rfl
  | dstAddr => simp only [skipTest, mismatchaw, withEntry_mismatch]
  | _ => rfl

theorem withEntry_protoTests {entry : Entry} :
    protoTests (withEntry env pd entry) pd r { s with naf := af } = protoTests env pd r s := by
  have osfp : (withEntry env pd entry).osfpMatch = env.osfpMatch := by
    unfold withEntry
    split <;> rfl
  unfold protoTests
  rw [osfp]
  rfl

/-- Where the families do not fit, the skip goes wrong: a packet that can come to both rules needs
only be translated to the other family and have its source address in the tables. -/
theorem srcAddr_skip_wrong {kt : Nat} (same : Same .srcAddr r q)
    (dynamic : r.src.addr = .dyniftl kt) (misfit : ¬FamiliesFit r q)
    (rFirst : ∀ step ∈ [.ifp, .dir, .rdom, .af, .proto], skipTest env pd r s step = false)
    (qPasses : testAttribs (firstTests env pd q s) = none) (mask : Addr) :
    testAttribs (firstTests (withEntry env pd ⟨s.addrs.nsaddr, mask⟩) pd r
        { s with naf := otherFamily pd }) = some (some .srcAddr) ∧
      testAttribs (firstTests (withEntry env pd ⟨s.addrs.nsaddr, mask⟩) pd q
        { s with naf := otherFamily pd }) = none := by
  have qFirst : ∀ step, stepTest env pd q s step ∈ firstTests env pd q s →
      skipTest env pd q s step = false := by
    intro step mem
    by_contra fails
    rw [stepTest, (Bool.not_eq_false _).mp fails] at mem
    obtain ⟨_, found⟩ := testAttribs_of_mem mem
    rw [qPasses] at found
    cases found
  have rAf : Counts r.af pd.af := counts_of_skipTest (rFirst .af (by simp))
  have qAf : Counts q.af pd.af := counts_of_skipTest (qFirst .af (by simp [firstTests]))
  have source : skipTest (withEntry env pd ⟨s.addrs.nsaddr, mask⟩) pd r
        { s with naf := otherFamily pd } .srcAddr = true ∧
      skipTest (withEntry env pd ⟨s.addrs.nsaddr, mask⟩) pd q
        { s with naf := otherFamily pd } .srcAddr = false := by
    simp only [skipTest, mismatchaw, ← same.1, ← same.2, dynamic, bne_iff_ne, bne_eq_false_iff_eq]
    rcases not_and_or.mp misfit with behind | before
    · -- the first rule counts nothing in the other family
      push Not at behind
      obtain ⟨neg, unspec, family⟩ := behind
      rw [mismatch_of_not_counts (not_counts_other rAf family), withEntry_matches (.inl unspec),
        neg]
      decide
    · -- the second one counts nothing there, and is negated
      push Not at before
      obtain ⟨neg, unspec, family⟩ := before
      rw [mismatch_of_not_counts (not_counts_other qAf family), withEntry_matches (.inl unspec),
        neg]
      decide
  constructor
  · simp only [firstTests, stepTest, cons_append, testAttribs, source.1]
    simp [withEntry_skipTest, rFirst]
  · have equal : firstTests (withEntry env pd ⟨s.addrs.nsaddr, mask⟩) pd q
        { s with naf := otherFamily pd } = firstTests env pd q s := by
      simp only [firstTests, stepTest, source.2, qFirst .srcAddr (by simp [firstTests]),
        withEntry_protoTests]
      simp [withEntry_skipTest]
    rw [equal, qPasses]

/-! ### The family of the packet -/

/-- The tests of a rule do not change the family of the packet. -/
theorem testRule_naf (s' : Eval η)
    (tested : (∃ a, testRule env pd r s = .fails s' a) ∨ testRule env pd r s = .passes s') :
    s'.naf = s.naf := by
  have kept : ∀ s, Harmless s (lastTests env pd r s) := fun _ => lastTests_harmless
  have owner : Harmless s (ownerTests env pd r s) := ownerTests_harmless
  unfold testRule at tested
  cases found : testAttribs (firstTests env pd r s) with
  | some a =>
    rw [found] at tested
    rcases tested with ⟨b, tested⟩ | tested <;> cases tested
    rfl
  | none =>
    rw [found] at tested
    cases after : ownerTests env pd r s with
    | fails s₁ a =>
      rw [after] at owner tested
      rcases tested with ⟨b, tested⟩ | tested <;> cases tested
      exact owner.2
    | passes s₁ =>
      rw [after] at owner tested
      dsimp only at tested
      have last := kept s₁
      rcases tested with ⟨b, tested⟩ | tested <;> rw [tested] at last
      · exact last.2.trans owner
      · exact Eq.trans last owner

/-- Neither does a match rule without `af-to`. -/
theorem applyMatch_naf (plain : r.ruleFlag &&& pfruleAfto = 0)
    (applied : applyMatch env r s = some s') : s'.naf = s.naf := by
  unfold applyMatch at applied
  dsimp only at applied
  split at applied
  · cases applied
  · split at applied
    · cases applied
    · cases applied
      exact if_neg (not_not.mpr plain)

end Tests

/-! ### Sound rulesets -/

section Rulesets

variable {η : Type} {env : Env η} {pd : Packet} {ruleset : Ruleset RuleAttr}

/-- No match rule of a ruleset has `af-to`. -/
def NoAfto (ruleset : Ruleset RuleAttr) : Prop :=
  ∀ attr, Rule.plain attr ∈ ruleset → attr.isMatch = true → attr.ruleFlag &&& pfruleAfto = 0

/-- The families fit of any two rules of a ruleset that have the same dynamic source address with
no other one between them. -/
def SourcesFit (ruleset : Ruleset RuleAttr) : Prop :=
  ∀ before r mid q after, ruleset = before ++ r :: (mid ++ q :: after) →
    (∃ kt, r.attr.src.addr = .dyniftl kt) →
    (∀ p ∈ mid ++ [q], Same .srcAddr r.attr p.attr) → FamiliesFit r.attr q.attr

/-- Rules of a ruleset with the same dynamic source address have the same family. -/
def SameSource (ruleset : Ruleset RuleAttr) : Prop :=
  ∀ r ∈ ruleset, ∀ q ∈ ruleset, ∀ kt, r.attr.src.addr = .dyniftl kt →
    q.attr.src.addr = .dyniftl kt → r.attr.af = q.attr.af

theorem sound_of_noAfto (noAfto : NoAfto ruleset) :
    Sound (pfTester env pd) skipHop (fun s => s.naf = pd.af) ruleset where
  skips := by
    intro r rest s s' step suffix unchanged tested q mem
    exact testRule_same tested (skipHop_same suffix mem) (fun _ => .inl unchanged)
  fails := by
    intro r _ s s' step unchanged tested
    exact (testRule_naf s' (.inl ⟨step, tested⟩)).trans unchanged
  passes := by
    intro r _ s s' unchanged tested
    exact (testRule_naf s' (.inr tested)).trans unchanged
  applies := by
    intro attr mem s s' unchanged isMatch applied
    exact (applyMatch_naf (noAfto attr mem isMatch) applied).trans unchanged

theorem SameSource.sourcesFit (sameSource : SameSource ruleset) : SourcesFit ruleset := by
  rintro before r mid q after rfl ⟨kt, dynamic⟩ same
  have equal : r.attr.af = q.attr.af := sameSource r (by simp) q (by simp) kt dynamic
    ((same q (by simp)).2.symm.trans dynamic)
  exact ⟨fun _ => equal.trans, fun _ => equal.symm.trans⟩

theorem sound_of_sourcesFit (fit : SourcesFit ruleset) :
    Sound (pfTester env pd) skipHop (fun _ => True) ruleset where
  skips := by
    intro r rest s s' step suffix _ tested q mem
    refine testRule_same tested (skipHop_same suffix mem) ?_
    rintro rfl
    refine .inr fun dynamic => ?_
    obtain ⟨before, whole⟩ := suffix
    -- all rules up to the one that is skipped have the same source address
    obtain ⟨mid, behind, split⟩ := append_of_mem mem
    have rest_eq : rest = mid ++ q ::
        (behind ++ rest.drop (skipHop ruleset (r :: rest) .srcAddr)) := by
      rw [← cons_append, ← append_assoc, ← split, take_append_drop]
    refine fit before r mid q _ (whole.symm.trans (by rw [← rest_eq])) dynamic fun p among => ?_
    refine skipHop_same ⟨before, whole⟩ ?_
    rw [split]
    simp only [mem_append, mem_cons, not_mem_nil, or_false] at among ⊢
    exact among.imp_right .inl
  fails := fun _ _ _ _ _ _ _ => trivial
  passes := fun _ _ _ _ _ _ => trivial
  applies := fun _ _ _ _ _ _ _ => trivial

end Rulesets

end Bitrig.Pf
