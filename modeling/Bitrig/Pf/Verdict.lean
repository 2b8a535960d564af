import Bitrig.Pf.SkipSteps

/-!
# The verdict of the rule loop

The rule that decides about a packet is the one that the recursion over the tree of anchors
gives, and the skip steps do not change it unless `af-to` on a match rule has changed the family
of the packet.
-/

namespace Bitrig.Pf

open List

/-! ### Some rules and a packet -/

/-- A rule that every packet matches. -/
def anyRule (nr : Nat) : RuleAttr where
  nr
  kif := none
  ifnot := 0
  direction := .pfInout
  onrdomain := -1
  af := .unspec
  proto := 0
  src := ⟨.addrmask ⟨0, 0, 0, 0⟩ ⟨0, 0, 0, 0⟩, 0, 0, 0, .none⟩
  dst := ⟨.addrmask ⟨0, 0, 0, 0⟩ ⟨0, 0, 0, 0⟩, 0, 0, 0, .none⟩
  flags := 0
  flagset := 0
  osFingerprint := 0
  uid := ⟨0, 0, .none⟩
  gid := ⟨0, 0, .none⟩
  type := 0
  code := 0
  keepState := 0
  ruleFlag := 0
  tos := 0
  matchTag := 0
  matchTagNot := 0
  rcvKif := none
  rcvifnot := 0
  prio := 0
  tag := 0
  isMatch := false
  quick := false
  naf := .unspec
  qid := 0
  pqid := 0
  rtableid := -1
  log := 0
  scrubFlags := 0
  setTos := 0
  minTtl := 0
  maxMss := 0
  setPrio0 := 0
  setPrio1 := 0

/-- A UDP packet from one IPv4 address to another one. -/
def udpPacket : Packet where
  kif := 1
  dir := .pfIn
  rdomain := 0
  af := .inet
  proto := 17
  virtualProto := .udp
  thFlags := 0
  icmptype := 0
  icmpcode := 0
  stateIcmp := false
  icmpDir := .pfInout
  virtualId := 0
  virtualType := 0
  tos := 0
  tag := 0
  prio := 0
  addrs := ⟨⟨0x0a000001, 0, 0, 0⟩, ⟨0x0a000002, 0, 0, 0⟩, 1024, 53⟩

/-- The IPv6 address of an interface. -/
def ownAddr : Addr := ⟨0x20010db8, 0, 0, 1⟩

/-- An interface with one IPv6 address, to which sources are translated. -/
def translatingEnv : Env Unit where
  kifCovers := fun _ _ => false
  routable := fun _ _ _ _ => true
  routeLabel := fun _ _ _ => none
  tableMatch := fun _ a _ => a == ownAddr
  tableIp4 := fun _ => []
  tableIp6 := fun _ => [⟨ownAddr, ⟨0xffffffff, 0xffffffff, 0xffffffff, 0xffffffff⟩⟩]
  osfpMatch := fun _ => false
  socketLookup := (-1, idMax, idMax)
  rcvif := none
  poolGet := some
  getTransaddr := fun _ _ addrs hidden => some ({ addrs with nsaddr := ownAddr }, hidden)

/-- An anchor with a quick one inside, and a wildcard anchor at the end of the ruleset. -/
def nestedRules : Ruleset RuleAttr :=
  [.plain { anyRule 0 with proto := 6 },
    .plain { anyRule 1 with proto := 6 },
    .anchor (anyRule 2) false
      [.anchor { anyRule 3 with proto := 6, quick := true } false [.plain (anyRule 4)] [],
        .plain (anyRule 5)] [],
    .anchor (anyRule 6) true [] [[], [.plain (anyRule 7)], []]]

section Verdict

variable {η : Type}

/-- A tree of anchors that fits on the stack: the loop ends with the rule that the recursion
over the tree gives, and with an empty stack unless a quick rule ended it. -/
theorem loop_evaluates_anchors (env : Env η) (pd : Packet) (hidden : η)
    (hop : Hop RuleAttr SkipStep) (rules : Ruleset RuleAttr)
    (fits : rulesHeight rules ≤ anchorStackSize) :
    ∃ enough trace result, (∀ fuel ≥ enough,
        ruleLoop (pfTester env pd) hop fuel (Machine.start rules (startEval pd hidden)) =
          (trace, some result)) ∧
      Ends (evalRules (pfTester env pd) hop always 0 rules 0 rules (startEval pd hidden) none)
        result := by
  rw [← evalRules_fits rules rules 0 0 (startEval pd hidden) none (by rwa [Nat.zero_add])]
  exact ruleLoop_ends

/-- The nested rules, of which the last child decides. -/
theorem nestedRules_evaluated :
    (evalRules (pfTester translatingEnv udpPacket) skipHop always 0 nestedRules 0 nestedRules
      (startEval udpPacket ()) none).deciding.map RuleAttr.nr = some 7 ∧
    ∃ enough trace result, (∀ fuel ≥ enough,
        ruleLoop (pfTester translatingEnv udpPacket) skipHop fuel
          (Machine.start nestedRules (startEval udpPacket ())) = (trace, some result)) ∧
      Ends (evalRules (pfTester translatingEnv udpPacket) skipHop always 0 nestedRules 0
        nestedRules (startEval udpPacket ()) none) result := by
  refine ⟨by decide +kernel, ?_⟩
  exact loop_evaluates_anchors translatingEnv udpPacket () skipHop nestedRules (by decide)

/-- The loop with the skip steps of the rulesets ends as the loop does in which every failing
test goes on to the next rule: with the same rules that match, and the same values. -/
def SameVerdict (env : Env η) (pd : Packet) (hidden : η) (rules : Ruleset RuleAttr) : Prop :=
  ∃ enough trace result, ∀ fuel ≥ enough,
    ruleLoop (pfTester env pd) skipHop fuel (Machine.start rules (startEval pd hidden)) =
      (trace, some result) ∧
    ruleLoop (pfTester env pd) nextOnly fuel (Machine.start rules (startEval pd hidden)) =
      (trace, some result)

/-- The skip steps keep the verdict on every packet if no match rule has `af-to`, or the families
of the rules with the same dynamic source address fit.  Two rules whose families do not fit are
skipped wrongly, for any packet that can come to both of them and is translated. -/
theorem skip_steps_keep_verdict (rules : Ruleset RuleAttr) :
    (Everywhere NoAfto rules ∨ Everywhere SourcesFit rules →
      ∀ (env : Env η) (pd : Packet) (hidden : η), SameVerdict env pd hidden rules) ∧
    ∀ (r q : RuleAttr) (kt : Nat), r.src.addr = .dyniftl kt → Same .srcAddr r q →
      ¬FamiliesFit r q → ∀ (env : Env η) (pd : Packet) (s : Eval η) (mask : Addr),
        (∀ step ∈ [.ifp, .dir, .rdom, .af, .proto], skipTest env pd r s step = false) →
        testAttribs (firstTests env pd q s) = none →
        testAttribs (firstTests (withEntry env pd ⟨s.addrs.nsaddr, mask⟩) pd r
            { s with naf := otherFamily pd }) = some (some .srcAddr) ∧
          testAttribs (firstTests (withEntry env pd ⟨s.addrs.nsaddr, mask⟩) pd q
            { s with naf := otherFamily pd }) = none := by
  refine ⟨?_, fun r q kt dynamic same misfit env pd s mask rFirst qPasses =>
    srcAddr_skip_wrong same dynamic misfit rFirst qPasses mask⟩
  rintro (noAfto | fit) env pd hidden
  · have sound : Everywhere (Sound (pfTester env pd) skipHop (fun s => s.naf = pd.af)) rules :=
      noAfto.mono fun _ => sound_of_noAfto
    exact ruleLoop_eq_nextOnly sound rfl
  · have sound : Everywhere (Sound (pfTester env pd) skipHop (fun _ => True)) rules :=
      fit.mono fun _ => sound_of_sourcesFit
    exact ruleLoop_eq_nextOnly sound trivial

/-- The loop with skip steps and stack comes to what the recursion without skips comes to, at any
depth: an anchor that has no room on the stack is passed over. -/
theorem skipping_loop_evaluates (env : Env η) (pd : Packet) (hidden : η) (rules : Ruleset RuleAttr)
    (families : Everywhere NoAfto rules ∨ Everywhere SameSource rules) :
    ∃ enough trace result, (∀ fuel ≥ enough,
        ruleLoop (pfTester env pd) skipHop fuel (Machine.start rules (startEval pd hidden)) =
          (trace, some result)) ∧
      Ends (evalRules (pfTester env pd) nextOnly hasRoom 0 rules 0 rules (startEval pd hidden) none)
        result := by
  obtain ⟨enough, trace, result, plain, ends⟩ := ruleLoop_ends
  obtain ⟨inv, start, sound⟩ : ∃ inv, inv (startEval pd hidden) ∧
      Everywhere (Sound (pfTester env pd) skipHop inv) rules := by
    rcases families with noAfto | sameSource
    · exact ⟨fun s => s.naf = pd.af, rfl, noAfto.mono fun _ => sound_of_noAfto⟩
    · exact ⟨fun _ => True, trivial,
        sameSource.mono fun _ fit => sound_of_sourcesFit fit.sourcesFit⟩
  refine ⟨enough, trace, result, fun fuel more => ?_, ends⟩
  exact ruleLoop_skips ⟨start, sound, suffix_refl _, by simp [Machine.start]⟩ (plain fuel more)

end Verdict

theorem nestedRules_noAfto : Everywhere NoAfto nestedRules := by
  have leaf : ∀ rules : Ruleset RuleAttr, rules = [] ∨ (∃ nr, rules = [.plain (anyRule nr)]) →
      Everywhere NoAfto rules := by
    rintro rules (rfl | ⟨nr, rfl⟩)
    · exact .intro (by simp [NoAfto]) (by simp) (by simp)
    · exact .intro (by simp [NoAfto, anyRule]) (by simp) (by simp)
  have inner : Everywhere NoAfto
      [.anchor { anyRule 3 with proto := 6, quick := true } false [.plain (anyRule 4)] [],
        .plain (anyRule 5)] := by
    refine .intro (by simp [NoAfto, anyRule]) ?_ ?_
    · intro attr wildcard inner children mem
      simp only [mem_cons, not_mem_nil, or_false, Rule.anchor.injEq, reduceCtorEq] at mem
      obtain ⟨-, -, rfl, -⟩ := mem
      exact leaf _ (.inr ⟨4, rfl⟩)
    · intro attr wildcard inner children mem child
      simp only [mem_cons, not_mem_nil, or_false, Rule.anchor.injEq, reduceCtorEq] at mem
      obtain ⟨-, -, -, rfl⟩ := mem
      simp
  refine .intro (by simp [NoAfto, nestedRules, anyRule]) ?_ ?_
  · intro attr wildcard inner children mem
    simp only [nestedRules, mem_cons, not_mem_nil, or_false, Rule.anchor.injEq,
      reduceCtorEq, false_or] at mem
    rcases mem with ⟨-, -, rfl, -⟩ | ⟨-, -, rfl, -⟩
    · assumption
    · exact leaf _ (.inl rfl)
  · intro attr wildcard inner children mem child among
    simp only [nestedRules, mem_cons, not_mem_nil, or_false, Rule.anchor.injEq,
      reduceCtorEq, false_or] at mem
    rcases mem with ⟨-, -, -, rfl⟩ | ⟨-, -, -, rfl⟩
    · cases among
    · simp only [mem_cons, not_mem_nil, or_false] at among
      rcases among with rfl | rfl | rfl
      · exact leaf _ (.inl rfl)
      · exact leaf _ (.inr ⟨7, rfl⟩)
      · exact leaf _ (.inl rfl)

theorem nestedRules_skipped : ∃ enough trace result, (∀ fuel ≥ enough,
      ruleLoop (pfTester translatingEnv udpPacket) skipHop fuel
        (Machine.start nestedRules (startEval udpPacket ())) = (trace, some result)) ∧
    Ends (evalRules (pfTester translatingEnv udpPacket) nextOnly hasRoom 0 nestedRules 0 nestedRules
      (startEval udpPacket ()) none) result :=
  skipping_loop_evaluates _ _ _ _ (.inl nestedRules_noAfto)

/-! ### A packet whose family is changed -/

/-- A match rule with `af-to inet6`, a pass rule, and two rules with the same dynamic source
address, of which the first one is for IPv4. -/
def aftoRules : Ruleset RuleAttr :=
  [.plain { anyRule 0 with isMatch := true, ruleFlag := pfruleAfto, naf := .inet6 },
    .plain (anyRule 1),
    .plain { anyRule 2 with af := .inet, src := ⟨.dyniftl 7, 0, 0, 0, .none⟩ },
    .plain { anyRule 3 with src := ⟨.dyniftl 7, 0, 0, 0, .none⟩ }]

def Result.machine {α σ : Type} : Result α σ → Machine α σ
  | .ended m => m
  | .quick m => m
  | .cleanup m => m

/-- The numbers of the rules that match, and of the one that decides. -/
def verdict (hop : Hop RuleAttr SkipStep) (rules : Ruleset RuleAttr) (fuel : Nat) :
    List Nat × Option (Option Nat) :=
  let (trace, result) := ruleLoop (pfTester translatingEnv udpPacket) hop fuel
    (Machine.start rules (startEval udpPacket ()))
  (trace.map RuleAttr.nr, result.map fun result => result.machine.deciding.map RuleAttr.nr)

/-- The third rule fails, as no IPv6 addresses are counted for it, and skips the last one. -/
theorem skip_steps_change_verdict : verdict skipHop aftoRules 10 = ([0, 1], some (some 1)) ∧
      verdict nextOnly aftoRules 10 = ([0, 1, 3], some (some 3)) := by
  decide +kernel

end Bitrig.Pf
