import Bitrig.Pf.Traversal

/-!
# The tests and actions of pf rules (net/pf.c)

What the loop of `pf_test_rule` tests of a rule, and what a match rule does.  Numbers in network
byte order are given by their values.  The parts of the kernel that the tests ask (routes,
tables, sockets, interfaces, fingerprints) are an `Env`; the allocations and translations of
match rules may depend on a hidden state.  Probabilities, counters and logging are left out.
-/

namespace Bitrig.Pf

/-- `sa_family_t` -/
inductive Family where
  | unspec
  | inet
  | inet6
  | other (code : Nat)
  deriving DecidableEq, Repr

/-- The directions `PF_INOUT`, `PF_IN`, `PF_OUT` and `PF_FWD` -/
inductive Direction where
  | pfInout
  | pfIn
  | pfOut
  | pfFwd
  deriving DecidableEq, Repr

/-- The values of `virtual_proto` that the loop tells apart. -/
inductive VirtualProto where
  | fragment
  | tcp
  | udp
  | icmp
  | icmpv6
  | other
  deriving DecidableEq, Repr

/-- The operators `PF_OP_NONE` to `PF_OP_RRG` -/
inductive Op where
  | none
  | irg
  | eq
  | ne
  | lt
  | le
  | gt
  | ge
  | xrg
  | rrg
  | other (code : Nat)
  deriving DecidableEq, Repr

/-- `struct pf_addr`, by its four words; an IPv4 address is in the first one. -/
structure Addr where
  w0 : Nat
  w1 : Nat
  w2 : Nat
  w3 : Nat
  deriving DecidableEq, Repr

/-- `struct pf_addr_wrap`; a dynamic address has the table of its `struct pfi_dynaddr`. -/
inductive AddrWrap where
  | addrmask (addr mask : Addr)
  | range (addr mask : Addr)
  | dyniftl (kt : Nat)
  | none
  | noroute
  | urpffailed
  | table (tbl : Nat)
  | rtlabel (label : Nat)
  deriving DecidableEq, Repr

/-- `struct pf_rule_addr` -/
structure RuleAddr where
  addr : AddrWrap
  port0 : Nat
  port1 : Nat
  neg : Nat
  portOp : Op
  deriving DecidableEq, Repr

/-- `struct pf_rule_uid` and `struct pf_rule_gid` -/
structure RuleId where
  id0 : Nat
  id1 : Nat
  op : Op
  deriving DecidableEq, Repr

/-- The fields of `struct pf_rule` that the loop uses. -/
structure RuleAttr where
  nr : Nat
  kif : Option Nat
  ifnot : Nat
  direction : Direction
  onrdomain : Int
  af : Family
  proto : Nat
  src : RuleAddr
  dst : RuleAddr
  flags : Nat
  flagset : Nat
  osFingerprint : Nat
  uid : RuleId
  gid : RuleId
  type : Nat
  code : Nat
  keepState : Nat
  ruleFlag : Nat
  tos : Nat
  matchTag : Nat
  matchTagNot : Nat
  rcvKif : Option Nat
  rcvifnot : Nat
  prio : Nat
  tag : Nat
  /-- `action == PF_MATCH` -/
  isMatch : Bool
  quick : Bool
  naf : Family
  qid : Nat
  pqid : Nat
  rtableid : Int
  log : Nat
  scrubFlags : Nat
  setTos : Nat
  minTtl : Nat
  maxMss : Nat
  setPrio0 : Nat
  setPrio1 : Nat
  deriving DecidableEq, Repr

/-- `struct pf_rule_actions` -/
structure RuleActions where
  rtableid : Int
  qid : Nat := 0
  pqid : Nat := 0
  maxMss : Nat := 0
  flags : Nat := 0
  log : Nat := 0
  setTos : Nat := 0
  minTtl : Nat := 0
  setPrio0 : Nat := 0
  setPrio1 : Nat := 0
  deriving DecidableEq, Repr

/-- The addresses and ports of a packet after translation. -/
structure Translated where
  nsaddr : Addr
  ndaddr : Addr
  nsport : Nat
  ndport : Nat
  deriving DecidableEq, Repr

/-- The fields of `struct pf_pdesc` that do not change in the loop, with what
`pf_icmp_mapping` gives. -/
structure Packet where
  kif : Nat
  dir : Direction
  rdomain : Nat
  af : Family
  proto : Nat
  virtualProto : VirtualProto
  thFlags : Nat
  icmptype : Nat
  icmpcode : Nat
  stateIcmp : Bool
  icmpDir : Direction
  virtualId : Nat
  virtualType : Nat
  tos : Nat
  /-- `m_pkthdr.pf.tag` -/
  tag : Nat
  /-- `m_pkthdr.pf.prio` -/
  prio : Nat
  /-- The addresses and ports before the loop. -/
  addrs : Translated
  deriving DecidableEq, Repr

/-- An entry of a table: its address and the mask of its network. -/
structure Entry where
  addr : Addr
  mask : Addr
  deriving DecidableEq, Repr

/-- The rest of the kernel, at the time of a packet. -/
structure Env (η : Type) where
  /-- Whether a kif of a rule stands for a group or for any interface, with the other kif. -/
  kifCovers : Nat → Nat → Bool
  routable : Addr → Family → Option Nat → Int → Bool
  /-- The label of the route to an address. -/
  routeLabel : Addr → Family → Int → Option Nat
  /-- `pfr_match_addr` -/
  tableMatch : Nat → Addr → Family → Bool
  /-- The entries of a table, in the order of `rn_walktree`. -/
  tableIp4 : Nat → List Entry
  tableIp6 : Nat → List Entry
  /-- `pf_osfp_match` of the fingerprint of the packet -/
  osfpMatch : Nat → Bool
  /-- `pf_socket_lookup`: what it returns, and the owner it finds. -/
  socketLookup : Int × Nat × Nat
  /-- The kif of the interface that the packet was received on. -/
  rcvif : Option Nat
  /-- `pool_get` -/
  poolGet : η → Option η
  /-- `pf_get_transaddr`, for a rule and the family `pd->naf`. -/
  getTransaddr : RuleAttr → Family → Translated → η → Option (Translated × η)

/-- `pd->lookup` -/
structure Lookup where
  done : Int
  uid : Nat
  gid : Nat
  deriving DecidableEq, Repr

/-- What the loop changes apart from its place. -/
structure Eval (η : Type) where
  naf : Family
  addrs : Translated
  lookup : Lookup
  act : RuleActions
  tag : Int
  /-- The match rules, as `rules` has them. -/
  rules : List RuleAttr
  hidden : η

/-- The skip steps `PF_SKIP_IFP` to `PF_SKIP_DST_PORT` -/
inductive SkipStep where
  | ifp
  | dir
  | rdom
  | af
  | proto
  | srcAddr
  | dstAddr
  | srcPort
  | dstPort
  deriving DecidableEq, Repr

def ipprotoTcp : Nat := 6
def pfPrioZero : Nat := 0xff
def pfruleFragment : Nat := 0x0002
def pfruleStatesloppy : Nat := 0x00020000
def pfruleAfto : Nat := 0x00200000
def pfstateNodf : Nat := 0x0020
def pfstateSettos : Nat := 0x0040
def pfstateRandomid : Nat := 0x0080
def pfstateScrubTcp : Nat := 0x0100
def pfstateSetprio : Nat := 0x0200

/-- The greatest value of `uid_t` and of `gid_t` -/
def idMax : Nat := 2 ^ 32 - 1

/-! ### Matching -/

/-- `PF_AZERO` -/
def azero (a : Addr) : Family → Bool
  | .inet => a.w0 == 0
  | .inet6 => a.w0 == 0 && a.w1 == 0 && a.w2 == 0 && a.w3 == 0
  | _ => false

/-- `pf_match_addr` with `n` zero -/
def matchAddr (a m b : Addr) : Family → Bool
  | .inet => a.w0 &&& m.w0 == b.w0 &&& m.w0
  | .inet6 =>
    a.w0 &&& m.w0 == b.w0 &&& m.w0 && a.w1 &&& m.w1 == b.w1 &&& m.w1 &&
      a.w2 &&& m.w2 == b.w2 &&& m.w2 && a.w3 &&& m.w3 == b.w3 &&& m.w3
  | _ => false

/-- The comparison of IPv6 addresses by their words, from the first one on. -/
def wordsLe : List Nat → List Nat → Bool
  | a :: as, b :: bs => a < b || (a == b && wordsLe as bs)
  | _, _ => true

def Addr.words (a : Addr) : List Nat := [a.w0, a.w1, a.w2, a.w3]

/-- `pf_match_addr_range` -/
def matchAddrRange (b e a : Addr) : Family → Bool
  | .inet => !(a.w0 < b.w0 || a.w0 > e.w0)
  | .inet6 => wordsLe b.words a.words && wordsLe a.words e.words
  | _ => true

/-- `pf_match` -/
def pfMatch (op : Op) (a1 a2 p : Nat) : Bool :=
  match op with
  | .irg => p > a1 && p < a2
  | .xrg => p < a1 || p > a2
  | .rrg => p ≥ a1 && p ≤ a2
  | .eq => p == a1
  | .ne => p != a1
  | .lt => p < a1
  | .le => p ≤ a1
  | .gt => p > a1
  | .ge => p ≥ a1
  | .none => false
  | .other _ => false

/-- `pf_match_uid` and `pf_match_gid` -/
def matchId (r : RuleId) (id : Nat) : Bool :=
  if id = idMax ∧ r.op ≠ .eq ∧ r.op ≠ .ne then false else pfMatch r.op r.id0 r.id1 id

section Tests

variable {η : Type} (env : Env η) (pd : Packet)

/-- `pfi_kif_match` -/
def kifMatch (ruleKif : Option Nat) (packetKif : Nat) : Bool :=
  match ruleKif with
  | none => true
  | some kif => kif == packetKif || env.kifCovers kif packetKif

/-- `pf_match_rcvif` -/
def matchRcvif (r : RuleAttr) : Bool :=
  match env.rcvif with
  | none => false
  | some kif => kifMatch env r.rcvKif kif

/-- `struct pfi_dynaddr` -/
structure Dynaddr where
  acnt4 : Nat
  first4 : Option Entry
  acnt6 : Nat
  first6 : Option Entry

/-- `pfr_dynaddr_update`: the entries of the table are counted for the families of the rule. -/
def dynaddrUpdate (kt : Nat) (pfidAf : Family) : Dynaddr :=
  let ip4 := if pfidAf = .unspec ∨ pfidAf = .inet then env.tableIp4 kt else []
  let ip6 := if pfidAf = .unspec ∨ pfidAf = .inet6 then env.tableIp6 kt else []
  ⟨ip4.length, ip4.head?, ip6.length, ip6.head?⟩

/-- The address matches the first entry. -/
def matchFirst (first : Option Entry) (a : Addr) (af : Family) : Bool :=
  first.any fun entry => matchAddr entry.addr entry.mask a af

/-- `pfi_match_addr` -/
def pfiMatchAddr (dyn : Dynaddr) (kt : Nat) (a : Addr) : Family → Bool
  | .inet =>
    match dyn.acnt4 with
    | 0 => false
    | 1 => matchFirst dyn.first4 a .inet
    | _ => env.tableMatch kt a .inet
  | .inet6 =>
    match dyn.acnt6 with
    | 0 => false
    | 1 => matchFirst dyn.first6 a .inet6
    | _ => env.tableMatch kt a .inet6
  | _ => false

/-- The mismatch that `PF_MISMATCHAW` compares with `neg`, for an address of a rule of the
family `ruleAf`. -/
def mismatch (ruleAf : Family) (aw : AddrWrap) (x : Addr) (af : Family) (ifp : Option Nat)
    (rtid : Int) : Bool :=
  match aw with
  | .noroute => env.routable x af none rtid
  | .urpffailed => ifp.isSome && env.routable x af ifp rtid
  | .rtlabel label => env.routeLabel x af rtid != some label
  | .table tbl => !env.tableMatch tbl x af
  | .dyniftl kt => !pfiMatchAddr env (dynaddrUpdate env kt ruleAf) kt x af
  | .range addr mask => !matchAddrRange addr mask x af
  | .addrmask addr mask => !azero mask af && !matchAddr addr mask x af
  | .none => false

/-- `PF_MISMATCHAW` -/
def mismatchaw (ruleAf : Family) (addr : RuleAddr) (x : Addr) (af : Family) (ifp : Option Nat)
    (rtid : Int) : Bool :=
  (mismatch env ruleAf addr.addr x af ifp rtid).toNat != addr.neg

/-- The test of the ports of one side. -/
def portFails (addr : RuleAddr) (port : Nat) : Bool :=
  addr.portOp != .none && !pfMatch addr.portOp addr.port0 addr.port1 port

/-- The tests that have a skip step. -/
def skipTest (r : RuleAttr) (s : Eval η) : SkipStep → Bool
  | .ifp => (kifMatch env r.kif pd.kif).toNat == r.ifnot
  | .dir => r.direction != .pfInout && r.direction != pd.dir
  | .rdom => r.onrdomain ≥ 0 && (r.onrdomain == (pd.rdomain : Int)).toNat == r.ifnot
  | .af => r.af != .unspec && r.af != pd.af
  | .proto => r.proto != 0 && r.proto != pd.proto
  | .srcAddr => mismatchaw env r.af r.src s.addrs.nsaddr s.naf (some pd.kif) s.act.rtableid
  | .dstAddr => mismatchaw env r.af r.dst s.addrs.ndaddr pd.af none s.act.rtableid
  | .srcPort => portFails r.src s.addrs.nsport
  | .dstPort => portFails r.dst s.addrs.ndport

/-- A test, and the skip step it takes when it is true. -/
def stepTest (r : RuleAttr) (s : Eval η) (step : SkipStep) : Bool × Option SkipStep :=
  (skipTest env pd r s step, some step)

/-- The tests at the switch on `virtual_proto`, but for those of the owner. -/
def protoTests (r : RuleAttr) (s : Eval η) : List (Bool × Option SkipStep) :=
  match pd.virtualProto with
  | .fragment =>
    [(r.src.portOp != .none || r.dst.portOp != .none, none),
      (pd.proto == ipprotoTcp && r.flagset != 0, none),
      (r.type != 0 || r.code != 0, none),
      (r.gid.op != .none || r.uid.op != .none, none)]
  | .tcp =>
    [(r.flagset &&& pd.thFlags != r.flags, none),
      (r.osFingerprint != 0 && !env.osfpMatch r.osFingerprint, none),
      stepTest env pd r s .srcPort,
      stepTest env pd r s .dstPort]
  | .udp => [stepTest env pd r s .srcPort, stepTest env pd r s .dstPort]
  | .icmp | .icmpv6 =>
    [(r.type != 0 && r.type != pd.icmptype + 1, none),
      (r.code != 0 && r.code != pd.icmpcode + 1, none),
      (r.keepState != 0 && !pd.stateIcmp && r.ruleFlag &&& pfruleStatesloppy == 0 &&
        pd.icmpDir != .pfIn, none)]
  | .other => []

/-- The tests that change nothing and come before all others, in their order. -/
def firstTests (r : RuleAttr) (s : Eval η) : List (Bool × Option SkipStep) :=
  [stepTest env pd r s .ifp, stepTest env pd r s .dir, stepTest env pd r s .rdom,
    stepTest env pd r s .af, stepTest env pd r s .proto, stepTest env pd r s .srcAddr,
    stepTest env pd r s .dstAddr] ++ protoTests env pd r s

/-- `PF_TEST_ATTRIB` for one test after the other: where the first one that is true goes on. -/
def testAttribs : List (Bool × Option SkipStep) → Option (Option SkipStep)
  | [] => none
  | (t, a) :: rest => if t then some a else testAttribs rest

/-- `pd->lookup.done || (pd->lookup.done = pf_socket_lookup(pd), 1)` -/
def lookupSocket (s : Eval η) : Eval η :=
  if s.lookup.done ≠ 0 then s
  else
    let (done, uid, gid) := env.socketLookup
    { s with lookup := ⟨done, uid, gid⟩ }

/-- The tests of the owner of the socket, for TCP and UDP. -/
def ownerTests (r : RuleAttr) (s : Eval η) : Tested (Eval η) SkipStep :=
  if pd.virtualProto = .tcp ∨ pd.virtualProto = .udp then
    let s := if r.uid.op ≠ .none then lookupSocket env s else s
    if r.uid.op ≠ .none ∧ !matchId r.uid s.lookup.uid then .fails s none
    else
      let s := if r.gid.op ≠ .none then lookupSocket env s else s
      if r.gid.op ≠ .none ∧ !matchId r.gid s.lookup.gid then .fails s none else .passes s
  else .passes s

/-- `pf_match_tag`, of the tag that it leaves. -/
def matchTag (r : RuleAttr) (tag : Int) : Bool :=
  (r.matchTagNot == 0 && (r.matchTag : Int) == tag) ||
    (r.matchTagNot != 0 && (r.matchTag : Int) != tag)

/-- The tests behind those of the protocol, and the tag of the rule. -/
def lastTests (r : RuleAttr) (s : Eval η) : Tested (Eval η) SkipStep :=
  if r.ruleFlag &&& pfruleFragment ≠ 0 ∧ pd.virtualProto ≠ .fragment then .fails s none
  else if r.tos ≠ 0 ∧ r.tos ≠ pd.tos then .fails s none
  else
    let s := if r.matchTag ≠ 0 ∧ s.tag = -1 then { s with tag := pd.tag } else s
    if r.matchTag ≠ 0 ∧ !matchTag r s.tag then .fails s none
    else if r.rcvKif.isSome ∧ (matchRcvif env r).toNat = r.rcvifnot then .fails s none
    else if r.prio ≠ 0 ∧ (if r.prio = pfPrioZero then 0 else r.prio) ≠ pd.prio then .fails s none
    else .passes (if r.tag ≠ 0 then { s with tag := r.tag } else s)

/-- The tests of a rule. -/
def testRule (r : RuleAttr) (s : Eval η) : Tested (Eval η) SkipStep :=
  match testAttribs (firstTests env pd r s) with
  | some step => .fails s step
  | none =>
    match ownerTests env pd r s with
    | .fails s step => .fails s step
    | .passes s => lastTests env pd r s

end Tests

/-! ### Actions of match rules -/

/-- `pf_rule_to_actions` -/
def ruleToActions (r : RuleAttr) (a : RuleActions) : RuleActions :=
  let a := if r.qid ≠ 0 then { a with qid := r.qid } else a
  let a := if r.pqid ≠ 0 then { a with pqid := r.pqid } else a
  let a := if r.rtableid ≥ 0 then { a with rtableid := r.rtableid } else a
  let a := { a with log := a.log ||| r.log }
  let a := if r.scrubFlags &&& pfstateSettos ≠ 0 then { a with setTos := r.setTos } else a
  let a := if r.minTtl ≠ 0 then { a with minTtl := r.minTtl } else a
  let a := if r.maxMss ≠ 0 then { a with maxMss := r.maxMss } else a
  let a := { a with
    flags := a.flags ||| (r.scrubFlags &&& (pfstateNodf ||| pfstateRandomid ||| pfstateSettos |||
      pfstateScrubTcp ||| pfstateSetprio)) }
  if r.scrubFlags &&& pfstateSetprio ≠ 0 then
    { a with setPrio0 := r.setPrio0, setPrio1 := r.setPrio1 }
  else a

section Loop

variable {η : Type} (env : Env η) (pd : Packet)

/-- What a match rule does; none for `goto cleanup`. -/
def applyMatch (r : RuleAttr) (s : Eval η) : Option (Eval η) :=
  match env.poolGet s.hidden with
  | none => none
  | some hidden =>
    let act := ruleToActions r s.act
    let naf := if r.ruleFlag &&& pfruleAfto ≠ 0 then r.naf else s.naf
    match env.getTransaddr r naf s.addrs hidden with
    | none => none
    | some (addrs, hidden) =>
      some { s with rules := r :: s.rules, act, naf, addrs, hidden }

/-- The rules of pf. -/
def pfTester : Tester RuleAttr (Eval η) SkipStep where
  test := testRule env pd
  isMatch := RuleAttr.isMatch
  apply := applyMatch env
  quick := RuleAttr.quick

/-- The variables before the loop; the ports of ICMP packets are those of the mapping. -/
def startEval (hidden : η) : Eval η where
  naf := pd.af
  addrs :=
    match pd.virtualProto with
    | .icmp | .icmpv6 =>
      if pd.icmpDir = .pfIn then
        { pd.addrs with nsport := pd.virtualId, ndport := pd.virtualType }
      else { pd.addrs with nsport := pd.virtualType, ndport := pd.virtualId }
    | _ => pd.addrs
  lookup := ⟨0, 0, 0⟩
  act := { rtableid := pd.rdomain }
  tag := -1
  rules := []
  hidden := hidden

end Loop

end Bitrig.Pf
