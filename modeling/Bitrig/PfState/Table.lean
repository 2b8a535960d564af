import Bitrig.Lib.Transition
import Bitrig.Pf.Rules

/-!
# The state table of pf (net/pf.c)

States are found by their keys, which are in the tree `pf_statetbl`, and by their ids, in the
tree `tree_id`.  A state has a key for the wire and one for the stack; states may share a key,
whose list has an item for each of them.  Keys and states are addresses; a tree is a list
without an order.  NULL that is followed, and an assertion that fails, are undefined.
-/

namespace Bitrig.PfState

open Bitrig.Transition Function
open Bitrig.Pf (Family Direction Addr)

abbrev KeyPtr := Nat
abbrev StatePtr := Nat

/-- The part of `struct pf_state_key` that is compared. -/
structure SkKey where
  proto : Nat
  af : Family
  addr0 : Addr
  addr1 : Addr
  port0 : Nat
  port1 : Nat
  rdomain : Nat
  deriving DecidableEq

/-- `struct pf_state_key`, with the states of its items. -/
structure KeyRec where
  key : SkKey
  states : List StatePtr
  deriving DecidableEq

/-- `PF_SK_WIRE` and `PF_SK_STACK` -/
inductive Idx where
  | wire
  | stack
  deriving DecidableEq

/-- The fields of `struct pf_state` that the table uses. -/
structure StateRec where
  kif : Nat
  direction : Direction
  /-- `src.state` -/
  srcState : Nat
  /-- `dst.state` -/
  dstState : Nat
  /-- `key[PF_SK_WIRE]` -/
  wire : Option KeyPtr
  /-- `key[PF_SK_STACK]` -/
  stack : Option KeyPtr
  id : Nat
  creatorid : Nat
  deriving DecidableEq

namespace StateRec

def key (s : StateRec) : Idx → Option KeyPtr
  | .wire => s.wire
  | .stack => s.stack

def setKey (s : StateRec) (k : Option KeyPtr) : Idx → StateRec
  | .wire => { s with wire := k }
  | .stack => { s with stack := k }

end StateRec

/-- The tables, with the keys that the current call has given to `pool_put`. -/
@[ext]
structure Table where
  keys : KeyPtr → KeyRec
  /-- `pf_statetbl` -/
  statetbl : List KeyPtr
  states : StatePtr → StateRec
  treeId : List StatePtr
  stateList : List StatePtr
  /-- `pf_status.stateid` -/
  stateid : Nat
  /-- `pf_status.hostid` -/
  hostid : Nat
  freed : List KeyPtr

/-- The interface of floating states. -/
def pfiAll : Nat := 0

def ipprotoTcp : Nat := 6
def tcpsClosed : Nat := 0
def tcpsFinWait2 : Nat := 9

/-- `pf_addr_compare` is zero. -/
def addrEq (a b : Addr) : Family → Bool
  | .inet => a.w0 == b.w0
  | .inet6 => a.w3 == b.w3 && a.w2 == b.w2 && a.w1 == b.w1 && a.w0 == b.w0
  | _ => true

/-- `pf_state_compare_key` is zero. -/
def keyEq (a b : SkKey) : Bool :=
  a.proto == b.proto && a.af == b.af && addrEq a.addr0 b.addr0 a.af &&
    addrEq a.addr1 b.addr1 a.af && a.port0 == b.port0 && a.port1 == b.port1 &&
    a.rdomain == b.rdomain

namespace Table

def setState (t : Table) (s : StatePtr) (value : StateRec) : Table :=
  { t with states := update t.states s value }

/-- An assignment to `s->key[idx]`. -/
def setKey (t : Table) (s : StatePtr) (idx : Idx) (k : Option KeyPtr) : Table :=
  t.setState s ((t.states s).setKey k idx)

/-- The items of a key. -/
def setItems (t : Table) (k : KeyPtr) (states : List StatePtr) : Table :=
  { t with keys := update t.keys k { t.keys k with states } }

/-- `pool_put(&pf_state_key_pl, k)` -/
def freeKey (t : Table) (k : KeyPtr) : Table :=
  { t with freed := k :: t.freed }

/-- The key of `pf_statetbl` that compares equal. -/
def findKey (t : Table) (key : SkKey) : Option KeyPtr :=
  t.statetbl.find? fun k => keyEq key (t.keys k).key

/-- The family of a key of a state. -/
def keyAf (t : Table) (s : StatePtr) (idx : Idx) : Option Family :=
  ((t.states s).key idx).map fun k => (t.keys k).key.af

/-! ### Detaching -/

/-- `pf_state_key_detach` -/
def keyDetach (t : Table) (s : StatePtr) (idx : Idx) : Table :=
  match (t.states s).key idx with
  | none => t
  | some k =>
    let t := t.setItems k ((t.keys k).states.erase s)
    let t :=
      if (t.keys k).states.isEmpty then
        { t with statetbl := t.statetbl.erase k }.freeKey k
      else t
    t.setKey s idx none

/-- `pf_detach_state` -/
def detachState (t : Table) (s : StatePtr) : Table :=
  let t := if (t.states s).wire = (t.states s).stack then t.setKey s .wire none else t
  (t.keyDetach s .stack).keyDetach s .wire

/-- `RB_REMOVE` of the tree of ids.  A state that is not in the tree has no parent and no
children: it is taken for the root, and the tree is empty then. -/
def removeId (t : Table) (s : StatePtr) : Table :=
  { t with treeId := if s ∈ t.treeId then t.treeId.erase s else [] }

/-- `pf_unlink_state` -/
def unlinkState (t : Table) (s : StatePtr) : Table :=
  (t.removeId s).detachState s

/-! ### Attaching -/

/-- The condition on a state with the same key that is found by `pf_state_key_attach`. -/
def collides (t : Table) (key : SkKey) (s x : StatePtr) : Option Bool :=
  if (t.states x).kif = (t.states s).kif then do
    let wireAf ← t.keyAf x .wire
    if wireAf = key.af ∧ (t.states x).direction = (t.states s).direction then some true
    else
      let stackAf ← t.keyAf x .stack
      some (decide (wireAf ≠ stackAf ∧ key.af = stackAf ∧
        (t.states x).direction ≠ (t.states s).direction))
  else some false

/-- A connection that has been closed on both sides. -/
def isClosed (t : Table) (key : SkKey) (x : StatePtr) : Bool :=
  key.proto == ipprotoTcp && (t.states x).srcState ≥ tcpsFinWait2 &&
    (t.states x).dstState ≥ tcpsFinWait2

def markClosed (t : Table) (x : StatePtr) : Table :=
  t.setState x { t.states x with srcState := tcpsClosed, dstState := tcpsClosed }

/-- The loop over the states of an existing key; the result is none for a collision, and else
the variable `olds`. -/
def scan (key : SkKey) (s : StatePtr) :
    List StatePtr → Option StatePtr → Table → Option (Table × Option (Option StatePtr))
  | [], olds, t => some (t, some olds)
  | x :: rest, olds, t => do
      if ← t.collides key s x then
        if t.isClosed key x then scan key s rest (some x) (t.markClosed x)
        else some (t, none)
      else scan key s rest olds t

/-- The item of a state is put into the list of its new key, and the old state is unlinked. -/
def addItem (t : Table) (s : StatePtr) (idx : Idx) (item : Bool) (olds : Option StatePtr) :
    Option (Bool × Table) := do
  if !item then some (false, t.keyDetach s idx)
  else
    let k ← (t.states s).key idx
    let states := (t.keys k).states
    let t := t.setItems k (if (t.states s).kif = pfiAll then states ++ [s] else s :: states)
    some (true, olds.elim t t.unlinkState)

/-- `pf_state_key_attach`; `item` says whether there is memory for the item. -/
def keyAttach (t : Table) (sk : KeyPtr) (s : StatePtr) (idx : Idx) (item : Bool) :
    Option (Bool × Table) := do
  kassert ((t.states s).key idx = none)
  match t.findKey (t.keys sk).key with
  | some cur =>
    match ← scan (t.keys sk).key s (t.keys cur).states none t with
    | (t, none) => some (false, t.freeKey sk)
    | (t, some olds) => ((t.freeKey sk).setKey s idx (some cur)).addItem s idx item olds
  | none => ({ t with statetbl := sk :: t.statetbl }.setKey s idx (some sk)).addItem s idx item none

/-! ### Inserting -/

/-- The id that a state without one gets. -/
def giveId (t : Table) (s : StatePtr) : Table :=
  if (t.states s).id = 0 ∧ (t.states s).creatorid = 0 then
    { t.setState s { t.states s with id := t.stateid, creatorid := t.hostid } with
      stateid := (t.stateid + 1) % 2 ^ 64 }
  else t

/-- `pf_state_compare_id` is zero. -/
def sameId (t : Table) (s x : StatePtr) : Bool :=
  (t.states s).id == (t.states x).id && (t.states s).creatorid == (t.states x).creatorid

/-- The end of `pf_state_insert`, for a state with both keys. -/
def insertId (t : Table) (s : StatePtr) : Bool × Table :=
  let t := t.giveId s
  if t.treeId.any (t.sameId s) then (false, t.detachState s)
  else (true, { t with treeId := s :: t.treeId, stateList := t.stateList ++ [s] })

/-- `pf_state_insert` -/
def stateInsert (t : Table) (kif : Nat) (skw sks : KeyPtr) (s : StatePtr) (items : Bool × Bool) :
    Option (Bool × Table) := do
  let t := t.setState s { t.states s with kif }
  if skw = sks then
    match ← t.keyAttach skw s .wire items.1 with
    | (false, t) => some (false, t)
    | (true, t) => some ((t.setKey s .stack (t.states s).wire).insertId s)
  else
    match ← t.keyAttach skw s .wire items.1 with
    | (false, t) => some (false, t.freeKey sks)
    | (true, t) =>
      match ← t.keyAttach sks s .stack items.2 with
      | (false, t) => some (false, t.keyDetach s .wire)
      | (true, t) => some (t.insertId s)

end Table

/-! ### Calls -/

/-- A new state with its keys, as the callers of `pf_state_insert` set it up. -/
structure NewState where
  s : StatePtr
  kif : Nat
  direction : Direction
  srcState : Nat
  dstState : Nat
  id : Nat
  creatorid : Nat
  skw : KeyPtr
  sks : KeyPtr
  wire : SkKey
  stack : SkKey
  /-- Whether there is memory for the items. -/
  items : Bool × Bool

/-- The memory of a new state and of its keys. -/
def Table.allocate (t : Table) (new : NewState) : Table :=
  { t with
    keys := update (update t.keys new.sks ⟨new.stack, []⟩) new.skw
      ⟨new.wire, []⟩
    states := update t.states new.s
      ⟨0, new.direction, new.srcState, new.dstState, none, none, new.id, new.creatorid⟩
    freed := [] }

def Table.insertNew (t : Table) (new : NewState) : Option (Bool × Table) :=
  (t.allocate new).stateInsert new.kif new.skw new.sks new.s new.items

inductive Label where
  | insert (new : NewState)
  /-- `pf_unlink_state` -/
  | unlink (s : StatePtr)
  /-- `pf_free_state` -/
  | free (s : StatePtr)
  /-- A packet changes the states of the peers. -/
  | progress (s : StatePtr) (srcState dstState : Nat)

def next : Label → Table → Option Table
  | .insert new, t => (t.insertNew new).map Prod.snd
  | .unlink s, t => some ({ t with freed := [] }.unlinkState s)
  | .free s, t => some { t with stateList := t.stateList.erase s }
  | .progress s srcState dstState, t =>
    some (t.setState s { t.states s with srcState, dstState })

/-- The state and its keys are new: they are not in the tables. -/
def Fresh (t : Table) (new : NewState) : Prop :=
  new.s ∉ t.treeId ∧ new.s ∉ t.stateList ∧ new.skw ∉ t.statetbl ∧ new.sks ∉ t.statetbl ∧
    (new.skw = new.sks → new.wire = new.stack)

instance (t : Table) (new : NewState) : Decidable (Fresh t new) := by
  unfold Fresh
  infer_instance

/-- What the callers keep to: only states in the tables are unlinked and change, and only
those that have been unlinked are freed. -/
def Called : Label → Table → Prop
  | .insert new, t => Fresh t new
  | .unlink s, t => s ∈ t.treeId
  | .free s, t => s ∉ t.treeId
  | .progress s _ _, t => s ∈ t.treeId

instance (label : Label) (t : Table) : Decidable (Called label t) := by
  cases label <;> unfold Called <;> infer_instance

/-- The empty tables. -/
def empty (hostid : Nat) : Table where
  keys := fun _ => ⟨⟨0, .unspec, ⟨0, 0, 0, 0⟩, ⟨0, 0, 0, 0⟩, 0, 0, 0⟩, []⟩
  statetbl := []
  states := fun _ => ⟨0, .pfInout, 0, 0, none, none, 0, 0⟩
  treeId := []
  stateList := []
  stateid := 0
  hostid := hostid
  freed := []

end Bitrig.PfState
