import Bitrig.PfState.Items

/-!
# Attaching keys

`pf_state_key_attach` goes over the states that have the key already, if there are any, and
gives the new state the key with an item.
-/

namespace Bitrig.PfState

open Bitrig.Transition List

section Changes

variable {t t' : Table} {s x : StatePtr} {k : KeyPtr} {idx : Idx} {pending : StatePtr → Prop}

/-! ### The states with the same key -/

/-- Closed states are marked as such. -/
structure Marked (t t' : Table) (P : StatePtr → Prop) : Prop where
  eq : t' = { t with states := t'.states }
  states : ∀ x, t'.states x = t.states x ∨
    (P x ∧ t'.states x = { t.states x with srcState := tcpsClosed, dstState := tcpsClosed })

section Scan

variable {P : StatePtr → Prop} {key : SkKey}

theorem Marked.refl : Marked t t P :=
  ⟨rfl, fun _ => .inl rfl⟩

section

variable (marked : Marked t t' P)
include marked

/-- What a mark does not change. -/
theorem Marked.kept (x : StatePtr) :
    (t'.states x).kif = (t.states x).kif ∧ (t'.states x).direction = (t.states x).direction ∧
      (∀ idx, (t'.states x).key idx = (t.states x).key idx) ∧
      (t'.states x).id = (t.states x).id ∧ (t'.states x).creatorid = (t.states x).creatorid := by
  rcases marked.states x with same | ⟨-, changed⟩
  · rw [same]
    exact ⟨rfl, rfl, fun _ => rfl, rfl, rfl⟩
  · rw [changed]
    exact ⟨rfl, rfl, fun idx => by cases idx <;> rfl, rfl, rfl⟩

theorem Marked.keys : t'.keys = t.keys := by
  rw [marked.eq]

theorem Marked.collides : t'.collides key s x = t.collides key s x := by
  have af : ∀ idx, t'.keyAf x idx = t.keyAf x idx := by
    intro idx
    rw [Table.keyAf, Table.keyAf, (marked.kept x).2.2.1 idx, marked.keys]
  unfold Table.collides
  rw [af, af, (marked.kept x).1, (marked.kept x).2.1, (marked.kept s).1, (marked.kept s).2.1]

theorem Marked.isClosed (closed : t'.isClosed key x = true) :
    t'.states x = t.states x ∧ t.isClosed key x = true := by
  rcases marked.states x with same | ⟨-, changed⟩
  · rw [Table.isClosed, same] at closed
    exact ⟨same, closed⟩
  · rw [Table.isClosed, changed] at closed
    simp [tcpsClosed, tcpsFinWait2] at closed

/-- One more state is marked. -/
theorem Marked.markClosed (isP : P x) (same : t'.states x = t.states x) :
    Marked t (t'.markClosed x) P := by
  refine ⟨?_, fun y => ?_⟩
  · obtain ⟨states, rfl⟩ : ∃ states, t' = { t with states } := ⟨_, marked.eq⟩
    rfl
  · by_cases isX : y = x
    · subst isX
      refine .inr ⟨isP, ?_⟩
      rw [← same]
      exact Function.update_self ..
    · have kept : (t'.markClosed x).states y = t'.states y := Function.update_of_ne isX ..
      rw [kept]
      exact marked.states y

theorem Marked.inv (inv : Inv t pending) : Inv t' pending := by
  have eq := marked.eq
  refine inv.congr marked.keys (by rw [eq]) (by rw [eq]) (by rw [eq]) (fun x => ?_) (fun x _ => ?_)
  · exact ⟨(marked.kept x).1, (marked.kept x).2.2.1 .wire, (marked.kept x).2.2.1 .stack⟩
  · exact (marked.kept x).2.2.2

/-- The loop over the states of a key: it marks closed states, and ends with a collision, or
when all states that collide are closed. -/
theorem scan_spec {l : List StatePtr} {olds : Option StatePtr}
    (defined : ∀ x ∈ l, ∃ b, t.collides key s x = some b)
    (closed : ∀ x ∈ l, t.collides key s x = some true → t.isClosed key x = true → P x)
    (old : ∀ o ∈ olds, P o) :
    ∃ t'' result, Table.scan key s l olds t' = some (t'', result) ∧ Marked t t'' P ∧
      ∀ olds', result = some olds' → (∀ o ∈ olds', P o) ∧
        ∀ x ∈ l, t.collides key s x = some true → t.isClosed key x = true := by
  induction l generalizing t' olds with
  | nil =>
    refine ⟨t', some olds, rfl, marked, ?_⟩
    rintro olds' ⟨⟩
    exact ⟨old, fun x mem => absurd mem not_mem_nil⟩
  | cons x rest ih =>
    obtain ⟨b, collides⟩ := defined x mem_cons_self
    have definedRest : ∀ y ∈ rest, ∃ b, t.collides key s y = some b :=
      fun y mem => defined y (mem_cons_of_mem _ mem)
    have closedRest := fun y (mem : y ∈ rest) => closed y (mem_cons_of_mem _ mem)
    unfold Table.scan
    rw [marked.collides, collides]
    cases b with
    | false =>
      obtain ⟨t'', result, scanned, marked'', ends⟩ := ih marked definedRest closedRest old
      refine ⟨t'', result, scanned, marked'', fun olds' is => ?_⟩
      obtain ⟨olds'', all⟩ := ends olds' is
      refine ⟨olds'', fun y mem => ?_⟩
      rcases mem_cons.mp mem with rfl | mem
      · intro contra
        rw [collides] at contra
        cases contra
      · exact all y mem
    | true =>
      by_cases isClosed : t'.isClosed key x = true
      · obtain ⟨same, closedBefore⟩ := marked.isClosed isClosed
        have isP := closed x mem_cons_self collides closedBefore
        have old' : ∀ o ∈ some x, P o := fun o is => Option.some.inj is ▸ isP
        obtain ⟨t'', result, scanned, marked'', ends⟩ :=
          ih (marked.markClosed isP same) definedRest closedRest old'
        refine ⟨t'', result, ?_, marked'', fun olds' is => ?_⟩
        · simpa [isClosed] using scanned
        · obtain ⟨olds'', all⟩ := ends olds' is
          refine ⟨olds'', fun y mem => ?_⟩
          rcases mem_cons.mp mem with rfl | mem
          · exact fun _ => closedBefore
          · exact all y mem
      · refine ⟨t', none, ?_, marked, fun olds' is => by cases is⟩
        simp [isClosed]

end

end Scan

/-! ### A state without its item -/

theorem setKey_some_none (r : StateRec) (isNull : r.key idx = none) (v : Option KeyPtr) :
    (r.setKey v idx).setKey none idx = r := by
  cases idx <;> cases r <;> cases isNull <;> rfl

section

variable (isNull : (t.states s).key idx = none)
include isNull

/-- A key that was given to a state without an item is taken away again. -/
theorem removeFrom_setKey (unlisted : (t.keys k).states.erase s = (t.keys k).states) :
    (t.setKey s idx (some k)).removeFrom s idx k = t := by
  have keys : ((t.setKey s idx (some k)).removeFrom s idx k).keys = t.keys := by
    change Function.update t.keys k { t.keys k with states := (t.keys k).states.erase s } = t.keys
    rw [unlisted]
    exact Function.update_eq_self k t.keys
  have states : ((t.setKey s idx (some k)).removeFrom s idx k).states = t.states := by
    funext y
    rw [Table.removeFrom]
    by_cases same : y = s
    · subst same
      rw [setKey_states_self]
      change ((t.setKey y idx (some k)).states y).setKey none idx = _
      rw [setKey_states_self, setKey_some_none _ isNull]
    · rw [setKey_states_of_ne _ same]
      exact setKey_states_of_ne _ same
  exact Table.ext keys rfl states rfl rfl rfl rfl rfl

/-- There is no memory for the item, and the key has other items. -/
theorem keyDetach_unlisted (notIn : s ∉ (t.keys k).states) (left : (t.keys k).states ≠ []) :
    (t.setKey s idx (some k)).keyDetach s idx = t := by
  have unlisted : (t.keys k).states.erase s = (t.keys k).states := erase_of_not_mem notIn
  have held : ((t.setKey s idx (some k)).states s).key idx = some k := by
    rw [setKey_states_self, key_setKey_self]
  have more : ¬(((t.setKey s idx (some k)).keys k).states.erase s).isEmpty = true := by
    change ¬((t.keys k).states.erase s).isEmpty = true
    rwa [unlisted, List.isEmpty_iff]
  rw [keyDetach_eq held, if_neg more, removeFrom_setKey isNull unlisted]

/-- There is no memory for the item of a new key, which is freed. -/
theorem keyDetach_new (empty : (t.keys k).states = []) :
    ({ t with statetbl := k :: t.statetbl }.setKey s idx (some k)).keyDetach s idx =
      t.freeKey k := by
  have unlisted : (t.keys k).states.erase s = (t.keys k).states := by rw [empty]; rfl
  have held : (({ t with statetbl := k :: t.statetbl }.setKey s idx (some k)).states s).key idx =
      some k := by
    rw [setKey_states_self, key_setKey_self]
  have none : ((({ t with statetbl := k :: t.statetbl }.setKey s idx (some k)).keys k).states.erase
      s).isEmpty = true := by
    change ((t.keys k).states.erase s).isEmpty = true
    rw [empty]
    rfl
  rw [keyDetach_eq held, if_pos none,
    removeFrom_setKey (t := { t with statetbl := k :: t.statetbl }) isNull unlisted]
  change { t with statetbl := (k :: t.statetbl).erase k, freed := k :: t.freed } = t.freeKey k
  rw [erase_cons_head]
  rfl

end

/-- There is memory for the item. -/
theorem addItem_true (olds : Option StatePtr) : (t.setKey s idx (some k)).addItem s idx true olds =
      some (true, olds.elim (t.addTo s idx k) (t.addTo s idx k).unlinkState) := by
  have held : ((t.setKey s idx (some k)).states s).key idx = some k := by
    rw [setKey_states_self, key_setKey_self]
  have added : (t.setKey s idx (some k)).setItems k
      (if ((t.setKey s idx (some k)).states s).kif = pfiAll then
        ((t.setKey s idx (some k)).keys k).states ++ [s]
      else s :: ((t.setKey s idx (some k)).keys k).states) = t.addTo s idx k := by
    rw [setKey_kif]
    rfl
  simp only [Table.addItem, held, Bool.not_true, Bool.false_eq_true, if_false, bind, Option.bind]
  rw [added]

/-! ### The whole of `pf_state_key_attach` -/

/-- A closed connection that a new state collides with. -/
def Touched (t : Table) (key : SkKey) (s x : StatePtr) : Prop :=
  t.collides key s x = some true ∧ t.isClosed key x = true ∧
    ∃ k, Holds t x k ∧ keyEq key (t.keys k).key = true

/-- What the call leaves for a key that it has been given. -/
structure Attaches (t t' : Table) (sk : KeyPtr) (s : StatePtr) : Prop where
  inv : Inv t' (· = s)
  notInTree : s ∉ t'.treeId
  key : ∀ k, (t'.keys k).key = (t.keys k).key
  account : ∀ k, account t' k = account t k + if k = sk then 1 else 0
  stateList : t'.stateList = t.stateList
  other : ∀ x, x ≠ s → (t'.states x = t.states x ∧ (x ∈ t'.treeId ↔ x ∈ t.treeId)) ∨
    Touched t (t.keys sk).key s x
  holds : ∀ x, x ≠ s → ∀ k, Holds t' x k → Holds t x k
  statetbl : ∀ k ∈ t'.statetbl, k ∈ t.statetbl ∨ k = sk
  outside : ∀ k, k ∉ t.statetbl → k ≠ sk → t'.keys k = t.keys k

/-- What a call asks for: a key and a state that are new. -/
structure Given (t : Table) (sk : KeyPtr) (s : StatePtr) (idx : Idx) : Prop where
  inv : Inv t (· = s)
  notInTree : s ∉ t.treeId
  isNull : (t.states s).key idx = none
  isNew : sk ∉ t.statetbl
  empty : (t.keys sk).states = []
  /-- A key that the state has already is its key for the wire. -/
  wire : ∀ k, Holds t s k → (t.states s).wire = some k
  /-- The state is not a closed connection with two equal keys. -/
  notClosed : ∀ k, Holds t s k → keyEq (t.keys sk).key (t.keys k).key = true →
    t.isClosed (t.keys sk).key s = false

/-- The call returns, and the state has got the key or one that is equal to it, or no key. -/
def AttachesOrFails (t : Table) (sk : KeyPtr) (s : StatePtr) (idx : Idx)
    (result : Option (Bool × Table)) : Prop :=
  ∃ ok t', result = some (ok, t') ∧ Attaches t t' sk s ∧
    if ok then ∃ k, keyEq (t.keys sk).key (t.keys k).key = true ∧
      t'.states s = (t.states s).setKey (some k) idx
    else t'.states s = t.states s

section Attach

variable {sk : KeyPtr}

theorem count_cons_if (l : List KeyPtr) :
    (sk :: l).count k = l.count k + if k = sk then 1 else 0 := by
  by_cases same : k = sk
  · subst same
    simp
  · simp [same, count_cons_of_ne (Ne.symm same)]

/-- The key is freed, and closed states have been marked. -/
theorem Given.freed (given : Given t sk s idx)
    (marked : Marked t t' (fun x => Touched t (t.keys sk).key s x)) :
    Attaches t (t'.freeKey sk) sk s := by
  have holds : ∀ x k, Holds t' x k ↔ Holds t x k := by
    intro x k
    rw [holds_iff_key, holds_iff_key]
    simp only [(marked.kept x).2.2.1]
  have inv := marked.inv given.inv
  have states := marked.states
  obtain ⟨states', rfl⟩ : ∃ states', t' = { t with states := states' } := ⟨_, marked.eq⟩
  constructor
  · exact inv.congr rfl rfl rfl rfl (fun _ => ⟨rfl, rfl, rfl⟩) (fun _ _ => ⟨rfl, rfl⟩)
  · exact given.notInTree
  · exact fun k => rfl
  · intro k
    change (sk :: t.freed).count k + t.statetbl.count k = _
    rw [count_cons_if, account]
    omega
  · rfl
  · intro x _
    rcases states x with same | ⟨touched, -⟩
    · exact .inl ⟨same, .rfl⟩
    · exact .inr touched
  · exact fun x _ k held => (holds x k).mp held
  · exact fun k mem => .inl mem
  · exact fun k _ _ => rfl

/-- The state gets a key of the tree, and its item. -/
theorem Attaches.addTo (attaches : Attaches t t' sk s) (isNull : (t'.states s).key idx = none)
    (mem : k ∈ t'.statetbl) (notHeld : ¬Holds t' s k) : Attaches t (t'.addTo s idx k) sk s := by
  have core : Core ({ t' with statetbl := t'.statetbl }.addTo s idx k) := by
    refine attaches.inv.toCore.addTo isNull notHeld (fun k' => ?_)
      attaches.inv.nodup attaches.inv.unique (attaches.inv.items k mem) (attaches.inv.sorted k mem)
    constructor
    · exact .inl
    · rintro (among | rfl)
      · exact among
      · exact mem
  constructor
  · exact attaches.inv.of_core core (fun x ne => addTo_states_of_ne ne) rfl rfl rfl
      attaches.notInTree
  · exact attaches.notInTree
  · exact fun k' => (addTo_key k').trans (attaches.key k')
  · exact attaches.account
  · exact attaches.stateList
  · intro x ne
    rw [addTo_states_of_ne ne]
    exact attaches.other x ne
  · intro x ne k' held
    rw [Holds, addTo_states_of_ne ne] at held
    exact attaches.holds x ne k' held
  · exact attaches.statetbl
  · intro k' notIn ne
    have other : k' ≠ k := by
      rintro rfl
      rcases attaches.statetbl k' mem with old | is
      · exact notIn old
      · exact ne is
    exact (setItems_keys_of_ne _ other).trans (attaches.outside k' notIn ne)

/-- The state gets the new key, and its item. -/
theorem Given.addNew (given : Given t sk s idx)
    (different : ∀ k ∈ t.statetbl, keyEq (t.keys sk).key (t.keys k).key = false) :
    Attaches t ({ t with statetbl := sk :: t.statetbl }.addTo s idx sk) sk s := by
  have notHeld : ∀ x, ¬Holds t x sk :=
    fun x held => given.isNew (given.inv.listed x sk held)
  have core : Core ({ t with statetbl := sk :: t.statetbl }.addTo s idx sk) := by
    refine given.inv.toCore.addTo given.isNull (notHeld s) (fun k' => ?_)
      (nodup_cons.mpr ⟨given.isNew, given.inv.nodup⟩) ?_ (fun x => ?_) ?_
    · rw [mem_cons, or_comm]
    · intro k' among k'' among' same
      have same' := keyEq_symm same
      rcases mem_cons.mp among with rfl | old <;>
        rcases mem_cons.mp among' with rfl | old'
      · rfl
      · rw [different k'' old'] at same
        cases same
      · rw [different k' old] at same'
        cases same'
      · exact given.inv.unique k' old k'' old' same
    · rw [given.empty, if_neg (notHeld x)]
      rfl
    · rw [given.empty]
      exact List.Pairwise.nil
  constructor
  · exact given.inv.of_core core (fun x ne => addTo_states_of_ne ne) rfl rfl rfl given.notInTree
  · exact given.notInTree
  · exact fun k' => addTo_key k'
  · intro k
    change t.freed.count k + (sk :: t.statetbl).count k = _
    rw [count_cons_if, account]
    omega
  · rfl
  · exact fun x ne => .inl ⟨addTo_states_of_ne ne, .rfl⟩
  · intro x ne k' held
    rwa [Holds, addTo_states_of_ne ne] at held
  · exact fun k' mem => (mem_cons.mp mem).symm
  · exact fun k' _ ne => setItems_keys_of_ne _ ne

/-- A closed state is unlinked after that. -/
theorem Attaches.unlink (attaches : Attaches t t' sk s) (mem : x ∈ t'.treeId)
    (touched : Touched t (t.keys sk).key s x) : Attaches t (t'.unlinkState x) sk s := by
  obtain ⟨inv, detaches, noKeys⟩ := attaches.inv.unlinkState mem
  have treeId : (t'.unlinkState x).treeId = t'.treeId.erase x := detaches.treeId
  constructor
  · exact inv
  · rw [treeId]
    exact fun among => attaches.notInTree (mem_of_mem_erase among)
  · exact fun k => (detaches.key k).trans (attaches.key k)
  · exact fun k => (detaches.account k).trans (attaches.account k)
  · exact detaches.stateList.trans attaches.stateList
  · intro y ne
    by_cases same : y = x
    · exact .inr (same ▸ touched)
    · rcases attaches.other y ne with ⟨states, tree⟩ | touched
      · refine .inl ⟨(detaches.states y same).trans states, ?_⟩
        rw [treeId, mem_erase_of_ne same]
        exact tree
      · exact .inr touched
  · intro y ne k held
    by_cases same : y = x
    · subst same
      exact absurd held (not_holds_of_detached noKeys)
    · rw [Holds, detaches.states y same] at held
      exact attaches.holds y ne k held
  · exact fun k among => attaches.statetbl k (detaches.statetbl k among)
  · intro k notIn ne
    have notIn' : k ∉ t'.statetbl := by
      intro among
      rcases attaches.statetbl k among with old | is
      · exact notIn old
      · exact ne is
    exact (detaches.outside k notIn').trans (attaches.outside k notIn ne)

section

variable (given : Given t sk s idx)
include given

theorem Given.collides_defined {cur : KeyPtr} (same : keyEq (t.keys sk).key (t.keys cur).key = true)
    (held : Holds t x cur) : ∃ b, t.collides (t.keys sk).key s x = some b ∧ (x = s → b = true) := by
  by_cases isS : x = s
  · subst isS
    have af : t.keyAf x .wire = some (t.keys sk).key.af := by
      rw [Table.keyAf, StateRec.key, given.wire cur held, keyEq_af same]
      rfl
    refine ⟨true, ?_, fun _ => rfl⟩
    simp [Table.collides, af]
  · have inTree : x ∈ t.treeId := by
      by_contra notIn
      exact not_holds_of_detached (given.inv.detached x notIn isS) held
    obtain ⟨wire, stack⟩ := given.inv.complete x inTree
    obtain ⟨kw, wire⟩ := Option.isSome_iff_exists.mp wire
    obtain ⟨ks, stack⟩ := Option.isSome_iff_exists.mp stack
    have wireAf : t.keyAf x .wire = some (t.keys kw).key.af := by
      rw [Table.keyAf, StateRec.key, wire]
      rfl
    have stackAf : t.keyAf x .stack = some (t.keys ks).key.af := by
      rw [Table.keyAf, StateRec.key, stack]
      rfl
    unfold Table.collides
    rw [wireAf, stackAf]
    split
    · dsimp only [bind, Option.bind]
      split
      · exact ⟨_, rfl, fun is => absurd is isS⟩
      · exact ⟨_, rfl, fun is => absurd is isS⟩
    · exact ⟨_, rfl, fun is => absurd is isS⟩

/-- `pf_state_key_attach` with a key that is not in the tree yet. -/
theorem Given.attachNew (item : Bool) (notFound : t.findKey (t.keys sk).key = none) :
    AttachesOrFails t sk s idx (t.keyAttach sk s idx item) := by
  have different : ∀ k ∈ t.statetbl, keyEq (t.keys sk).key (t.keys k).key = false := by
    intro k mem
    exact (Bool.not_eq_true _).mp (find?_eq_none.mp notFound k mem)
  unfold Table.keyAttach
  rw [kassert_of_holds given.isNull, notFound]
  cases item with
  | false =>
    refine ⟨false, t.freeKey sk, ?_, given.freed .refl, rfl⟩
    rw [← keyDetach_new given.isNull given.empty]
    rfl
  | true =>
    refine ⟨true, _, ?_, given.addNew different, sk, keyEq_refl _, setKey_states_self _⟩
    exact addItem_true none

/-- `pf_state_key_attach` with a key that is equal to one in the tree. -/
theorem Given.attachFound (item : Bool) {cur : KeyPtr}
    (found : t.findKey (t.keys sk).key = some cur) :
    AttachesOrFails t sk s idx (t.keyAttach sk s idx item) := by
  have inTable : cur ∈ t.statetbl := mem_of_find?_eq_some found
  have same : keyEq (t.keys sk).key (t.keys cur).key = true :=
    find?_some (p := fun k => keyEq (t.keys sk).key (t.keys k).key) found
  have notTouched : ¬Touched t (t.keys sk).key s s := by
    rintro ⟨-, closed, k, held, same⟩
    rw [given.notClosed k held same] at closed
    cases closed
  have holds := fun x => (given.inv.mem_items (x := x) inTable).mp
  obtain ⟨t₁, result, scanned, marked, ends⟩ := scan_spec (l := (t.keys cur).states)
    (P := fun x => Touched t (t.keys sk).key s x) .refl
    (fun x mem => (given.collides_defined same (holds x mem)).imp fun _ => And.left)
    (fun x mem collides closed => ⟨collides, closed, cur, holds x mem, same⟩)
    (show ∀ o ∈ (none : Option StatePtr), _ from nofun)
  have self : t₁.states s = t.states s := by
    rcases marked.states s with unchanged | ⟨touched, -⟩
    · exact unchanged
    · exact absurd touched notTouched
  have attaches := given.freed marked
  unfold Table.keyAttach
  rw [kassert_of_holds given.isNull, found]
  dsimp only [bind, Option.bind]
  rw [scanned]
  cases result with
  | none => exact ⟨false, _, rfl, attaches, self⟩
  | some olds =>
    obtain ⟨oldTouched, allClosed⟩ := ends olds rfl
    -- a state that has the key would have collided with itself
    have notHeld : ¬Holds t s cur := by
      intro held
      obtain ⟨b, collides, isTrue⟩ := given.collides_defined same held
      rw [isTrue rfl] at collides
      have closed := allClosed s ((given.inv.mem_items inTable).mpr held) collides
      exact notTouched ⟨collides, closed, cur, held, same⟩
    have keys : (t₁.freeKey sk).keys = t.keys := marked.keys
    have states : (t₁.freeKey sk).states s = t.states s := self
    have isNull : ((t₁.freeKey sk).states s).key idx = none := by
      rw [states]
      exact given.isNull
    have statetbl : cur ∈ (t₁.freeKey sk).statetbl := by
      rw [marked.eq]
      exact inTable
    cases item with
    | false =>
      refine ⟨false, t₁.freeKey sk, ?_, attaches, self⟩
      have notIn : s ∉ ((t₁.freeKey sk).keys cur).states := by
        rw [keys, given.inv.mem_items inTable]
        exact notHeld
      have left : ((t₁.freeKey sk).keys cur).states ≠ [] := by
        rw [keys]
        exact given.inv.nonempty cur inTable
      conv_rhs => rw [← keyDetach_unlisted isNull notIn left]
      rfl
    | true =>
      have added : Attaches t ((t₁.freeKey sk).addTo s idx cur) sk s :=
        attaches.addTo isNull statetbl (by rwa [Holds, states])
      have addedSelf : ((t₁.freeKey sk).addTo s idx cur).states s =
          (t.states s).setKey (some cur) idx := by
        rw [← states]
        exact setKey_states_self _
      cases olds with
      | none => exact ⟨true, _, addItem_true none, added, cur, same, addedSelf⟩
      | some old =>
        have touched := oldTouched old rfl
        have isOther : old ≠ s := fun is => notTouched (is ▸ touched)
        have inTree : old ∈ ((t₁.freeKey sk).addTo s idx cur).treeId := by
          change old ∈ t₁.treeId
          rw [marked.eq]
          by_contra notIn
          obtain ⟨-, -, k, held, -⟩ := touched
          exact not_holds_of_detached (given.inv.detached old notIn isOther) held
        obtain ⟨-, detaches, -⟩ := added.inv.unlinkState inTree
        refine ⟨true, _, addItem_true (some old), added.unlink inTree touched, cur, same, ?_⟩
        exact (detaches.states s isOther.symm).trans addedSelf

theorem keyAttach_spec (item : Bool) : AttachesOrFails t sk s idx (t.keyAttach sk s idx item) := by
  cases found : t.findKey (t.keys sk).key with
  | none => exact given.attachNew item found
  | some cur => exact given.attachFound item found

end

end Attach

end Changes

end Bitrig.PfState
