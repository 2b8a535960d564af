import Bitrig.PfState.Attach

/-!
# Consistency of the state table

`pf_state_insert` keeps the trees and the lists of pf consistent, whether it succeeds or not,
unless it is given a closed connection with two keys that are equal.
-/

namespace Bitrig.PfState

open Bitrig.Transition Function List

/-- The trees and lists agree with each other. -/
structure Consistent (t : Table) : Prop where
  keysUnique : t.statetbl.Nodup ∧ ∀ k ∈ t.statetbl, ∀ k' ∈ t.statetbl,
    keyEq (t.keys k).key (t.keys k').key = true → k = k'
  keysUsed : ∀ k ∈ t.statetbl, (t.keys k).states ≠ []
  idsUnique : t.treeId.Nodup ∧ ∀ x ∈ t.treeId, ∀ y ∈ t.treeId, t.sameId x y = true → x = y
  oneItem : ∀ x ∈ t.treeId, ∃ kw ks, (t.states x).wire = some kw ∧ (t.states x).stack = some ks ∧
    kw ∈ t.statetbl ∧ ks ∈ t.statetbl ∧ (t.keys kw).states.count x = 1 ∧
    (t.keys ks).states.count x = 1
  boundFirst : ∀ k ∈ t.statetbl, (t.keys k).states.Pairwise
    (fun a b => (t.states a).kif = pfiAll → (t.states b).kif = pfiAll)
  noStale : ∀ k ∈ t.statetbl, ∀ x ∈ (t.keys k).states, x ∈ t.treeId ∧ Holds t x k

section Insert

variable {t t' : Table} {s x : StatePtr} {k : KeyPtr} {new : NewState} {used : KeyPtr → Nat}

/-- No state is being inserted. -/
def Settled (t : Table) : Prop :=
  Inv t (fun _ => False)

theorem Settled.consistent (settled : Settled t) : Consistent t where
  keysUnique := ⟨settled.nodup, settled.unique⟩
  keysUsed := settled.nonempty
  idsUnique := ⟨settled.idNodup, settled.idUnique⟩
  oneItem := by
    intro x mem
    obtain ⟨wire, stack⟩ := settled.complete x mem
    obtain ⟨kw, wire⟩ := Option.isSome_iff_exists.mp wire
    obtain ⟨ks, stack⟩ := Option.isSome_iff_exists.mp stack
    have wireIn := settled.listed x kw (.inl wire)
    have stackIn := settled.listed x ks (.inr stack)
    refine ⟨kw, ks, wire, stack, wireIn, stackIn, ?_, ?_⟩
    · rw [settled.items kw wireIn x, if_pos (.inl wire)]
    · rw [settled.items ks stackIn x, if_pos (.inr stack)]
  boundFirst := settled.sorted
  noStale := by
    intro k mem x among
    have held := (settled.mem_items mem).mp among
    refine ⟨?_, held⟩
    by_contra notIn
    exact not_holds_of_detached (settled.detached x notIn id) held

theorem Inv.settled (inv : Inv t (· = s))
    (none : (t.states s).wire = none ∧ (t.states s).stack = none) : Settled t := by
  refine { inv with detached := fun x notIn _ => ?_ }
  by_cases same : x = s
  · exact same ▸ none
  · exact inv.detached x notIn same

/-! ### The id of a state -/

/-- What the insertion of the id leaves, apart from the state and the trees. -/
structure Ended (t t' : Table) (s : StatePtr) (ok : Bool) : Prop where
  settled : Settled t'
  states : ∀ x, x ≠ s → t'.states x = t.states x ∧ (x ∈ t'.treeId ↔ x ∈ t.treeId)
  account : ∀ k, account t' k = account t k
  succeeded : ok = true → s ∈ t'.treeId
  failed : ok = false → s ∉ t'.treeId ∧ t'.stateList = t.stateList

/-- A new id is a change of the state alone. -/
theorem giveId_eq : ∃ id creatorid stateid, t.giveId s =
    { t.setState s { t.states s with id, creatorid } with stateid } := by
  unfold Table.giveId
  split
  · exact ⟨_, _, _, rfl⟩
  · refine ⟨(t.states s).id, (t.states s).creatorid, t.stateid, ?_⟩
    exact Table.ext rfl rfl (update_eq_self s t.states).symm rfl rfl rfl rfl rfl

theorem Inv.insertId (inv : Inv t (· = s)) (notIn : s ∉ t.treeId)
    (complete : (t.states s).wire.isSome ∧ (t.states s).stack.isSome) :
    Ended t (t.insertId s).2 s (t.insertId s).1 := by
  obtain ⟨id, creatorid, stateid, given⟩ := giveId_eq (t := t) (s := s)
  have other : ∀ x, x ≠ s → (t.giveId s).states x = t.states x := by
    intro x ne
    rw [given]
    exact update_of_ne ne ..
  have self : (t.giveId s).states s = { t.states s with id, creatorid } := by
    rw [given]
    exact update_self ..
  have kept : ∀ x, ((t.giveId s).states x).kif = (t.states x).kif ∧
      ((t.giveId s).states x).wire = (t.states x).wire ∧
      ((t.giveId s).states x).stack = (t.states x).stack := by
    intro x
    by_cases same : x = s
    · rw [same, self]
      exact ⟨rfl, rfl, rfl⟩
    · rw [other x same]
      exact ⟨rfl, rfl, rfl⟩
  have treeId : (t.giveId s).treeId = t.treeId := by rw [given]; rfl
  have stateList : (t.giveId s).stateList = t.stateList := by rw [given]; rfl
  have account' : ∀ k, account (t.giveId s) k = account t k := by
    intro k
    rw [given]
    rfl
  have inv' : Inv (t.giveId s) (· = s) := by
    refine inv.congr (by rw [given]; rfl) (by rw [given]; rfl) treeId stateList kept ?_
    intro x mem
    rw [other x (fun is => notIn (is ▸ mem))]
    exact ⟨rfl, rfl⟩
  have notIn' : s ∉ (t.giveId s).treeId := by rwa [treeId]
  unfold Table.insertId
  dsimp only
  split
  · obtain ⟨detached, detaches, none⟩ := inv'.detachState (s := s) rfl notIn'
    refine ⟨detached.settled none, ?_, ?_, (fun is => by cases is), fun _ => ⟨?_, ?_⟩⟩
    · intro x ne
      refine ⟨(detaches.states x ne).trans (other x ne), ?_⟩
      rw [detaches.treeId, treeId]
    · exact fun k => (detaches.account k).trans (account' k)
    · rw [detaches.treeId]
      exact notIn'
    · exact detaches.stateList.trans stateList
  · rename_i unique
    have differ : ∀ x ∈ (t.giveId s).treeId, (t.giveId s).sameId s x = false := by
      intro x mem
      by_contra same
      exact unique (any_eq_true.mpr ⟨x, mem, (Bool.not_eq_false _).mp same⟩)
    have symm : ∀ x y, (t.giveId s).sameId x y = true → (t.giveId s).sameId y x = true := by
      intro x y same
      simp only [Table.sameId, Bool.and_eq_true, beq_iff_eq] at same ⊢
      exact ⟨same.1.symm, same.2.symm⟩
    refine ⟨?_, ?_, account', fun _ => mem_cons_self, fun is => by cases is⟩
    · refine ⟨inv'.toCore.congr (fun _ _ => rfl) rfl (fun _ _ _ => rfl) (fun _ _ => .rfl),
        ?_, ?_, ?_, ?_, ?_⟩
      · intro x mem
        rcases mem_cons.mp mem with rfl | old
        · rw [(kept x).2.1, (kept x).2.2]
          exact complete
        · exact inv'.complete x old
      · intro x outside _
        obtain ⟨ne, outside⟩ := not_or.mp (fun is => outside (mem_cons.mpr is))
        exact inv'.detached x outside ne
      · exact nodup_cons.mpr ⟨notIn', inv'.idNodup⟩
      · intro x mem y mem' same
        rcases mem_cons.mp mem with rfl | old <;> rcases mem_cons.mp mem' with rfl | old'
        · rfl
        · exact absurd same ((Bool.not_eq_true _).mpr (differ y old'))
        · exact absurd (symm _ _ same) ((Bool.not_eq_true _).mpr (differ x old))
        · exact inv'.idUnique x old y old' same
      · intro x mem
        refine mem_append.mpr ?_
        rcases mem_cons.mp mem with rfl | old
        · exact .inr mem_cons_self
        · exact .inl (inv'.inList x old)
    · intro x ne
      refine ⟨other x ne, ?_⟩
      rw [mem_cons, treeId]
      exact ⟨fun is => is.resolve_left ne, .inr⟩

/-! ### A new state and its keys -/

/-- The tables when a call has been given a new state. -/
def Table.prepare (t : Table) (new : NewState) : Table :=
  (t.allocate new).setState new.s { (t.allocate new).states new.s with kif := new.kif }

theorem prepare_states_self :
    (t.prepare new).states new.s = ⟨new.kif, new.direction, new.srcState, new.dstState, none, none,
      new.id, new.creatorid⟩ := by
  have allocated : (t.allocate new).states new.s = ⟨0, new.direction, new.srcState, new.dstState,
      none, none, new.id, new.creatorid⟩ := update_self ..
  have set : (t.prepare new).states new.s =
      { (t.allocate new).states new.s with kif := new.kif } := update_self ..
  rw [set, allocated]

theorem prepare_states_of_ne (ne : x ≠ new.s) : (t.prepare new).states x = t.states x := by
  have set : (t.prepare new).states x = (t.allocate new).states x := update_of_ne ne ..
  rw [set]
  exact update_of_ne ne ..

theorem prepare_keys_of_ne (wire : k ≠ new.skw) (stack : k ≠ new.sks) :
    (t.prepare new).keys k = t.keys k := by
  have first : (t.prepare new).keys k = update t.keys new.sks ⟨new.stack, []⟩ k :=
    update_of_ne wire ..
  rw [first, update_of_ne stack]

theorem prepare_keys_skw : (t.prepare new).keys new.skw = ⟨new.wire, []⟩ :=
  update_self ..

theorem prepare_keys_sks (ne : new.sks ≠ new.skw) :
    (t.prepare new).keys new.sks = ⟨new.stack, []⟩ := by
  have first : (t.prepare new).keys new.sks =
      update t.keys new.sks ⟨new.stack, []⟩ new.sks := update_of_ne ne ..
  rw [first, update_self]

theorem account_prepare : account (t.prepare new) k = t.statetbl.count k :=
  zero_add _

theorem Settled.prepare (settled : Settled t) (fresh : Fresh t new) :
    Inv (t.prepare new) (· = new.s) := by
  obtain ⟨notIn, notListed, wireNew, stackNew, -⟩ := fresh
  have detached := settled.detached new.s notIn id
  have holds : ∀ x k, Holds (t.prepare new) x k ↔ Holds t x k := by
    intro x k
    by_cases same : x = new.s
    · subst same
      refine iff_of_false (not_holds_of_detached ?_) (not_holds_of_detached detached)
      rw [prepare_states_self]
      exact ⟨rfl, rfl⟩
    · rw [Holds, Holds, prepare_states_of_ne same]
  have core : Core (t.prepare new) := by
    refine settled.toCore.congr (fun k mem => ?_) rfl (fun x k held => ?_) holds
    · exact prepare_keys_of_ne (fun is => wireNew (is ▸ mem)) (fun is => stackNew (is ▸ mem))
    · rw [prepare_states_of_ne]
      rintro rfl
      exact not_holds_of_detached detached held
  have inv : Inv t (· = new.s) :=
    { settled with detached := fun x outside _ => settled.detached x outside id }
  exact inv.of_core core (fun x => prepare_states_of_ne) rfl rfl rfl notIn

/-- A closed connection that a new state collides with, by one of its keys. -/
def ClosedCollision (t : Table) (new : NewState) (x : StatePtr) : Prop :=
  Touched (t.prepare new) new.wire new.s x ∨ Touched (t.prepare new) new.stack new.s x

/-- A closed connection with two equal keys, which are not the same. -/
def ClosedTwice (new : NewState) : Prop :=
  new.skw ≠ new.sks ∧ keyEq new.stack new.wire = true ∧ new.stack.proto = ipprotoTcp ∧
    new.srcState ≥ tcpsFinWait2 ∧ new.dstState ≥ tcpsFinWait2

instance : Decidable (ClosedTwice new) := by
  unfold ClosedTwice
  infer_instance

/-- What holds while a state is being inserted and some of the keys have been used. -/
structure Midway (t t' : Table) (new : NewState) (used : KeyPtr → Nat) : Prop where
  inv : Inv t' (· = new.s)
  notInTree : new.s ∉ t'.treeId
  other : ∀ x, x ≠ new.s → (t'.states x = t.states x ∧ (x ∈ t'.treeId ↔ x ∈ t.treeId)) ∨
    ClosedCollision t new x
  holds : ∀ x, x ≠ new.s → ∀ k, Holds t' x k → Holds t x k
  account : ∀ k, account t' k = t.statetbl.count k + used k
  stateList : t'.stateList = t.stateList

/-- What holds after `pf_state_insert`. -/
structure Inserted (t t' : Table) (new : NewState) (ok : Bool) : Prop where
  settled : Settled t'
  other : ∀ x, x ≠ new.s → (t'.states x = t.states x ∧ (x ∈ t'.treeId ↔ x ∈ t.treeId)) ∨
    ClosedCollision t new x
  holds : ∀ x, x ≠ new.s → ∀ k, Holds t' x k → Holds t x k
  account : ∀ k, account t' k = t.statetbl.count k + if k = new.skw ∨ k = new.sks then 1 else 0
  succeeded : ok = true → new.s ∈ t'.treeId
  failed : ok = false → new.s ∉ t'.treeId ∧ t'.stateList = t.stateList

section Midway

variable {used : KeyPtr → Nat} {t₁ t₂ : Table}

/-- The first key has been used. -/
theorem Midway.first (attaches : Attaches (t.prepare new) t₁ new.skw new.s) :
    Midway t t₁ new (fun k => if k = new.skw then 1 else 0) := by
  refine ⟨attaches.inv, attaches.notInTree, fun x ne => ?_, fun x ne k held => ?_, fun k => ?_,
    attaches.stateList⟩
  · rcases attaches.other x ne with ⟨states, tree⟩ | touched
    · exact .inl ⟨states.trans (prepare_states_of_ne ne), tree⟩
    · rw [prepare_keys_skw] at touched
      exact .inr (.inl touched)
  · have before := attaches.holds x ne k held
    rwa [Holds, prepare_states_of_ne ne] at before
  · rw [attaches.account k, account_prepare]

/-- What a state collides with by its second key it has collided with from the beginning. -/
theorem Touched.prepared {key : SkKey} (attaches : Attaches (t.prepare new) t₁ new.skw new.s)
    (self : (t₁.states new.s).kif = ((t.prepare new).states new.s).kif ∧
      (t₁.states new.s).direction = ((t.prepare new).states new.s).direction)
    (ne : x ≠ new.s) (same : t₁.states x = (t.prepare new).states x)
    (touched : Touched t₁ key new.s x) : Touched (t.prepare new) key new.s x := by
  obtain ⟨collides, closed, k, held, keys⟩ := touched
  have af : ∀ idx, t₁.keyAf x idx = (t.prepare new).keyAf x idx := by
    intro idx
    rw [Table.keyAf, same]
    congr 1
    funext k
    rw [attaches.key k]
  refine ⟨?_, ?_, k, attaches.holds x ne k held, ?_⟩
  · rw [← collides]
    unfold Table.collides
    rw [af, af, same, self.1, self.2]
  · rw [← closed, Table.isClosed, Table.isClosed, same]
  · rw [← attaches.key k]
    exact keys

/-- The second key has been used, too. -/
theorem Midway.second (first : Attaches (t.prepare new) t₁ new.skw new.s)
    (self : (t₁.states new.s).kif = ((t.prepare new).states new.s).kif ∧
      (t₁.states new.s).direction = ((t.prepare new).states new.s).direction)
    (content : (t₁.keys new.sks).key = new.stack) (second : Attaches t₁ t₂ new.sks new.s)
    (ne : new.skw ≠ new.sks) :
    Midway t t₂ new (fun k => if k = new.skw ∨ k = new.sks then 1 else 0) := by
  have midway := Midway.first first
  refine ⟨second.inv, second.notInTree, fun x isOther => ?_, fun x isOther k held => ?_,
    fun k => ?_, second.stateList.trans midway.stateList⟩
  · rcases second.other x isOther with ⟨states, tree⟩ | touched
    · rcases midway.other x isOther with ⟨states', tree'⟩ | collision
      · exact .inl ⟨states.trans states', tree.trans tree'⟩
      · exact .inr collision
    · rw [content] at touched
      rcases first.other x isOther with ⟨same, -⟩ | touchedFirst
      · exact .inr (.inr (touched.prepared first self isOther same))
      · rw [prepare_keys_skw] at touchedFirst
        exact .inr (.inl touchedFirst)
  · exact midway.holds x isOther k (second.holds x isOther k held)
  · rw [second.account k, midway.account k]
    by_cases wire : k = new.skw
    · simp [wire, ne]
    · simp [wire]

/-- The second key is freed when the first one could not be attached. -/
theorem Midway.freeSecond (midway : Midway t t₁ new (fun k => if k = new.skw then 1 else 0))
    (ne : new.skw ≠ new.sks) : Midway t (t₁.freeKey new.sks) new
      (fun k => if k = new.skw ∨ k = new.sks then 1 else 0) := by
  refine ⟨?_, midway.notInTree, midway.other, midway.holds, fun k => ?_, midway.stateList⟩
  · exact midway.inv.congr rfl rfl rfl rfl (fun _ => ⟨rfl, rfl, rfl⟩) (fun _ _ => ⟨rfl, rfl⟩)
  · have before := midway.account k
    rw [PfState.account] at before
    change (new.sks :: t₁.freed).count k + t₁.statetbl.count k = _
    rw [count_cons_if]
    by_cases wire : k = new.skw
    · simp only [wire, if_true, true_or, ne, if_false] at before ⊢
      omega
    · simp only [wire, if_false, false_or] at before ⊢
      omega

section

variable (midway : Midway t t₁ new (fun k => if k = new.skw ∨ k = new.sks then 1 else 0))
include midway

/-- The call fails, and the state has no keys. -/
theorem Midway.fail (none : (t₁.states new.s).wire = none ∧ (t₁.states new.s).stack = none) :
    Inserted t t₁ new false :=
  ⟨midway.inv.settled none, midway.other, midway.holds, midway.account, (by simp),
    fun _ => ⟨midway.notInTree, midway.stateList⟩⟩

/-- The state has its keys, and its id is inserted. -/
theorem Midway.end (complete : (t₁.states new.s).wire.isSome ∧ (t₁.states new.s).stack.isSome) :
    Inserted t (t₁.insertId new.s).2 new (t₁.insertId new.s).1 := by
  have ended := midway.inv.insertId midway.notInTree complete
  refine ⟨ended.settled, fun x ne => ?_, fun x ne k held => ?_, fun k => ?_, ended.succeeded,
    fun is => ?_⟩
  · obtain ⟨states, tree⟩ := ended.states x ne
    rw [states, tree]
    exact midway.other x ne
  · rw [Holds, (ended.states x ne).1] at held
    exact midway.holds x ne k held
  · rw [ended.account k, midway.account k]
  · obtain ⟨notIn, stateList⟩ := ended.failed is
    exact ⟨notIn, stateList.trans midway.stateList⟩

end

end Midway

/-- The first key that is given. -/
theorem Settled.givenWire (settled : Settled t) (fresh : Fresh t new) :
    Given (t.prepare new) new.skw new.s .wire := by
  have noKeys : ((t.prepare new).states new.s).wire = none ∧
      ((t.prepare new).states new.s).stack = none := by
    rw [prepare_states_self]
    exact ⟨rfl, rfl⟩
  constructor
  · exact settled.prepare fresh
  · exact fresh.1
  · exact noKeys.1
  · exact fresh.2.2.1
  · rw [prepare_keys_skw]
  · exact fun k held => absurd held (not_holds_of_detached noKeys)
  · exact fun k held => absurd held (not_holds_of_detached noKeys)

/-- The second key that is given, when the first one has been attached. -/
theorem Settled.givenStack (fresh : Fresh t new) (notTwice : ¬ClosedTwice new)
    (ne : new.skw ≠ new.sks) (attaches : Attaches (t.prepare new) t₁ new.skw new.s)
    (same : keyEq new.wire ((t.prepare new).keys k).key = true)
    (self : t₁.states new.s = ((t.prepare new).states new.s).setKey (some k) .wire) :
    Given t₁ new.sks new.s .stack := by
  rw [prepare_states_self] at self
  have content : t₁.keys new.sks = ⟨new.stack, []⟩ := by
    rw [attaches.outside new.sks fresh.2.2.2.1 ne.symm]
    exact prepare_keys_sks ne.symm
  have held : ∀ k', Holds t₁ new.s k' → k' = k := by
    rintro k' (wire | stack)
    · rw [self] at wire
      exact (Option.some.inj wire).symm
    · rw [self] at stack
      cases stack
  constructor
  · exact attaches.inv
  · exact attaches.notInTree
  · rw [self]
    rfl
  · intro mem
    exact (attaches.statetbl new.sks mem).elim fresh.2.2.2.1 (fun is => ne is.symm)
  · rw [content]
  · intro k' holds
    rw [held k' holds, self]
    rfl
  · intro k' holds equal
    rw [held k' holds, attaches.key k, content] at equal
    rw [content]
    by_contra closed
    rw [Bool.not_eq_false, Table.isClosed, self] at closed
    simp only [Bool.and_eq_true, beq_iff_eq, decide_eq_true_eq] at closed
    exact notTwice ⟨ne, keyEq_trans equal (keyEq_symm same), closed.1.1, closed.1.2, closed.2⟩

/-- The state has its key for the wire and takes it for the stack, too. -/
theorem Midway.share (midway : Midway t t' new used) (none : (t'.states new.s).stack = none) :
    Midway t (t'.setKey new.s .stack (t'.states new.s).wire) new used := by
  have states : ∀ x, x ≠ new.s → (t'.setKey new.s .stack (t'.states new.s).wire).states x =
      t'.states x := fun x => setKey_states_of_ne _
  have core : Core (t'.setKey new.s .stack (t'.states new.s).wire) := by
    refine midway.inv.toCore.congr (fun _ _ => rfl) rfl (fun x _ _ => setKey_kif _ x) ?_
    intro x k
    by_cases isS : x = new.s
    · subst isS
      rw [Holds, Holds, setKey_states_self, none]
      simp [StateRec.setKey]
    · rw [Holds, Holds, states x isS]
  refine ⟨?_, midway.notInTree, fun x ne => ?_, fun x ne k held => ?_, midway.account,
    midway.stateList⟩
  · exact midway.inv.of_core core states rfl rfl rfl midway.notInTree
  · rw [states x ne]
    exact midway.other x ne
  · rw [Holds, states x ne] at held
    exact midway.holds x ne k held

/-- The state gives its key for the wire back when it could not get the other one. -/
theorem Midway.giveBack (midway : Midway t t' new used) (none : (t'.states new.s).stack = none) :
    Midway t (t'.keyDetach new.s .wire) new used := by
  have detaches : Detaches t' (t'.keyDetach new.s .wire) new.s :=
    keyDetach_detaches midway.inv.toCore
  refine ⟨?_, ?_, fun x ne => ?_, fun x ne k held => ?_, fun k => ?_, ?_⟩
  · refine midway.inv.keyDetach rfl midway.notInTree ?_
    intro idx' k ne held
    cases idx' with
    | wire => exact absurd rfl ne
    | stack => simp [StateRec.key, none]
  · rw [detaches.treeId]
    exact midway.notInTree
  · rw [detaches.states x ne, detaches.treeId]
    exact midway.other x ne
  · rw [Holds, detaches.states x ne] at held
    exact midway.holds x ne k held
  · exact (detaches.account k).trans (midway.account k)
  · exact detaches.stateList.trans midway.stateList

/-- `pf_state_insert` with one key. -/
theorem insertNew_shared (settled : Settled t) (fresh : Fresh t new) (eq : new.skw = new.sks) :
    ∃ ok t', t.insertNew new = some (ok, t') ∧ Inserted t t' new ok := by
  obtain ⟨ok, t₁, run, attaches, self⟩ := keyAttach_spec (settled.givenWire fresh) new.items.1
  have call : t.insertNew new =
      ((t.prepare new).keyAttach new.skw new.s .wire new.items.1).bind _ := if_pos eq
  rw [run] at call
  have midway : Midway t t₁ new (fun k => if k = new.skw ∨ k = new.sks then 1 else 0) := by
    rw [← eq]
    simpa only [or_self] using Midway.first attaches
  cases ok with
  | false =>
    refine ⟨false, t₁, call, midway.fail ?_⟩
    rw [prepare_states_self] at self
    rw [self]
    exact ⟨rfl, rfl⟩
  | true =>
    obtain ⟨k, -, self⟩ := self
    rw [prepare_states_self] at self
    have shared := midway.share (by rw [self]; rfl)
    refine ⟨_, _, call, shared.end ?_⟩
    rw [setKey_states_self, self]
    exact ⟨rfl, rfl⟩

/-- `pf_state_insert` with two keys. -/
theorem insertNew_separate (settled : Settled t) (fresh : Fresh t new)
    (notTwice : ¬ClosedTwice new) (ne : new.skw ≠ new.sks) :
    ∃ ok t', t.insertNew new = some (ok, t') ∧ Inserted t t' new ok := by
  obtain ⟨ok, t₁, run, attaches, self⟩ := keyAttach_spec (settled.givenWire fresh) new.items.1
  have call : t.insertNew new =
      ((t.prepare new).keyAttach new.skw new.s .wire new.items.1).bind _ := if_neg ne
  rw [run] at call
  cases ok with
  | false =>
    refine ⟨false, _, call, ((Midway.first attaches).freeSecond ne).fail ?_⟩
    rw [prepare_states_self] at self
    rw [Table.freeKey, self]
    exact ⟨rfl, rfl⟩
  | true =>
    obtain ⟨k, same, self⟩ := self
    rw [prepare_keys_skw] at same
    have given := Settled.givenStack fresh notTwice ne attaches same self
    obtain ⟨ok, t₂, run', attaches', self'⟩ := keyAttach_spec given new.items.2
    rw [prepare_states_self] at self
    have content : (t₁.keys new.sks).key = new.stack := by
      rw [attaches.key, prepare_keys_sks ne.symm]
    have midway := Midway.second attaches (by rw [self, prepare_states_self]; exact ⟨rfl, rfl⟩)
      content attaches' ne
    have call' : t.insertNew new = (t₁.keyAttach new.sks new.s .stack new.items.2).bind _ := call
    rw [run'] at call'
    cases ok with
    | false =>
      rw [self] at self'
      have noWire : ((t₂.keyDetach new.s .wire).states new.s).key .wire = none :=
        keyDetach_key_none
      have kept : ((t₂.keyDetach new.s .wire).states new.s).key .stack =
          (t₂.states new.s).key .stack := keyDetach_key_of_ne (by decide)
      have noStack : (t₂.states new.s).stack = none := by
        rw [self']
        rfl
      exact ⟨false, _, call', (midway.giveBack noStack).fail ⟨noWire, kept.trans noStack⟩⟩
    | true =>
      obtain ⟨k', -, self'⟩ := self'
      rw [self] at self'
      refine ⟨_, _, call', midway.end ?_⟩
      rw [self']
      exact ⟨rfl, rfl⟩

/-- `pf_state_insert` returns, unless it is given a closed connection with two equal keys. -/
theorem insertNew_spec (settled : Settled t) (fresh : Fresh t new) (notTwice : ¬ClosedTwice new) :
    ∃ ok t', t.insertNew new = some (ok, t') ∧ Inserted t t' new ok := by
  by_cases eq : new.skw = new.sks
  · exact insertNew_shared settled fresh eq
  · exact insertNew_separate settled fresh notTwice eq

end Insert

/-! ### Any sequence of calls -/

/-- The calls, without closed connections that have two equal keys. -/
def CalledApart (label : Label) (t : Table) : Prop :=
  Called label t ∧ match label with
    | .insert new => ¬ClosedTwice new
    | _ => True

instance (label : Label) (t : Table) : Decidable (CalledApart label t) :=
  match label with
  | .insert _ | .unlink _ | .free _ | .progress .. => by
    dsimp only [CalledApart]
    infer_instance

theorem settled_empty (hostid : Nat) : Settled (empty hostid) where
  nodup := nodup_nil
  unique := fun _ mem => absurd mem not_mem_nil
  nonempty := fun _ mem => absurd mem not_mem_nil
  items := fun _ mem => absurd mem not_mem_nil
  listed := fun _ _ held => absurd held (not_holds_of_detached ⟨rfl, rfl⟩)
  sorted := fun _ mem => absurd mem not_mem_nil
  complete := fun _ mem => absurd mem not_mem_nil
  detached := fun _ _ _ => ⟨rfl, rfl⟩
  idNodup := nodup_nil
  idUnique := fun _ mem => absurd mem not_mem_nil
  inList := fun _ mem => absurd mem not_mem_nil

section Runs

variable {t t' : Table} {hostid : Nat}

theorem Settled.step (settled : Settled t) {label : Label} (called : CalledApart label t)
    (step : next label t = some t') : Settled t' := by
  cases label with
  | insert new =>
    obtain ⟨ok, t₁, run, inserted⟩ := insertNew_spec settled called.1 called.2
    rw [next, run] at step
    exact Option.some.inj step ▸ inserted.settled
  | unlink s =>
    cases step
    have cleared : Settled { t with freed := [] } :=
      Inv.congr settled rfl rfl rfl rfl (fun _ => ⟨rfl, rfl, rfl⟩) (fun _ _ => ⟨rfl, rfl⟩)
    exact (Inv.unlinkState cleared called.1).1
  | free s =>
    cases step
    refine ⟨settled.toCore.congr (fun _ _ => rfl) rfl (fun _ _ _ => rfl) (fun _ _ => .rfl),
      settled.complete, settled.detached, settled.idNodup, settled.idUnique, ?_⟩
    intro x mem
    have ne : x ≠ s := fun is => called.1 (is ▸ mem)
    exact (mem_erase_of_ne ne).mpr (settled.inList x mem)
  | progress s srcState dstState =>
    cases step
    have same : ∀ x, (t.setState s { t.states s with srcState, dstState }).states x =
        { t.states x with
          srcState := ((t.setState s { t.states s with srcState, dstState }).states x).srcState
          dstState :=
            ((t.setState s { t.states s with srcState, dstState }).states x).dstState } := by
      intro x
      by_cases isS : x = s
      · subst isS
        simp [Table.setState]
      · simp [Table.setState, isS]
    refine Inv.congr settled rfl rfl rfl rfl (fun x => ?_) (fun x _ => ?_)
    · rw [same x]
      exact ⟨rfl, rfl, rfl⟩
    · rw [same x]
      exact ⟨rfl, rfl⟩

/-- The result of `pf_state_insert`: a key that it has been given is freed or kept exactly once;
and when it fails, the new state is in no list or tree, and no other state is touched except
for closed connections that it has collided with. -/
structure Result (t t' : Table) (new : NewState) (ok : Bool) : Prop where
  inserted : ok = true → new.s ∈ t'.treeId
  keys : ∀ k ∈ [new.skw, new.sks], t'.freed.count k + t'.statetbl.count k = 1
  nowhere : ok = false → new.s ∉ t'.treeId ∧ new.s ∉ t'.stateList ∧
    ∀ k ∈ t'.statetbl, new.s ∉ (t'.keys k).states
  untouched : ok = false → ∀ x, x ≠ new.s →
    (t'.states x = t.states x ∧ (x ∈ t'.treeId ↔ x ∈ t.treeId)) ∨ ClosedCollision t new x

theorem Inserted.result {ok : Bool} (inserted : Inserted t t' new ok) (fresh : Fresh t new) :
    Result t t' new ok where
  inserted := inserted.succeeded
  keys := by
    intro k mem
    have given : k = new.skw ∨ k = new.sks := by simpa using mem
    have notIn : k ∉ t.statetbl := by
      rcases given with rfl | rfl
      · exact fresh.2.2.1
      · exact fresh.2.2.2.1
    have counted := inserted.account k
    rwa [count_eq_zero_of_not_mem notIn, if_pos given] at counted
  nowhere := by
    intro failed
    obtain ⟨notIn, stateList⟩ := inserted.failed failed
    refine ⟨notIn, ?_, fun k mem among => ?_⟩
    · rw [stateList]
      exact fresh.2.1
    · exact notIn (inserted.settled.consistent.noStale k mem new.s among).1
  untouched := fun _ => inserted.other

theorem settled_of_run (run : Run next CalledApart (empty hostid) t) : Settled t :=
  Run.invariant (fun _ _ _ settled called step => Settled.step settled called step) run
    (settled_empty hostid)

/-- The state table is consistent after any sequence of calls, and so is the result of the next
one. -/
theorem state_table_consistent (run : Run next CalledApart (empty hostid) t) :
    Consistent t ∧ ∀ new, CalledApart (.insert new) t →
      ∃ ok t', t.insertNew new = some (ok, t') ∧ Consistent t' ∧ Result t t' new ok := by
  have settled := settled_of_run run
  refine ⟨settled.consistent, fun new called => ?_⟩
  obtain ⟨ok, t', result, inserted⟩ := insertNew_spec settled called.1 called.2
  exact ⟨ok, t', result, inserted.settled.consistent, inserted.result called.1⟩

end Runs

/-- A key of a connection over TCP. -/
def sampleKey (port : Nat) : SkKey :=
  ⟨ipprotoTcp, .inet, ⟨1, 0, 0, 0⟩, ⟨2, 0, 0, 0⟩, port, 80, 0⟩

/-- A connection that is seen on the wire and on the stack by the ports that are given. -/
def sampleState (s kif state skw sks portWire portStack : Nat) : NewState :=
  ⟨s, kif, .pfIn, state, state, 0, 0, skw, sks, sampleKey portWire, sampleKey portStack,
    (true, true)⟩

/-- A shared key, a floating and a bound state, a closed connection that is replaced, and a call
that fails by its second key. -/
def sampleLabels : List Label :=
  [.insert (sampleState 1 0 4 10 10 5 5), .insert (sampleState 2 3 4 11 12 6 5),
    .progress 1 9 9, .insert (sampleState 3 0 4 13 13 5 5)]

theorem sampleLabels_consistent : ∃ t, Run next CalledApart (empty 7) t ∧ Consistent t ∧
    t.treeId = [3, 2] ∧ (t.keys 10).states = [2, 3] ∧
    ∃ ok t', t.insertNew (sampleState 4 3 4 14 15 7 5) = some (ok, t') ∧ Consistent t' ∧
      Result t t' (sampleState 4 3 4 14 15 7 5) ok := by
  refine exec_implies (Q := fun t => t.treeId = [3, 2] ∧
      (t.keys 10).states = [2, 3] ∧ CalledApart (.insert (sampleState 4 3 4 14 15 7 5)) t)
    sampleLabels (by decide +kernel) ?_
  rintro t run ⟨treeId, states, called⟩
  obtain ⟨consistent, inserts⟩ := state_table_consistent run
  exact ⟨consistent, treeId, states, inserts _ called⟩

/-- A closed connection with two equal keys collides with itself: it is unlinked before it is in
the tree of ids, which loses all of its states. -/
theorem closed_twice_loses_states : ∃ t, Run next Called (empty 7) t ∧ t.treeId = [2] ∧
    (t.states 2).wire = none ∧ (t.keys 10).states = [1] ∧ (t.keys 11).states = [2] ∧
    10 ∈ t.statetbl ∧ ¬Consistent t := by
  refine exec_implies (Q := fun t => t.treeId = [2] ∧ (t.states 2).wire = none ∧
      (t.keys 10).states = [1] ∧ (t.keys 11).states = [2] ∧ 10 ∈ t.statetbl)
    [.insert (sampleState 1 0 4 10 10 5 5),
      .insert { sampleState 2 0 9 11 12 6 6 with id := 5, creatorid := 8 }] (by decide +kernel) ?_
  rintro t run ⟨treeId, wire, first, second, mem⟩
  refine ⟨treeId, wire, first, second, mem, fun consistent => ?_⟩
  have stale := (consistent.noStale 10 mem 1 (by rw [first]; exact mem_cons_self)).1
  rw [treeId] at stale
  simp at stale

end Bitrig.PfState
