import Bitrig.PfState.Table

/-!
# States and their keys

What holds of the trees and lists while a state is being inserted: a state that is not in the
tree of ids yet may have keys already.
-/

namespace Bitrig.PfState

open Bitrig.Transition List

/-- A key of a state. -/
def Holds (t : Table) (x : StatePtr) (k : KeyPtr) : Prop :=
  (t.states x).wire = some k ∨ (t.states x).stack = some k

instance (t : Table) (x : StatePtr) (k : KeyPtr) : Decidable (Holds t x k) := by
  unfold Holds
  infer_instance

/-- Whether an item may stand before another one. -/
def Before (t : Table) (a b : StatePtr) : Prop :=
  (t.states a).kif = pfiAll → (t.states b).kif = pfiAll

/-- The keys in `pf_statetbl` and their items. -/
structure Core (t : Table) : Prop where
  nodup : t.statetbl.Nodup
  unique : ∀ k ∈ t.statetbl, ∀ k' ∈ t.statetbl,
    keyEq (t.keys k).key (t.keys k').key = true → k = k'
  nonempty : ∀ k ∈ t.statetbl, (t.keys k).states ≠ []
  items : ∀ k ∈ t.statetbl, ∀ x, (t.keys k).states.count x = if Holds t x k then 1 else 0
  listed : ∀ x k, Holds t x k → k ∈ t.statetbl
  sorted : ∀ k ∈ t.statetbl, (t.keys k).states.Pairwise (Before t)

/-- The tables, but for states that are about to be inserted or unlinked. -/
structure Inv (t : Table) (pending : StatePtr → Prop) : Prop extends Core t where
  complete : ∀ x ∈ t.treeId, (t.states x).wire.isSome ∧ (t.states x).stack.isSome
  detached : ∀ x, x ∉ t.treeId → ¬pending x →
    (t.states x).wire = none ∧ (t.states x).stack = none
  idNodup : t.treeId.Nodup
  idUnique : ∀ x ∈ t.treeId, ∀ y ∈ t.treeId, t.sameId x y = true → x = y
  inList : ∀ x ∈ t.treeId, x ∈ t.stateList

/-- A call that has a key in its hands adds one to this number when it frees the key and when
it puts it into the tree. -/
def account (t : Table) (k : KeyPtr) : Nat :=
  t.freed.count k + t.statetbl.count k

section Keys

variable {a b c : SkKey}

theorem keyEq_refl (a : SkKey) : keyEq a a = true := by
  cases a with
  | mk proto af addr0 addr1 port0 port1 rdomain => cases af <;> simp [keyEq, addrEq]

theorem keyEq_af (same : keyEq a b = true) : a.af = b.af := by
  simp only [keyEq, Bool.and_eq_true, beq_iff_eq] at same
  tauto

theorem keyEq_symm (same : keyEq a b = true) : keyEq b a = true := by
  have af := keyEq_af same
  simp only [keyEq, Bool.and_eq_true, beq_iff_eq] at same ⊢
  rw [← af]
  cases kind : a.af <;> simp only [kind, addrEq, Bool.and_eq_true, beq_iff_eq] at same ⊢ <;>
    tauto

theorem keyEq_trans (first : keyEq a b = true) (second : keyEq b c = true) : keyEq a c = true := by
  have af := keyEq_af first
  simp only [keyEq, Bool.and_eq_true, beq_iff_eq] at first second ⊢
  rw [← af] at second
  cases kind : a.af <;> simp only [kind, addrEq, Bool.and_eq_true, beq_iff_eq] at first second ⊢ <;>
    simp_all

end Keys

section Changes

variable {t t' : Table} {s x : StatePtr} {k : KeyPtr} {idx : Idx} {pending : StatePtr → Prop}
  {idx' : Idx} {k' : KeyPtr}

theorem holds_iff_key : Holds t x k ↔ ∃ idx, (t.states x).key idx = some k := by
  constructor
  · rintro (wire | stack)
    · exact ⟨.wire, wire⟩
    · exact ⟨.stack, stack⟩
  · rintro ⟨idx, held⟩
    cases idx with
    | wire => exact .inl held
    | stack => exact .inr held

theorem not_holds_of_detached
    (detached : (t.states x).wire = none ∧ (t.states x).stack = none) : ¬Holds t x k := by
  rintro (wire | stack)
  · rw [detached.1] at wire
    cases wire
  · rw [detached.2] at stack
    cases stack

/-- The states whose items a key has are those that have the key. -/
theorem Core.mem_items (core : Core t) (mem : k ∈ t.statetbl) :
    x ∈ (t.keys k).states ↔ Holds t x k := by
  rw [← count_pos_iff, core.items k mem x]
  split
  · simpa
  · simpa

/-- States that are about to be inserted or unlinked are not, when they have no keys. -/
theorem Inv.settle (inv : Inv t (fun y => pending y ∨ y = x))
    (none : (t.states x).wire = none ∧ (t.states x).stack = none) : Inv t pending := by
  refine { inv with detached := fun y outside not => ?_ }
  by_cases same : y = x
  · exact same ▸ none
  · exact inv.detached y outside (not_or.mpr ⟨not, same⟩)

/-- The keys and their items depend on the keys in the tree only, and on the interfaces of the
states that have them. -/
theorem Core.congr (core : Core t) (keys : ∀ k ∈ t.statetbl, t'.keys k = t.keys k)
    (statetbl : t'.statetbl = t.statetbl)
    (kif : ∀ x k, Holds t x k → (t'.states x).kif = (t.states x).kif)
    (holds : ∀ x k, Holds t' x k ↔ Holds t x k) : Core t' := by
  constructor
  · rw [statetbl]
    exact core.nodup
  · rw [statetbl]
    intro k mem k' mem' same
    rw [keys k mem, keys k' mem'] at same
    exact core.unique k mem k' mem' same
  · rw [statetbl]
    intro k mem
    rw [keys k mem]
    exact core.nonempty k mem
  · intro k mem x
    rw [statetbl] at mem
    rw [keys k mem, core.items k mem x]
    simp only [holds]
  · intro x k held
    rw [statetbl]
    exact core.listed x k ((holds x k).mp held)
  · intro k mem
    rw [statetbl] at mem
    rw [keys k mem]
    refine (core.sorted k mem).imp_of_mem ?_
    intro a b aMem bMem before
    rw [Before, kif a k ((core.mem_items mem).mp aMem), kif b k ((core.mem_items mem).mp bMem)]
    exact before

/-- The tables are kept with their keys, when the states in the tree of ids keep their ids and no
others get keys. -/
theorem Inv.of_keys (inv : Inv t pending) (core : Core t') (treeId : t'.treeId = t.treeId)
    (stateList : t'.stateList = t.stateList)
    (keys : ∀ x, x ∈ t.treeId ∨ ¬pending x → (t'.states x).wire = (t.states x).wire ∧
      (t'.states x).stack = (t.states x).stack)
    (ids : ∀ x ∈ t.treeId, (t'.states x).id = (t.states x).id ∧
      (t'.states x).creatorid = (t.states x).creatorid) : Inv t' pending := by
  refine ⟨core, ?_, ?_, ?_, ?_, ?_⟩
  · intro x mem
    rw [treeId] at mem
    rw [(keys x (.inl mem)).1, (keys x (.inl mem)).2]
    exact inv.complete x mem
  · intro x outside not
    rw [treeId] at outside
    rw [(keys x (.inr not)).1, (keys x (.inr not)).2]
    exact inv.detached x outside not
  · rw [treeId]
    exact inv.idNodup
  · intro x xMem y yMem same
    rw [treeId] at xMem yMem
    refine inv.idUnique x xMem y yMem ?_
    rw [Table.sameId, (ids x xMem).1, (ids x xMem).2, (ids y yMem).1, (ids y yMem).2] at same
    exact same
  · intro x mem
    rw [treeId] at mem
    rw [stateList]
    exact inv.inList x mem

/-- What the tables consist of does not depend on the states of the peers, nor on what has been
freed. -/
theorem Inv.congr (inv : Inv t pending) (keys : t'.keys = t.keys)
    (statetbl : t'.statetbl = t.statetbl) (treeId : t'.treeId = t.treeId)
    (stateList : t'.stateList = t.stateList)
    (states : ∀ x, (t'.states x).kif = (t.states x).kif ∧ (t'.states x).wire = (t.states x).wire ∧
      (t'.states x).stack = (t.states x).stack)
    (ids : ∀ x ∈ t.treeId, (t'.states x).id = (t.states x).id ∧
      (t'.states x).creatorid = (t.states x).creatorid) : Inv t' pending := by
  refine inv.of_keys ?_ treeId stateList (fun x _ => (states x).2) ids
  refine inv.toCore.congr (fun k _ => congrFun keys k) statetbl (fun x _ _ => (states x).1)
    (fun x k => ?_)
  rw [Holds, Holds, (states x).2.1, (states x).2.2]

/-! ### Adding and removing items -/

@[simp]
theorem key_setKey_self (r : StateRec) (k : Option KeyPtr) (idx : Idx) :
    (r.setKey k idx).key idx = k := by
  cases idx <;> rfl

theorem key_setKey_of_ne (r : StateRec) (k : Option KeyPtr) (ne : idx' ≠ idx) :
    (r.setKey k idx).key idx' = r.key idx' := by
  cases idx <;> cases idx' <;> first | rfl | exact absurd rfl ne

@[simp]
theorem kif_setKey (r : StateRec) (k : Option KeyPtr) (idx : Idx) :
    (r.setKey k idx).kif = r.kif := by
  cases idx <;> rfl

theorem setKey_states_self (v : Option KeyPtr) :
    (t.setKey s idx v).states s = (t.states s).setKey v idx :=
  Function.update_self ..

theorem setKey_states_of_ne (v : Option KeyPtr) (ne : x ≠ s) :
    (t.setKey s idx v).states x = t.states x :=
  Function.update_of_ne ne ..

theorem setKey_kif (v : Option KeyPtr) (x : StatePtr) :
    ((t.setKey s idx v).states x).kif = (t.states x).kif := by
  by_cases same : x = s
  · rw [same, setKey_states_self, kif_setKey]
  · rw [setKey_states_of_ne v same]

theorem setItems_keys_self (states : List StatePtr) :
    (t.setItems k states).keys k = { t.keys k with states } :=
  Function.update_self ..

theorem setItems_keys_of_ne (states : List StatePtr) (ne : k' ≠ k) :
    (t.setItems k states).keys k' = t.keys k' :=
  Function.update_of_ne ne ..

theorem setItems_key (states : List StatePtr) (k' : KeyPtr) :
    ((t.setItems k states).keys k').key = (t.keys k').key := by
  by_cases same : k' = k
  · rw [same, setItems_keys_self]
  · rw [setItems_keys_of_ne states same]

/-- The keys of the states when a key that was NULL is set. -/
theorem holds_setKey_some (none : (t.states s).key idx = none) :
    Holds (t.setKey s idx (some k)) x k' ↔ Holds t x k' ∨ (x = s ∧ k' = k) := by
  by_cases same : x = s
  · subst same
    rw [holds_iff_key, holds_iff_key, setKey_states_self]
    constructor
    · rintro ⟨idx', held⟩
      by_cases here : idx' = idx
      · subst here
        rw [key_setKey_self] at held
        exact .inr ⟨rfl, (Option.some.inj held).symm⟩
      · rw [key_setKey_of_ne _ _ here] at held
        exact .inl ⟨idx', held⟩
    · rintro (⟨idx', held⟩ | ⟨-, rfl⟩)
      · refine ⟨idx', ?_⟩
        have here : idx' ≠ idx := by
          rintro rfl
          rw [none] at held
          cases held
        rw [key_setKey_of_ne _ _ here]
        exact held
      · exact ⟨idx, key_setKey_self ..⟩
  · rw [Holds, setKey_states_of_ne _ same]
    simp [same, Holds]

/-- The list of a key with one more item. -/
def withItem (t : Table) (s : StatePtr) (states : List StatePtr) : List StatePtr :=
  if (t.states s).kif = pfiAll then states ++ [s] else s :: states

theorem count_withItem (states : List StatePtr) :
    (withItem t s states).count x = states.count x + if x = s then 1 else 0 := by
  unfold withItem
  by_cases same : x = s
  · subst same
    split <;> simp
  · have other : s ≠ x := fun is => same is.symm
    split <;> simp [other]

theorem sorted_withItem {states : List StatePtr} (sorted : states.Pairwise (Before t)) :
    (withItem t s states).Pairwise (Before t) := by
  unfold withItem
  split
  · rename_i floating
    refine pairwise_append.mpr ⟨sorted, pairwise_singleton _ _, ?_⟩
    intro a _ b mem _
    rw [mem_singleton.mp mem]
    exact floating
  · rename_i bound
    exact pairwise_cons.mpr ⟨fun b _ floating => absurd floating bound, sorted⟩

/-- A state with its item in the list of a key. -/
def Table.addTo (t : Table) (s : StatePtr) (idx : Idx) (k : KeyPtr) : Table :=
  (t.setKey s idx (some k)).setItems k (withItem t s (t.keys k).states)

theorem addTo_states_of_ne (ne : x ≠ s) : (t.addTo s idx k).states x = t.states x :=
  setKey_states_of_ne _ ne

theorem addTo_key (k' : KeyPtr) : ((t.addTo s idx k).keys k').key = (t.keys k').key :=
  setItems_key ..

/-- The items of one key are changed, and the states that have it. -/
theorem Core.change (core : Core t) (content : ∀ k', (t'.keys k').key = (t.keys k').key)
    (kif : ∀ x, (t'.states x).kif = (t.states x).kif) (nodup : t'.statetbl.Nodup)
    (unique : ∀ k' ∈ t'.statetbl, ∀ k'' ∈ t'.statetbl,
      keyEq (t.keys k').key (t.keys k'').key = true → k' = k'')
    (others : ∀ k', k' ≠ k → (k' ∈ t'.statetbl ↔ k' ∈ t.statetbl) ∧
      (t'.keys k').states = (t.keys k').states ∧ ∀ x, Holds t' x k' ↔ Holds t x k')
    (listed : ∀ x, Holds t' x k → k ∈ t'.statetbl)
    (items : k ∈ t'.statetbl → (t'.keys k).states ≠ [] ∧ (t'.keys k).states.Pairwise (Before t) ∧
      ∀ x, (t'.keys k).states.count x = if Holds t' x k then 1 else 0) : Core t' := by
  have before : ∀ {a b}, Before t a b → Before t' a b := by
    intro a b is
    rw [Before, kif a, kif b]
    exact is
  refine ⟨nodup, fun k' mem k'' mem' same => ?_, fun k' mem => ?_, fun k' mem x => ?_,
    fun x k' held => ?_, fun k' mem => ?_⟩
  · rw [content, content] at same
    exact unique k' mem k'' mem' same
  all_goals by_cases same : k' = k
  · exact same ▸ (items (same ▸ mem)).1
  · rw [(others k' same).2.1]
    exact core.nonempty k' ((others k' same).1.mp mem)
  · exact same ▸ (items (same ▸ mem)).2.2 x
  · rw [(others k' same).2.1, core.items k' ((others k' same).1.mp mem) x]
    simp only [(others k' same).2.2]
  · exact same ▸ listed x (same ▸ held)
  · exact (others k' same).1.mpr (core.listed x k' (((others k' same).2.2 x).mp held))
  · exact same ▸ (items (same ▸ mem)).2.1.imp before
  · rw [(others k' same).2.1]
    exact (core.sorted k' ((others k' same).1.mp mem)).imp before

/-- A new item in the list of a key of the tree, which may be new. -/
theorem Core.addTo (core : Core t) {tbl : List KeyPtr} (isNull : (t.states s).key idx = none)
    (notHeld : ¬Holds t s k) (mem : ∀ k', k' ∈ tbl ↔ k' ∈ t.statetbl ∨ k' = k) (nodup : tbl.Nodup)
    (unique : ∀ k' ∈ tbl, ∀ k'' ∈ tbl, keyEq (t.keys k').key (t.keys k'').key = true → k' = k'')
    (items : ∀ x, (t.keys k).states.count x = if Holds t x k then 1 else 0)
    (sorted : (t.keys k).states.Pairwise (Before t)) :
    Core ({ t with statetbl := tbl }.addTo s idx k) := by
  have holds : ∀ x k', Holds ({ t with statetbl := tbl }.addTo s idx k) x k' ↔
      Holds t x k' ∨ (x = s ∧ k' = k) := fun x k' => holds_setKey_some isNull
  have self : (({ t with statetbl := tbl }.addTo s idx k).keys k).states =
      withItem t s (t.keys k).states :=
    congrArg KeyRec.states (setItems_keys_self ..)
  refine core.change addTo_key (fun x => setKey_kif (some k) x) nodup unique
    (fun k' ne => ⟨(mem k').trans (or_iff_left ne), ?_, by simp [holds, ne]⟩)
    (fun _ _ => (mem k).mpr (.inr rfl)) fun _ => ⟨?_, ?_, fun x => ?_⟩
  · exact congrArg KeyRec.states (setItems_keys_of_ne _ ne)
  · rw [self]
    intro isNil
    have counted := count_withItem (t := t) (s := s) (x := s) (t.keys k).states
    rw [isNil] at counted
    simp at counted
  · rw [self]
    exact sorted_withItem sorted
  · rw [self, count_withItem, items x]
    by_cases isS : x = s
    · subst isS
      rw [if_neg notHeld, if_pos rfl, if_pos ((holds x k).mpr (.inr ⟨rfl, rfl⟩))]
    · simp [holds, isS]

/-- The key of a state that has it once is taken away. -/
theorem holds_setKey_none (held : (t.states s).key idx = some k)
    (once : ∀ idx', idx' ≠ idx → (t.states s).key idx' ≠ some k) :
    Holds (t.setKey s idx none) x k' ↔ Holds t x k' ∧ ¬(x = s ∧ k' = k) := by
  by_cases same : x = s
  · subst same
    rw [holds_iff_key, holds_iff_key, setKey_states_self]
    constructor
    · rintro ⟨idx', held'⟩
      have other : idx' ≠ idx := by
        rintro rfl
        rw [key_setKey_self] at held'
        cases held'
      rw [key_setKey_of_ne _ _ other] at held'
      refine ⟨⟨idx', held'⟩, ?_⟩
      rintro ⟨-, rfl⟩
      exact once idx' other held'
    · rintro ⟨⟨idx', held'⟩, not⟩
      have other : idx' ≠ idx := by
        rintro rfl
        rw [held] at held'
        exact not ⟨rfl, (Option.some.inj held').symm⟩
      exact ⟨idx', by rw [key_setKey_of_ne _ _ other, held']⟩
  · rw [Holds, setKey_states_of_ne _ same]
    simp [same, Holds]

/-- `pf_state_key_detach` without the end of a key that has no more items. -/
def Table.removeFrom (t : Table) (s : StatePtr) (idx : Idx) (k : KeyPtr) : Table :=
  (t.setItems k ((t.keys k).states.erase s)).setKey s idx none

/-- `pf_state_key_detach`, for a state that has the key once. -/
theorem keyDetach_eq (held : (t.states s).key idx = some k) : t.keyDetach s idx =
      if ((t.keys k).states.erase s).isEmpty then
        { t.removeFrom s idx k with
          statetbl := t.statetbl.erase k
          freed := k :: t.freed }
      else t.removeFrom s idx k := by
  unfold Table.keyDetach
  rw [held]
  dsimp only
  rw [setItems_keys_self]
  split <;> rfl

/-- An item is removed, and its key with it when it was the last one. -/
theorem Core.removeFrom (core : Core t) {tbl freed : List KeyPtr}
    (held : (t.states s).key idx = some k)
    (once : ∀ idx', idx' ≠ idx → (t.states s).key idx' ≠ some k) (nodup : tbl.Nodup)
    (mem : ∀ k', k' ∈ tbl ↔ k' ∈ t.statetbl ∧ (k' = k → (t.keys k).states.erase s ≠ [])) :
    Core { t.removeFrom s idx k with statetbl := tbl, freed } := by
  have inTable : k ∈ t.statetbl := core.listed s k (holds_iff_key.mpr ⟨idx, held⟩)
  have self : ((t.removeFrom s idx k).keys k).states = (t.keys k).states.erase s :=
    congrArg KeyRec.states (setItems_keys_self ..)
  have holds : ∀ x k', Holds { t.removeFrom s idx k with statetbl := tbl, freed } x k' ↔
      Holds t x k' ∧ ¬(x = s ∧ k' = k) := fun x k' => holds_setKey_none held once
  refine core.change (k := k) (fun k' => setItems_key ..) (fun x => setKey_kif none x) nodup
    (fun k' among k'' among' => core.unique k' ((mem k').mp among).1 k'' ((mem k'').mp among').1)
    (fun k' ne => ⟨by simp [mem, ne], ?_, by simp [holds, ne]⟩)
    (fun x stillHeld => ?_) fun among => ⟨?_, ?_, fun x => ?_⟩
  · exact congrArg KeyRec.states (setItems_keys_of_ne _ ne)
  · obtain ⟨wasHeld, not⟩ := (holds x k).mp stillHeld
    refine (mem k).mpr ⟨inTable, fun _ isNil => ?_⟩
    -- another state has the key, so its item is left
    have isOther : x ≠ s := fun is => not ⟨is, rfl⟩
    have left : x ∈ (t.keys k).states.erase s :=
      (mem_erase_of_ne isOther).mpr ((core.mem_items inTable).mpr wasHeld)
    rw [isNil] at left
    cases left
  · rw [self]
    exact ((mem k).mp among).2 rfl
  · rw [self]
    exact (core.sorted k inTable).sublist erase_sublist
  · rw [self]
    by_cases isS : x = s
    · subst isS
      rw [count_erase_self, core.items k inTable x, if_pos (holds_iff_key.mpr ⟨idx, held⟩)]
      simp [holds]
    · rw [count_erase_of_ne isS, core.items k inTable x]
      simp [holds, isS]

theorem Core.keyDetach (core : Core t) (held : (t.states s).key idx = some k)
    (once : ∀ idx', idx' ≠ idx → (t.states s).key idx' ≠ some k) :
    Core (t.keyDetach s idx) := by
  rw [keyDetach_eq held]
  split
  · rename_i empty
    refine core.removeFrom held once (core.nodup.erase k) (fun k' => ?_)
    rw [core.nodup.mem_erase_iff, isEmpty_iff.mp empty]
    tauto
  · rename_i left
    refine Core.removeFrom core held once core.nodup (fun k' => ?_)
    rw [List.isEmpty_iff] at left
    tauto

/-! ### Detaching a state -/

/-- What detaching a state leaves as it is. -/
structure Detaches (t t' : Table) (s : StatePtr) : Prop where
  states : ∀ x, x ≠ s → t'.states x = t.states x
  treeId : t'.treeId = t.treeId
  stateList : t'.stateList = t.stateList
  key : ∀ k, (t'.keys k).key = (t.keys k).key
  account : ∀ k, account t' k = account t k
  statetbl : ∀ k ∈ t'.statetbl, k ∈ t.statetbl
  outside : ∀ k, k ∉ t.statetbl → t'.keys k = t.keys k

theorem Detaches.refl : Detaches t t s :=
  ⟨fun _ _ => rfl, rfl, rfl, fun _ => rfl, fun _ => rfl, fun _ mem => mem, fun _ _ => rfl⟩

theorem Detaches.trans {t'' : Table} (first : Detaches t t' s) (second : Detaches t' t'' s) :
    Detaches t t'' s where
  states x ne := (second.states x ne).trans (first.states x ne)
  treeId := second.treeId.trans first.treeId
  stateList := second.stateList.trans first.stateList
  key k := (second.key k).trans (first.key k)
  account k := (second.account k).trans (first.account k)
  statetbl k mem := first.statetbl k (second.statetbl k mem)
  outside k notIn :=
    (second.outside k (fun mem => notIn (first.statetbl k mem))).trans (first.outside k notIn)

/-- The tables are kept when only a state outside of the tree of ids is changed. -/
theorem Inv.of_core (inv : Inv t pending) (core : Core t')
    (states : ∀ x, x ≠ s → t'.states x = t.states x) (treeId : t'.treeId = t.treeId)
    (stateList : t'.stateList = t.stateList) (isPending : pending s) (outside : s ∉ t.treeId) :
    Inv t' pending := by
  have kept : ∀ x, x ∈ t.treeId ∨ ¬pending x → t'.states x = t.states x := by
    rintro x (mem | not)
    · exact states x (fun is => outside (is ▸ mem))
    · exact states x (fun is => not (is ▸ isPending))
  refine inv.of_keys core treeId stateList (fun x which => ?_) (fun x mem => ?_)
  · rw [kept x which]
    exact ⟨rfl, rfl⟩
  · rw [kept x (.inl mem)]
    exact ⟨rfl, rfl⟩

theorem Inv.of_detaches (inv : Inv t pending) (core : Core t') (detaches : Detaches t t' s)
    (isPending : pending s) (outside : s ∉ t.treeId) : Inv t' pending :=
  inv.of_core core detaches.states detaches.treeId detaches.stateList isPending outside

theorem keyDetach_detaches (core : Core t) : Detaches t (t.keyDetach s idx) s := by
  cases held : (t.states s).key idx with
  | none =>
    unfold Table.keyDetach
    rw [held]
    exact .refl
  | some k =>
    have inTable : k ∈ t.statetbl := core.listed s k (holds_iff_key.mpr ⟨idx, held⟩)
    have outside : ∀ k', k' ∉ t.statetbl → (t.removeFrom s idx k).keys k' = t.keys k' :=
      fun k' notIn => setItems_keys_of_ne _ (fun is => notIn (is ▸ inTable))
    rw [keyDetach_eq held]
    split
    · refine ⟨fun x ne => setKey_states_of_ne _ ne, rfl, rfl, fun k' => setItems_key .., ?_,
        fun k' => mem_of_mem_erase, outside⟩
      intro k'
      change (k :: t.freed).count k' + (t.statetbl.erase k).count k' = _
      by_cases same : k' = k
      · subst same
        have positive : 0 < t.statetbl.count k' := count_pos_iff.mpr inTable
        rw [count_cons_self, count_erase_self, account]
        omega
      · rw [count_cons_of_ne (Ne.symm same), count_erase_of_ne same, account]
    · exact ⟨fun x ne => setKey_states_of_ne _ ne, rfl, rfl, fun k' => setItems_key ..,
        fun k' => rfl, fun k' mem => mem, outside⟩

theorem keyDetach_states_self : (t.keyDetach s idx).states s = (t.states s).setKey none idx := by
  cases held : (t.states s).key idx with
  | none =>
    have same : (t.states s).setKey ((t.states s).key idx) idx = t.states s := by cases idx <;> rfl
    rw [held] at same
    rw [Table.keyDetach, held, same]
  | some k =>
    rw [keyDetach_eq held]
    split <;> exact setKey_states_self ..

theorem keyDetach_key_none : ((t.keyDetach s idx).states s).key idx = none := by
  rw [keyDetach_states_self, key_setKey_self]

theorem keyDetach_key_of_ne (ne : idx' ≠ idx) :
    ((t.keyDetach s idx).states s).key idx' = (t.states s).key idx' := by
  rw [keyDetach_states_self, key_setKey_of_ne _ _ ne]

/-- `pf_state_key_detach`, for a state outside of the tree of ids. -/
theorem Inv.keyDetach (inv : Inv t pending) (isPending : pending s) (outside : s ∉ t.treeId)
    (once : ∀ idx' k, idx' ≠ idx → (t.states s).key idx = some k →
      (t.states s).key idx' ≠ some k) : Inv (t.keyDetach s idx) pending := by
  refine inv.of_detaches ?_ (keyDetach_detaches inv.toCore) isPending outside
  cases held : (t.states s).key idx with
  | none =>
    unfold Table.keyDetach
    rw [held]
    exact inv.toCore
  | some k => exact inv.toCore.keyDetach held (fun idx' ne => once idx' k ne held)

/-- `pf_detach_state`, for a state outside of the tree of ids. -/
theorem Inv.detachState (inv : Inv t pending) (isPending : pending s) (outside : s ∉ t.treeId) :
    Inv (t.detachState s) pending ∧ Detaches t (t.detachState s) s ∧
      ((t.detachState s).states s).wire = none ∧ ((t.detachState s).states s).stack = none := by
  unfold Table.detachState
  -- the first assignment: a key that is held twice is held once then
  obtain ⟨t₁, eq, inv₁, detaches₁, once⟩ : ∃ t₁,
      (if (t.states s).wire = (t.states s).stack then t.setKey s .wire none else t) = t₁ ∧
      Inv t₁ pending ∧ Detaches t t₁ s ∧
      ∀ k, (t₁.states s).stack = some k → (t₁.states s).wire ≠ some k := by
    by_cases same : (t.states s).wire = (t.states s).stack
    · have detaches : Detaches t (t.setKey s .wire none) s :=
        ⟨fun x ne => setKey_states_of_ne _ ne, rfl, rfl, fun _ => rfl, fun _ => rfl,
          fun _ mem => mem, fun _ _ => rfl⟩
      refine ⟨t.setKey s .wire none, if_pos same, ?_, detaches, ?_⟩
      · refine inv.of_detaches ?_ detaches isPending outside
        refine inv.toCore.congr (fun _ _ => rfl) rfl (fun x _ _ => setKey_kif none x)
          (fun x k => ?_)
        by_cases isS : x = s
        · subst isS
          rw [Holds, Holds, setKey_states_self, same]
          simp [StateRec.setKey]
        · rw [Holds, Holds, setKey_states_of_ne _ isS]
      · intro k _ wire
        rw [setKey_states_self] at wire
        cases wire
    · refine ⟨t, if_neg same, inv, .refl, fun k stack wire => same (wire.trans stack.symm)⟩
  rw [eq]
  have outside₁ : s ∉ t₁.treeId := by rwa [detaches₁.treeId]
  have inv₂ : Inv (t₁.keyDetach s .stack) pending := by
    refine inv₁.keyDetach isPending outside₁ ?_
    intro idx' k ne held
    cases idx' with
    | wire => exact once k held
    | stack => exact absurd rfl ne
  have detaches₂ : Detaches t (t₁.keyDetach s .stack) s :=
    detaches₁.trans (keyDetach_detaches inv₁.toCore)
  have noStack : ((t₁.keyDetach s .stack).states s).key .stack = none := keyDetach_key_none
  have inv₃ : Inv ((t₁.keyDetach s .stack).keyDetach s .wire) pending := by
    refine inv₂.keyDetach isPending (by rwa [detaches₂.treeId]) ?_
    intro idx' k ne held
    cases idx' with
    | wire => exact absurd rfl ne
    | stack => simp [noStack]
  have noWire : (((t₁.keyDetach s .stack).keyDetach s .wire).states s).key .wire = none :=
    keyDetach_key_none
  have kept : (((t₁.keyDetach s .stack).keyDetach s .wire).states s).key .stack = _ :=
    keyDetach_key_of_ne (by decide)
  exact ⟨inv₃, detaches₂.trans (keyDetach_detaches inv₂.toCore), noWire, kept.trans noStack⟩

/-- `pf_unlink_state`, for a state in the tree of ids. -/
theorem Inv.unlinkState (inv : Inv t pending) (mem : x ∈ t.treeId) : Inv (t.unlinkState x) pending ∧
      Detaches { t with treeId := t.treeId.erase x } (t.unlinkState x) x ∧
      ((t.unlinkState x).states x).wire = none ∧ ((t.unlinkState x).states x).stack = none := by
  have outside : x ∉ t.treeId.erase x := inv.idNodup.not_mem_erase
  have inv₁ : Inv { t with treeId := t.treeId.erase x } (fun y => pending y ∨ y = x) := by
    have sub : ∀ y ∈ t.treeId.erase x, y ∈ t.treeId := fun y => mem_of_mem_erase
    refine ⟨inv.toCore.congr (fun _ _ => rfl) rfl (fun _ _ _ => rfl) (fun _ _ => .rfl),
      ?_, ?_, ?_, ?_, ?_⟩
    · exact fun y among => inv.complete y (sub y among)
    · intro y notIn not
      obtain ⟨notPending, ne⟩ := not_or.mp not
      exact inv.detached y (fun among => notIn ((mem_erase_of_ne ne).mpr among)) notPending
    · exact inv.idNodup.erase x
    · exact fun y among z among' => inv.idUnique y (sub y among) z (sub z among')
    · exact fun y among => inv.inList y (sub y among)
  rw [Table.unlinkState, Table.removeId, if_pos mem]
  obtain ⟨inv₂, detaches, none⟩ := inv₁.detachState (s := x) (.inr rfl) outside
  exact ⟨inv₂.settle none, detaches, none⟩

end Changes

end Bitrig.PfState
