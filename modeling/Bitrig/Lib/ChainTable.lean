import Mathlib

/-!
# Chained hash tables

A table of `n` chains of key-value pairs and a count of its pairs.  A key is
looked up in the chain that an index function assigns to it.  Insertion
overwrites the value of a key in place or puts a new pair in front of its
chain; removal unlinks the pair of a key.

A table carries two facts: no chain holds a key twice, and the count is the
number of pairs.
-/

namespace Bitrig

open Function List

universe u v

/-- A chained hash table. -/
structure ChainTable (K : Type u) (V : Type v) (n : Nat) where
  chain : Fin n → List (K × V)
  count : Nat
  nodup : ∀ i, ((chain i).map Prod.fst).Nodup
  count_eq : count = ∑ i, (chain i).length

namespace ChainTable

variable {K : Type u} {V : Type v} {n : Nat}

/-- The table without pairs. -/
def empty : ChainTable K V n where
  chain _ := []
  count := 0
  nodup _ := by simp
  count_eq := by simp

/-- The lengths of the chains after a change of one of them. -/
theorem sum_length_update (chain : Fin n → List (K × V)) (i : Fin n) (pairs : List (K × V)) :
    (∑ j, (update chain i pairs j).length) + (chain i).length =
      (∑ j, (chain j).length) + pairs.length := by
  have apply_update : (fun j => (update chain i pairs j).length) =
      update (fun j => (chain j).length) i pairs.length := by
    funext j
    exact apply_update (fun _ pairs => List.length pairs) chain i pairs j
  rw [apply_update, Finset.sum_update_of_mem (Finset.mem_univ i),
    ← Finset.add_sum_erase Finset.univ (fun j => (chain j).length) (Finset.mem_univ i),
    Finset.sdiff_singleton_eq_erase]
  omega

/-- Replace one chain. -/
def setChain (table : ChainTable K V n) (i : Fin n) (pairs : List (K × V)) (count : Nat)
    (nodup : (pairs.map Prod.fst).Nodup)
    (countEq : count + (table.chain i).length = table.count + pairs.length) :
    ChainTable K V n where
  chain := update table.chain i pairs
  count := count
  nodup j := by
    by_cases same : j = i
    · subst j
      simpa using nodup
    · simpa [update_of_ne same] using table.nodup j
  count_eq := by
    have lengths := sum_length_update table.chain i pairs
    have total := table.count_eq
    omega

variable [DecidableEq K]

/-- The value of a key. -/
def get (index : K → Fin n) (table : ChainTable K V n) (key : K) : Option V :=
  ((table.chain (index key)).find? (·.1 = key)).map Prod.snd

/-- Give a key that is in the chain another value. -/
def overwrite (key : K) (value : V) (pair : K × V) : K × V :=
  if pair.1 = key then (key, value) else pair

theorem overwrite_fst (key : K) (value : V) (pair : K × V) :
    (overwrite key value pair).1 = pair.1 := by
  unfold overwrite
  split
  · rename_i same
    exact same.symm
  · rfl

theorem map_overwrite_fst (key : K) (value : V) (pairs : List (K × V)) :
    (pairs.map (overwrite key value)).map Prod.fst = pairs.map Prod.fst := by
  rw [map_map]
  apply map_congr_left
  intro pair _
  exact overwrite_fst key value pair

/-- Insert a pair. -/
def insert (index : K → Fin n) (table : ChainTable K V n) (key : K) (value : V) :
    ChainTable K V n :=
  if present : (table.chain (index key)).any (·.1 = key) = true then
    table.setChain (index key) ((table.chain (index key)).map (overwrite key value)) table.count
      (by rw [map_overwrite_fst]; exact table.nodup _) (by simp)
  else
    table.setChain (index key) ((key, value) :: table.chain (index key)) (table.count + 1)
      (by
        rw [map_cons, nodup_cons]
        constructor
        · rintro member
          rcases mem_map.mp member with ⟨pair, pairMember, same⟩
          exact present (any_eq_true.mpr ⟨pair, pairMember, by simpa using same⟩)
        · exact table.nodup _)
      (by simp only [length_cons]; omega)

/-- Remove the pair of a key. -/
def remove (index : K → Fin n) (table : ChainTable K V n) (key : K) : ChainTable K V n :=
  if present : (table.chain (index key)).any (·.1 = key) = true then
    table.setChain (index key) ((table.chain (index key)).eraseP (·.1 = key)) (table.count - 1)
      (List.Nodup.sublist (List.Sublist.map _ eraseP_sublist) (table.nodup _))
      (by
        rcases any_eq_true.mp present with ⟨pair, member, same⟩
        have positive := length_pos_of_mem member
        have single : (table.chain (index key)).length ≤ table.count := by
          rw [table.count_eq]
          exact Finset.single_le_sum (f := fun j => (table.chain j).length)
            (fun _ _ => Nat.zero_le _) (Finset.mem_univ (index key))
        rw [length_eraseP_of_mem member same]
        omega)
  else table

variable {index : K → Fin n} {table : ChainTable K V n} {i : Fin n} {pairs : List (K × V)}
  {count : Nat} {nodup : (pairs.map Prod.fst).Nodup}
  {countEq : count + (table.chain i).length = table.count + pairs.length} {key other : K}

theorem get_setChain_of_ne (other : index key ≠ i) :
    get index (table.setChain i pairs count nodup countEq) key = get index table key := by
  simp [get, setChain, update_of_ne other]

theorem get_setChain (same : index key = i) :
    get index (table.setChain i pairs count nodup countEq) key =
      (pairs.find? (·.1 = key)).map Prod.snd := by
  subst i
  simp [get, setChain]

theorem find_overwrite {value : V} :
    ((pairs.map (overwrite key value)).find? (·.1 = other)).map Prod.snd =
      ((pairs.find? (·.1 = other)).map Prod.snd).map
        fun old => if other = key then value else old := by
  induction pairs with
  | nil => rfl
  | cons pair pairs ih =>
    rw [map_cons, find?_cons, find?_cons, overwrite_fst]
    by_cases same : pair.1 = other
    · subst same
      simp only [decide_true, Option.map_some, Option.some.injEq, overwrite]
      split <;> rfl
    · simpa only [same, decide_false] using ih

theorem get_insert (key other : K) (value : V) :
    get index (insert index table key value) other =
      if other = key then some value else get index table other := by
  unfold insert
  by_cases chainEq : index other = index key
  · split
    · rename_i present
      rw [get_setChain chainEq, find_overwrite]
      by_cases same : other = key
      · subst same
        rcases any_eq_true.mp present with ⟨pair, member, matched⟩
        have isFound : ((table.chain (index other)).find? (·.1 = other)).isSome :=
          find?_isSome.mpr ⟨pair, member, matched⟩
        rcases Option.isSome_iff_exists.mp isFound with ⟨found, foundEq⟩
        simp [foundEq]
      · simp only [same, if_false, get, chainEq, Option.map_id']
    · rw [get_setChain chainEq, find?_cons]
      by_cases same : other = key
      · simp [same]
      · simp only [same, if_false, get, chainEq, Ne.symm same, decide_false]
  · have apart : other ≠ key := by
      rintro rfl
      exact chainEq rfl
    split <;> exact get_setChain_of_ne chainEq

theorem find_eraseP_of_ne (apart : other ≠ key) (pairs : List (K × V)) :
    (pairs.eraseP (·.1 = key)).find? (·.1 = other) = pairs.find? (·.1 = other) := by
  induction pairs with
  | nil => rfl
  | cons pair pairs ih =>
    by_cases same : pair.1 = key
    · have differs : pair.1 ≠ other := fun equal => apart (equal.symm.trans same)
      rw [eraseP_cons_of_pos (by simpa using same),
        find?_cons_of_neg (by simpa using differs)]
    · rw [eraseP_cons_of_neg (by simpa using same), find?_cons, find?_cons, ih]

theorem find_eraseP_self (nodup : (pairs.map Prod.fst).Nodup) :
    (pairs.eraseP (·.1 = key)).find? (·.1 = key) = none := by
  induction pairs with
  | nil => rfl
  | cons pair pairs ih =>
    rw [map_cons, nodup_cons] at nodup
    by_cases same : pair.1 = key
    · rw [eraseP_cons_of_pos (by simpa using same), find?_eq_none]
      intro other member
      have absent : other.1 ≠ pair.1 := fun equal =>
        nodup.1 (equal ▸ mem_map_of_mem member)
      simpa [← same] using absent
    · simpa [same] using ih nodup.2

theorem get_remove (key other : K) :
    get index (remove index table key) other =
      if other = key then none else get index table other := by
  unfold remove
  split
  · by_cases chainEq : index other = index key
    · rw [get_setChain chainEq]
      by_cases same : other = key
      · subst same
        simp [find_eraseP_self (table.nodup _)]
      · rw [find_eraseP_of_ne same, if_neg same, get, chainEq]
    · have apart : other ≠ key := by
        rintro rfl
        exact chainEq rfl
      rw [get_setChain_of_ne chainEq, if_neg apart]
  · rename_i absent
    by_cases same : other = key
    · subst same
      have notFound : (table.chain (index other)).find? (·.1 = other) = none := by
        rw [find?_eq_none]
        intro pair member matched
        exact absent (any_eq_true.mpr ⟨pair, member, matched⟩)
      simp [get, notFound]
    · rw [if_neg same]

end ChainTable

end Bitrig
