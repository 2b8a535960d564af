import Mathlib.Data.List.Nodup

/-!
# Lists of keyed items

Unordered lists of items with distinct keys, from which an item is removed by
putting the last one in its place.  Such a list in which no item has the value
that stands for absence represents a map; it is determined by the map up to the
order of its items.
-/

namespace Bitrig.KeyedList

open List

universe u v w

variable {α : Type u} {κ : Type v} {key : α → κ} {items : List α} {k : κ}

/-- Remove the item at a position; the last item takes its place. -/
def swapRemove (items : List α) (i : Nat) : List α :=
  match items.getLast? with
  | none => []
  | some last => (items.set i last).dropLast

theorem swapRemove_middle (front rest : List α) (item last : α) :
    swapRemove (front ++ item :: rest.concat last) front.length = front ++ last :: rest := by
  have whole : front ++ item :: rest.concat last = (front ++ item :: rest) ++ [last] := by
    simp
  have isSet : ((front ++ item :: rest) ++ [last]).set front.length last =
      (front ++ last :: rest) ++ [last] := by
    simp
  rw [whole, swapRemove, getLast?_concat]
  simp only [isSet, dropLast_concat]

theorem perm_swapRemove (front back : List α) (item : α) :
    (front ++ item :: back).Perm (item :: swapRemove (front ++ item :: back) front.length) := by
  rcases eq_nil_or_concat back with rfl | ⟨rest, last, rfl⟩
  · have removed : swapRemove (front ++ [item]) front.length = front := by
      simp [swapRemove]
    rw [removed]
    exact perm_append_singleton item front
  · rw [swapRemove_middle]
    refine perm_middle.trans (List.Perm.cons item ?_)
    rw [concat_eq_append]
    rw [← append_assoc]
    exact (perm_append_singleton last (front ++ rest)).trans perm_middle.symm

/-- The items in front of the removed one stay where they are. -/
theorem swapRemove_split (front back : List α) (item : α) :
    front ++ (swapRemove (front ++ item :: back) front.length).drop front.length =
      swapRemove (front ++ item :: back) front.length := by
  rcases eq_nil_or_concat back with rfl | ⟨rest, last, rfl⟩
  · simp [swapRemove]
  · rw [swapRemove_middle, drop_left]

/-- The item of a key is found by any search for it. -/
theorem find?_eq_some_iff [DecidableEq κ] (nodup : (items.map key).Nodup) {item : α} :
    items.find? (key · = k) = some item ↔ item ∈ items ∧ key item = k := by
  constructor
  · intro found
    have isKey := find?_some found
    exact ⟨mem_of_find?_eq_some found, of_decide_eq_true isKey⟩
  · rintro ⟨member, rfl⟩
    have isSome : (items.find? (key · = key item)).isSome :=
      find?_isSome.mpr ⟨item, member, by simp⟩
    rcases Option.isSome_iff_exists.mp isSome with ⟨other, found⟩
    have isKey := find?_some found
    have same := inj_on_of_nodup_map nodup (mem_of_find?_eq_some found) member
      (of_decide_eq_true isKey)
    rw [found, same]

theorem find?_eq_none_iff [DecidableEq κ] : items.find? (key · = k) = none ↔ k ∉ items.map key := by
  simp

section Maps

variable {β : Type w} [DecidableEq κ] (key : α → κ) (val : α → β) (absent : β)

/-- The value at a key. -/
def lookup (items : List α) (k : κ) : β :=
  ((items.find? (key · = k)).map val).getD absent

/-- The list holds each key at most once, and only keys that are present. -/
structure Sparse (items : List α) : Prop where
  nodup : (items.map key).Nodup
  present : ∀ item ∈ items, val item ≠ absent

theorem lookup_cons (item : α) (items : List α) (k : κ) : lookup key val absent (item :: items) k =
      if key item = k then val item else lookup key val absent items k := by
  by_cases isKey : key item = k <;> simp [lookup, isKey]

variable {key val absent} {items : List α}

theorem lookup_of_notMem {k : κ} (notMem : k ∉ items.map key) :
    lookup key val absent items k = absent := by
  rw [lookup, find?_eq_none_iff.mpr notMem]
  rfl

theorem lookup_of_mem (nodup : (items.map key).Nodup) {item : α} (member : item ∈ items) :
    lookup key val absent items (key item) = val item := by
  rw [lookup, (find?_eq_some_iff nodup).mpr ⟨member, rfl⟩]
  rfl

theorem lookup_perm {others : List α} (perm : items.Perm others) (nodup : (items.map key).Nodup)
    (k : κ) : lookup key val absent items k = lookup key val absent others k := by
  by_cases member : k ∈ items.map key
  · rcases mem_map.mp member with ⟨item, itemMem, rfl⟩
    rw [lookup_of_mem nodup itemMem,
      lookup_of_mem ((perm.map key).nodup_iff.mp nodup) (perm.mem_iff.mp itemMem)]
  · rw [lookup_of_notMem member,
      lookup_of_notMem (fun mem => member ((perm.map key).mem_iff.mpr mem))]

namespace Sparse

variable {items others : List α} {item : α}

omit [DecidableEq κ] in
theorem perm (sparse : Sparse key val absent items) (same : items.Perm others) :
    Sparse key val absent others where
  nodup := (same.map key).nodup_iff.mp sparse.nodup
  present item member := sparse.present item (same.mem_iff.mpr member)

omit [DecidableEq κ] in
theorem tail (sparse : Sparse key val absent (item :: items)) : Sparse key val absent items where
  nodup := (nodup_cons.mp sparse.nodup).2
  present other member := sparse.present other (mem_cons_of_mem _ member)

omit [DecidableEq κ] in
theorem cons (sparse : Sparse key val absent items) (new : key item ∉ items.map key)
    (isPresent : val item ≠ absent) : Sparse key val absent (item :: items) where
  nodup := nodup_cons.mpr ⟨new, sparse.nodup⟩
  present other member := by
    rcases mem_cons.mp member with rfl | member
    · exact isPresent
    · exact sparse.present other member

theorem mem_iff_lookup (sparse : Sparse key val absent items) {k : κ} :
    k ∈ items.map key ↔ lookup key val absent items k ≠ absent := by
  constructor
  · intro member
    rcases mem_map.mp member with ⟨item, itemMem, rfl⟩
    rw [lookup_of_mem sparse.nodup itemMem]
    exact sparse.present item itemMem
  · intro isPresent
    by_contra notMem
    exact isPresent (lookup_of_notMem notMem)

/-- A list that represents a map is determined by it up to order. -/
theorem perm_of_lookup (sparse : Sparse key val absent items)
    (otherSparse : Sparse key val absent others)
    (determined : ∀ a b : α, key a = key b → val a = val b → a = b)
    (same : ∀ k, lookup key val absent items k = lookup key val absent others k) :
    items.Perm others := by
  have contained : ∀ {xs ys : List α}, Sparse key val absent xs → Sparse key val absent ys →
      (∀ k, lookup key val absent xs k = lookup key val absent ys k) → ∀ a ∈ xs, a ∈ ys := by
    intro xs ys xsSparse ysSparse equal a member
    have isPresent : lookup key val absent ys (key a) ≠ absent := by
      rw [← equal, lookup_of_mem xsSparse.nodup member]
      exact xsSparse.present a member
    rcases mem_map.mp (ysSparse.mem_iff_lookup.mpr isPresent) with ⟨b, bMem, sameKey⟩
    have sameVal : val b = val a :=
      calc
        val b = lookup key val absent ys (key a) := by
          rw [← sameKey, lookup_of_mem ysSparse.nodup bMem]
        _ = lookup key val absent xs (key a) := (equal (key a)).symm
        _ = val a := lookup_of_mem xsSparse.nodup member
    rwa [← determined b a sameKey sameVal]
  refine (perm_ext_iff_of_nodup sparse.nodup.of_map otherSparse.nodup.of_map).mpr fun a => ?_
  exact ⟨contained sparse otherSparse same a,
    contained otherSparse sparse (fun k => (same k).symm) a⟩

end Sparse

end Maps

end Bitrig.KeyedList
