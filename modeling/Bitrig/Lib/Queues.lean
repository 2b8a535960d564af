import Mathlib.Data.List.Nodup

/-!
# Families of queues

Intrusive queues: an element has one pair of links, so it is on one queue of a family at a
time, and is taken off without saying which one it is on.  A family is a list for each index;
it is proper if no element is on it twice.
-/

namespace Bitrig.Queues

open Function

universe u v

variable {ι : Type u} {τ : Type v} [DecidableEq ι]

/-- Insert an element at the tail of a queue. -/
def insert (q : ι → List τ) (i : ι) (t : τ) : ι → List τ :=
  update q i (q i ++ [t])

/-- Move all elements of a queue to the tail of another one. -/
def append (q : ι → List τ) (i j : ι) : ι → List τ :=
  update (update q i (q i ++ q j)) j []

/-- Take an element off its queue. -/
def remove [DecidableEq τ] (q : ι → List τ) (t : τ) : ι → List τ :=
  fun i => (q i).erase t

/-- The element is on one of the queues. -/
def Queued (q : ι → List τ) (t : τ) : Prop :=
  ∃ i, t ∈ q i

/-- No element is on the queues twice. -/
structure Proper (q : ι → List τ) : Prop where
  nodup : ∀ i, (q i).Nodup
  unique : ∀ {i j t}, t ∈ q i → t ∈ q j → i = j

variable {q : ι → List τ} {i j k : ι} {t t' : τ}

theorem mem_insert : t' ∈ insert q i t j ↔ t' ∈ q j ∨ j = i ∧ t' = t := by
  unfold insert
  by_cases here : j = i
  · subst here
    simp
  · simp [here]

theorem queued_insert : Queued (insert q i t) t' ↔ Queued q t' ∨ t' = t := by
  simp only [Queued, mem_insert]
  constructor
  · rintro ⟨j, member | ⟨_, rfl⟩⟩
    · exact .inl ⟨j, member⟩
    · exact .inr rfl
  · rintro (⟨j, member⟩ | rfl)
    · exact ⟨j, .inl member⟩
    · exact ⟨i, .inr ⟨rfl, rfl⟩⟩

theorem mem_append (ne : i ≠ j) : t ∈ append q i j k ↔ k ≠ j ∧ (t ∈ q k ∨ k = i ∧ t ∈ q j) := by
  unfold append
  by_cases emptied : k = j
  · subst emptied
    simp
  · by_cases extended : k = i
    · subst extended
      simp [ne]
    · simp [emptied, extended]

theorem queued_append (ne : i ≠ j) : Queued (append q i j) t ↔ Queued q t := by
  simp only [Queued, mem_append ne]
  constructor
  · rintro ⟨k, _, member | ⟨_, member⟩⟩
    · exact ⟨k, member⟩
    · exact ⟨j, member⟩
  · rintro ⟨k, member⟩
    by_cases moved : k = j
    · subst moved
      exact ⟨i, ne, .inr ⟨rfl, member⟩⟩
    · exact ⟨k, moved, .inl member⟩

/-- An element that is not queued yet is inserted. -/
theorem Proper.insert (proper : Proper q) (fresh : ¬Queued q t) : Proper (insert q i t) where
  nodup j := by
    unfold Queues.insert
    by_cases here : j = i
    · subst here
      rw [update_self]
      refine List.nodup_append.mpr ⟨proper.nodup j, List.nodup_singleton t, ?_⟩
      rintro a member b single rfl
      rw [List.mem_singleton.mp single] at member
      exact fresh ⟨j, member⟩
    · rw [update_of_ne here]
      exact proper.nodup j
  unique := by
    intro a b t' first second
    rw [mem_insert] at first second
    rcases first with first | ⟨rfl, rfl⟩
    · rcases second with second | ⟨rfl, rfl⟩
      · exact proper.unique first second
      · exact absurd ⟨a, first⟩ fresh
    · rcases second with second | ⟨rfl, _⟩
      · exact absurd ⟨b, second⟩ fresh
      · rfl

theorem Proper.append (proper : Proper q) (ne : i ≠ j) : Proper (append q i j) where
  nodup k := by
    unfold Queues.append
    by_cases emptied : k = j
    · subst emptied
      simp
    · rw [update_of_ne emptied]
      by_cases extended : k = i
      · subst extended
        rw [update_self]
        refine List.nodup_append.mpr ⟨proper.nodup k, proper.nodup j, ?_⟩
        rintro a first b second rfl
        exact ne (proper.unique first second)
      · rw [update_of_ne extended]
        exact proper.nodup k
  unique := by
    intro a b t first second
    rw [mem_append ne] at first second
    obtain ⟨firstLeft, first | ⟨rfl, first⟩⟩ := first
    · obtain ⟨_, second | ⟨rfl, second⟩⟩ := second
      · exact proper.unique first second
      · exact absurd (proper.unique first second) firstLeft
    · obtain ⟨secondLeft, second | ⟨rfl, _⟩⟩ := second
      · exact absurd (proper.unique second first) secondLeft
      · rfl

section Remove

variable [DecidableEq τ]

omit [DecidableEq ι] in
theorem mem_remove (proper : Proper q) : t' ∈ remove q t j ↔ t' ≠ t ∧ t' ∈ q j :=
  (proper.nodup j).mem_erase_iff

omit [DecidableEq ι] in
theorem queued_remove (proper : Proper q) : Queued (remove q t) t' ↔ t' ≠ t ∧ Queued q t' := by
  simp only [Queued, mem_remove proper, exists_and_left]

omit [DecidableEq ι] in
theorem Proper.remove (proper : Proper q) (t : τ) : Proper (remove q t) where
  nodup i := (proper.nodup i).erase t
  unique first second :=
    proper.unique ((mem_remove proper).mp first).2 ((mem_remove proper).mp second).2

end Remove

end Bitrig.Queues
