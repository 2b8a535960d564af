/-!
# Partial results under a map

Two computations run side by side.  Where the first one is defined, the second one
is defined, too, and its result is the image of the first one.
-/

namespace Bitrig

universe u v

variable {α α' : Type u} {β β' : Type v} {f : α → α'} {g : β → β'}

/-- Where `x` is defined, `y` is its image. -/
def Maps (f : α → α') (x : Option α) (y : Option α') : Prop :=
  ∀ a, x = some a → y = some (f a)

namespace Maps

theorem none {y : Option α'} : Maps f none y :=
  nofun

theorem some {a : α} {b : α'} (same : b = f a) : Maps f (some a) (some b) := by
  rintro _ ⟨⟩
  rw [same]

theorem of_eq {x : Option α} {y : Option α'} (same : y = x.map f) : Maps f x y := by
  rintro a rfl
  exact same

theorem bind {x : Option α} {y : Option α'} {rest : α → Option β} {rest' : α' → Option β'}
    (first : Maps f x y) (second : ∀ a, x = Option.some a → Maps g (rest a) (rest' (f a))) :
    Maps g (x.bind rest) (y.bind rest') := by
  intro b isSome
  obtain ⟨a, isA, isB⟩ := Option.bind_eq_some_iff.mp isSome
  rw [first a isA]
  exact second a isA b isB

theorem ite {condition : Prop} [Decidable condition] {x x' : Option α} {y y' : Option α'}
    (holds : condition → Maps f x y) (fails : ¬condition → Maps f x' y') :
    Maps f (if condition then x else x') (if condition then y else y') := by
  by_cases test : condition
  · rw [if_pos test, if_pos test]
    exact holds test
  · rw [if_neg test, if_neg test]
    exact fails test

end Maps

end Bitrig
