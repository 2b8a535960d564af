import Mathlib

/-!
# Spans with an open end, and lists of them

A span is a nonempty set of consecutive positions from zero on, given by its
first and its last position; the last position `-1` stands for no end.

A list of items that have a key, a label and a span represents a map from keys
and positions to labels, if the items of each key are in increasing order.
Clipping a span out of the items of a key, and inserting an item between the
items before and behind it, keep the order and are the obvious changes of the
map.
-/

namespace Bitrig

open List

universe u v w

/-- A span.  The last position `-1` stands for no end. -/
structure Span where
  first : Int
  last : Int
  valid : 0 ≤ first ∧ (last = -1 ∨ first ≤ last)
  deriving DecidableEq

namespace Span

@[ext]
theorem ext {a b : Span} (first : a.first = b.first) (last : a.last = b.last) : a = b := by
  cases a
  cases b
  cases first
  cases last
  rfl

/-- The span with given ends, if they are ends of a span. -/
def of? (first last : Int) : Option Span :=
  if valid : 0 ≤ first ∧ (last = -1 ∨ first ≤ last) then some ⟨first, last, valid⟩ else none

theorem of?_eq_some {first last : Int} (valid : 0 ≤ first ∧ (last = -1 ∨ first ≤ last)) :
    of? first last = some ⟨first, last, valid⟩ :=
  dif_pos valid

variable (a b c : Span)

/-- The positions of a span. -/
def Covers (x : Int) : Prop :=
  a.first ≤ x ∧ (a.last = -1 ∨ x ≤ a.last)

/-- `a` ends before `b` starts. -/
def Before : Prop :=
  a.last ≠ -1 ∧ a.last < b.first

/-- `a` and `b` share a position. -/
def Overlaps : Prop :=
  ¬a.Before b ∧ ¬b.Before a

instance (x : Int) : Decidable (a.Covers x) :=
  inferInstanceAs (Decidable (_ ∧ _))

instance : Decidable (a.Before b) :=
  inferInstanceAs (Decidable (_ ∧ _))

instance : Decidable (a.Overlaps b) :=
  inferInstanceAs (Decidable (_ ∧ _))

variable {a b c}

/-- One span ends before the other exactly if its positions are smaller. -/
theorem before_iff : a.Before b ↔ ∀ x y, a.Covers x → b.Covers y → x < y := by
  have validA := a.valid
  have validB := b.valid
  unfold Before Covers
  constructor
  · intro before x y inA inB
    omega
  · intro smaller
    by_cases endless : a.last = -1
    · have far := smaller (max a.first b.first) b.first (by omega) (by omega)
      omega
    · have ends := smaller a.last b.first (by omega) (by omega)
      omega

theorem overlaps_iff : a.Overlaps b ↔ ∃ x, a.Covers x ∧ b.Covers x := by
  have validA := a.valid
  have validB := b.valid
  unfold Overlaps Before Covers
  constructor
  · intro meet
    exact ⟨max a.first b.first, by omega, by omega⟩
  · rintro ⟨x, inA, inB⟩
    omega

theorem Overlaps.symm (meet : a.Overlaps b) : b.Overlaps a :=
  ⟨meet.2, meet.1⟩

theorem Before.trans (first : a.Before b) (second : b.Before c) : a.Before c := by
  have valid := b.valid
  unfold Before at first second ⊢
  omega

theorem Before.not_covers (before : a.Before b) {x : Int} (inA : a.Covers x) : ¬b.Covers x := by
  intro inB
  exact lt_irrefl x (before_iff.mp before x x inA inB)

end Span

/-- How a span that shares positions with another one lies to it. -/
inductive Overlap
  /-- They are the same. -/
  | equal
  /-- It has all positions of the other one and more. -/
  | contains
  /-- The other one has all positions of it and more. -/
  | contained
  /-- It starts before the other one and ends inside it. -/
  | startsBefore
  /-- It starts inside the other one and ends after it. -/
  | endsAfter
  deriving DecidableEq

/-- The case of `a` against `b`. -/
def Overlap.Fits (a b : Span) : Overlap → Prop
  | .equal => a = b
  | .contains => a ≠ b ∧ a.first ≤ b.first ∧ (a.last = -1 ∨ b.last ≠ -1 ∧ b.last ≤ a.last)
  | .contained => a ≠ b ∧ b.first ≤ a.first ∧ (b.last = -1 ∨ a.last ≠ -1 ∧ a.last ≤ b.last)
  | .startsBefore =>
    a.first < b.first ∧ b.first ≤ a.last ∧ (b.last = -1 ∨ a.last < b.last)
  | .endsAfter =>
    b.first < a.first ∧ b.last ≠ -1 ∧ a.first ≤ b.last ∧ (a.last = -1 ∨ b.last < a.last)

theorem Overlap.Fits.overlaps {a b : Span} {overlap : Overlap} (fits : overlap.Fits a b) :
    a.Overlaps b := by
  have validA := a.valid
  have validB := b.valid
  unfold Span.Overlaps Span.Before
  cases overlap with
  | equal =>
    cases fits
    omega
  | contains | contained =>
    rcases fits with ⟨_, ends⟩
    omega
  | startsBefore | endsAfter =>
    unfold Overlap.Fits at fits
    omega

/-! ## Lists of keyed spans -/

namespace SpanList

variable {α : Type u} {κ : Type v} {ℓ : Type w}

/-- How items carry a key, a label and a span. -/
structure Reading (α : Type u) (κ : Type v) (ℓ : Type w) where
  key : α → κ
  label : α → ℓ
  span : α → Span

variable (r : Reading α κ ℓ)

/-- The items of each key are in increasing order. -/
def Ordered (items : List α) : Prop :=
  items.Pairwise fun a b => r.key a = r.key b → (r.span a).Before (r.span b)

/-- An item gives a label to a position for a key. -/
def Gives (items : List α) (k : κ) (x : Int) (label : ℓ) : Prop :=
  ∃ item ∈ items, r.key item = k ∧ (r.span item).Covers x ∧ r.label item = label

/-- The label of a position for a key. -/
def labelAt [DecidableEq κ] (items : List α) (k : κ) (x : Int) : Option ℓ :=
  (items.find? fun item => r.key item = k ∧ (r.span item).Covers x).map r.label

variable {r} {x : Int} {item : α} {front back : List α}

/-- A position has at most one item of a key. -/
theorem Ordered.unique {items : List α} (ordered : Ordered r items) {a b : α} (memberA : a ∈ items)
    (memberB : b ∈ items) (sameKey : r.key a = r.key b) (inA : (r.span a).Covers x)
    (inB : (r.span b).Covers x) : a = b := by
  induction items with
  | nil => cases memberA
  | cons item items ih =>
    rcases pairwise_cons.mp ordered with ⟨first, rest⟩
    rcases mem_cons.mp memberA with rfl | laterA
    · rcases mem_cons.mp memberB with rfl | laterB
      · rfl
      · exact absurd inB ((first b laterB sameKey).not_covers inA)
    · rcases mem_cons.mp memberB with rfl | laterB
      · exact absurd inA ((first a laterA sameKey.symm).not_covers inB)
      · exact ih rest laterA laterB

theorem labelAt_eq_some_iff [DecidableEq κ] {items : List α} (ordered : Ordered r items) {k : κ}
    {label : ℓ} : labelAt r items k x = some label ↔ Gives r items k x label := by
  unfold labelAt Gives
  constructor
  · intro found
    rcases Option.map_eq_some_iff.mp found with ⟨item, isFound, isLabel⟩
    have facts := find?_some isFound
    simp only [decide_eq_true_eq] at facts
    exact ⟨item, mem_of_find?_eq_some isFound, facts.1, facts.2, isLabel⟩
  · rintro ⟨item, member, isKey, covers, isLabel⟩
    have isSome : (items.find? fun item => r.key item = k ∧ (r.span item).Covers x).isSome :=
      find?_isSome.mpr ⟨item, member, by simp [isKey, covers]⟩
    rcases Option.isSome_iff_exists.mp isSome with ⟨other, isFound⟩
    have facts := find?_some isFound
    simp only [decide_eq_true_eq] at facts
    have same : other = item :=
      ordered.unique (mem_of_find?_eq_some isFound) member (facts.1.trans isKey.symm) facts.2
        covers
    rw [isFound, same, Option.map_some, isLabel]

/-- Two ordered lists that give the same labels represent the same map. -/
theorem labelAt_eq [DecidableEq κ] {items : List α} (ordered : Ordered r items)
    {map : κ → Int → Option ℓ}
    (same : ∀ k x label, Gives r items k x label ↔ map k x = some label) :
    labelAt r items = map := by
  funext k x
  apply Option.ext
  intro label
  rw [labelAt_eq_some_iff ordered]
  exact same k x label

/-! ### Clipping -/

/-- What is left of an item when a span is clipped out of the items of a key. -/
structure Pieces (r : Reading α κ ℓ) (k : κ) (hole : Span) (item : α) (pieces : List α) :
    Prop where
  key : ∀ piece ∈ pieces, r.key piece = r.key item
  label : ∀ piece ∈ pieces, r.label piece = r.label item
  covers : ∀ x, (∃ piece ∈ pieces, (r.span piece).Covers x) ↔
    (r.span item).Covers x ∧ ¬(r.key item = k ∧ hole.Covers x)
  ordered : pieces.Pairwise fun a b => (r.span a).Before (r.span b)

/-- Every item is replaced by what is left of it. -/
inductive Clipped (r : Reading α κ ℓ) (k : κ) (hole : Span) : List α → List α → Prop
  | nil : Clipped r k hole [] []
  | cons {item : α} {items pieces left : List α} (here : Pieces r k hole item pieces)
      (later : Clipped r k hole items left) : Clipped r k hole (item :: items) (pieces ++ left)

variable {k : κ} {hole : Span} {items left : List α}

theorem Pieces.refl (apart : r.key item = k → ¬(r.span item).Overlaps hole) :
    Pieces r k hole item [item] where
  key := by simp
  label := by simp
  covers x := by
    simp only [mem_singleton, exists_eq_left]
    constructor
    · intro covers
      refine ⟨covers, ?_⟩
      rintro ⟨isKey, inHole⟩
      exact apart isKey (Span.overlaps_iff.mpr ⟨x, covers, inHole⟩)
    · exact And.left
  ordered := pairwise_singleton _ _

theorem Clipped.append {frontLeft backLeft : List α} (first : Clipped r k hole front frontLeft)
    (second : Clipped r k hole back backLeft) :
    Clipped r k hole (front ++ back) (frontLeft ++ backLeft) := by
  induction first with
  | nil => exact second
  | cons here _ ih =>
    rw [append_assoc]
    exact .cons here ih

/-- Nothing is clipped out of items that do not overlap the hole. -/
theorem Clipped.refl (apart : ∀ item ∈ items, r.key item = k → ¬(r.span item).Overlaps hole) :
    Clipped r k hole items items := by
  induction items with
  | nil => exact .nil
  | cons item items ih =>
    refine Clipped.cons (Pieces.refl (apart item (by simp))) (ih ?_)
    intro other member
    exact apart other (by simp [member])

section

variable (clipped : Clipped r k hole items left)
include clipped

theorem Clipped.mem {piece : α} (member : piece ∈ left) :
    ∃ item ∈ items, r.key piece = r.key item ∧ r.label piece = r.label item ∧
      ∀ x, (r.span piece).Covers x →
        (r.span item).Covers x ∧ ¬(r.key item = k ∧ hole.Covers x) := by
  induction clipped with
  | nil => cases member
  | @cons item items pieces left here _ ih =>
    rcases mem_append.mp member with isHere | isLater
    · refine ⟨item, by simp, here.key _ isHere, here.label _ isHere, ?_⟩
      intro x covers
      exact (here.covers x).mp ⟨piece, isHere, covers⟩
    · rcases ih isLater with ⟨origin, originMember, facts⟩
      exact ⟨origin, by simp [originMember], facts⟩

theorem Clipped.ordered (ordered : Ordered r items) : Ordered r left := by
  induction clipped with
  | nil => exact List.Pairwise.nil
  | @cons item items pieces left here later ih =>
    rcases pairwise_cons.mp ordered with ⟨first, rest⟩
    have inside : Ordered r pieces := by
      apply here.ordered.imp
      intro a b before _
      exact before
    refine pairwise_append.mpr ⟨inside, ih rest, ?_⟩
    intro piece member other otherMember sameKey
    rcases later.mem otherMember with ⟨origin, originMember, originKey, _, originCovers⟩
    have before := first origin originMember
      ((here.key piece member).symm.trans (sameKey.trans originKey))
    rw [Span.before_iff] at before ⊢
    intro x y coversX coversY
    exact before x y ((here.covers x).mp ⟨piece, member, coversX⟩).1 (originCovers y coversY).1

theorem Clipped.gives (other : κ) (x : Int) (label : ℓ) :
    Gives r left other x label ↔ Gives r items other x label ∧ ¬(other = k ∧ hole.Covers x) := by
  constructor
  · rintro ⟨piece, member, isKey, covers, isLabel⟩
    rcases clipped.mem member with ⟨item, itemMember, itemKey, itemLabel, itemCovers⟩
    have facts := itemCovers x covers
    rw [← itemKey, isKey] at facts
    exact ⟨⟨item, itemMember, itemKey.symm.trans isKey, facts.1, itemLabel.symm.trans isLabel⟩,
      facts.2⟩
  · rintro ⟨⟨item, member, isKey, covers, isLabel⟩, outside⟩
    induction clipped with
    | nil => cases member
    | cons here _ ih =>
      rcases mem_cons.mp member with rfl | later
      · rcases (here.covers x).mpr ⟨covers, by rwa [isKey]⟩ with ⟨piece, pieceMember, pieceCovers⟩
        exact ⟨piece, by simp [pieceMember], (here.key piece pieceMember).trans isKey, pieceCovers,
          (here.label piece pieceMember).trans isLabel⟩
      · rcases ih later with ⟨piece, pieceMember, facts⟩
        exact ⟨piece, by simp [pieceMember], facts⟩

end

/-! ### Inserting -/

theorem Ordered.insert (ordered : Ordered r (front ++ back))
    (behind : ∀ other ∈ front, r.key other = r.key item → (r.span other).Before (r.span item))
    (ahead : ∀ other ∈ back, r.key other = r.key item → (r.span item).Before (r.span other)) :
    Ordered r (front ++ item :: back) := by
  rcases pairwise_append.mp ordered with ⟨frontOrdered, backOrdered, across⟩
  refine pairwise_append.mpr ⟨frontOrdered, pairwise_cons.mpr ⟨?_, backOrdered⟩, ?_⟩
  · intro other member sameKey
    exact ahead other member sameKey.symm
  · intro other member next nextMember sameKey
    rcases mem_cons.mp nextMember with rfl | later
    · exact behind other member sameKey
    · exact across other member next later sameKey

theorem gives_insert (other : κ) (x : Int) (label : ℓ) :
    Gives r (front ++ item :: back) other x label ↔
      (r.key item = other ∧ (r.span item).Covers x ∧ r.label item = label) ∨
        Gives r (front ++ back) other x label := by
  unfold Gives
  simp only [mem_append, mem_cons]
  constructor
  · rintro ⟨found, isFront | rfl | isBack, facts⟩
    · exact .inr ⟨found, .inl isFront, facts⟩
    · exact .inl facts
    · exact .inr ⟨found, .inr isBack, facts⟩
  · rintro (facts | ⟨found, isFront | isBack, facts⟩)
    · exact ⟨item, .inr (.inl rfl), facts⟩
    · exact ⟨found, .inl isFront, facts⟩
    · exact ⟨found, .inr (.inr isBack), facts⟩

/-! ### Changing what is not read -/

section Map

variable {f : α → α} {items : List α}

theorem Ordered.map (ordered : Ordered r items) (key : ∀ item, r.key (f item) = r.key item)
    (span : ∀ item, r.span (f item) = r.span item) : Ordered r (items.map f) := by
  apply pairwise_map.mpr
  simp only [key, span]
  exact ordered

theorem gives_map (key : ∀ item, r.key (f item) = r.key item)
    (span : ∀ item, r.span (f item) = r.span item)
    (label : ∀ item, r.label (f item) = r.label item) (k : κ) (x : Int) (l : ℓ) :
    Gives r (items.map f) k x l ↔ Gives r items k x l := by
  unfold Gives
  simp only [mem_map, exists_exists_and_eq_and, key, span, label]

end Map

end SpanList

end Bitrig
