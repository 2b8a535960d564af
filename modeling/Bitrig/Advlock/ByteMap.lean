import Bitrig.Advlock.Changes

/-!
# The lock list as a map of bytes

What the locks of a file mean is a map that gives a lock type, or none, to every
owner and byte.  The list represents it as long as the locks of each owner are in
increasing order.  Adding a lock and clearing a range keep the order and change
the map on exactly the bytes of the range, for exactly one owner.
-/

namespace Bitrig.Advlock

open Bitrig.SpanList

variable {ι : Type}

/-- Which lock type an owner holds on a byte. -/
abbrev ByteMap (ι : Type) :=
  ι → Int → Option LfType

namespace ByteMap

variable [DecidableEq ι]

/-- The owner gets a type on the bytes of a range. -/
def set (map : ByteMap ι) (id : ι) (range : Span) (type : LfType) : ByteMap ι :=
  fun owner x => if owner = id ∧ range.Covers x then some type else map owner x

/-- The owner gives up the bytes of a range. -/
def clear (map : ByteMap ι) (id : ι) (range : Span) : ByteMap ι :=
  fun owner x => if owner = id ∧ range.Covers x then none else map owner x

end ByteMap

/-- The map that a list represents. -/
abbrev heldBy [DecidableEq ι] (locks : List (Lockf ι)) : ByteMap ι :=
  labelAt (reading ι) locks

/-- An owner holds a type on a byte. -/
abbrev Holds (locks : List (Lockf ι)) : ι → Int → LfType → Prop :=
  Gives (reading ι) locks

variable {lock : Lockf ι} {locks locks' : List (Lockf ι)} {heap heap' : Heap ι}
  {block left : List (Lockf ι)} {lock' : Lockf ι}

/-! ## Clearing -/

section

variable (cleared : Cleared lock locks heap locks' heap')
include cleared

theorem Cleared.sorted (sorted : Sorted locks) : Sorted locks' :=
  cleared.without.ordered sorted

theorem Cleared.holds (owner : ι) (x : Int) (type : LfType) : Holds locks' owner x type ↔
      Holds locks owner x type ∧ ¬(owner = lock.lfId ∧ lock.range.Covers x) :=
  cleared.without.gives owner x type

theorem Cleared.heldBy [DecidableEq ι] (sorted : Sorted locks) :
    heldBy locks' = (heldBy locks).clear lock.lfId lock.range := by
  apply labelAt_eq (cleared.sorted sorted)
  intro owner x type
  refine (cleared.holds owner x type).trans ?_
  rw [Holds, ByteMap.clear, ← labelAt_eq_some_iff sorted]
  split
  · rename_i inside
    simp [inside]
  · rename_i outside
    simp [outside]

end

/-! ## Adding -/

theorem Passed.same (passed : Passed lock block heap lock' left heap') :
    lock'.lfId = lock.lfId ∧ lock'.range = lock.range ∧ lock'.lfType = lock.lfType ∧
      lock'.addr = lock.addr ∧ lock'.lfFlags = lock.lfFlags := by
  induction passed with
  | done _ | cut _ _ _ _ => exact ⟨rfl, rfl, rfl, rfl, rfl⟩
  | @replace lock overlap lock' _ _ _ heap _ _ _ _ _ ih =>
    have same := replaceOverlap_fst lock overlap heap
    rw [same.1, same.2.1, same.2.2.1, same.2.2.2.1, same.2.2.2.2] at ih
    exact ih

theorem Passed.without (passed : Passed lock block heap lock' left heap') :
    Without lock.lfId lock.range block left ∧
      ∀ lf ∈ left, lf.lfId = lock.lfId → lock.range.Before lf.range := by
  have skips : ∀ {lock : Lockf ι} {skipped : List (Lockf ι)},
      (∀ lf ∈ skipped, lf.lfId ≠ lock.lfId) → Without lock.lfId lock.range skipped skipped := by
    intro lock skipped others
    apply Clipped.refl
    intro lf member same
    exact absurd same (others lf member)
  induction passed with
  | done ahead => exact ⟨without_of_ahead ahead, ahead⟩
  | @cut lock overlap piece skipped tail _ _ others isCut behind ahead =>
    refine ⟨(skips others).append (.cons isCut.pieces (without_of_ahead ahead)), ?_⟩
    intro lf member isOwn
    rcases List.mem_append.mp member with isSkipped | isRest
    · exact absurd isOwn (others lf isSkipped)
    · rcases List.mem_cons.mp isRest with rfl | isTail
      · exact behind
      · exact ahead lf isTail isOwn
  | @replace lock overlap lock' skipped tail left heap _ others own fits more ih =>
    have same := replaceOverlap_fst lock overlap heap
    rw [same.1, same.2.1] at ih
    refine ⟨(skips others).append (.cons (pieces_nil own (.inr fits)) ih.1), ?_⟩
    intro lf member isOwn
    rcases List.mem_append.mp member with isSkipped | isLeft
    · exact absurd isOwn (others lf isSkipped)
    · exact ih.2 lf isLeft isOwn

/-- A lock of the added kind stands between what is left of the locks of the
owner. -/
structure Inserted (lock : Lockf ι) (locks locks' : List (Lockf ι)) (front back : List (Lockf ι))
    (item : Lockf ι) : Prop where
  without : Without lock.lfId lock.range locks (front ++ back)
  result : locks' = front ++ item :: back
  id : item.lfId = lock.lfId
  range : item.range = lock.range
  type : item.lfType = lock.lfType
  behind : ∀ lf ∈ front, lf.lfId = lock.lfId → lf.range.Before lock.range
  ahead : ∀ lf ∈ back, lf.lfId = lock.lfId → lock.range.Before lf.range

section

variable (added : Added lock locks heap locks' heap')
include added

/-- Adding inserts, unless the owner has the type on the whole range already. -/
theorem Added.inserted : (∃ front back item, Inserted lock locks locks' front back item) ∨
      locks' = locks ∧ ∃ overlap ∈ locks, overlap.lfId = lock.lfId ∧
        Overlap.contains.Fits overlap.range lock.range ∧ overlap.lfType = lock.lfType := by
  have behindOf : ∀ {skipped pieces : List (Lockf ι)},
      (∀ lf ∈ skipped, lf.lfId = lock.lfId → lf.range.Before lock.range) →
        (∀ piece ∈ pieces, piece.range.Before lock.range) →
          ∀ lf ∈ skipped ++ pieces, lf.lfId = lock.lfId → lf.range.Before lock.range := by
    intro skipped pieces before isBefore lf member isOwn
    rcases List.mem_append.mp member with isSkipped | isPiece
    · exact before lf isSkipped isOwn
    · exact isBefore lf isPiece
  cases added with
  | link before ahead =>
    exact .inl ⟨_, _, lock, (without_of_before before).append (without_of_ahead ahead), rfl, rfl,
      rfl, rfl, before, ahead⟩
  | @retype skipped tail overlap _ before own same ahead =>
    refine .inl ⟨skipped, tail, _, (without_of_before before).append
        (.cons (pieces_nil own (.inl same)) (without_of_ahead ahead)), rfl, ?_, ?_, rfl, before,
      ahead⟩
    · split
      · exact own
      · exact own
    · split
      · exact same
      · exact same
  | keep member own fits sameType => exact .inr ⟨rfl, _, member, own, fits, sameType⟩
  | @cut skipped tail front back overlap _ _ beforeSkipped isCut isBefore isBehind ahead =>
    refine .inl ⟨skipped ++ front, back ++ tail, lock, ?_, rfl, rfl, rfl, rfl,
      behindOf beforeSkipped isBefore, ?_⟩
    · have clipped : Without lock.lfId lock.range (skipped ++ overlap :: tail)
          (skipped ++ ((front ++ back) ++ tail)) :=
        (without_of_before beforeSkipped).append (.cons isCut.pieces (without_of_ahead ahead))
      simpa using clipped
    · intro lf member isOwn
      rcases List.mem_append.mp member with isPiece | isTail
      · exact isBehind lf isPiece
      · exact ahead lf isTail isOwn
  | @replace skipped tail left overlap lock' _ _ before own fits passed =>
    have same := replaceOverlap_fst lock overlap heap
    have facts := passed.without
    have sameLock := passed.same
    rw [same.1, same.2.1] at facts
    rw [same.1, same.2.1, same.2.2.1] at sameLock
    exact .inl ⟨skipped, left, lock',
      (without_of_before before).append (.cons (pieces_nil own (.inr fits)) facts.1), rfl,
      sameLock.1, sameLock.2.1, sameLock.2.2.1, before, facts.2⟩
  | @follow skipped tail left overlap piece lock' _ _ _ before isCut isBefore passed =>
    have facts := passed.without
    have sameLock := passed.same
    refine .inl ⟨skipped ++ [piece], left, lock', ?_, rfl, sameLock.1, sameLock.2.1,
      sameLock.2.2.1, behindOf before (by simpa using isBefore), facts.2⟩
    have clipped : Without lock.lfId lock.range (skipped ++ overlap :: tail)
        (skipped ++ ([piece] ++ left)) :=
      (without_of_before before).append (.cons isCut.pieces facts.1)
    simpa using clipped

theorem Added.sorted (sorted : Sorted locks) : Sorted locks' := by
  rcases added.inserted with ⟨front, back, item, inserted⟩ | ⟨same, _⟩
  · rw [inserted.result]
    apply Ordered.insert (inserted.without.ordered sorted)
    · intro lf member sameKey
      have before := inserted.behind lf member (sameKey.trans inserted.id)
      rwa [← inserted.range] at before
    · intro lf member sameKey
      have before := inserted.ahead lf member (sameKey.trans inserted.id)
      rwa [← inserted.range] at before
  · rwa [same]

theorem Added.holds (sorted : Sorted locks) (owner : ι) (x : Int) (type : LfType) :
    Holds locks' owner x type ↔ (owner = lock.lfId ∧ lock.range.Covers x) ∧ type = lock.lfType ∨
        ¬(owner = lock.lfId ∧ lock.range.Covers x) ∧ Holds locks owner x type := by
  rcases added.inserted with
    ⟨front, back, item, inserted⟩ | ⟨same, overlap, member, own, fits, isType⟩
  · rw [inserted.result, Holds, gives_insert, inserted.without.gives]
    simp only [reading, inserted.id, inserted.range, inserted.type]
    constructor
    · rintro (⟨rfl, covers, rfl⟩ | ⟨holds, outside⟩)
      · exact .inl ⟨⟨rfl, covers⟩, rfl⟩
      · exact .inr ⟨outside, holds⟩
    · rintro (⟨⟨rfl, covers⟩, rfl⟩ | ⟨outside, holds⟩)
      · exact .inl ⟨rfl, covers, rfl⟩
      · exact .inr ⟨holds, outside⟩
  · rw [same]
    by_cases inside : owner = lock.lfId ∧ lock.range.Covers x
    · have covers : overlap.range.Covers x := by
        have contains := fits.2
        have inLock := inside.2
        unfold Span.Covers at inLock ⊢
        omega
      have here : Holds locks owner x lock.lfType :=
        ⟨overlap, member, own.trans inside.1.symm, covers, isType⟩
      simp only [inside, and_self, true_and, not_true_eq_false, false_and, or_false]
      constructor
      · rintro ⟨other, otherMember, isOwner, otherCovers, rfl⟩
        have equal : other = overlap :=
          sorted.unique otherMember member (isOwner.trans own.symm) otherCovers covers
        rw [equal]
        exact isType
      · rintro rfl
        rwa [inside.1] at here
    · simp [inside]

theorem Added.heldBy [DecidableEq ι] (sorted : Sorted locks) :
    heldBy locks' = (heldBy locks).set lock.lfId lock.range lock.lfType := by
  apply labelAt_eq (added.sorted sorted)
  intro owner x type
  refine (added.holds sorted owner x type).trans ?_
  rw [Holds, ByteMap.set, ← labelAt_eq_some_iff sorted]
  split
  · rename_i inside
    simp [inside, eq_comm]
  · rename_i outside
    simp [outside]

end

end Bitrig.Advlock
