import Mathlib

/-!
# Regions of an extent

The loops of `subr_extent.c` over the sorted list of allocated regions of an extent:
`extent_insert_and_optimize`, the search of `extent_alloc_region` for the place of a new
region, and the search of `extent_free` for the region to be freed or cut.  Addresses are
`u_long`, here of 64 bits, and all computations on them wrap.
-/

namespace Bitrig.SubrExtent

open List

/-- `u_long`. -/
abbrev ULong :=
  BitVec 64

/-- An allocated region (`struct extent_region`).  `erAlloc` is the flag `ER_ALLOC` of its
descriptor. -/
structure Region where
  erStart : ULong
  erEnd : ULong
  erAlloc : Bool
  deriving DecidableEq

/-- The fixed part of a `struct extent`. -/
structure Extent where
  exStart : ULong
  exEnd : ULong
  exfFixed : Bool
  exfNocoalesce : Bool
  valid : exStart ≤ exEnd

/-- The last address of a range. -/
def rangeEnd (start size : ULong) : ULong :=
  start + (size - 1)

/-- A region list, and the descriptors that are not needed any more. -/
structure Surgery where
  regions : List Region
  freed : List Bool
  deriving DecidableEq

/-- `extent_insert_and_optimize`, with the regions up to `after`, last one first, and the
others.  The descriptor of the new region is given by its flag. -/
def insertAndOptimize (ex : Extent) (start size : ULong) (rp : Bool)
    (passed rest : List Region) : Surgery :=
  let new : Region := ⟨start, rangeEnd start size, rp⟩
  match passed with
  | [] =>
    match rest with
    | [] => ⟨[new], []⟩
    | first :: more =>
      if ex.exfNocoalesce = false ∧ start + size = first.erStart then
        ⟨{ first with erStart := start } :: more, [rp]⟩
      else ⟨new :: first :: more, []⟩
  | after :: before =>
    if ex.exfNocoalesce = true then ⟨before.reverse ++ after :: new :: rest, []⟩
    else
      let appended := after.erEnd + 1 == start
      let after' := if appended then { after with erEnd := rangeEnd start size } else after
      match rest with
      | [] =>
        if appended then ⟨before.reverse ++ [after'], [rp]⟩
        else ⟨before.reverse ++ [after, new], []⟩
      | next :: more =>
        if start + size = next.erStart then
          if appended then
            ⟨before.reverse ++ { after' with erEnd := next.erEnd } :: more,
              [next.erAlloc, rp]⟩
          else ⟨before.reverse ++ after :: { next with erStart := start } :: more, [rp]⟩
        else if appended then ⟨before.reverse ++ after' :: next :: more, [rp]⟩
        else ⟨before.reverse ++ after :: new :: next :: more, []⟩

/-- The loop of `extent_alloc_region`, with the regions it has passed, last one first.
There is no result at a conflict. -/
def findPlace (start end_ : ULong) (passed : List Region) :
    List Region → Option (List Region × List Region)
  | [] => some (passed, [])
  | rp :: rest =>
    if end_ < rp.erStart then some (passed, rp :: rest)
    else if start ≤ rp.erEnd then none
    else findPlace start end_ (rp :: passed) rest

/-- The loop of `extent_free`, with the descriptor `nrp` for a region that is split in two,
given by its flag.  There is no result at its panic. -/
def freeLoop (ex : Extent) (start end_ : ULong) (nrp : Option Bool) :
    List Region → Option Surgery
  | [] => none
  | rp :: rest =>
    let next := (freeLoop ex start end_ nrp rest).map fun later =>
      { later with regions := rp :: later.regions }
    if rp.erEnd < start then next
    else if end_ < rp.erStart then none
    else if start = rp.erStart ∧ end_ = rp.erEnd then
      some ⟨rest, rp.erAlloc :: nrp.toList⟩
    else if ex.exfNocoalesce = true then next
    else if start = rp.erStart ∧ end_ < rp.erEnd then
      some ⟨{ rp with erStart := end_ + 1 } :: rest, nrp.toList⟩
    else if rp.erStart < start ∧ end_ = rp.erEnd then
      some ⟨{ rp with erEnd := start - 1 } :: rest, nrp.toList⟩
    else if rp.erStart < start ∧ end_ < rp.erEnd then
      -- only an extent that does not coalesce comes here without a descriptor
      nrp.map fun d =>
        ⟨{ rp with erEnd := start - 1 } :: ⟨end_ + 1, rp.erEnd, d⟩ :: rest, []⟩
    else next

/-! ### Sets of addresses -/

namespace Region

/-- The addresses of a region. -/
def Covers (r : Region) (x : Nat) : Prop :=
  r.erStart.toNat ≤ x ∧ x ≤ r.erEnd.toNat

instance (r : Region) (x : Nat) : Decidable (r.Covers x) :=
  inferInstanceAs (Decidable (_ ∧ _))

end Region

/-- The allocated addresses. -/
def Allocated (regions : List Region) (x : Nat) : Prop :=
  ∃ r ∈ regions, r.Covers x

instance (regions : List Region) (x : Nat) : Decidable (Allocated regions x) :=
  inferInstanceAs (Decidable (∃ r ∈ regions, _))

/-- The addresses between two regions at least: one when regions that touch are merged. -/
def Extent.gap (ex : Extent) : Nat :=
  if ex.exfNocoalesce then 0 else 1

/-- A region comes before another one, and is not to be merged with it. -/
def Extent.Before (ex : Extent) (r r' : Region) : Prop :=
  r.erEnd.toNat + ex.gap < r'.erStart.toNat

/-- A region that lies in the extent. -/
def Extent.Within (ex : Extent) (r : Region) : Prop :=
  ex.exStart ≤ r.erStart ∧ r.erStart ≤ r.erEnd ∧ r.erEnd ≤ ex.exEnd

/-- The region list is sorted, its regions are disjoint, lie in the extent and are merged
where they touch, unless the extent does not coalesce. -/
structure RegionsOk (ex : Extent) (regions : List Region) : Prop where
  within : ∀ r ∈ regions, ex.Within r
  sorted : regions.Pairwise ex.Before

section Sets

variable {ex : Extent} {front old back : List Region} {x : Nat} {r : Region}

@[simp]
theorem allocated_append :
    Allocated (front ++ back) x ↔ Allocated front x ∨ Allocated back x := by
  simp [Allocated, or_and_right, exists_or]

@[simp]
theorem allocated_cons : Allocated (r :: back) x ↔ r.Covers x ∨ Allocated back x := by
  simp [Allocated]

@[simp]
theorem allocated_nil : ¬Allocated [] x := by
  simp [Allocated]

/-- A region takes the place of some others. -/
theorem RegionsOk.replace (ok : RegionsOk ex (front ++ old ++ back)) (within : ex.Within r)
    (below : ∀ a ∈ front, ex.Before a r) (above : ∀ b ∈ back, ex.Before r b) :
    RegionsOk ex (front ++ r :: back) where
  within other member := by
    rcases mem_append.mp member with inFront | inBack
    · exact ok.within other (mem_append_left _ (mem_append_left _ inFront))
    · rcases mem_cons.mp inBack with rfl | inBack
      · exact within
      · exact ok.within other (mem_append_right _ inBack)
  sorted := by
    obtain ⟨firsts, backs, across⟩ := pairwise_append.mp ok.sorted
    obtain ⟨fronts, _, _⟩ := pairwise_append.mp firsts
    refine pairwise_append.mpr ⟨fronts, pairwise_cons.mpr ⟨above, backs⟩, ?_⟩
    intro a inFront b inBack
    rcases mem_cons.mp inBack with rfl | inBack
    · exact below a inFront
    · exact across a (mem_append_left _ inFront) b inBack

end Sets

/-! ### Inserting a region -/

/-- The place of a new region in the list, between the regions that the loop of
`extent_alloc_region` passed and the others. -/
structure Fits (ex : Extent) (start end_ : ULong) (passed rest : List Region) : Prop where
  ok : RegionsOk ex (passed.reverse ++ rest)
  within : ex.exStart ≤ start ∧ start ≤ end_ ∧ end_ ≤ ex.exEnd
  below : ∀ r ∈ passed, r.erEnd < start
  above : ∀ r ∈ rest, end_ < r.erStart

/-- The addresses from `start` to `end_`, and no others, are added to a region list. -/
structure Adds (ex : Extent) (start end_ : ULong) (old new : List Region) : Prop where
  ok : RegionsOk ex new
  allocated : ∀ x, Allocated new x ↔
    Allocated old x ∨ start.toNat ≤ x ∧ x ≤ end_.toNat

/-- The new addresses make one region with those of the regions that it replaces. -/
theorem Adds.of_replace {ex : Extent} {start end_ : ULong} {front old back : List Region}
    {r : Region} (ok : RegionsOk ex (front ++ old ++ back)) (within : ex.Within r)
    (below : ∀ a ∈ front, ex.Before a r) (above : ∀ b ∈ back, ex.Before r b)
    (covers : ∀ x, r.Covers x ↔ Allocated old x ∨ start.toNat ≤ x ∧ x ≤ end_.toNat) :
    Adds ex start end_ (front ++ old ++ back) (front ++ r :: back) where
  ok := ok.replace within below above
  allocated x := by
    simp only [allocated_append, allocated_cons, covers]
    tauto

section Insert

variable {ex : Extent} {start size end_ : ULong} {rp : Bool} {after next : Region}
  {passed rest before more : List Region} {regions : List Region}

theorem rangeEnd_succ (start size : ULong) : start + size = rangeEnd start size + 1 := by
  unfold rangeEnd
  bv_omega

theorem reverse_append_cons (after : Region) (before rest : List Region) :
    before.reverse ++ after :: rest = (after :: before).reverse ++ rest := by
  simp

/-- The wrapping successor is the true one below another address. -/
theorem succ_eq_iff {a b : ULong} (less : a < b) : a + 1 = b ↔ a.toNat + 1 = b.toNat := by
  bv_omega

theorem gap_eq_zero (nocoalesce : ex.exfNocoalesce = true) : ex.gap = 0 := by
  simp [Extent.gap, nocoalesce]

theorem gap_eq_one (coalesce : ex.exfNocoalesce = false) : ex.gap = 1 := by
  simp [Extent.gap, coalesce]

/-- The regions before the last one that was passed stay apart from it. -/
theorem Fits.before_after (fits : Fits ex start end_ (after :: before) rest) :
    ∀ a ∈ before.reverse, ex.Before a after := by
  intro a member
  have sorted := (pairwise_append.mp fits.ok.sorted).1
  rw [reverse_cons] at sorted
  exact (pairwise_append.mp sorted).2.2 a member after (mem_singleton_self after)

/-- The regions behind the next one stay apart from it. -/
theorem Fits.next_before (fits : Fits ex start end_ passed (next :: more)) :
    ∀ b ∈ more, ex.Before next b :=
  (pairwise_cons.mp (pairwise_append.mp fits.ok.sorted).2.1).1

section

variable (fits : Fits ex start end_ passed rest)
include fits

/-- No region that was passed is to be merged with the new one if the last is not. -/
theorem Fits.before_new (apart : ∀ after ∈ passed.head?, after.erEnd.toNat + ex.gap < start.toNat) :
    ∀ a ∈ passed.reverse, a.erEnd.toNat + ex.gap < start.toNat := by
  intro a member
  cases passed with
  | nil => cases member
  | cons after before =>
    have last := apart after rfl
    rcases mem_cons.mp (mem_reverse.mp member) with rfl | earlier
    · exact last
    · have ordered := fits.before_after a (mem_reverse.mpr earlier)
      have valid := (fits.ok.within after (by simp)).2.1
      unfold Extent.Before at ordered
      rw [BitVec.le_def] at valid
      omega

/-- No later region is to be merged with the new one if the next is not. -/
theorem Fits.new_before (apart : ∀ next ∈ rest.head?, end_.toNat + ex.gap < next.erStart.toNat) :
    ∀ b ∈ rest, end_.toNat + ex.gap < b.erStart.toNat := by
  intro b member
  cases rest with
  | nil => cases member
  | cons next more =>
    have first := apart next rfl
    rcases mem_cons.mp member with rfl | later
    · exact first
    · have ordered := fits.next_before b later
      have valid := (fits.ok.within next (by simp)).2.1
      unfold Extent.Before at ordered
      rw [BitVec.le_def] at valid
      omega

/-- The new region becomes one of its own. -/
theorem Fits.put (below : ∀ after ∈ passed.head?, after.erEnd.toNat + ex.gap < start.toNat)
    (above : ∀ next ∈ rest.head?, end_.toNat + ex.gap < next.erStart.toNat) :
    Adds ex start end_ (passed.reverse ++ rest) (passed.reverse ++ ⟨start, end_, rp⟩ :: rest) := by
  have ok : RegionsOk ex (passed.reverse ++ [] ++ rest) := by
    rw [append_nil]
    exact fits.ok
  have adds : Adds ex start end_ _ (passed.reverse ++ ⟨start, end_, rp⟩ :: rest) :=
    Adds.of_replace ok fits.within (fits.before_new below) (fits.new_before above)
      (by simp [Region.Covers])
  rw [append_nil] at adds
  exact adds

end

/-- The new region is appended to the one before it. -/
theorem Fits.append (fits : Fits ex start end_ (after :: before) rest)
    (appended : after.erEnd.toNat + 1 = start.toNat)
    (above : ∀ next ∈ rest.head?, end_.toNat + ex.gap < next.erStart.toNat) :
    Adds ex start end_ ((after :: before).reverse ++ rest)
      (before.reverse ++ { after with erEnd := end_ } :: rest) := by
  have within := fits.within
  have old := fits.ok.within after (by simp)
  simp only [Extent.Within, BitVec.le_def] at within old
  rw [reverse_cons]
  apply Adds.of_replace
  · rw [← reverse_cons]
    exact fits.ok
  · simp only [Extent.Within, BitVec.le_def]
    omega
  · exact fits.before_after
  · exact fits.new_before above
  · intro x
    simp only [Region.Covers, allocated_cons, allocated_nil, or_false]
    omega

/-- The new region is put before the next one. -/
theorem Fits.prepend (fits : Fits ex start end_ passed (next :: more))
    (touches : end_.toNat + 1 = next.erStart.toNat)
    (below : ∀ after ∈ passed.head?, after.erEnd.toNat + ex.gap < start.toNat) :
    Adds ex start end_ (passed.reverse ++ next :: more)
      (passed.reverse ++ { next with erStart := start } :: more) := by
  have within := fits.within
  have old := fits.ok.within next (by simp)
  have shape : passed.reverse ++ next :: more = passed.reverse ++ [next] ++ more := by simp
  simp only [Extent.Within, BitVec.le_def] at within old
  rw [shape]
  apply Adds.of_replace
  · rw [← shape]
    exact fits.ok
  · simp only [Extent.Within, BitVec.le_def]
    omega
  · exact fits.before_new below
  · exact fits.next_before
  · intro x
    simp only [Region.Covers, allocated_cons, allocated_nil, or_false]
    omega

/-- The new region closes the gap between two regions. -/
theorem Fits.join (fits : Fits ex start end_ (after :: before) (next :: more))
    (appended : after.erEnd.toNat + 1 = start.toNat)
    (touches : end_.toNat + 1 = next.erStart.toNat) :
    Adds ex start end_ ((after :: before).reverse ++ next :: more)
      (before.reverse ++ { after with erEnd := next.erEnd } :: more) := by
  have within := fits.within
  have first := fits.ok.within after (by simp)
  have second := fits.ok.within next (by simp)
  have shape : (after :: before).reverse ++ next :: more =
      before.reverse ++ [after, next] ++ more := by simp
  simp only [Extent.Within, BitVec.le_def] at within first second
  rw [shape]
  apply Adds.of_replace
  · rw [← shape]
    exact fits.ok
  · simp only [Extent.Within, BitVec.le_def]
    omega
  · exact fits.before_after
  · exact fits.next_before
  · intro x
    simp only [Region.Covers, allocated_cons, allocated_nil, or_false]
    omega

/-- A region that does not touch the one passed last is not merged with it. -/
theorem Fits.apart_last (fits : Fits ex start end_ (after :: before) rest)
    (apart : ex.exfNocoalesce = true ∨ after.erEnd + 1 ≠ start) :
    ∀ last ∈ (after :: before).head?, last.erEnd.toNat + ex.gap < start.toNat := by
  rintro last ⟨⟩
  have below := fits.below after (by simp)
  rw [BitVec.lt_def] at below
  rcases apart with nocoalesce | apart
  · rw [gap_eq_zero nocoalesce]
    exact below
  · rw [Ne, succ_eq_iff (fits.below after (by simp))] at apart
    have : ex.gap ≤ 1 := by unfold Extent.gap; split <;> omega
    omega

/-- A region that does not touch the next one is not merged with it. -/
theorem Fits.apart_next (fits : Fits ex start end_ passed (next :: more))
    (apart : ex.exfNocoalesce = true ∨ end_ + 1 ≠ next.erStart) :
    ∀ first ∈ (next :: more).head?, end_.toNat + ex.gap < first.erStart.toNat := by
  rintro first ⟨⟩
  have above := fits.above next (by simp)
  rw [BitVec.lt_def] at above
  rcases apart with nocoalesce | apart
  · rw [gap_eq_zero nocoalesce]
    exact above
  · rw [Ne, succ_eq_iff (fits.above next (by simp))] at apart
    have : ex.gap ≤ 1 := by unfold Extent.gap; split <;> omega
    omega

theorem insertAndOptimize_adds (fits : Fits ex start (rangeEnd start size) passed rest)
    (rp : Bool) :
    Adds ex start (rangeEnd start size) (passed.reverse ++ rest)
      (insertAndOptimize ex start size rp passed rest).regions := by
  cases passed with
  | nil =>
    cases rest with
    | nil => exact fits.put (by simp) (by simp)
    | cons first more =>
      unfold insertAndOptimize
      dsimp only
      rw [rangeEnd_succ start size]
      split
      case isTrue touch =>
        exact fits.prepend ((succ_eq_iff (fits.above first (by simp))).mp touch.2) (by simp)
      case isFalse apart =>
        apply fits.put (by simp) (fits.apart_next _)
        grind
  | cons after before =>
    have touching := succ_eq_iff (fits.below after (by simp))
    unfold insertAndOptimize
    dsimp only
    rw [rangeEnd_succ start size]
    split
    case isTrue nocoalesce =>
      rw [reverse_append_cons after]
      apply fits.put (fits.apart_last (.inl nocoalesce))
      cases rest with
      | nil => simp
      | cons next more => exact fits.apart_next (.inl nocoalesce)
    case isFalse coalesce =>
      by_cases appended : after.erEnd + 1 = start
      · simp only [appended, beq_self_eq_true, if_true]
        cases rest with
        | nil => exact fits.append (touching.mp appended) (by simp)
        | cons next more =>
          dsimp only
          split
          case isTrue touches =>
            exact fits.join (touching.mp appended)
              ((succ_eq_iff (fits.above next (by simp))).mp touches)
          case isFalse apart =>
            exact fits.append (touching.mp appended) (fits.apart_next (.inr apart))
      · simp only [beq_eq_false_iff_ne.mpr appended, Bool.false_eq_true, if_false]
        have alone := fits.apart_last (.inr appended)
        cases rest with
        | nil =>
          rw [reverse_append_cons after]
          exact fits.put alone (by simp)
        | cons next more =>
          dsimp only
          split
          case isTrue touches =>
            rw [reverse_append_cons after]
            exact fits.prepend ((succ_eq_iff (fits.above next (by simp))).mp touches) alone
          case isFalse apart =>
            rw [reverse_append_cons after]
            exact fits.put alone (fits.apart_next (.inr apart))

theorem findPlace_fits (ok : RegionsOk ex (passed.reverse ++ regions))
    (within : ex.exStart ≤ start ∧ start ≤ end_ ∧ end_ ≤ ex.exEnd)
    (below : ∀ r ∈ passed, r.erEnd < start)
    (found : findPlace start end_ passed regions = some (front, back)) :
    Fits ex start end_ front back ∧ front.reverse ++ back = passed.reverse ++ regions := by
  induction regions generalizing passed with
  | nil =>
    cases found
    exact ⟨⟨ok, within, below, by simp⟩, rfl⟩
  | cons rp rest hyp =>
    unfold findPlace at found
    split at found
    case isTrue before =>
      cases found
      refine ⟨⟨ok, within, below, ?_⟩, rfl⟩
      intro r member
      rcases mem_cons.mp member with rfl | later
      · exact before
      · have sorted := (pairwise_append.mp ok.sorted).2.1
        have ordered : ex.Before rp r := (pairwise_cons.mp sorted).1 r later
        have valid := (ok.within rp (by simp)).2.1
        unfold Extent.Before at ordered
        rw [BitVec.lt_def] at before ⊢
        rw [BitVec.le_def] at valid
        omega
    case isFalse =>
      split at found
      case isTrue => cases found
      case isFalse passes =>
        rw [reverse_append_cons rp] at ok ⊢
        exact hyp ok (forall_mem_cons.mpr ⟨BitVec.not_le.mp passes, below⟩) found

/-- A conflict is an address that is allocated and requested. -/
theorem findPlace_eq_none (valid : ∀ r ∈ regions, r.erStart ≤ r.erEnd) (ordered : start ≤ end_)
    (conflict : findPlace start end_ passed regions = none) :
    ∃ x, start.toNat ≤ x ∧ x ≤ end_.toNat ∧ Allocated regions x := by
  induction regions generalizing passed with
  | nil => cases conflict
  | cons rp rest hyp =>
    unfold findPlace at conflict
    split at conflict
    case isTrue => cases conflict
    case isFalse begins =>
      split at conflict
      case isTrue ends =>
        have proper := valid rp (by simp)
        simp only [BitVec.lt_def, BitVec.le_def] at begins ends proper ordered
        refine ⟨max start.toNat rp.erStart.toNat, ?_, ?_, rp, by simp, ?_, ?_⟩ <;> omega
      case isFalse =>
        obtain ⟨x, low, high, r, member, covers⟩ :=
          hyp (fun r member => valid r (mem_cons_of_mem _ member)) conflict
        exact ⟨x, low, high, r, mem_cons_of_mem _ member, covers⟩

/-- Where a region fits, none of its addresses is allocated. -/
theorem Fits.not_allocated (fits : Fits ex start end_ passed rest) (x : Nat)
    (low : start.toNat ≤ x) (high : x ≤ end_.toNat) :
    ¬Allocated (passed.reverse ++ rest) x := by
  rintro ⟨r, member, first, last⟩
  rcases mem_append.mp member with passed | later
  · have below := fits.below r (mem_reverse.mp passed)
    rw [BitVec.lt_def] at below
    omega
  · have above := fits.above r later
    rw [BitVec.lt_def] at above
    omega

end Insert

/-! ### Freeing a range -/

/-- The range lies in a region, and is all of it if the extent does not coalesce. -/
def Contained (ex : Extent) (regions : List Region) (start end_ : ULong) : Prop :=
  ∃ r ∈ regions, r.erStart ≤ start ∧ end_ ≤ r.erEnd ∧
    (ex.exfNocoalesce = true → start = r.erStart ∧ end_ = r.erEnd)

instance (ex : Extent) (regions : List Region) (start end_ : ULong) :
    Decidable (Contained ex regions start end_) :=
  inferInstanceAs (Decidable (∃ r ∈ regions, _))

/-- The addresses from `start` to `end_`, and no others, are taken from a region list. -/
structure Removes (ex : Extent) (start end_ : ULong) (old new : List Region) : Prop where
  ok : RegionsOk ex new
  inside : ∀ r ∈ new, ∃ r' ∈ old, r'.erStart ≤ r.erStart ∧ r.erEnd ≤ r'.erEnd
  allocated : ∀ x, Allocated new x ↔
    Allocated old x ∧ ¬(start.toNat ≤ x ∧ x ≤ end_.toNat)

section Free

variable {ex : Extent} {start end_ : ULong} {rp : Region} {rest later regions : List Region}
  {nrp : Option Bool} {a b : ULong}

theorem RegionsOk.tail (ok : RegionsOk ex (rp :: rest)) : RegionsOk ex rest where
  within r member := ok.within r (mem_cons_of_mem _ member)
  sorted := ok.sorted.of_cons

/-- The loop goes on behind a region that has none of the addresses. -/
theorem Removes.cons (ok : RegionsOk ex (rp :: rest)) (removes : Removes ex start end_ rest later)
    (misses : ∀ x, rp.Covers x → ¬(start.toNat ≤ x ∧ x ≤ end_.toNat)) :
    Removes ex start end_ (rp :: rest) (rp :: later) where
  ok := by
    constructor
    · rintro r member
      rcases mem_cons.mp member with rfl | member
      · exact ok.within r (by simp)
      · exact removes.ok.within r member
    · refine pairwise_cons.mpr ⟨?_, removes.ok.sorted⟩
      intro r member
      obtain ⟨r', original, first, last⟩ := removes.inside r member
      have ordered : ex.Before rp r' := (pairwise_cons.mp ok.sorted).1 r' original
      unfold Extent.Before at ordered ⊢
      rw [BitVec.le_def] at first
      omega
  inside r member := by
    rcases mem_cons.mp member with rfl | member
    · exact ⟨r, by simp, BitVec.le_refl _, BitVec.le_refl _⟩
    · obtain ⟨r', original, inside⟩ := removes.inside r member
      exact ⟨r', mem_cons_of_mem _ original, inside⟩
  allocated x := by
    simp only [allocated_cons, removes.allocated]
    tauto

/-- What is left of the first region takes its place. -/
theorem Removes.of_pieces (pieces : List Region) (ok : RegionsOk ex (rp :: rest))
    (valid : ∀ r ∈ pieces, rp.erStart ≤ r.erStart ∧ r.erStart ≤ r.erEnd ∧ r.erEnd ≤ rp.erEnd)
    (sorted : pieces.Pairwise ex.Before)
    (covers : ∀ x, Allocated pieces x ↔ rp.Covers x ∧ ¬(start.toNat ≤ x ∧ x ≤ end_.toNat))
    (contained : rp.erStart ≤ start ∧ end_ ≤ rp.erEnd) :
    Removes ex start end_ (rp :: rest) (pieces ++ rest) := by
  obtain ⟨apart, tailSorted⟩ := pairwise_cons.mp ok.sorted
  constructor
  · constructor
    · intro r member
      rcases mem_append.mp member with piece | other
      · have whole := ok.within rp (by simp)
        have part := valid r piece
        exact ⟨BitVec.le_trans whole.1 part.1, part.2.1, BitVec.le_trans part.2.2 whole.2.2⟩
      · exact ok.within r (mem_cons_of_mem _ other)
    · refine pairwise_append.mpr ⟨sorted, tailSorted, ?_⟩
      intro a piece b other
      have ordered : ex.Before rp b := apart b other
      have part := (valid a piece).2.2
      unfold Extent.Before at ordered ⊢
      rw [BitVec.le_def] at part
      omega
  · intro r member
    rcases mem_append.mp member with piece | other
    · exact ⟨rp, by simp, (valid r piece).1, (valid r piece).2.2⟩
    · exact ⟨r, mem_cons_of_mem _ other, BitVec.le_refl _, BitVec.le_refl _⟩
  · intro x
    -- the regions behind the first one have none of the addresses
    have misses : Allocated rest x → ¬(start.toNat ≤ x ∧ x ≤ end_.toNat) := by
      rintro ⟨r, member, first, _⟩ ⟨_, high⟩
      have ordered : ex.Before rp r := apart r member
      have last := contained.2
      unfold Extent.Before at ordered
      rw [BitVec.le_def] at last
      omega
    simp only [allocated_append, allocated_cons, covers]
    tauto

/-- The regions before the one that contains the range are passed. -/
theorem Removes.cons_of_contained (ok : RegionsOk ex (rp :: rest))
    (contained : Contained ex rest start end_) : rp.erEnd < start := by
  obtain ⟨r, member, first, _⟩ := contained
  have ordered : ex.Before rp r := (pairwise_cons.mp ok.sorted).1 r member
  unfold Extent.Before at ordered
  rw [BitVec.le_def] at first
  rw [BitVec.lt_def]
  omega

theorem toNat_succ (less : a < b) : (a + 1).toNat = a.toNat + 1 := by
  bv_omega

theorem toNat_pred (less : a < b) : (b - 1).toNat = b.toNat - 1 := by
  bv_omega

/-- The four ways in which a range is taken from the region that contains it. -/
theorem freeLoop_first (ok : RegionsOk ex (rp :: rest)) (ordered : start ≤ end_)
    (first : rp.erStart ≤ start) (last : end_ ≤ rp.erEnd)
    (exactly : ex.exfNocoalesce = true → start = rp.erStart ∧ end_ = rp.erEnd)
    (descriptor : ex.exfNocoalesce = false → nrp.isSome) :
    ∃ surgery, freeLoop ex start end_ nrp (rp :: rest) = some surgery ∧
      Removes ex start end_ (rp :: rest) surgery.regions := by
  unfold freeLoop
  rw [if_neg (BitVec.not_lt.mpr (BitVec.le_trans ordered last)),
    if_neg (BitVec.not_lt.mpr (BitVec.le_trans first ordered))]
  by_cases all : start = rp.erStart ∧ end_ = rp.erEnd
  · rw [if_pos all]
    obtain ⟨rfl, rfl⟩ := all
    refine ⟨_, rfl, Removes.of_pieces [] ok (by simp) .nil ?_ ⟨first, last⟩⟩
    intro x
    simp only [Region.Covers, allocated_nil, false_iff]
    omega
  · have coalesce : ex.exfNocoalesce = false := by
      rw [← Bool.not_eq_true]
      exact fun nocoalesce => all (exactly nocoalesce)
    obtain ⟨d, rfl⟩ := Option.isSome_iff_exists.mp (descriptor coalesce)
    rw [if_neg all, if_neg (by simp [coalesce])]
    have whole := ordered
    simp only [BitVec.le_def] at first last whole
    split
    case isTrue head =>
      obtain ⟨rfl, less⟩ := head
      have cut := toNat_succ less
      rw [BitVec.lt_def] at less
      refine ⟨_, rfl, Removes.of_pieces [_] ok ?_ (by simp) ?_ ?_⟩
      · simp only [mem_singleton, forall_eq, BitVec.le_def, cut]
        omega
      · intro x
        simp only [Region.Covers, allocated_cons, allocated_nil, or_false, cut]
        omega
      · simp only [BitVec.le_def]
        omega
    case isFalse notHead =>
      split
      case isTrue tail =>
        obtain ⟨less, rfl⟩ := tail
        have cut := toNat_pred less
        rw [BitVec.lt_def] at less
        refine ⟨_, rfl, Removes.of_pieces [_] ok ?_ (by simp) ?_ ?_⟩
        · simp only [mem_singleton, forall_eq, BitVec.le_def, cut]
          omega
        · intro x
          simp only [Region.Covers, allocated_cons, allocated_nil, or_false, cut]
          omega
        · simp only [BitVec.le_def]
          omega
      case isFalse notTail =>
        have middle : rp.erStart < start ∧ end_ < rp.erEnd := by
          bv_omega
        rw [if_pos middle]
        have low := toNat_pred middle.1
        have high := toNat_succ middle.2
        simp only [BitVec.lt_def] at middle
        refine ⟨_, rfl, Removes.of_pieces [_, _] ok ?_ ?_ ?_ ?_⟩
        · simp only [mem_cons, not_mem_nil, or_false, forall_eq_or_imp, forall_eq,
            BitVec.le_def, low, high]
          omega
        · simp only [pairwise_cons, mem_singleton, forall_eq, Extent.Before, low, high,
            gap_eq_one coalesce, not_mem_nil, List.Pairwise.nil, and_true,
            IsEmpty.forall_iff, implies_true]
          omega
        · intro x
          simp only [Region.Covers, allocated_cons, allocated_nil, or_false, low, high]
          omega
        · simp only [BitVec.le_def]
          omega

/-- The loop removes a range that a region contains. -/
theorem freeLoop_removes (ok : RegionsOk ex regions) (ordered : start ≤ end_)
    (contained : Contained ex regions start end_)
    (descriptor : ex.exfNocoalesce = false → nrp.isSome) :
    ∃ surgery, freeLoop ex start end_ nrp regions = some surgery ∧
      Removes ex start end_ regions surgery.regions := by
  induction regions with
  | nil =>
    obtain ⟨r, member, _⟩ := contained
    cases member
  | cons rp rest hyp =>
    obtain ⟨r, member, first, last, exactly⟩ := contained
    rcases mem_cons.mp member with rfl | member
    · exact freeLoop_first ok ordered first last exactly descriptor
    · have inRest : Contained ex rest start end_ := ⟨r, member, first, last, exactly⟩
      have passed := Removes.cons_of_contained ok inRest
      obtain ⟨surgery, result, removes⟩ := hyp ok.tail inRest
      unfold freeLoop
      rw [if_pos passed, result]
      refine ⟨_, rfl, removes.cons ok ?_⟩
      rintro x ⟨_, high⟩ ⟨low, _⟩
      rw [BitVec.lt_def] at passed
      omega

/-- The loop finds no region for a range that none contains. -/
theorem contained_of_freeLoop {surgery : Surgery}
    (result : freeLoop ex start end_ nrp regions = some surgery) :
    Contained ex regions start end_ := by
  induction regions generalizing surgery with
  | nil => cases result
  | cons rp rest hyp =>
    have later (next : (freeLoop ex start end_ nrp rest).map (fun later =>
          { later with regions := rp :: later.regions }) = some surgery) :
        Contained ex (rp :: rest) start end_ := by
      obtain ⟨surgery', found, _⟩ := Option.map_eq_some_iff.mp next
      obtain ⟨r, member, inside⟩ := hyp found
      exact ⟨r, mem_cons_of_mem _ member, inside⟩
    have here (first : rp.erStart ≤ start) (last : end_ ≤ rp.erEnd)
        (exactly : ex.exfNocoalesce = true → start = rp.erStart ∧ end_ = rp.erEnd) :
        Contained ex (rp :: rest) start end_ :=
      ⟨rp, by simp, first, last, exactly⟩
    unfold freeLoop at result
    split_ifs at result with _ _ all nocoalesce head tail middle
    · exact later result
    · exact here (by simp [all]) (by simp [all]) (fun _ => all)
    · exact later result
    · exact here (by simp [head]) (BitVec.le_of_lt head.2) (fun h => absurd h nocoalesce)
    · exact here (BitVec.le_of_lt tail.1) (by simp [tail]) (fun h => absurd h nocoalesce)
    · exact here (BitVec.le_of_lt middle.1) (BitVec.le_of_lt middle.2)
        (fun h => absurd h nocoalesce)
    · exact later result

end Free

end Bitrig.SubrExtent
