import Mathlib

/-!
# Queues of pieces of a stream

A queue holds pieces of a stream of bytes, each with its position, in increasing order and
without an overlap.  A new piece is cut where the piece before it has its bytes already, and what
it overlaps behind it is cut or removed.  This keeps the order, and the queue covers what it has
covered before and the new piece.
-/

namespace Bitrig.Reassembly

open List Option

universe u v

section Slices

variable {β : Type v} {stream : List β} {start len i : Nat}

/-- Consecutive bytes of a stream. -/
def slice (stream : List β) (start len : Nat) : List β :=
  (stream.drop start).take len

theorem slice_zero (stream : List β) (start : Nat) : slice stream start 0 = [] :=
  take_zero

theorem slice_all (stream : List β) : slice stream 0 stream.length = stream := by
  rw [slice, drop_zero, take_length]

theorem drop_slice : (slice stream start len).drop i = slice stream (start + i) (len - i) := by
  rw [slice, slice, drop_take, drop_drop]

theorem slice_append (m n : Nat) :
    slice stream start m ++ slice stream (start + m) n = slice stream start (m + n) := by
  rw [slice, slice, slice, take_add, drop_drop]

end Slices

/-- What a queue needs to know of its entries: the position of the first byte, the number of
bytes, and how to remove some of them at the front. -/
structure Pieces (ε : Type u) where
  start : ε → Nat
  len : ε → Nat
  cut : ε → Nat → ε

namespace Pieces

variable {ε : Type u} (v : Pieces ε)

/-- The position behind a piece. -/
def stop (e : ε) : Nat :=
  v.start e + v.len e

/-- The positions of a piece. -/
def Has (e : ε) (x : Nat) : Prop :=
  v.start e ≤ x ∧ x < v.stop e

def Covers (queue : List ε) (x : Nat) : Prop :=
  ∃ e ∈ queue, v.Has e x

def Ordered (queue : List ε) : Prop :=
  queue.Pairwise fun a b => v.stop a ≤ v.start b

/-- Cutting is what it should be for pieces with a property, and keeps it. -/
structure Cuts (Good : ε → Prop) : Prop where
  good : ∀ {e i}, Good e → i < v.len e → Good (v.cut e i)
  start : ∀ {e i}, Good e → i < v.len e → v.start (v.cut e i) = v.start e + i
  len : ∀ {e i}, Good e → i < v.len e → v.len (v.cut e i) = v.len e - i

/-- The part of a new piece that the piece before it does not have. -/
def trim (new : ε) : Option ε → Option ε
  | none => some new
  | some p =>
    if v.stop p ≤ v.start new then some new
    else if v.stop p - v.start new < v.len new then
      some (v.cut new (v.stop p - v.start new))
    else none

/-- The pieces behind a new one, which ends at `stop`. -/
def clip (stop : Nat) : List ε → List ε
  | [] => []
  | e :: rest =>
    if stop ≤ v.start e then e :: rest
    else if stop - v.start e < v.len e then v.cut e (stop - v.start e) :: rest
    else clip stop rest

/-- A new piece is put into a queue, or there is nothing new in it. -/
def insert (new : ε) (queue : List ε) : Option (List ε) :=
  let before := queue.takeWhile fun e => v.start e ≤ v.start new
  let after := queue.dropWhile fun e => v.start e ≤ v.start new
  (v.trim new before.getLast?).map fun new => before ++ new :: v.clip (v.stop new) after

variable {v} {Good : ε → Prop} {new : ε} {queue : List ε} {e new' : ε} {x next last : Nat}
  {queue' before : List ε}

theorem covers_cons : v.Covers (e :: queue) x ↔ v.Has e x ∨ v.Covers queue x := by
  simp [Covers]

theorem covers_append : v.Covers (queue ++ queue') x ↔ v.Covers queue x ∨ v.Covers queue' x := by
  simp only [Covers, mem_append, or_and_right, exists_or]

theorem not_covers_nil : ¬v.Covers [] x := by
  rintro ⟨e, mem, -⟩
  cases mem

theorem Cuts.stop (cuts : v.Cuts Good) {i : Nat} (good : Good e) (lt : i < v.len e) :
    v.stop (v.cut e i) = v.stop e := by
  rw [Pieces.stop, Pieces.stop, cuts.start good lt, cuts.len good lt]
  omega

/-- What is left of a new piece keeps what each cut keeps. -/
theorem Cuts.good_trim (cuts : v.Cuts Good) (good : Good new) {p : Option ε}
    (trim : v.trim new p = some new') : Good new' := by
  cases p with
  | none => exact some.inj trim ▸ good
  | some p =>
    rw [Pieces.trim] at trim
    split_ifs at trim with apart inside
    · exact some.inj trim ▸ good
    · exact some.inj trim ▸ cuts.good good inside

/-- What a list of pieces behind a position covers is behind the position. -/
theorem le_of_covers {bound : Nat} (above : ∀ e ∈ queue, bound ≤ v.start e)
    (covers : v.Covers queue x) : bound ≤ x := by
  obtain ⟨e, mem, has⟩ := covers
  exact (above e mem).trans has.1

/-! ### The pieces behind a new one -/

/-- What is left of the pieces behind a new one. -/
structure Clipped (v : Pieces ε) (Good : ε → Prop) (stop : Nat) (queue queue' : List ε) : Prop where
  ordered : v.Ordered queue'
  good : ∀ e ∈ queue', Good e
  above : ∀ e ∈ queue', stop ≤ v.start e
  covers : ∀ x, v.Covers queue' x ↔ v.Covers queue x ∧ stop ≤ x

theorem clipped (cuts : v.Cuts Good) (stop : Nat) (ordered : v.Ordered queue)
    (good : ∀ e ∈ queue, Good e) : Clipped v Good stop queue (v.clip stop queue) := by
  induction queue with
  | nil =>
    refine ⟨List.Pairwise.nil, good, fun e mem => absurd mem not_mem_nil, fun x => ?_⟩
    exact ⟨fun covers => absurd covers not_covers_nil, And.left⟩
  | cons e rest ih =>
    obtain ⟨behind, ordered'⟩ := pairwise_cons.mp ordered
    have goodE := good e mem_cons_self
    have good' : ∀ r ∈ rest, Good r := fun r mem => good r (mem_cons_of_mem e mem)
    unfold clip
    split_ifs with above cut
    · -- the new piece ends before
      have allAbove : ∀ r ∈ e :: rest, stop ≤ v.start r := forall_mem_cons.mpr
        ⟨above, fun r mem => (above.trans (Nat.le_add_right _ _)).trans (behind r mem)⟩
      refine ⟨ordered, good, allAbove, fun x => ?_⟩
      exact ⟨fun covers => ⟨covers, le_of_covers allAbove covers⟩, And.left⟩
    · -- the rest of an overlapped piece begins where the new one ends
      have start := cuts.start goodE cut
      have same := cuts.stop goodE cut
      have begins : v.start (v.cut e (stop - v.start e)) = stop := by omega
      have restAbove : ∀ r ∈ rest, stop ≤ v.start r := by
        intro r mem
        have next : v.start e + v.len e ≤ v.start r := behind r mem
        omega
      refine ⟨pairwise_cons.mpr ⟨fun r mem => ?_, ordered'⟩, ?_, ?_, fun x => ?_⟩
      · rw [same]
        exact behind r mem
      · exact forall_mem_cons.mpr ⟨cuts.good goodE cut, good'⟩
      · exact forall_mem_cons.mpr ⟨begins.ge, restAbove⟩
      · rw [covers_cons, covers_cons, or_and_right, Has, same, Has]
        refine or_congr ?_ ⟨fun covers => ⟨covers, le_of_covers restAbove covers⟩, And.left⟩
        omega
    · -- the piece is overlapped as a whole
      obtain ⟨ordered'', good'', above'', covers⟩ := ih ordered' good'
      refine ⟨ordered'', good'', above'', fun x => ?_⟩
      rw [covers, covers_cons]
      refine ⟨fun both => ⟨.inr both.1, both.2⟩, fun both => ⟨?_, both.2⟩⟩
      rcases both.1 with has | covered
      · have before : x < v.start e + v.len e := has.2
        omega
      · exact covered

/-! ### A new piece -/

/-- A queue is split by the position of a new piece. -/
theorem split_spec (ordered : v.Ordered queue) (bound : Nat) :
    (∀ e ∈ queue.takeWhile (fun e => v.start e ≤ bound), v.start e ≤ bound) ∧
      ∀ e ∈ queue.dropWhile (fun e => v.start e ≤ bound), bound < v.start e := by
  constructor
  · intro e mem
    have first := mem_takeWhile_imp mem
    exact of_decide_eq_true first
  · induction queue with
    | nil => exact fun e mem => absurd mem not_mem_nil
    | cons e rest ih =>
      obtain ⟨behind, ordered'⟩ := pairwise_cons.mp ordered
      intro r mem
      rw [dropWhile_cons] at mem
      split_ifs at mem with first
      · exact ih ordered' r mem
      · have after : bound < v.start e := not_le.mp (fun le => first (decide_eq_true le))
        rcases mem_cons.mp mem with rfl | mem
        · exact after
        · exact after.trans_le ((Nat.le_add_right _ _).trans (behind r mem))

/-- The piece before a new one is the last of those that begin before it. -/
theorem stop_le_of_mem {p : ε} (ordered : v.Ordered before) (last : before.getLast? = some p)
    (mem : e ∈ before) : e = p ∨ v.stop e ≤ v.start p := by
  obtain ⟨init, rfl⟩ := getLast?_eq_some_iff.mp last
  rcases mem_append.mp mem with mem | mem
  · exact .inr ((pairwise_append.mp ordered).2.2 e mem p (mem_singleton_self p))
  · exact .inl (mem_singleton.mp mem)

/-- What is left of a new piece. -/
structure Trimmed (v : Pieces ε) (Good : ε → Prop) (before : List ε) (new new' : ε) : Prop where
  good : Good new'
  stop : v.stop new' = v.stop new
  behind : ∀ e ∈ before, v.stop e ≤ v.start new'
  le : v.start new ≤ v.start new'
  covered : ∀ x, v.start new ≤ x → x < v.start new' → v.Covers before x

theorem trimmed (cuts : v.Cuts Good) (ordered : v.Ordered before)
    (starts : ∀ e ∈ before, v.start e ≤ v.start new) (good : Good new)
    (trim : v.trim new before.getLast? = some new') : Trimmed v Good before new new' := by
  cases last : before.getLast? with
  | none =>
    rw [last] at trim
    cases trim
    rw [getLast?_eq_none_iff.mp last]
    exact ⟨good, rfl, fun e mem => absurd mem not_mem_nil, le_rfl,
      fun x above below => absurd below (not_lt.mpr above)⟩
  | some p =>
    have memP := mem_of_getLast? last
    have startP := starts p memP
    have others : ∀ e ∈ before, v.stop e ≤ max (v.stop p) (v.start new) := by
      intro e mem
      rcases stop_le_of_mem ordered last mem with rfl | le
      · exact le_max_left _ _
      · exact (le.trans startP).trans (le_max_right _ _)
    rw [last, Pieces.trim] at trim
    split_ifs at trim with apart cut
    · cases trim
      rw [max_eq_right apart] at others
      exact ⟨good, rfl, others, le_rfl, fun x above below => absurd below (not_lt.mpr above)⟩
    · cases trim
      have overlap := (not_le.mp apart).le
      have start : v.start (v.cut new (v.stop p - v.start new)) = v.stop p := by
        rw [cuts.start good cut]
        omega
      rw [max_eq_left overlap] at others
      refine ⟨cuts.good good cut, cuts.stop good cut, ?_, ?_, ?_⟩
      · rwa [start]
      · rwa [start]
      · intro x above below
        rw [start] at below
        exact ⟨p, memP, startP.trans above, below⟩

/-- Nothing of a new piece is left only if the queue has all of it. -/
theorem covers_of_insert_eq_none (ordered : v.Ordered queue) (none : v.insert new queue = none)
    (has : v.Has new x) : v.Covers queue x := by
  have trim := map_eq_none_iff.mp none
  cases last : (queue.takeWhile fun e => v.start e ≤ v.start new).getLast? with
  | none =>
    rw [last] at trim
    cases trim
  | some p =>
    have mem := mem_of_getLast? last
    have startP := (split_spec ordered (v.start new)).1 p mem
    rw [last, Pieces.trim] at trim
    split_ifs at trim with apart cut
    obtain ⟨above, below⟩ := has
    refine ⟨p, (takeWhile_sublist _).mem mem, startP.trans above, ?_⟩
    have stop : v.stop new = v.start new + v.len new := rfl
    omega

/-- The queue with a new piece. -/
structure Inserted (v : Pieces ε) (Good : ε → Prop) (new : ε) (queue queue' : List ε) : Prop where
  ordered : v.Ordered queue'
  good : ∀ e ∈ queue', Good e
  covers : ∀ x, v.Covers queue' x ↔ v.Covers queue x ∨ v.Has new x

theorem inserted (cuts : v.Cuts Good) (ordered : v.Ordered queue) (goodQueue : ∀ e ∈ queue, Good e)
    (good : Good new) (insert : v.insert new queue = some queue') :
    Inserted v Good new queue queue' := by
  obtain ⟨new', trim, rfl⟩ := map_eq_some_iff.mp insert
  obtain ⟨startsBefore, startsAfter⟩ := split_spec ordered (v.start new)
  have joined := takeWhile_append_dropWhile (p := fun e => decide (v.start e ≤ v.start new))
    (l := queue)
  generalize queue.takeWhile (fun e => decide (v.start e ≤ v.start new)) = before at *
  generalize queue.dropWhile (fun e => decide (v.start e ≤ v.start new)) = after at *
  subst joined
  obtain ⟨orderedBefore, orderedAfter, apart⟩ := pairwise_append.mp ordered
  have isTrimmed := trimmed cuts orderedBefore startsBefore good trim
  have isClipped := clipped cuts (v.stop new') orderedAfter
    (fun e mem => goodQueue e (mem_append_right _ mem))
  have startLe : v.start new' ≤ v.stop new' := Nat.le_add_right _ _
  refine ⟨?_, ?_, fun x => ?_⟩
  · refine pairwise_append.mpr ⟨orderedBefore, ?_, fun a memA b memB => ?_⟩
    · exact pairwise_cons.mpr ⟨isClipped.above, isClipped.ordered⟩
    · rcases mem_cons.mp memB with rfl | memB
      · exact isTrimmed.behind a memA
      · exact ((isTrimmed.behind a memA).trans startLe).trans (isClipped.above b memB)
  · exact forall_mem_append.mpr ⟨fun e mem => goodQueue e (mem_append_left _ mem),
      forall_mem_cons.mpr ⟨isTrimmed.good, isClipped.good⟩⟩
  · rw [covers_append, covers_cons, isClipped.covers, covers_append, Has, isTrimmed.stop]
    constructor
    · rintro (before | ⟨above, below⟩ | ⟨after, -⟩)
      · exact .inl (.inl before)
      · exact .inr ⟨isTrimmed.le.trans above, below⟩
      · exact .inl (.inr after)
    · -- a position of the new piece is covered before it, or left in it
      have inNew : v.start new ≤ x → x < v.stop new → v.Covers before x ∨
          v.start new' ≤ x ∧ x < v.stop new := by
        intro above below
        rcases lt_or_ge x (v.start new') with early | late
        · exact .inl (isTrimmed.covered x above early)
        · exact .inr ⟨late, below⟩
      rintro ((before | after) | ⟨above, below⟩)
      · exact .inl before
      · rcases lt_or_ge x (v.stop new) with below | behind
        · have above := le_of_covers (fun e mem => (startsAfter e mem).le) after
          exact (inNew above below).imp_right .inl
        · exact .inr (.inr ⟨after, behind⟩)
      · exact (inNew above below).imp_right .inl

/-! ### Pieces without a gap -/

/-- The position behind the pieces, if there is no gap before and between them. -/
def walk (v : Pieces ε) : Nat → List ε → Option Nat
  | next, [] => some next
  | next, e :: rest => if v.start e = next then walk v (next + v.len e) rest else none

theorem le_of_walk (walk : v.walk next queue = some last) : next ≤ last := by
  induction queue generalizing next with
  | nil => exact (some.inj walk).le
  | cons e rest ih =>
    rw [Pieces.walk] at walk
    split_ifs at walk
    exact (Nat.le_add_right _ _).trans (ih walk)

theorem covers_of_walk (walk : v.walk next queue = some last) :
    v.Covers queue x ↔ next ≤ x ∧ x < last := by
  induction queue generalizing next with
  | nil =>
    cases walk
    refine iff_of_false not_covers_nil ?_
    omega
  | cons e rest ih =>
    rw [Pieces.walk] at walk
    split_ifs at walk with start
    have le := le_of_walk walk
    rw [covers_cons, ih walk, Has, Pieces.stop]
    omega

/-- Pieces without a gap end where the last one does. -/
theorem eq_stop_of_walk (isLast : queue.getLast? = some e) (walk : v.walk next queue = some last) :
    last = v.stop e := by
  induction queue generalizing next with
  | nil => cases isLast
  | cons first rest ih =>
    rw [Pieces.walk] at walk
    split_ifs at walk with begins
    cases rest with
    | nil =>
      have isE : first = e := some.inj isLast
      rw [← begins, isE] at walk
      exact (some.inj walk).symm
    | cons second rest => exact ih isLast walk

/-- There is no gap if everything up to the end of the pieces is covered. -/
theorem walk_of_covers (ordered : v.Ordered queue) (above : ∀ e ∈ queue, next ≤ v.start e)
    (below : ∀ e ∈ queue, v.stop e ≤ last) (le : next ≤ last)
    (covers : ∀ x, next ≤ x → x < last → v.Covers queue x) : v.walk next queue = some last := by
  induction queue generalizing next with
  | nil =>
    rcases le.eq_or_lt with rfl | lt
    · rfl
    · exact absurd (covers next le_rfl lt) not_covers_nil
  | cons e rest ih =>
    obtain ⟨behind, ordered'⟩ := pairwise_cons.mp ordered
    have startE := above e mem_cons_self
    have stopE : v.start e + v.len e ≤ last := below e mem_cons_self
    have start : v.start e = next := by
      by_contra ne
      obtain ⟨r, mem, has⟩ := covers next le_rfl (by omega)
      have first : v.start r ≤ next := has.1
      rcases mem_cons.mp mem with rfl | mem
      · omega
      · have later : v.start e + v.len e ≤ v.start r := behind r mem
        omega
    rw [walk, if_pos start]
    refine ih ordered' ?_ (fun r mem => below r (mem_cons_of_mem e mem)) (by omega) ?_
    · intro r mem
      have later : v.start e + v.len e ≤ v.start r := behind r mem
      omega
    · intro x low high
      refine (covers_cons.mp (covers x (by omega) high)).resolve_left ?_
      rintro ⟨-, has⟩
      rw [Pieces.stop] at has
      omega

variable {β : Type v} {stream : List β} {bytes : ε → List β}

/-- The bytes of pieces without a gap are consecutive. -/
theorem flatMap_of_walk (walk : v.walk next queue = some last)
    (data : ∀ e ∈ queue, bytes e = slice stream (v.start e) (v.len e)) :
    queue.flatMap bytes = slice stream next (last - next) := by
  induction queue generalizing next with
  | nil =>
    cases walk
    rw [Nat.sub_self]
    rfl
  | cons e rest ih =>
    rw [Pieces.walk] at walk
    split_ifs at walk with start
    have le := le_of_walk walk
    rw [flatMap_cons, data e mem_cons_self,
      ih walk (fun r mem => data r (mem_cons_of_mem e mem)), start, slice_append]
    congr 1
    omega

end Pieces

end Bitrig.Reassembly
