import Bitrig.PfNorm.Fragments

/-!
# The queue of a fragmented packet

`pf_fillup_fragment` and `pf_isfull_fragment` are the operations on a queue of pieces.
-/

namespace Bitrig.PfNorm

open Bitrig.Reassembly Bitrig.Transition List Option

/-- The entries of a queue as pieces of a packet. -/
def pieces : Pieces Frent := ⟨Frent.off, Frent.len, Frent.cut⟩

@[simp]
theorem pieces_start (e : Frent) : pieces.start e = e.off :=
  rfl

@[simp]
theorem pieces_len (e : Frent) : pieces.len e = e.len :=
  rfl

@[simp]
theorem pieces_cut (e : Frent) (i : Nat) : pieces.cut e i = e.cut i :=
  rfl

@[simp]
theorem pieces_stop (e : Frent) : pieces.stop e = e.off + e.len :=
  rfl

/-- An entry that is not malformed has bytes, and ends within the largest packet. -/
structure Bounded (e : Frent) : Prop where
  pos : 0 < e.len
  le : e.off + e.len ≤ ipMaxpacket

section Queue

variable {frag : Fragment} {frent e : Frent} {queue : List Frent} {P : Frent → Prop} {i : Nat}
  {last : Frent}

theorem u16_of_le {n : Nat} (le : n ≤ ipMaxpacket) : u16 n = n :=
  Nat.mod_eq_of_lt (Nat.lt_succ_of_le le)

theorem bounded_of_not_malformed (sound : malformed frent = false) : Bounded frent := by
  simp only [malformed, Bool.or_eq_false_iff, decide_eq_false_iff_not] at sound
  exact ⟨Nat.pos_of_ne_zero sound.1.1, not_lt.mp sound.2⟩

theorem Bounded.cut_off (bounded : Bounded e) (lt : i < e.len) : (e.cut i).off = e.off + i :=
  u16_of_le ((Nat.add_le_add_left lt.le _).trans bounded.le)

theorem Bounded.cut_len (bounded : Bounded e) : (e.cut i).len = e.len - i :=
  u16_of_le ((Nat.sub_le _ _).trans ((Nat.le_add_left _ _).trans bounded.le))

/-- Entries are cut as pieces are, and keep what each cut keeps. -/
theorem cuts (closed : ∀ e i, Bounded e → P e → i < e.len → P (e.cut i)) :
    pieces.Cuts (fun e => Bounded e ∧ P e) where
  start good lt := good.1.cut_off lt
  len good _ := good.1.cut_len
  good := by
    rintro e i ⟨bounded, holds⟩ lt
    rw [pieces_len] at lt
    rw [pieces_cut]
    refine ⟨⟨?_, ?_⟩, closed e i bounded holds lt⟩
    · rw [bounded.cut_len]
      omega
    · rw [bounded.cut_len, bounded.cut_off lt]
      have le := bounded.le
      omega

/-! ### A new entry -/

theorem trimAfter_spec (bounded : Bounded frent) (queue : List Frent) :
    (trimAfter frent queue).1 = pieces.clip (pieces.stop frent) queue ∧
      (trimAfter frent queue).2 + (pieces.clip (pieces.stop frent) queue).length =
        queue.length := by
  rw [pieces_stop]
  induction queue with
  | nil => exact ⟨rfl, rfl⟩
  | cons after rest ih =>
    have exact' : u16 (frent.off + frent.len - after.off) = frent.off + frent.len - after.off :=
      u16_of_le ((Nat.sub_le _ _).trans bounded.le)
    rw [trimAfter, Pieces.clip, exact', pieces_start, pieces_len]
    by_cases overlap : frent.off + frent.len > after.off
    · rw [if_pos overlap, if_neg (not_le.mpr overlap)]
      by_cases inside : frent.off + frent.len - after.off < after.len
      · rw [if_pos inside, if_pos inside]
        exact ⟨rfl, Nat.zero_add _⟩
      · rw [if_neg inside, if_neg inside]
        refine ⟨ih.1, ?_⟩
        rw [length_cons]
        omega
    · rw [if_neg overlap, if_pos (not_lt.mp overlap)]
      exact ⟨rfl, Nat.zero_add _⟩

/-- An entry is inserted between those before it and what is left of those after it. -/
theorem insertFrent_spec {af : Bitrig.Pf.Family} (inet : af = .inet) (bounded : Bounded frent)
    (before after : List Frent) :
    ∃ removed, insertFrent af before after frent =
        .queued (before ++ frent :: pieces.clip (pieces.stop frent) after) removed ∧
      removed + (before ++ frent :: pieces.clip (pieces.stop frent) after).length =
        before.length + after.length + 1 := by
  obtain ⟨clipped, removed⟩ := trimAfter_spec bounded after
  have apart : ¬(af = .inet6 ∧
      after.head?.any (fun next => frent.off + frent.len > next.off) = true) := by
    rintro ⟨inet6, -⟩
    rw [inet] at inet6
    cases inet6
  refine ⟨(trimAfter frent after).2, ?_, ?_⟩
  · rw [insertFrent, if_neg apart, clipped]
  · rw [length_append, length_cons]
    omega

/-- What is done with an entry: it is refused, or it is put into the queue of pieces. -/
inductive Filled (queue : List Frent) (frent : Frent) : Fill → Prop
  | bad {last : Frent} (isLast : queue.getLast? = some last)
      (isRefused : refused last frent = true) : Filled queue frent .bad
  | drop (covered : pieces.insert frent queue = none) : Filled queue frent .drop
  | queued {queue' : List Frent} {removed : Nat}
      (inserted : pieces.insert frent queue = some queue')
      (count : removed + queue'.length = queue.length + 1) :
      Filled queue frent (.queued queue' removed)

theorem fill_spec (inet : frag.key.af = .inet) (nonempty : frag.queue ≠ [])
    (allBounded : ∀ e ∈ frag.queue, Bounded e) (bounded : Bounded frent) :
    ∃ result, fill frag frent = some result ∧ Filled frag.queue frent result := by
  obtain ⟨last, isLast⟩ : ∃ last, frag.queue.getLast? = some last :=
    ⟨_, getLast?_eq_some_getLast nonempty⟩
  have joined : frag.queue.takeWhile (fun e => decide (e.off ≤ frent.off)) ++
      frag.queue.dropWhile (fun e => decide (e.off ≤ frent.off)) = frag.queue :=
    takeWhile_append_dropWhile
  have insert : pieces.insert frent frag.queue =
      (pieces.trim frent (frag.queue.takeWhile fun e => decide (e.off ≤ frent.off)).getLast?).map
        fun new => frag.queue.takeWhile (fun e => decide (e.off ≤ frent.off)) ++
          new :: pieces.clip (pieces.stop new)
            (frag.queue.dropWhile fun e => decide (e.off ≤ frent.off)) := rfl
  have members : ∀ e ∈ frag.queue.takeWhile (fun e => decide (e.off ≤ frent.off)),
      e ∈ frag.queue := fun e mem => (takeWhile_sublist _).mem mem
  unfold fill
  rw [isLast]
  generalize frag.queue.takeWhile (fun e => decide (e.off ≤ frent.off)) = before at *
  generalize frag.queue.dropWhile (fun e => decide (e.off ≤ frent.off)) = after at *
  have someLeft : before ≠ [] ∨ after ≠ [] := by
    by_contra neither
    obtain ⟨beforeNil, afterNil⟩ := not_or.mp neither
    rw [not_not.mp beforeNil, not_not.mp afterNil] at joined
    exact nonempty joined.symm
  have total : before.length + after.length = frag.queue.length := by
    rw [← joined, length_append]
  -- a new entry that has been cut, or needs no cut, is inserted
  have inserts : ∀ new, Bounded new → pieces.trim frent before.getLast? = some new →
      Filled frag.queue frent (insertFrent frag.key.af before after new) := by
    intro new newBounded trim
    obtain ⟨removed, eq, count⟩ := insertFrent_spec inet newBounded before after
    rw [eq]
    refine .queued ?_ (by omega)
    rw [insert, trim]
    rfl
  simp only [bind_eq_bind, bind_some, kassert_of_holds someLeft]
  by_cases isRefused : refused last frent = true
  · exact ⟨.bad, if_pos isRefused, .bad isLast isRefused⟩
  rw [if_neg isRefused]
  cases isPrev : before.getLast? with
  | none => exact ⟨_, rfl, inserts frent bounded (by rw [isPrev]; rfl)⟩
  | some prev =>
    have bound := (allBounded prev (members prev (mem_of_getLast? isPrev))).le
    have precut : u16 (prev.off + prev.len - frent.off) = prev.off + prev.len - frent.off :=
      u16_of_le ((Nat.sub_le _ _).trans bound)
    have notSix : ¬frag.key.af = .inet6 := by rw [inet]; exact nofun
    have trim : pieces.trim frent (some prev) =
        if prev.off + prev.len ≤ frent.off then some frent
        else if prev.off + prev.len - frent.off < frent.len then
          some (frent.cut (prev.off + prev.len - frent.off))
        else none := rfl
    rw [isPrev] at inserts insert
    dsimp only
    rw [precut, if_neg notSix]
    by_cases overlap : prev.off + prev.len > frent.off
    · rw [if_pos overlap]
      rw [if_neg (not_le.mpr overlap)] at trim
      by_cases all : prev.off + prev.len - frent.off ≥ frent.len
      · rw [if_neg (not_lt.mpr all)] at trim
        refine ⟨.drop, if_pos all, .drop ?_⟩
        rw [insert, trim]
        rfl
      · rw [if_pos (not_le.mp all)] at trim
        refine ⟨_, if_neg all, inserts _ ?_ trim⟩
        exact ((cuts (P := fun _ => True) (fun _ _ _ _ _ => trivial)).good ⟨bounded, trivial⟩
          (not_le.mp all)).1
    · rw [if_pos (not_lt.mp overlap)] at trim
      exact ⟨_, if_neg overlap, inserts frent bounded trim⟩

/-! ### Complete queues -/

/-- The loop walks over the pieces, as long as each begins where the one before it ends. -/
theorem isfullLoop_eq {total off : Nat} (ordered : pieces.Ordered queue)
    (allBounded : ∀ e ∈ queue, Bounded e) (isLast : queue.getLast? = some last)
    (isTotal : total = last.off + last.len) (le : ∀ e ∈ queue, off ≤ e.off) :
    isfullLoop total off queue = pieces.walk off queue := by
  induction queue generalizing off with
  | nil => cases isLast
  | cons e rest ih =>
    obtain ⟨behind, ordered'⟩ := pairwise_cons.mp ordered
    have boundE := allBounded e mem_cons_self
    have leE := le e mem_cons_self
    have small : u16 (off + e.len) = off + e.len :=
      u16_of_le ((Nat.add_le_add_right leE _).trans boundE.le)
    rw [isfullLoop, Pieces.walk, pieces_start, pieces_len, small]
    cases rest with
    | nil =>
      have isE : e = last := some.inj isLast
      subst isE
      by_cases start : e.off = off
      · have full : ¬(off + e.len < total ∧
            ([] : List Frent).head?.all (fun next => next.off ≠ off + e.len) = true) := by
          omega
        rw [if_neg full, if_pos start]
        rfl
      · rw [if_pos ⟨by omega, rfl⟩, if_neg start]
    | cons n rest =>
      have next : e.off + e.len ≤ n.off := behind n mem_cons_self
      have stopN : n.off + n.len ≤ total := by
        rcases Pieces.stop_le_of_mem ordered' isLast mem_cons_self with rfl | before
        · exact isTotal.ge
        · rw [pieces_stop, pieces_start] at before
          omega
      have head : ((n :: rest).head?.all (fun next => decide (next.off ≠ off + e.len)) = true) ↔
          n.off ≠ off + e.len := decide_eq_true_iff
      by_cases gap : n.off = off + e.len
      · -- no gap: the first entry begins at the offset, too
        have start : e.off = off := by omega
        rw [if_neg (fun both => head.mp both.2 gap), if_pos start]
        refine ih ordered' (fun r mem => allBounded r (mem_cons_of_mem e mem)) isLast ?_
        intro r mem
        have later : e.off + e.len ≤ r.off := behind r mem
        omega
      · rw [if_pos ⟨by omega, head.mpr gap⟩]
        split_ifs with start
        · rw [Pieces.walk, pieces_start, if_neg gap]
        · rfl

/-- The assertion on the total holds, and a queue is full if there is no gap before its last
entry, which is the last of the packet. -/
theorem isfullFragment_eq (ordered : pieces.Ordered frag.queue)
    (allBounded : ∀ e ∈ frag.queue, Bounded e) (isLast : frag.queue.getLast? = some last) :
    isfullFragment frag = some (!last.mff && (pieces.walk 0 frag.queue).isSome) := by
  have bound := (allBounded last (mem_of_getLast? isLast)).le
  have loop : isfullLoop (last.off + last.len) 0 frag.queue = pieces.walk 0 frag.queue :=
    isfullLoop_eq ordered allBounded isLast rfl (fun e _ => Nat.zero_le _)
  unfold isfullFragment
  rw [isLast]
  simp only [bind_eq_bind, bind_some]
  rw [u16_of_le bound, loop]
  cases last.mff with
  | true => rfl
  | false =>
    cases walk : pieces.walk 0 frag.queue with
    | none => rfl
    | some stop =>
      have stops : stop = last.off + last.len := Pieces.eq_stop_of_walk isLast walk
      simp [stops, kassert]

end Queue

end Bitrig.PfNorm
