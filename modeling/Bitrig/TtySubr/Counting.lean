import Bitrig.TtySubr.Rings

/-!
# Counting up to a flagged character

`ndqb` with a flag counts the characters in front of the first one that has a bit of the flag.
Its loop has moved on when it tests the quote bit, which is that of the next slot.  The count is
right exactly if this makes no difference for the characters that the loop has to come to.
-/

namespace Bitrig.TtySubr

open Bitrig.Bitmap Bitrig.Ring List

/-- What ends the loops of `ndqb` at a slot.  The index has been moved on before `isset`. -/
def ndqbStops (cs : Buffer Byte) (cq : Option (Buffer Byte)) (flag : CInt) (i : Nat) :
    Option Bool := do
  let byte ← cs.read i
  if flag &&& ttyQuote ≠ 0 then
    if byte.setWidth 32 &&& (flag &&& ~~~ttyQuote) ≠ 0 then some true
    else cq.bind fun cq => isset cq (i + 1)
  else some (byte.setWidth 32 &&& flag ≠ 0)

/-- The loops of `ndqb`, for `cc` more characters. -/
def ndqbLoop (clp : Clist) (cs : Buffer Byte) (flag : CInt) : Nat → Nat → Option Nat
  | 0, _ => some 0
  | cc + 1, i => do
    if ← ndqbStops cs clp.cCq flag i then some 0
    else if i + 1 = clp.cCn then some 1
    else (ndqbLoop clp cs flag cc (i + 1)).map (· + 1)

/-- `ndqb` with a flag that is not zero. -/
def ndqbFlag (clp : Clist) (flag : CInt) : Option Nat :=
  if clp.cCc = 0 then some 0
  else do
    let cf ← clp.cCf
    let cs ← clp.cCs
    ndqbLoop clp cs flag clp.cCc cf

/-- A character without a bit of the flag. -/
def unflagged (flag : CInt) (x : QChar) : Bool :=
  x.1.setWidth 32 &&& (flag &&& ~~~ttyQuote) = 0 ∧ ¬(flag &&& ttyQuote ≠ 0 ∧ x.2 = true)

namespace CharRing

/-- The characters up to the end of the buffer. -/
def straight (r : CharRing) : List QChar :=
  r.chars.take (r.cap - r.first)

/-- The character in a slot, counted from the first one. -/
def char (r : CharRing) (j : Nat) : QChar :=
  charAt r.bytes r.quotes (r.first + j)

/-- Wherever all characters before are unflagged and the byte has no bit of the flag, the quote
bit is that of the next slot, which the map has. -/
def QuotesAlike (r : CharRing) (flag : CInt) : Prop :=
  ∀ j < r.count, r.first + j < r.cap → (∀ i < j, unflagged flag (r.char i) = true) →
    (r.char j).1.setWidth 32 &&& (flag &&& ~~~ttyQuote) = 0 →
    (r.first + j + 1) / NBBY < qmem r.cap ∧
      bit r.quotes (r.first + j + 1) = bit r.quotes (r.first + j)

instance (r : CharRing) (flag : CInt) : Decidable (r.QuotesAlike flag) :=
  inferInstanceAs (Decidable (∀ j < r.count, _))

variable {r : CharRing} {flag : CInt} {j : Nat}

theorem straight_drop (less : j < r.count) (inside : r.first + j < r.cap) :
    r.straight.drop j = r.char j :: r.straight.drop (j + 1) := by
  have length : j < r.straight.length := by
    rw [straight, length_take, length_chars]
    omega
  rw [drop_eq_getElem_cons length]
  simp [straight, chars, window, char, slot_of_lt inside]

theorem and_not_ttyQuote (byte : Byte) (flag : CInt) :
    byte.setWidth 32 &&& (flag &&& ~~~ttyQuote) = byte.setWidth 32 &&& flag := by
  have low : ∀ byte : Byte, byte.setWidth 32 &&& ~~~ttyQuote = byte.setWidth 32 := by
    decide +kernel
  rw [← BitVec.and_assoc, BitVec.and_comm _ flag, BitVec.and_assoc, low, BitVec.and_comm]

/-- The test at a slot. -/
def stopsAt (r : CharRing) (flag : CInt) (j : Nat) : Option Bool :=
  ndqbStops ⟨r.cap, r.bytes⟩ (some ⟨qmem r.cap, r.quotes⟩) flag (r.first + j)

theorem stopsAt_of_plain (plain : flag &&& ttyQuote = 0) (inside : r.first + j < r.cap) :
    r.stopsAt flag j = some (!unflagged flag (r.char j)) := by
  unfold stopsAt ndqbStops unflagged char charAt
  rw [Buffer.read_of_lt inside]
  simp [plain, and_not_ttyQuote]

theorem stopsAt_iff (quotes : flag &&& ttyQuote ≠ 0) (inside : r.first + j < r.cap) :
    r.stopsAt flag j = some (!unflagged flag (r.char j)) ↔
      ((r.char j).1.setWidth 32 &&& (flag &&& ~~~ttyQuote) = 0 →
        (r.first + j + 1) / NBBY < qmem r.cap ∧
          bit r.quotes (r.first + j + 1) = bit r.quotes (r.first + j)) := by
  have stops : r.stopsAt flag j =
      if (r.char j).1.setWidth 32 &&& (flag &&& ~~~ttyQuote) ≠ 0 then some true
      else isset ⟨qmem r.cap, r.quotes⟩ (r.first + j + 1) := by
    unfold stopsAt ndqbStops
    rw [Buffer.read_of_lt inside]
    exact if_pos quotes
  by_cases bits : (r.char j).1.setWidth 32 &&& (flag &&& ~~~ttyQuote) = 0
  · have free : unflagged flag (r.char j) = !bit r.quotes (r.first + j) := by
      rw [Bool.eq_iff_iff, Bool.not_eq_true', unflagged, decide_eq_true_iff]
      exact ⟨fun both => Bool.eq_false_of_not_eq_true fun quoted => both.2 ⟨quotes, quoted⟩,
        fun off => ⟨bits, fun both => Bool.false_ne_true (off.symm.trans both.2)⟩⟩
    rw [stops, if_neg (not_not.mpr bits), free, Bool.not_not]
    by_cases mapped : (r.first + j + 1) / NBBY < qmem r.cap
    · rw [isset_eq mapped, Option.some.injEq]
      exact ⟨fun same _ => ⟨mapped, same⟩, fun alike => (alike bits).2⟩
    · have outside : isset ⟨qmem r.cap, r.quotes⟩ (r.first + j + 1) = none := by
        simp [isset, Buffer.read, mapped]
      rw [outside]
      exact iff_of_false nofun fun alike => mapped (alike bits).1
  · have flagged : unflagged flag (r.char j) = false := decide_eq_false fun both => bits both.1
    rw [stops, if_pos bits, flagged]
    exact iff_of_true rfl fun none => absurd none bits

/-- The loop counts right exactly if the test is right wherever it has to be made. -/
theorem ndqbLoop_iff {cc : Nat} (isCount : j + cc = r.count) (inside : r.first + j < r.cap)
    {first last : Option Nat} :
    ndqbLoop (clist r.cap r.count first last r.bytes r.quotes) ⟨r.cap, r.bytes⟩ flag cc
        (r.first + j) = some ((r.straight.drop j).takeWhile (unflagged flag)).length ↔
      ∀ k, j ≤ k → k < r.count → r.first + k < r.cap →
        (∀ i, j ≤ i → i < k → unflagged flag (r.char i) = true) →
        r.stopsAt flag k = some (!unflagged flag (r.char k)) := by
  induction cc generalizing j with
  | zero =>
    have short : r.straight.length ≤ j := by
      rw [straight, length_take, length_chars]
      omega
    rw [drop_eq_nil_of_le short]
    exact iff_of_true rfl fun k above below => absurd isCount (by omega)
  | succ cc ih =>
    have here : ndqbStops ⟨r.cap, r.bytes⟩
        (clist r.cap r.count first last r.bytes r.quotes).cCq flag (r.first + j) =
      r.stopsAt flag j := rfl
    rw [straight_drop (by omega) inside, takeWhile_cons, ndqbLoop, here]
    by_cases right : r.stopsAt flag j = some (!unflagged flag (r.char j))
    · by_cases free : unflagged flag (r.char j) = true
      · rw [right, if_pos free, free]
        by_cases isEnd : r.first + j + 1 = r.cap
        · have short : r.straight.length ≤ j + 1 := by
            rw [straight, length_take]
            omega
          rw [drop_eq_nil_of_le short]
          refine iff_of_true (if_pos isEnd) fun k above below within before => ?_
          obtain rfl : k = j := by omega
          exact right
        · have rest := @ih (j + 1) (by omega) (by omega)
          rw [← Nat.add_assoc] at rest
          have onward (n : Option Nat) (m : Nat) : n.map (· + 1) = some (m + 1) ↔ n = some m := by
            cases n <;> simp
          refine Iff.trans ?_ (rest.trans ⟨fun later k above below within before => ?_,
            fun all k above below within before =>
              all k (by omega) below within fun i from_ lt => ?_⟩)
          · rw [length_cons]
            refine Iff.trans (Iff.of_eq ?_) (onward _ _)
            exact congrArg (· = some _) (if_neg isEnd)
          · rcases Nat.eq_or_lt_of_le above with rfl | behind
            · exact right
            · exact later k behind below within fun i from_ lt => before i (by omega) lt
          · rcases Nat.eq_or_lt_of_le from_ with rfl | behind
            · exact free
            · exact before i behind lt
      · rw [right, if_neg free, Bool.eq_false_of_not_eq_true free]
        refine iff_of_true rfl fun k above below within before => ?_
        rcases Nat.eq_or_lt_of_le above with rfl | behind
        · rw [right, Bool.eq_false_of_not_eq_true free]
        · exact absurd (before j le_rfl behind) free
    · refine iff_of_false ?_ fun all => right (all j le_rfl (by omega) inside fun i _ _ => by omega)
      -- a wrong test stops where the count goes on, or goes on where it stops
      intro counted
      cases stops : r.stopsAt flag j with
      | none => simp [stops] at counted
      | some stop =>
        have wrong : stop = unflagged flag (r.char j) := by
          rw [stops, Option.some.injEq] at right
          exact (Bool.eq_not_of_ne right).trans (Bool.not_not _)
        rw [stops, wrong] at counted
        cases free : unflagged flag (r.char j) with
        | true => simp [free] at counted
        | false =>
          simp only [free, Option.bind_eq_bind, Option.bind_some, Bool.false_eq_true, if_false,
            length_nil] at counted
          split at counted
          · cases counted
          · obtain ⟨_, _, succ⟩ := Option.map_eq_some_iff.mp counted
            cases succ

end CharRing

/-- For a list with a quote map, whose pointers are set unless it is empty, `ndqb` counts the
characters up to the end of the buffer in front of the first one with a bit of the flag, exactly
if the flag is without `TTY_QUOTE` or the quote bits that it tests are as those it means. -/
theorem ndqb_counts_unflagged (r : CharRing) {first last : Option Nat} {flag : CInt}
    (set : 0 < r.count → first = some r.first) :
    ndqbFlag (clist r.cap r.count first last r.bytes r.quotes) flag =
        some (r.straight.takeWhile (unflagged flag)).length ↔
      flag &&& ttyQuote = 0 ∨ r.QuotesAlike flag := by
  rcases Nat.eq_zero_or_pos r.count with empty | positive
  · have none : r.straight = [] := by
      rw [← length_eq_zero_iff, CharRing.straight, length_take, CharRing.length_chars, empty]
      exact Nat.min_zero _
    rw [none]
    exact iff_of_true (if_pos empty) (.inr fun j below => absurd below (by omega))
  · have inside : r.first + 0 < r.cap := CharRing.first_lt positive
    have counted : ndqbFlag (clist r.cap r.count first last r.bytes r.quotes) flag =
        ndqbLoop (clist r.cap r.count first last r.bytes r.quotes) ⟨r.cap, r.bytes⟩ flag r.count
          (r.first + 0) := by
      rw [set positive]
      exact if_neg positive.ne'
    rw [counted]
    refine (CharRing.ndqbLoop_iff (Nat.zero_add _) inside).trans ?_
    by_cases plain : flag &&& ttyQuote = 0
    · exact iff_of_true (fun k _ _ within _ => CharRing.stopsAt_of_plain plain within) (.inl plain)
    · rw [or_iff_right plain]
      constructor
      · intro right j below within before
        exact (CharRing.stopsAt_iff plain within).mp
          (right j j.zero_le below within fun i _ lt => before i lt)
      · intro alike k _ below within before
        exact (CharRing.stopsAt_iff plain within).mpr
          (alike k below within fun i lt => before i i.zero_le lt)

/-- Two characters at the end of a buffer of three and one at its start, with a quote map. -/
def wrapped (quotes : Byte) : CharRing where
  cap := 3
  first := 1
  count := 3
  bytes i := [0x63, 0x61, 0x62].getD i 0
  quotes _ := quotes
  inside _ := by decide
  fits := by decide

theorem wrapped_counted :
    ndqbFlag (wrapped 0).toClist ttyQuote =
      some ((wrapped 0).straight.takeWhile (unflagged ttyQuote)).length :=
  (ndqb_counts_unflagged (wrapped 0) fun _ => rfl).mpr (.inr (by decide))

/-- A character is not counted because the one behind it is quoted. -/
theorem quote_of_next_counts :
    ndqbFlag (wrapped 4).toClist ttyQuote = some 0 ∧
      ((wrapped 4).straight.takeWhile (unflagged ttyQuote)).length = 1 := by
  decide +kernel

end Bitrig.TtySubr
