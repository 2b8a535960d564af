import Bitrig.TtySubr.Rings

/-!
# The functions on one list

What a clist represents, and what each function of one list makes of it.  The loops of the
block functions have a step lemma for one contiguous part, and go on by induction on the bound
of their iterations.
-/

namespace Bitrig.TtySubr

open Bitrig.Bitmap Bitrig.Ring List Option CharRing

/-- The clist is a bounded queue with the given characters. -/
def Represents (clp : Clist) (cap : Nat) (xs : List QChar) : Prop :=
  ∃ r : CharRing, clp = r.toClist.resetEmpty ∧ r.cap = cap ∧ r.chars = xs

section Represents

variable {r : CharRing} {clp : Clist} {cap : Nat} {xs : List QChar} {x : QChar}

theorem CharRing.resetEmpty_of_pos (some : 0 < r.count) : r.toClist.resetEmpty = r.toClist :=
  if_neg (ne_of_gt some)

section

variable (holds : Represents clp cap xs)
include holds

theorem Represents.cCn : clp.cCn = cap := by
  rcases holds with ⟨r, rfl, rfl, -⟩
  unfold Clist.resetEmpty
  split <;> rfl

theorem Represents.cCc : clp.cCc = xs.length := by
  rcases holds with ⟨r, rfl, -, rfl⟩
  rw [length_chars]
  unfold Clist.resetEmpty
  split <;> rfl

theorem Represents.length_le : xs.length ≤ cap := by
  rcases holds with ⟨r, -, rfl, rfl⟩
  rw [length_chars]
  exact r.fits

/-- The pointers of a list that is not empty are set. -/
theorem Represents.exists_ring (some : xs ≠ []) :
    ∃ r : CharRing, 0 < r.count ∧ clp = r.toClist ∧ r.cap = cap ∧ r.chars = xs := by
  rcases holds with ⟨r, rfl, rfl, rfl⟩
  have positive : 0 < r.count := by
    rw [← length_chars]
    exact length_pos_of_ne_nil some
  exact ⟨r, positive, resetEmpty_of_pos positive, rfl, rfl⟩

/-- A list with room, ready to take characters. -/
theorem Represents.exists_restart :
    ∃ r : CharRing, clp.restart = r.toClist ∧ r.cap = cap ∧ r.chars = xs := by
  rcases holds with ⟨r, rfl, rfl, rfl⟩
  rcases Nat.eq_zero_or_pos r.count with empty | some
  · refine ⟨start r.cap r.bytes r.quotes, ?_, rfl, ?_⟩
    · have origin : slot r.cap 0 0 = 0 := by
        unfold slot
        split <;> omega
      unfold toClist
      rw [empty]
      change clist r.cap 0 (some 0) (some 0) r.bytes r.quotes =
        clist r.cap 0 (some 0) (some (slot r.cap 0 0)) r.bytes r.quotes
      rw [origin]
    · simp [chars, start, empty]
  · refine ⟨r, ?_, rfl, rfl⟩
    rw [resetEmpty_of_pos some]
    exact if_neg (ne_of_gt some)

end

theorem represents_clalloc (size : Nat) : Represents (clalloc size true) size [] :=
  ⟨start size (fun _ => 0) (fun _ => 0), rfl, rfl, rfl⟩

end Represents

/-! ### Single characters -/

section Single

variable {clp : Clist} {cap : Nat} {xs : List QChar} {x : QChar} {c : CInt} {r : CharRing} {k : Nat}
  {bytes quotes : Nat → Byte}

theorem getc_empty (holds : Represents clp cap []) : getc clp = some (-1, clp) :=
  if_pos holds.cCc

/-- The pointer to the first character has moved on, the one to the next open character is the
same. -/
theorem CharRing.toClist_shift (enough : k ≤ r.count) (within : r.first < r.cap)
    (straight : r.first + k ≤ r.cap) : (r.shift k bytes quotes enough).toClist =
      clist r.cap (r.count - k) (some (r.toClist.wrap (r.first + k)))
        (some (r.back)) bytes quotes := by
  have fits := r.fits
  have last : slot r.cap (slot r.cap r.first k) (r.count - k) = r.back := by
    rw [slot_slot within (by omega), Nat.add_sub_cancel' enough]
  have onward : r.toClist.wrap (r.first + k) = slot r.cap r.first k := by
    have advance := slot_advance (i := 0) (m := k) within (by omega)
    rw [slot_zero within, zero_add] at advance
    exact advance straight
  rw [onward, ← last]
  rfl

/-- The pointer to the next open character has moved on. -/
theorem CharRing.toClist_grow (within : r.first < r.cap) (fits : r.count + k ≤ r.cap)
    (straight : r.back + k ≤ r.cap) :
    (r.resize (r.count + k) bytes quotes fits).toClist = clist r.cap (r.count + k) (some r.first)
        (some (r.toClist.wrap (r.back + k))) bytes quotes := by
  have onward : r.toClist.wrap (r.back + k) =
      slot r.cap r.first (r.count + k) :=
    slot_advance within fits straight
  rw [onward]
  rfl

theorem getc_cons (holds : Represents clp cap (x :: xs)) :
    ∃ clp', getc clp = some (code x, clp') ∧ Represents clp' cap xs := by
  rcases holds.exists_ring (by simp) with ⟨r, some, rfl, rfl, chars⟩
  have within := first_lt some
  rw [chars_eq_cons some] at chars
  obtain ⟨rfl, rfl⟩ := List.cons.inj chars
  -- the first slot is cleared, and the ring begins behind it
  let r' := r.shift 1 (Function.update r.bytes r.first 0) (putBit r.quotes r.first false) some
  refine ⟨r'.toClist.resetEmpty, ?_, r', rfl, rfl, ?_⟩
  · unfold getc
    rw [if_neg (show r.toClist.cCc ≠ 0 from ne_of_gt some)]
    change ((r.toClist.load r.first).bind fun byte => _) = _
    rw [toClist_shift some within within]
    simp only [toClist, load_clist within, store_clist within, addQuote_clist within,
      dropQuote_clist within, bind, bind_some]
    rfl
  · apply chars_shift
    intro i behind less
    have fits := r.fits
    apply charAt_put_of_ne
    have apart : slot r.cap r.first i ≠ slot r.cap r.first 0 :=
      slot_ne (by omega) (by omega) (by omega)
    rwa [slot_zero within] at apart

theorem putc_full (holds : Represents clp cap xs) (full : xs.length = cap) :
    putc c clp = some (-1, clp) := by
  unfold putc
  rw [if_pos (by rw [holds.cCc, holds.cCn, full])]

theorem putc_room (holds : Represents clp cap xs) (room : xs.length < cap) :
    ∃ clp', putc c clp = some (0, clp') ∧ Represents clp' cap (xs ++ [decode c]) := by
  have notFull : clp.cCc ≠ clp.cCn := by
    rw [holds.cCc, holds.cCn]
    exact ne_of_lt room
  rcases holds.exists_restart with ⟨r, restart, rfl, rfl⟩
  rw [length_chars] at room
  have within : r.first < r.cap := r.inside (by omega)
  have back : r.back < r.cap := slot_lt within r.fits
  let r' := r.resize (r.count + 1)
    (Function.update r.bytes (r.back) (c.setWidth 8))
    (putBit r.quotes (r.back) (decode c).2) room
  refine ⟨r'.toClist, ?_, r', ?_, rfl, ?_⟩
  · unfold putc
    rw [if_neg notFull, restart]
    change ((r.toClist.store (r.back) _).bind fun clp => _) = _
    rw [toClist_grow within room back]
    simp only [toClist, store_clist back, putQuote_clist back, bind, bind_some]
    rfl
  · exact (resetEmpty_of_pos (Nat.succ_pos r.count)).symm
  · rw [chars_grow room]
    · rw [window_succ, slot_zero back, charAt_put_self]
      rfl
    · intro i less
      apply charAt_put_of_ne
      exact slot_ne (by omega) room (ne_of_lt less)

theorem unputc_empty (holds : Represents clp cap []) : unputc clp = some (-1, clp) :=
  if_pos holds.cCc

theorem unputc_append (holds : Represents clp cap (xs ++ [x])) :
    ∃ clp', unputc clp = some (code x, clp') ∧ Represents clp' cap xs := by
  rcases holds.exists_ring (by simp) with ⟨r, positive, rfl, rfl, chars⟩
  have within := first_lt positive
  have fits := r.fits
  rw [chars_eq_append positive] at chars
  obtain ⟨rfl, single⟩ := append_inj' chars rfl
  obtain ⟨rfl, -⟩ := List.cons.inj single
  obtain ⟨rest, count⟩ := Nat.exists_eq_add_of_le' positive
  have back : slot r.cap r.first (r.count - 1) < r.cap := slot_lt within (by omega)
  have backward : (if r.back = 0 then r.cap - 1
      else r.back - 1) = slot r.cap r.first (r.count - 1) := by
    unfold CharRing.back
    rw [count]
    exact slot_pred within (by omega)
  -- the last slot is cleared, and is the next open one
  let r' := r.resize (r.count - 1)
    (Function.update r.bytes (slot r.cap r.first (r.count - 1)) 0)
    (putBit r.quotes (slot r.cap r.first (r.count - 1)) false) (by omega)
  refine ⟨r'.toClist.resetEmpty, ?_, r', rfl, rfl, ?_⟩
  · unfold unputc
    rw [if_neg (show r.toClist.cCc ≠ 0 from ne_of_gt positive)]
    let shorter (cl : Nat) : Option (CInt × Clist) := do
      let clp := clist r.cap (r.count - 1) (some r.first) (some cl) r.bytes r.quotes
      let byte ← clp.load cl
      let clp ← clp.store cl 0
      let c ← clp.addQuote cl (byte.setWidth 32)
      let clp ← clp.dropQuote cl
      some (c, clp.resetEmpty)
    change shorter (if r.back = 0 then r.cap - 1
      else r.back - 1) = _
    rw [backward]
    simp only [shorter, load_clist back, store_clist back, addQuote_clist back,
      dropQuote_clist back, bind, bind_some]
    rfl
  · apply chars_shrink (Nat.sub_le r.count 1)
    intro i less
    apply charAt_put_of_ne
    exact slot_ne (by omega) (by omega) (by omega)

end Single

/-! ### Blocks of characters -/

section Blocks

variable {clp : Clist} {cap fuel n : Nat} {xs : List QChar} {r : CharRing} {count : Int}
  {cp : Nat → Byte} {p : Nat}

/-- The part of the characters that comes before the end of the ring. -/
theorem CharRing.contiguous_front (some : 0 < r.count) :
    0 < contiguous r.toClist r.first r.back ∧ contiguous r.toClist r.first r.back ≤ r.count ∧
      r.first + contiguous r.toClist r.first r.back ≤ r.cap := by
  have within := first_lt some
  have fits := r.fits
  have end_ : r.toClist.cCe = r.cap := rfl
  unfold contiguous back
  rcases lt_or_ge (r.first + r.count) r.cap with before | behind
  · rw [slot_of_lt before, if_neg (by omega)]
    omega
  · rw [slot_of_le behind, if_pos (by omega)]
    omega

/-- One iteration takes the smaller one of what is there and what is wanted. -/
theorem exists_portion {limit : Nat} (there : 0 < limit) (wanted : 0 < n) :
    ∃ k, (if limit > n then n else limit) = k ∧ 0 < k ∧ k ≤ n ∧ k ≤ limit := by
  refine ⟨_, rfl, ?_⟩
  split <;> omega

/-- What one iteration takes from the front. -/
theorem CharRing.exists_front (some : 0 < r.count) (wanted : 0 < n) :
    ∃ k, (if contiguous r.toClist r.first r.back > n then n
        else contiguous r.toClist r.first r.back) = k ∧
      0 < k ∧ k ≤ n ∧ k ≤ r.count ∧ r.first + k ≤ r.cap := by
  obtain ⟨there, limited, straight⟩ := contiguous_front some
  obtain ⟨k, isPart, positive, wanted, there⟩ := exists_portion there wanted
  exact ⟨k, isPart, positive, wanted, there.trans limited, by omega⟩

theorem CharRing.drop_of_not (done : ¬(n > 0 ∧ r.count > 0)) : r.chars.drop n = r.chars := by
  rcases Nat.eq_zero_or_pos n with rfl | wanted
  · rfl
  · have empty : r.chars = [] := by
      apply eq_nil_of_length_eq_zero
      rw [length_chars]
      omega
    rw [empty, drop_nil]

/-- The loop of `ndflush` takes the characters from the front. -/
theorem ndflushLoop_eq (enough : n < fuel) :
    ∃ r' : CharRing, ndflushLoop fuel r.toClist n = some r'.toClist ∧ r'.cap = r.cap ∧
      r'.chars = r.chars.drop n := by
  induction fuel generalizing r n with
  | zero => exact absurd enough (Nat.not_lt_zero n)
  | succ fuel ih =>
    unfold ndflushLoop
    split
    case isFalse done => exact ⟨r, rfl, rfl, (drop_of_not done).symm⟩
    case isTrue more =>
      obtain ⟨wanted, some⟩ := more
      have within := first_lt some
      obtain ⟨k, isPart, positive, wanted, enoughHere, straight⟩ :=
        exists_front some wanted
      simp only [toClist_cCf, toClist_cCl, bind, bind_some, isPart]
      obtain ⟨r', looped, cap, chars⟩ :=
        ih (r := r.shift k r.bytes r.quotes enoughHere) (n := n - k) (by omega)
      rw [toClist_shift enoughHere within straight] at looped
      refine ⟨r', looped, cap, ?_⟩
      rw [chars, chars_shift enoughHere (fun _ _ _ => rfl), drop_drop,
        Nat.add_sub_cancel' wanted]

theorem Clist.resetEmpty_idem : clp.resetEmpty.resetEmpty = clp.resetEmpty := by
  unfold Clist.resetEmpty
  by_cases empty : clp.cCc = 0
  · rw [if_pos empty, if_pos empty]
  · rw [if_neg empty, if_neg empty]

theorem ndflush_eq (holds : Represents clp cap xs) (enough : count.toNat < fuel) :
    ∃ clp', ndflush fuel clp count = some clp' ∧ Represents clp' cap (xs.drop count.toNat) := by
  have counted := holds.cCc
  unfold ndflush
  split
  case isTrue all =>
    -- the list is emptied at once
    rcases holds with ⟨r, rfl, rfl, rfl⟩
    refine ⟨_, rfl, start r.cap r.bytes r.quotes, ?_, rfl, ?_⟩
    · unfold Clist.resetEmpty
      split <;> rfl
    · rw [drop_of_length_le (by omega)]
      rfl
  case isFalse =>
    rcases holds with ⟨r, rfl, rfl, rfl⟩
    rcases Nat.eq_zero_or_pos r.count with empty | some
    · -- there is nothing to take
      obtain ⟨fuel, rfl⟩ := Nat.exists_eq_add_of_le' enough
      rw [length_chars] at counted
      refine ⟨_, ?_, r, rfl, rfl, (drop_of_not (by omega)).symm⟩
      unfold ndflushLoop
      rw [if_neg (by omega), map_some, Clist.resetEmpty_idem]
    · obtain ⟨r', looped, cap, chars⟩ := ndflushLoop_eq (r := r) enough
      refine ⟨_, ?_, r', rfl, cap, chars⟩
      rw [resetEmpty_of_pos some, looped]
      rfl

/-- The bytes that are copied in one iteration. -/
theorem CharRing.slice_front {k : Nat} (enough : k ≤ r.count) (straight : r.first + k ≤ r.cap)
    (within : r.first < r.cap) :
    (⟨r.cap, r.bytes⟩ : Buffer Byte).slice r.first k = some ((r.chars.take k).map Prod.fst) := by
  rw [Buffer.slice_of_le straight]
  unfold chars
  rw [window_take enough within r.fits, window_straight straight, List.map_map]
  rfl

/-- The loop of `q_to_b` copies the characters from the front. -/
theorem qToBLoop_eq {p : List Byte} (enough : n < fuel) :
    ∃ r' : CharRing, qToBLoop fuel r.toClist n p =
        some (p ++ (r.chars.take n).map Prod.fst, r'.toClist) ∧ r'.cap = r.cap ∧
      r'.chars = r.chars.drop n := by
  induction fuel generalizing r n p with
  | zero => exact absurd enough (Nat.not_lt_zero n)
  | succ fuel ih =>
    unfold qToBLoop
    split
    case isFalse done =>
      have untouched := drop_of_not done
      refine ⟨r, ?_, rfl, untouched.symm⟩
      have none : r.chars.take n = [] := by
        have whole := take_append_drop n r.chars
        rw [untouched] at whole
        exact append_left_eq_self.mp whole
      rw [none, map_nil, append_nil]
    case isTrue more =>
      obtain ⟨wanted, some⟩ := more
      have within := first_lt some
      obtain ⟨k, isPart, positive, wanted, enoughHere, straightHere⟩ :=
        exists_front some wanted
      obtain ⟨quotes', written, cleared⟩ := r.overwrite positive straightHere fun _ => 0
      simp only [toClist_cCf, toClist_cCl, toClist_cCs, bind, bind_some,
        isPart, slice_front enoughHere straightHere within, written]
      let rest := r.shift k (putBytes r.bytes r.first k fun _ => 0) quotes' enoughHere
      obtain ⟨r', looped, cap, chars⟩ :=
        ih (r := rest) (n := n - k) (p := p ++ (r.chars.take k).map Prod.fst) (by omega)
      have restChars : rest.chars = r.chars.drop k := by
        apply chars_shift
        intro i behind less
        apply charAt_putBytes_of_not _ cleared
        unfold slot
        have fits := r.fits
        split <;> omega
      refine ⟨r', ?_, cap, ?_⟩
      · unfold rest at looped
        rw [toClist_shift enoughHere within straightHere] at looped
        refine looped.trans ?_
        rw [restChars, append_assoc, ← map_append, ← take_add, Nat.add_sub_cancel' wanted]
      · rw [chars, restChars, drop_drop, Nat.add_sub_cancel' wanted]

theorem qToB_eq (holds : Represents clp cap xs) (enough : count.toNat < fuel) :
    ∃ clp', qToB fuel clp count = some ((xs.take count.toNat).map Prod.fst, clp') ∧
      Represents clp' cap (xs.drop count.toNat) := by
  have counted := holds.cCc
  unfold qToB
  rcases holds with ⟨r, rfl, rfl, rfl⟩
  rcases Nat.eq_zero_or_pos r.count with empty | some
  · obtain ⟨fuel, rfl⟩ := Nat.exists_eq_add_of_le' enough
    rw [length_chars] at counted
    have noChars : r.chars = [] := eq_nil_of_length_eq_zero (by simpa using empty)
    refine ⟨_, ?_, r, rfl, rfl, (drop_of_not (by omega)).symm⟩
    unfold qToBLoop
    rw [if_neg (by omega), noChars, take_nil]
    simp only [bind, bind_some, Clist.resetEmpty_idem]
    rfl
  · obtain ⟨r', looped, cap, chars⟩ := qToBLoop_eq (r := r) (p := []) enough
    refine ⟨_, ?_, r', rfl, cap, chars⟩
    rw [resetEmpty_of_pos some, looped]
    rfl

/-- What one iteration puts behind the characters: it comes before the end of the ring, or before
the first character. -/
theorem CharRing.exists_back (room : r.count < r.cap) (within : r.first < r.cap) (wanted : 0 < n) :
    ∃ k, (if (if r.first > r.back then r.first - r.back else r.toClist.cCe - r.back) > n then n
        else if r.first > r.back then r.first - r.back else r.toClist.cCe - r.back) = k ∧
      0 < k ∧ k ≤ n ∧ r.count + k ≤ r.cap ∧ r.back + k ≤ r.cap := by
  obtain ⟨limit, isLimit, there, limited, straight⟩ : ∃ limit, (if r.first > r.back then
      r.first - r.back else r.toClist.cCe - r.back) = limit ∧
        0 < limit ∧ r.count + limit ≤ r.cap ∧ r.back + limit ≤ r.cap := by
    have end_ : r.toClist.cCe = r.cap := rfl
    refine ⟨_, rfl, ?_⟩
    rw [end_]
    unfold back
    rcases lt_or_ge (r.first + r.count) r.cap with before | behind
    · rw [slot_of_lt before, if_neg (by omega)]
      omega
    · rw [slot_of_le behind, if_pos (by omega)]
      omega
  rw [isLimit]
  obtain ⟨k, isPart, positive, wanted, here⟩ := exists_portion there wanted
  exact ⟨k, isPart, positive, wanted, by omega, by omega⟩

/-- Unquoted characters from the memory of a caller. -/
def unquoted (cp : Nat → Byte) (p n : Nat) : List QChar :=
  (List.range n).map fun i => (cp (p + i), false)

theorem length_unquoted : (unquoted cp p n).length = n := by
  simp [unquoted]

theorem unquoted_add {m : Nat} :
    unquoted cp p (m + n) = unquoted cp p m ++ unquoted cp (p + m) n := by
  unfold unquoted
  rw [range_add, map_append, List.map_map]
  congr 1
  apply map_congr_left
  intro i _
  rw [add_assoc]
  rfl

/-- The loop of `b_to_q` appends what there is room for. -/
theorem bToQLoop_eq (enough : n < fuel) : ∃ r' : CharRing, bToQLoop cp fuel r.toClist p n =
        some (n - (r.cap - r.count), r'.toClist) ∧ r'.cap = r.cap ∧
      r'.chars = offer r.cap r.chars (unquoted cp p n) := by
  induction fuel generalizing r n p with
  | zero => exact absurd enough (Nat.not_lt_zero n)
  | succ fuel ih =>
    unfold bToQLoop
    split
    case isFalse done =>
      have done : ¬(n > 0 ∧ r.count < r.cap) := done
      refine ⟨r, ?_, rfl, ?_⟩
      · have rest : n - (r.cap - r.count) = n := by omega
        rw [rest]
      · rcases Nat.eq_zero_or_pos n with rfl | wanted
        · exact offer_nil.symm
        · rw [offer_of_full]
          rw [length_chars]
          omega
    case isTrue more =>
      obtain ⟨wanted, room⟩ : 0 < n ∧ r.count < r.cap := more
      have within : r.first < r.cap := r.inside (by omega)
      obtain ⟨k, isPart, positive, wanted, fits, straightHere⟩ :=
        exists_back room within wanted
      obtain ⟨quotes', written, cleared⟩ :=
        r.overwrite positive straightHere fun i => cp (p + i)
      simp only [toClist_cCf, toClist_cCl, toClist_cCs, bind, bind_some,
        isPart, written]
      let longer := r.resize (r.count + k)
        (putBytes r.bytes (r.back) k fun i => cp (p + i)) quotes' fits
      obtain ⟨r', looped, cap, chars⟩ := ih (r := longer) (n := n - k) (p := p + k) (by omega)
      have longerChars : longer.chars = offer r.cap r.chars (unquoted cp p k) := by
        rw [offer_of_le (by rw [length_chars, length_unquoted]; exact fits)]
        unfold longer
        rw [chars_grow fits]
        · congr 1
          rw [window_straight straightHere]
          apply map_congr_left
          intro i member
          have less := mem_range.mp member
          rw [charAt_putBytes ⟨by omega, by omega⟩ cleared, Nat.add_sub_cancel_left]
        · intro i less
          exact charAt_putBytes_of_not (slot_not_behind less fits) cleared
      refine ⟨r', ?_, cap, ?_⟩
      · unfold longer at looped
        rw [toClist_grow within fits straightHere] at looped
        refine looped.trans ?_
        have rest : n - k - (r.cap - (r.count + k)) = n - (r.cap - r.count) := by omega
        rw [← rest]
        rfl
      · have sameCap : longer.cap = r.cap := rfl
        rw [chars, longerChars, sameCap, offer_offer, ← unquoted_add, Nat.add_sub_cancel' wanted]

theorem bToQ_eq (holds : Represents clp cap xs) (enough : count.toNat < fuel) :
    ∃ clp', bToQ fuel cp count clp = some (count.toNat - (cap - xs.length), clp') ∧
      Represents clp' cap (offer cap xs (unquoted cp 0 count.toNat)) := by
  have counted := holds.cCc
  have total := holds.cCn
  have bounded := holds.length_le
  unfold bToQ
  split
  case isTrue nothing =>
    have none : count.toNat = 0 := by omega
    rw [none]
    refine ⟨clp, ?_, ?_⟩
    · rw [Nat.zero_sub]
    · change Represents clp cap (offer cap xs [])
      rw [offer_nil]
      exact holds
  case isFalse =>
    split
    case isTrue full =>
      refine ⟨clp, ?_, ?_⟩
      · have noRoom : cap - xs.length = 0 := by omega
        rw [noRoom, Nat.sub_zero]
      · rw [offer_of_full (by omega)]
        exact holds
    case isFalse =>
      rcases holds.exists_restart with ⟨r, restart, rfl, rfl⟩
      obtain ⟨r', looped, cap, chars⟩ := bToQLoop_eq enough
      rw [restart, looped, length_chars]
      refine ⟨r'.toClist, rfl, r', ?_, cap, chars⟩
      -- at least one character fits
      rw [resetEmpty_of_pos]
      have length := congrArg List.length chars
      simp only [offer, length_append, length_take, length_unquoted,
        length_chars] at length
      omega

theorem ndqb_eq (holds : Represents clp cap xs) :
    ∃ n, ndqb clp = some n ∧ n ≤ xs.length ∧ (n = 0 ↔ xs = []) := by
  rcases eq_or_ne xs [] with rfl | nonempty
  · exact ⟨0, if_pos holds.cCc, le_refl 0, by simp⟩
  · rcases holds.exists_ring nonempty with ⟨r, some, rfl, rfl, rfl⟩
    obtain ⟨there, limited, -⟩ := contiguous_front some
    refine ⟨_, if_neg (show r.toClist.cCc ≠ 0 from ne_of_gt some), ?_, ?_⟩
    · rw [length_chars]
      exact limited
    · exact iff_of_false (ne_of_gt there) nonempty

end Blocks

/-! ### Enumeration -/

section Enumeration

variable {r : CharRing} {clp : Clist} {cap fuel i : Nat} {xs : List QChar} {c : CInt}

/-- What `firstc` and `nextc` give at a character. -/
def CharRing.cursor (r : CharRing) (i : Nat) : Cursor where
  cp := some (slot r.cap r.first i)
  c := code (charAt r.bytes r.quotes (slot r.cap r.first i))
  cc := r.count - i

theorem CharRing.firstc_eq (some : 0 < r.count) : firstc r.toClist c = .some (r.cursor 0) := by
  have within := first_lt some
  unfold firstc
  rw [if_neg (show r.toClist.cCc ≠ 0 from ne_of_gt some)]
  change ((r.toClist.load r.first).bind fun byte => _) = _
  simp only [toClist, load_clist within, addQuote_clist within, bind, bind_some]
  unfold cursor
  rw [slot_zero within]
  rfl

/-- The static count is right at every character, whether it is set anew or not. -/
theorem CharRing.cc_eq (less : i < r.count) :
    (if r.toClist.cCf = (r.cursor i).cp then r.toClist.cCc else (r.cursor i).cc) = r.count - i := by
  split
  case isTrue again =>
    have within := first_lt (Nat.zero_lt_of_lt less)
    have fits := r.fits
    have same : r.first = slot r.cap r.first i := some.inj again
    have start : i = 0 := by
      by_contra behind
      have apart : slot r.cap r.first 0 ≠ slot r.cap r.first i :=
        slot_ne (by omega) (by omega) (Ne.symm behind)
      rw [slot_zero within] at apart
      exact apart same
    rw [start]
    rfl
  case isFalse => rfl

theorem CharRing.nextc_eq (less : i + 1 < r.count) :
    nextc r.toClist (r.cursor i) = some (r.cursor (i + 1)) := by
  have within := first_lt (Nat.zero_lt_of_lt less)
  have fits := r.fits
  have inside : slot r.cap r.first (i + 1) < r.cap := slot_lt within (by omega)
  have onward : r.toClist.wrap (slot r.cap r.first i + 1) = slot r.cap r.first (i + 1) :=
    slot_advance within (by omega) (slot_lt within (by omega))
  unfold nextc
  rw [cc_eq (by omega)]
  change (if r.count - i = 0 then _ else if r.count - i - 1 = 0 then _ else _) = _
  rw [if_neg (by omega), if_neg (by omega), onward]
  simp only [toClist, load_clist inside, addQuote_clist inside, bind, bind_some]
  rfl

theorem CharRing.nextc_last (last : i + 1 = r.count) :
    ∃ c cc, nextc r.toClist (r.cursor i) = some ⟨none, c, cc⟩ := by
  unfold nextc
  rw [cc_eq (by omega)]
  change ∃ c cc, (if r.count - i = 0 then _ else if r.count - i - 1 = 0 then _ else _) = _
  rw [if_neg (by omega), if_pos (by omega)]
  exact ⟨_, _, rfl⟩

theorem CharRing.drop_eq_cons (less : i < r.count) :
    r.chars.drop i = charAt r.bytes r.quotes (slot r.cap r.first i) :: r.chars.drop (i + 1) := by
  unfold chars
  rw [drop_eq_getElem_cons (by rw [length_window]; exact less)]
  simp [window]

/-- The loop sees the characters from the cursor on. -/
theorem CharRing.enumerateFrom_eq {rest : Nat} (position : i + (rest + 1) = r.count)
    (enough : rest + 1 < fuel) :
    enumerateFrom r.toClist fuel (r.cursor i) = some ((r.chars.drop i).map code) := by
  induction rest generalizing i fuel with
  | zero =>
    obtain ⟨fuel, rfl⟩ := Nat.exists_eq_add_of_le' enough
    obtain ⟨c, cc, stopped⟩ := nextc_last position
    change ((nextc r.toClist (r.cursor i)).bind fun next => _) = _
    rw [stopped, drop_eq_cons (by omega), drop_of_length_le (by simp; omega)]
    rfl
  | succ rest ih =>
    obtain ⟨fuel, rfl⟩ := Nat.exists_eq_add_of_le' (Nat.zero_lt_of_lt enough)
    change ((nextc r.toClist (r.cursor i)).bind fun next => _) = _
    rw [drop_eq_cons (i := i) (by omega), nextc_eq (by omega), bind_some,
      ih (by omega) (by omega)]
    rfl

/-- `firstc` and `nextc` enumerate the characters. -/
theorem enumerate_eq (holds : Represents clp cap xs) (enough : xs.length < fuel) :
    enumerate fuel clp c = some (xs.map code) := by
  rcases eq_or_ne xs [] with rfl | nonempty
  · obtain ⟨fuel, rfl⟩ := Nat.exists_eq_add_of_le' enough
    have counted : clp.cCc = 0 := holds.cCc
    unfold enumerate firstc
    rw [if_pos counted]
    rfl
  · rcases holds.exists_ring nonempty with ⟨r, some, rfl, rfl, rfl⟩
    rw [length_chars] at enough
    obtain ⟨rest, count⟩ := Nat.exists_eq_add_of_le' some
    unfold enumerate
    rw [firstc_eq some]
    exact enumerateFrom_eq (i := 0) (by rw [zero_add, count]) (by omega)

end Enumeration

end Bitrig.TtySubr
