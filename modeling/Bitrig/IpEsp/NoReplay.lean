import Bitrig.Lib.Bitmap
import Bitrig.IpEsp.ReplayWindow

/-!
# No number is accepted twice

The bit of a number that was accepted stays set as long as the number is in the window.  It is
lost in two ways: the window of a young association is shorter than the part of the ring that
is still in use, and the ring has four numbers less than usual where the low half wraps.
-/

namespace Bitrig.IpEsp

open Bitrig.Bitmap Function List
open Bitrig.Transition

/-! ### Extended numbers -/

/-- The extended sequence number. -/
def ext (number : U32 × U32) : Nat :=
  number.1.toNat * 2 ^ 32 + number.2.toNat

theorem low_toNat (tdb : Tdb) : tdb.low.toNat = tdb.rpl.toNat % 2 ^ 32 := by
  simp [Tdb.low]

theorem high_toNat (tdb : Tdb) : tdb.high.toNat = tdb.rpl.toNat / 2 ^ 32 := by
  simp only [Tdb.high, BitVec.toNat_setWidth, BitVec.toNat_ushiftRight, Nat.shiftRight_eq_div_pow]
  omega

theorem rpl_toNat (seqh seq : U32) :
    ((seqh.setWidth 64 <<< 32) ||| seq.setWidth 64).toNat = ext (seqh, seq) := by
  have low := seq.isLt
  have joined := Nat.two_pow_add_eq_or_of_lt low seqh.toNat
  simp only [BitVec.toNat_or, BitVec.toNat_shiftLeft, BitVec.toNat_setWidth, Nat.shiftLeft_eq]
  unfold ext
  rw [Nat.mod_eq_of_lt (by omega), Nat.mod_eq_of_lt (by omega), Nat.mod_eq_of_lt (by omega),
    mul_comm, ← joined]

/-! ### The ring of bits -/

/-- The bit of a number is set. -/
def marked (seen : Nat → U32) (seq : U32) : Bool :=
  (seen (wordOf seq)).getLsbD (31 - seq.toNat % 32)

variable {seen : Nat → U32} {seq seqh : U32} {tdb tdb' : Tdb} {packet : Packet}

theorem and_packet_ne_zero : seen (wordOf seq) &&& packetOf seq ≠ 0 ↔ marked seen seq = true := by
  have less : 31 - seq.toNat % 32 < 32 := by omega
  unfold marked packetOf
  constructor
  · intro nonzero
    by_contra clear
    apply nonzero
    apply BitVec.eq_of_getLsbD_eq
    intro i inside
    rw [BitVec.getLsbD_and, getLsbD_one_shift inside]
    by_cases here : i = 31 - seq.toNat % 32
    · subst here
      simp [Bool.not_eq_true _ ▸ clear]
    · simp [here]
  · intro set zero
    have bits := congrArg (fun x => x.getLsbD (31 - seq.toNat % 32)) zero
    simp only [BitVec.getLsbD_and, getLsbD_one_shift less, set] at bits
    simp at bits

theorem marked_mark_self : marked (mark seen seq) seq = true := by
  have less : 31 - seq.toNat % 32 < 32 := by omega
  unfold marked mark packetOf
  rw [update_self, BitVec.getLsbD_or, getLsbD_one_shift less]
  simp

theorem marked_mark {other : U32} (set : marked seen other = true) :
    marked (mark seen seq) other = true := by
  unfold marked mark at *
  by_cases here : wordOf other = wordOf seq
  · rw [here] at set ⊢
    rw [update_self, BitVec.getLsbD_or, set, Bool.true_or]
  · rw [update_of_ne here]
    exact set

/-- How far a word is behind another one on the ring. -/
def distance (i w : Nat) : Nat :=
  (w + seenSize - i) % seenSize

theorem seenSize_eq : seenSize = 67 :=
  rfl

theorem distance_eq (i w : Nat) : distance i w = (w + 67 - i) % 67 :=
  rfl

theorem wordOf_eq (seq : U32) : wordOf seq = seq.toNat % 2132 / 32 :=
  rfl

theorem wordOf_lt (seq : U32) : wordOf seq < seenSize := by
  rw [wordOf_eq, seenSize_eq]
  omega

/-- The loop ends, and only clears the words up to the given one. -/
theorem clearWords_eq {idx i fuel : Nat} (inside : i < seenSize) (target : idx < seenSize)
    (enough : distance i idx ≤ fuel) : ∃ seen', clearWords idx fuel i seen = some seen' ∧
      ∀ w < seenSize, distance i w = 0 ∨ distance i idx < distance i w → seen' w = seen w := by
  simp only [distance_eq, seenSize_eq] at *
  induction fuel generalizing i seen with
  | zero =>
    have same : i = idx := by omega
    unfold clearWords
    rw [if_neg (not_not.mpr same)]
    exact ⟨seen, rfl, fun _ _ _ => rfl⟩
  | succ fuel ih =>
    unfold clearWords
    split
    case isFalse => exact ⟨seen, rfl, fun _ _ _ => rfl⟩
    case isTrue further =>
      obtain ⟨seen', cleared, kept⟩ :
          ∃ seen', clearWords idx fuel ((i + 1) % 67) (update seen ((i + 1) % 67) 0) =
            some seen' ∧ _ :=
        ih (Nat.mod_lt _ (by decide)) (by omega)
      refine ⟨seen', cleared, ?_⟩
      intro w within apart
      rw [kept w within (by omega), update_of_ne (by omega)]

/-! ### What a call does -/

/-- A number that is not behind the counter becomes the counter. -/
structure Ahead (tdb : Tdb) (number : U32 × U32) (tdb' : Tdb) : Prop where
  later : tdb.rpl.toNat < ext number
  step : (number.2 - tdb.low).toNat = ext number - tdb.rpl.toNat
  subspace : tdb.esn = false → number.1 = tdb.high
  moved : advance tdb number.1 number.2 = some tdb'

/-- A number in the window is marked. -/
structure Within (tdb : Tdb) (number : U32 × U32) (tdb' : Tdb) : Prop where
  earlier : ext number ≤ tdb.rpl.toNat
  inside : tdb.rpl.toNat < ext number + 2100
  unseen : marked tdb.seen number.2 = false
  set : tdb' = { tdb with seen := mark tdb.seen number.2 }

theorem window_toNat (tdb : Tdb) :
    tdb.window.toNat = if tdb.high = 0 ∧ tdb.low.toNat < 2100 then tdb.low.toNat else 2100 := by
  have full : BitVec.ofNat 32 (tdbReplayMax - tdbReplayWaste) = 2100#32 := rfl
  have less : tdb.low < 2100#32 ↔ tdb.low.toNat < 2100 := by
    rfl
  unfold Tdb.window
  simp only [full, less]
  split <;> rfl

/-- The window has a length, and does not go beyond the start of the first subspace. -/
theorem window_bounds (positive : 0 < tdb.rpl.toNat) :
    0 < tdb.window.toNat ∧ tdb.window.toNat ≤ 2100 ∧
      (tdb.high = 0 → tdb.window.toNat ≤ tdb.low.toNat) := by
  have low := low_toNat tdb
  have high := high_toNat tdb
  rw [window_toNat]
  split
  case isTrue young => exact ⟨by bv_omega, by omega, fun _ => le_refl _⟩
  case isFalse old =>
    refine ⟨by decide, le_refl _, ?_⟩
    intro first
    by_contra less
    exact old ⟨first, by omega⟩

/-- A call accepts a number ahead of the window or an unseen one in the window, or it changes
nothing. -/
theorem checkreplaywindow_cases {seqhigh : U32} {ret : Nat} (positive : 0 < tdb.rpl.toNat)
    (result : checkreplaywindow tdb seq seqhigh true = some (ret, seqh, tdb')) :
    (ret = 0 ∧ Ahead tdb (seqh, seq) tdb') ∨ (ret = 0 ∧ Within tdb (seqh, seq) tdb') ∨
      (ret ≠ 0 ∧ tdb' = tdb) := by
  have low := low_toNat tdb
  have high := high_toNat tdb
  obtain ⟨long, short, first⟩ := window_bounds positive
  unfold checkreplaywindow at result
  simp only [if_true] at result
  split_ifs at result with zero same ahead old seen esn before seen last
  · cases result
    exact .inr (.inr ⟨by decide, rfl⟩)
  · -- ahead in the same subspace
    obtain ⟨moved, advanced, equal⟩ := Option.map_eq_some_iff.mp result
    cases equal
    refine .inl ⟨rfl, ?_, ?_, fun _ => rfl, advanced⟩ <;>
      (unfold ext; dsimp only; bv_omega)
  · cases result
    exact .inr (.inr ⟨by decide, rfl⟩)
  · cases result
    exact .inr (.inr ⟨by decide, rfl⟩)
  · -- in the window, in the same subspace
    cases result
    have clear : marked tdb.seen seq = false := by
      rwa [and_packet_ne_zero, Bool.not_eq_true] at seen
    refine .inr (.inl ⟨rfl, ?_, ?_, clear, rfl⟩) <;>
      (unfold ext; dsimp only; bv_omega)
  · cases result
    exact .inr (.inr ⟨by decide, rfl⟩)
  · -- in the window, in the subspace before
    cases result
    have clear : marked tdb.seen seq = false := by
      rwa [and_packet_ne_zero, Bool.not_eq_true] at seen
    refine .inr (.inl ⟨rfl, ?_, ?_, clear, rfl⟩) <;>
      (unfold ext; dsimp only; bv_omega)
  · cases result
    exact .inr (.inr ⟨by decide, rfl⟩)
  · -- ahead in the next subspace
    obtain ⟨moved, advanced, equal⟩ := Option.map_eq_some_iff.mp result
    cases equal
    refine .inl ⟨rfl, ?_, ?_, fun noEsn => absurd (esn.symm.trans noEsn) (by decide), advanced⟩ <;>
      (unfold ext; dsimp only; bv_omega)
  · cases result
    exact .inr (.inr ⟨by decide, rfl⟩)

/-! ### Words that stay -/

section Words

variable {s t s' : Nat}

/-- The word of a number is not cleared when the counter moves from the second to the third one. -/
def WordKept (s t s' : Nat) : Prop :=
  (s % 2132 / 32 + 67 - t % 2132 / 32) % 67 = 0 ∨
    (s' % 2132 / 32 + 67 - t % 2132 / 32) % 67 < (s % 2132 / 32 + 67 - t % 2132 / 32) % 67

/-- All numbers in one subspace. -/
theorem word_kept_same (first : s ≤ t) (second : t < s') (near : s' < s + 2100) :
    WordKept s t s' := by
  unfold WordKept
  -- the ring is begun again at most once, before or behind the counter
  rcases (by omega : s' / 2132 = s / 2132 ∨ s' / 2132 = s / 2132 + 1) with sameLap | nextLap
  · omega
  · rcases (by omega : t / 2132 = s / 2132 ∨ t / 2132 = s / 2132 + 1) with lap | lap
    · omega
    · omega

/-- The new number is the first one in its subspace. -/
theorem word_kept_next (first : s ≤ t) (bound : t < 2 ^ 32)
    (near : 2 ^ 32 + s' < s + 2100) (clear : 3 ≤ s' % 32) : WordKept s t s' := by
  unfold WordKept
  omega

/-- The old number is in the subspace before. -/
theorem word_kept_before (bound : s < 2 ^ 32) (second : t < s')
    (near : 2 ^ 32 + s' < s + 2100) (clear : 3 ≤ s' % 32) : WordKept s t s' := by
  unfold WordKept
  omega

end Words

/-! ### Runs -/

/-- The counter of a young association is more than doubled, but by less than a whole window:
the ring is cleared, and numbers that were accepted are still in the window. -/
def outruns (packet : Packet) (s : State) : Prop :=
  s.accepted ≠ [] ∧ s.tdb.high = 0 ∧ 2 * s.tdb.low.toNat < packet.seq.toNat ∧
    packet.seq.toNat < s.tdb.low.toNat + 2100

/-- After the low half has wrapped, the counter enters a word of the ring at one of its first
three places: numbers in that word from before are still in the window. -/
def overwrites (packet : Packet) (s : State) : Prop :=
  s.tdb.esn = true ∧ ¬(s.tdb.high = 0 ∧ s.tdb.low < packet.seq) ∧ packet.seq.toNat < 2100 ∧
    packet.seq.toNat % 32 < 3 ∧ (packet.seq - s.tdb.low).toNat ≤ 2100 ∧
    wordOf packet.seq ≠ wordOf s.tdb.low

/-- The condition for a packet. -/
def keepsWindow (packet : Packet) (s : State) : Prop :=
  ¬outruns packet s ∧ ¬overwrites packet s

instance (packet : Packet) (s : State) : Decidable (outruns packet s) := by
  unfold outruns
  infer_instance

instance (packet : Packet) (s : State) : Decidable (overwrites packet s) := by
  unfold overwrites
  infer_instance

instance (packet : Packet) (s : State) : Decidable (keepsWindow packet s) := by
  unfold keepsWindow
  infer_instance

/-- The bits of the numbers that were accepted and are in the window are set. -/
structure Inv (s : State) : Prop where
  positive : 0 < s.tdb.rpl.toNat
  low : s.tdb.esn = false → s.tdb.rpl.toNat < 2 ^ 32
  known : ∀ number ∈ s.accepted, ext number ≤ s.tdb.rpl.toNat ∧
    (s.tdb.rpl.toNat < ext number + 2100 → marked s.tdb.seen number.2 = true)
  once : s.accepted.Nodup

theorem inv_init (esn : Bool) : Inv (State.init esn) where
  positive := (by decide : 0 < ahHmacInitialRpl.toNat)
  low _ := (by decide : ahHmacInitialRpl.toNat < 2 ^ 32)
  known := by simp [State.init]
  once := nodup_nil

/-- What is left of the ring when the window is moved ahead. -/
theorem advance_cases (moved : advance tdb seqh seq = some tdb') :
    ∃ seen, tdb'.seen = mark seen seq ∧ tdb'.rpl.toNat = ext (seqh, seq) ∧ tdb'.esn = tdb.esn ∧
      (tdb.window < seq - tdb.low ∨ ∀ w < seenSize, distance (wordOf tdb.low) w = 0 ∨
          distance (wordOf tdb.low) (wordOf seq) < distance (wordOf tdb.low) w →
          seen w = tdb.seen w) := by
  unfold advance at moved
  split at moved
  case isTrue far =>
    cases moved
    exact ⟨fun _ => 0, rfl, rpl_toNat seqh seq, rfl, .inl far⟩
  case isFalse =>
    obtain ⟨seen, looped, kept⟩ := clearWords_eq (wordOf_lt _) (wordOf_lt _)
      (le_of_lt (Nat.mod_lt _ (show 0 < seenSize by decide)))
    rw [looped] at moved
    cases moved
    exact ⟨seen, rfl, rpl_toNat seqh seq, rfl, .inr kept⟩

/-- The number of an old packet that is still in the window after the window was moved. -/
theorem Ahead.marked_old {s : State} (inv : Inv s) (guarded : keepsWindow packet s)
    (ahead : Ahead s.tdb (seqh, packet.seq) tdb') {old : U32 × U32} (member : old ∈ s.accepted)
    (near : ext (seqh, packet.seq) < ext old + 2100) : marked tdb'.seen old.2 = true := by
  obtain ⟨earlier, set⟩ := inv.known old member
  have later := ahead.later
  have step := ahead.step
  obtain ⟨seen, marks, -, -, kept⟩ := advance_cases ahead.moved
  rw [marks]
  apply marked_mark
  have set := set (by omega)
  have high := high_toNat s.tdb
  have lowOld := old.2.isLt
  unfold ext at earlier later step near
  dsimp only at earlier later step near
  rcases kept with far | kept
  · -- the ring was cleared: the window had its full length, or the condition says so
    exfalso
    dsimp only at far
    rw [BitVec.lt_def, window_toNat] at far
    split at far
    case isTrue young =>
      apply guarded.1
      refine ⟨ne_nil_of_mem member, young.1, ?_, ?_⟩
      · bv_omega
      · bv_omega
    case isFalse => omega
  · have apart : distance (wordOf s.tdb.low) (wordOf old.2) = 0 ∨
        distance (wordOf s.tdb.low) (wordOf packet.seq) <
          distance (wordOf s.tdb.low) (wordOf old.2) := by
      by_cases sameWord : wordOf packet.seq = wordOf s.tdb.low
      · have here : distance (wordOf s.tdb.low) (wordOf packet.seq) = 0 := by
          rw [distance_eq]
          omega
        rw [here]
        exact Nat.eq_zero_or_pos _
      simp only [distance_eq, wordOf_eq]
      by_cases sameSpace : old.1 = seqh
      · have sameHigh : s.tdb.high = seqh := by bv_omega
        exact word_kept_same (by bv_omega) (by bv_omega) (by bv_omega)
      · have nextSpace : old.1.toNat + 1 = seqh.toNat := by bv_omega
        have clear : 3 ≤ packet.seq.toNat % 32 := by
          by_contra start
          apply guarded.2
          refine ⟨?_, ?_, by omega, by omega, by omega, sameWord⟩
          · rw [← Bool.not_eq_false]
            intro noEsn
            have unwrapped := inv.low noEsn
            have := ahead.subspace noEsn
            bv_omega
          · rintro ⟨first, behind⟩
            bv_omega
        by_cases oldSpace : s.tdb.high = old.1
        · exact word_kept_next (by bv_omega) s.tdb.low.isLt (by bv_omega) clear
        · have newSpace : s.tdb.high = seqh := by bv_omega
          exact word_kept_before lowOld (by bv_omega) (by bv_omega) clear
    unfold marked
    rw [kept _ (wordOf_lt _) apart]
    exact set

/-- A packet keeps the invariant. -/
theorem Inv.next {s s' : State} (inv : Inv s) (guarded : keepsWindow packet s)
    (stepped : next packet s = some s') : Inv s' := by
  unfold IpEsp.next at stepped
  simp only [bind, Option.bind_eq_some_iff] at stepped
  obtain ⟨⟨ret, seqh, tdb'⟩, checked, equal⟩ := stepped
  cases equal
  rcases checkreplaywindow_cases inv.positive checked with
    ⟨rfl, ahead⟩ | ⟨rfl, within⟩ | ⟨rejected, rfl⟩
  · -- the number is above all others
    obtain ⟨seen, marks, counter, esn, -⟩ := advance_cases ahead.moved
    have later := ahead.later
    refine ⟨?_, ?_, ?_, ?_⟩
    · rw [counter]
      exact Nat.zero_lt_of_lt later
    · rw [esn, counter]
      intro noEsn
      have unwrapped := inv.low noEsn
      have subspace := ahead.subspace noEsn
      have high := high_toNat s.tdb
      dsimp only at subspace
      unfold ext
      rw [subspace, high]
      omega
    · rw [counter, if_pos rfl]
      intro old member
      rcases mem_cons.mp member with rfl | member
      · refine ⟨le_refl _, fun _ => ?_⟩
        rw [marks]
        exact marked_mark_self
      · have earlier := (inv.known old member).1
        exact ⟨earlier.trans (le_of_lt later), ahead.marked_old inv guarded member⟩
    · refine nodup_cons.mpr ⟨fun member => ?_, inv.once⟩
      have earlier := (inv.known _ member).1
      exact not_lt.mpr earlier later
  · -- the number is in the window, and its bit was clear
    obtain ⟨earlier, inside, unseen, rfl⟩ := within
    refine ⟨inv.positive, inv.low, ?_, ?_⟩
    · intro old member
      rcases mem_cons.mp member with rfl | member
      · exact ⟨earlier, fun _ => marked_mark_self⟩
      · obtain ⟨before, set⟩ := inv.known old member
        exact ⟨before, fun near => marked_mark (set near)⟩
    · refine nodup_cons.mpr ⟨fun member => ?_, inv.once⟩
      have set := (inv.known _ member).2 inside
      rw [unseen] at set
      cases set
  · rw [if_neg rejected]
    exact ⟨inv.positive, inv.low, inv.known, inv.once⟩

/-- No extended sequence number is accepted twice, in any sequence of packets that meets the
condition. -/
theorem no_number_accepted_twice {esn : Bool} {s : State}
    (run : Run next keepsWindow (State.init esn) s) : s.accepted.Nodup := by
  have inv : Inv s := Run.invariant (P := Inv)
    (fun _ _ _ inv guarded stepped => inv.next guarded stepped) run (inv_init esn)
  exact inv.once

/-- Packets out of order, over the wrap of the low half: the one from before the wrap is
accepted once, and not again. -/
theorem sampleRun_accepted_once : ∃ s, Run next keepsWindow (State.init true) s ∧
      s.accepted = [(0, 0xfffffffe), (1, 3), (0, 0xffffffff)] ∧ s.accepted.Nodup := by
  refine exec_implies (Q := fun s => s.accepted = [(0, 0xfffffffe), (1, 3), (0, 0xffffffff)])
    [⟨0xffffffff, 0⟩, ⟨3, 0⟩, ⟨0xfffffffe, 0⟩, ⟨0xfffffffe, 0⟩, ⟨3, 0⟩] (by decide +kernel) ?_
  intro s run test
  exact ⟨test, no_number_accepted_twice run⟩

/-- A packet that is a little ahead clears the ring of a young association, and a packet from
before it is accepted a second time.  Where the low half wraps the ring is four numbers short,
and a packet clears the bit of one that is still in the window. -/
theorem replays_accepted :
    (∃ s, Run next anyStep (State.init false) s ∧ s.accepted = [(0, 2), (0, 5), (0, 2)]) ∧
      ∃ s, Run next anyStep (State.init true) s ∧
        s.accepted = [(0, 0xfffff7ef), (1, 32), (0, 0xfffff7f0), (0, 0xfffff7ef)] := by
  constructor
  · exact exec_reaches [⟨2, 0⟩, ⟨5, 0⟩, ⟨2, 0⟩] (by decide +kernel)
  · obtain ⟨s, run, test⟩ : ∃ s, Run next anyStep (State.init true) s ∧
        s.accepted = [(0, 0xfffff7ef), (1, 32), (0, 0xfffff7f0), (0, 0xfffff7ef)] :=
      exec_reaches [⟨0xfffff7ef, 0⟩, ⟨0xfffff7f0, 0⟩, ⟨32, 0⟩, ⟨0xfffff7ef, 0⟩] (by decide +kernel)
    exact ⟨s, run, test⟩

/-- The counter has not gone back, and no number has been accepted that was behind the window. -/
def Since (s t : State) : Prop :=
  s.tdb.rpl.toNat ≤ t.tdb.rpl.toNat ∧
    ∃ new, t.accepted = new ++ s.accepted ∧ ∀ n ∈ new, s.tdb.rpl.toNat < ext n + 2100

theorem next_since {s s' : State} (positive : 0 < s.tdb.rpl.toNat)
    (stepped : next packet s = some s') : Since s s' := by
  simp only [IpEsp.next, bind, Option.bind_eq_some_iff] at stepped
  obtain ⟨⟨ret, seqh, tdb'⟩, checked, equal⟩ := stepped
  cases equal
  rcases checkreplaywindow_cases positive checked with
    ⟨rfl, ahead⟩ | ⟨rfl, within⟩ | ⟨rejected, rfl⟩
  · obtain ⟨-, -, counter, -⟩ := advance_cases ahead.moved
    have later := ahead.later
    exact ⟨by grind, [_], rfl, by grind⟩
  · obtain ⟨-, inside, -, rfl⟩ := within
    exact ⟨le_rfl, [_], rfl, by simpa⟩
  · exact ⟨le_rfl, [], if_neg rejected, by simp⟩

/-- Whatever packets arrive. -/
theorem stale_numbers_refused {esn : Bool} {s t : State}
    (before : Run next anyStep (State.init esn) s) (run : Run next anyStep s t) : Since s t := by
  have positive : 0 < s.tdb.rpl.toNat := by
    refine before.invariant (P := fun s => 0 < s.tdb.rpl.toNat) ?_ (inv_init esn).positive
    intro _ _ _ positive _ stepped
    exact positive.trans_le (next_since positive stepped).1
  refine run.invariant (P := Since s) ?_ ⟨le_rfl, [], rfl, by simp⟩
  intro _ _ _ ⟨higher, new, known, fresh⟩ _ stepped
  obtain ⟨later, new', after, fresh'⟩ := next_since (positive.trans_le higher) stepped
  exact ⟨higher.trans later, new' ++ new, by rw [after, known, append_assoc], by grind⟩

theorem sampleRun_stale : ∃ s t, s.accepted = [(0, 5001)] ∧
    t.accepted = [(0, 2902), (0, 5001)] ∧ Since s t := by
  have before : Run next anyStep (State.init false) _ := exec_run [⟨5001, 0⟩] rfl
  exact ⟨_, _, rfl, rfl, stale_numbers_refused before (exec_run [⟨2902, 0⟩, ⟨2901, 0⟩] rfl)⟩

end Bitrig.IpEsp
