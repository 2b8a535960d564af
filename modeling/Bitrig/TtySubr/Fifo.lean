import Bitrig.TtySubr.Operations

/-!
# Clists are bounded queues

The system of clists refines a system of bounded queues of characters: every call of a run
returns, with the reply of the queue operation, and leaves the clists with the characters of
the queues after the operation.
-/

namespace Bitrig.TtySubr

open Bitrig.Bitmap Function List Option
open Bitrig.Ring
open Bitrig.Transition

/-- The characters of a clist with a quote map, from the first one on. -/
def contents (clp : Clist) : List QChar :=
  match clp.cCf, clp.cCs, clp.cCq with
  | some first, some bytes, some quotes =>
    window (charAt bytes.get quotes.get) clp.cCn first clp.cCc
  | _, _, _ => []

theorem Represents.contents_eq {clp : Clist} {cap : Nat} {xs : List QChar}
    (holds : Represents clp cap xs) : contents clp = xs := by
  rcases eq_or_ne xs [] with rfl | nonempty
  · rcases holds with ⟨r, rfl, rfl, chars⟩
    have empty : r.count = 0 := by
      rw [← CharRing.length_chars, chars]
      rfl
    unfold Clist.resetEmpty
    rw [if_pos (show r.toClist.cCc = 0 from empty)]
    rfl
  · rcases holds.exists_ring nonempty with ⟨r, some, rfl, rfl, rfl⟩
    rfl

/-! ### Bounds of iterations -/

section Bounds

variable {fuel n : Nat} {clp : Clist}

/-- A computation that is followed by one that is defined more often. -/
theorem bind_mono {α β : Type} {x : Option α} {f g : α → Option β} {b : β}
    (more : ∀ a, f a = some b → g a = some b) (defined : (x >>= f) = some b) :
    (x >>= g) = some b := by
  cases x with
  | none => cases defined
  | some a => exact more a defined

theorem ite_mono {α : Type} {p : Prop} [Decidable p] {x x' y y' : Option α} {b : α}
    (yes : x = some b → x' = some b) (no : y = some b → y' = some b)
    (defined : (if p then x else y) = some b) : (if p then x' else y') = some b := by
  split_ifs at defined ⊢
  · exact yes defined
  · exact no defined

/-- A loop that ends within a bound ends in the same way within a larger one. -/
theorem qToBLoop_succ {p : List Byte} {result : List Byte × Clist}
    (returned : qToBLoop fuel clp n p = some result) :
    qToBLoop (fuel + 1) clp n p = some result := by
  induction fuel generalizing clp n p with
  | zero => cases returned
  | succ fuel ih =>
    refine ite_mono (fun returned => ?_) id returned
    iterate 6 refine bind_mono (fun _ returned => ?_) returned
    exact ih returned

theorem ndflushLoop_succ {result : Clist} (returned : ndflushLoop fuel clp n = some result) :
    ndflushLoop (fuel + 1) clp n = some result := by
  induction fuel generalizing clp n with
  | zero => cases returned
  | succ fuel ih =>
    refine ite_mono (fun returned => ?_) id returned
    iterate 2 refine bind_mono (fun _ returned => ?_) returned
    exact ih returned

theorem bToQLoop_succ {cp : Nat → Byte} {p : Nat} {result : Nat × Clist}
    (returned : bToQLoop cp fuel clp p n = some result) :
    bToQLoop cp (fuel + 1) clp p n = some result := by
  induction fuel generalizing clp p n with
  | zero => cases returned
  | succ fuel ih =>
    refine ite_mono (fun returned => ?_) id returned
    iterate 5 refine bind_mono (fun _ returned => ?_) returned
    exact ih returned

variable {ι : Type} [DecidableEq ι] {lists : Lists ι} {call : Call ι}
  {result : Reply × Lists ι}

theorem catqLoop_succ {i j : ι} {lists' : Lists ι}
    (returned : catqLoop i j fuel lists = some lists') :
    catqLoop i j (fuel + 1) lists = some lists' := by
  induction fuel generalizing lists with
  | zero => cases returned
  | succ fuel ih =>
    refine bind_mono (fun _ => ite_mono (bind_mono fun _ returned => ?_) id) returned
    exact ih returned

theorem perform_succ (returned : perform fuel lists call = some result) :
    perform (fuel + 1) lists call = some result := by
  cases call with
  | putc | getc | unputc | ndqb => exact returned
  | bToQ cp count i =>
    simp only [perform, onList, map_eq_some_iff] at returned ⊢
    obtain ⟨a, ⟨b, looped, rfl⟩, rfl⟩ := returned
    refine ⟨_, ⟨b, ?_, rfl⟩, rfl⟩
    exact ite_mono id (ite_mono id bToQLoop_succ) looped
  | qToB i count =>
    simp only [perform, onList, map_eq_some_iff] at returned ⊢
    obtain ⟨a, ⟨b, looped, rfl⟩, rfl⟩ := returned
    refine ⟨_, ⟨b, ?_, rfl⟩, rfl⟩
    unfold qToB at looped ⊢
    simp only [bind, bind_eq_some_iff] at looped ⊢
    obtain ⟨copied, looped, rest⟩ := looped
    exact ⟨copied, qToBLoop_succ looped, rest⟩
  | ndflush i count =>
    simp only [perform, onList, map_eq_some_iff] at returned ⊢
    obtain ⟨a, ⟨b, looped, rfl⟩, rfl⟩ := returned
    refine ⟨_, ⟨b, ?_, rfl⟩, rfl⟩
    refine ite_mono id (fun flushed => ?_) looped
    obtain ⟨left, ended, rfl⟩ := map_eq_some_iff.mp flushed
    rw [ndflushLoop_succ ended, map_some]
  | catq i j =>
    simp only [perform, map_eq_some_iff] at returned ⊢
    obtain ⟨lists', looped, rfl⟩ := returned
    refine ⟨lists', ?_, rfl⟩
    exact ite_mono id (ite_mono id catqLoop_succ) looped

theorem perform_mono {more : Nat} (returned : perform fuel lists call = some result)
    (larger : fuel ≤ more) : perform more lists call = some result := by
  induction larger with
  | refl => exact returned
  | step _ ih => exact perform_succ ih

end Bounds

section Queues

variable {ι : Type} [DecidableEq ι]

/-- The calls on bounded queues: what may be replied, and the queues afterwards. -/
def Allowed (cap : ι → Nat) (queues : ι → List QChar) (reply : Reply)
    (after : ι → List QChar) : Call ι → Prop
  | .putc c i =>
    reply = .int (if (queues i).length < cap i then 0 else -1) ∧
      after = update queues i (offer (cap i) (queues i) [decode c])
  | .getc i =>
    match queues i with
    | [] => reply = .int (-1) ∧ after = queues
    | x :: rest => reply = .int (code x) ∧ after = update queues i rest
  | .unputc i =>
    match (queues i).getLast? with
    | none => reply = .int (-1) ∧ after = queues
    | some x =>
      reply = .int (code x) ∧ after = update queues i (queues i).dropLast
  | .bToQ cp count i =>
    reply = .count (count.toNat - (cap i - (queues i).length)) ∧
      after = update queues i (offer (cap i) (queues i) (unquoted cp 0 count.toNat))
  | .qToB i count =>
    reply = .copied (((queues i).take count.toNat).map Prod.fst) ∧
      after = update queues i ((queues i).drop count.toNat)
  | .ndflush i count =>
    reply = .void ∧ after = update queues i ((queues i).drop count.toNat)
  | .ndqb i =>
    (∃ n, reply = .count n ∧ n ≤ (queues i).length ∧ (n = 0 ↔ queues i = [])) ∧
      after = queues
  | .catq from_ to_ =>
    reply = .void ∧
      after = update
        (update queues to_ (offer (cap to_) (queues to_) (queues from_))) from_ []

/-- The call never ends: the characters of a list are moved to the end of that list, one by
one, until it is empty. -/
def Endless (queues : ι → List QChar) : Call ι → Prop
  | .catq from_ to_ => from_ = to_ ∧ queues from_ ≠ []
  | _ => False

/-- The call returns, for every bound of iterations that is large enough. -/
def Returns (lists : Lists ι) (call : Call ι) (reply : Reply) (lists' : Lists ι) : Prop :=
  ∃ enough, ∀ fuel, enough ≤ fuel → perform fuel lists call = some (reply, lists')

variable {lists lists' : Lists ι} {cap : ι → Nat} {queues after : ι → List QChar} {i j : ι}
  {clp : Clist} {xs : List QChar}

/-- All clists are bounded queues with the given characters. -/
def AllRepresent (lists : Lists ι) (cap : ι → Nat) (queues : ι → List QChar) : Prop :=
  ∀ i, Represents (lists i) (cap i) (queues i)

theorem AllRepresent.update (all : AllRepresent lists cap queues)
    (holds : Represents clp (cap i) xs) :
    AllRepresent (update lists i clp) cap (update queues i xs) := by
  intro j
  by_cases here : j = i
  · subst here
    rw [update_self, update_self]
    exact holds
  · rw [update_of_ne here, update_of_ne here]
    exact all j

/-! ### Moving characters between lists -/

/-- One character that fits or not. -/
theorem putc_offer {cap : Nat} {c : CInt} (holds : Represents clp cap xs) :
    ∃ clp', putc c clp = some (if xs.length < cap then 0 else -1, clp') ∧
      Represents clp' cap (offer cap xs [decode c]) := by
  rcases lt_or_ge xs.length cap with room | full
  · obtain ⟨clp', put, longer⟩ := putc_room (c := c) holds room
    refine ⟨clp', ?_, ?_⟩
    · rw [put, if_pos room]
    · rw [offer_of_le (by simpa using room)]
      exact longer
  · refine ⟨clp, ?_, ?_⟩
    · rw [putc_full holds (le_antisymm holds.length_le full), if_neg (not_lt.mpr full)]
    · rw [offer_of_full full]
      exact holds

section

variable (all : AllRepresent lists cap queues)
include all

/-- The loop of `catq` empties one list into another one. -/
theorem catqLoop_eq (ne : i ≠ j) (enough : (queues i).length < fuel) :
    ∃ lists', catqLoop i j fuel lists = some lists' ∧ AllRepresent lists' cap
        (update (update queues j (offer (cap j) (queues j) (queues i))) i []) := by
  induction fuel generalizing lists queues with
  | zero => exact absurd enough (Nat.not_lt_zero _)
  | succ fuel ih =>
    unfold catqLoop
    have here := all i
    cases chars : queues i with
    | nil =>
      rw [chars] at here
      rw [getc_empty here]
      refine ⟨_, rfl, ?_⟩
      rw [offer_nil, update_eq_self j queues]
      exact all.update here
    | cons x rest =>
      rw [chars] at here enough
      obtain ⟨clp, got, shorter⟩ := getc_cons here
      have there : Represents (update lists i clp j) (cap j) (queues j) := by
        rw [update_of_ne ne.symm]
        exact all j
      obtain ⟨clp', put, longer⟩ := putc_offer (c := code x) there
      rw [decode_code] at longer
      rw [got]
      simp only [bind, bind_some]
      rw [if_pos (code_ne_neg_one x), put]
      have moved := (all.update shorter).update longer
      have fewer : (update (update queues i rest) j
          (offer (cap j) (queues j) [x]) i).length < fuel := by
        rw [update_of_ne ne, update_self]
        exact Nat.lt_of_succ_lt_succ enough
      obtain ⟨lists', looped, represented⟩ := ih moved fewer
      refine ⟨lists', looped, ?_⟩
      convert represented using 1
      rw [update_of_ne ne, update_self, offer_offer]
      funext k
      by_cases first : k = i
      · subst first
        simp
      · by_cases second : k = j
        · subst second
          simp [first]
        · simp [first, second]

/-- A list that is not empty is never emptied into itself. -/
theorem catqLoop_self (nonempty : queues i ≠ []) (fuel : Nat) : catqLoop i i fuel lists = none := by
  induction fuel generalizing lists queues with
  | zero => rfl
  | succ fuel ih =>
    unfold catqLoop
    have here := all i
    obtain ⟨x, rest, chars⟩ := exists_cons_of_ne_nil nonempty
    rw [chars] at here
    obtain ⟨clp, got, shorter⟩ := getc_cons here
    have there : Represents (update lists i clp i) (cap i) rest := by
      rw [update_self]
      exact shorter
    have room : rest.length < cap i := here.length_le
    obtain ⟨clp', put, longer⟩ := putc_room (c := code x) there room
    rw [got]
    simp only [bind, bind_some]
    rw [if_pos (code_ne_neg_one x), put]
    apply ih ((all.update shorter).update longer)
    simp

theorem catq_eq (ends : i ≠ j ∨ queues i = []) :
    ∃ fuel lists', catq fuel lists i j = some lists' ∧ AllRepresent lists' cap
        (update (update queues j (offer (cap j) (queues j) (queues i))) i []) := by
  have counted := (all i).cCc
  rcases eq_or_ne (queues i) [] with empty | nonempty
  · -- nothing to move
    refine ⟨0, lists, ?_, ?_⟩
    · unfold catq
      rw [if_pos (by rw [counted, empty]; rfl)]
    · rw [empty, offer_nil, update_eq_self j queues, ← empty, update_eq_self i queues]
      exact all
  · have ne : i ≠ j := ends.resolve_right nonempty
    have some : (lists i).cCc ≠ 0 := by
      rw [counted]
      exact ne_of_gt (length_pos_of_ne_nil nonempty)
    by_cases swaps : (lists j).cCc = 0 ∧ (lists i).cCn = (lists j).cCn
    · -- the clists change their places
      have emptyTo : queues j = [] := by
        apply eq_nil_of_length_eq_zero
        rw [← (all j).cCc]
        exact swaps.1
      have sameCap : cap i = cap j := by
        rw [← (all i).cCn, ← (all j).cCn]
        exact swaps.2
      refine ⟨0, update (update lists i (lists j)) j (lists i), ?_, ?_⟩
      · unfold catq
        rw [if_neg some, if_pos swaps]
      · rw [emptyTo, offer_of_le (by simpa [← sameCap] using (all i).length_le),
          update_comm ne.symm]
        apply AllRepresent.update
        · apply AllRepresent.update all
          have there := all j
          rw [emptyTo, ← sameCap] at there
          exact there
        · rw [← sameCap]
          exact all i
    · obtain ⟨lists', looped, represented⟩ :=
        catqLoop_eq all ne (Nat.lt_succ_self (queues i).length)
      refine ⟨(queues i).length + 1, lists', ?_, represented⟩
      unfold catq
      rw [if_neg some, if_neg swaps]
      exact looped

end

/-! ### Calls and runs -/

/-- A call that ends does what the operation on bounded queues does. -/
theorem perform_eq (all : AllRepresent lists cap queues) (call : Call ι)
    (ends : ¬Endless queues call) :
    ∃ fuel reply lists' after, perform fuel lists call = some (reply, lists') ∧
      AllRepresent lists' cap after ∧ Allowed cap queues reply after call := by
  cases call with
  | putc c i =>
    obtain ⟨clp, put, longer⟩ := putc_offer (c := c) (all i)
    refine ⟨0, _, _, _, ?_, all.update longer, rfl, rfl⟩
    simp only [perform, put]
    rfl
  | getc i =>
    have here := all i
    cases chars : queues i with
    | nil =>
      rw [chars] at here
      refine ⟨0, .int (-1), _, _, ?_, all, ?_⟩
      · simp only [perform, getc_empty here]
        simp only [onList, map_some, update_eq_self]
      · simp [Allowed, chars]
    | cons x rest =>
      rw [chars] at here
      obtain ⟨clp, got, shorter⟩ := getc_cons here
      refine ⟨0, .int (code x), _, _, ?_, all.update shorter, ?_⟩
      · simp only [perform, got]
        rfl
      · simp [Allowed, chars]
  | unputc i =>
    have here := all i
    rcases eq_nil_or_concat (queues i) with chars | ⟨rest, x, chars⟩
    · rw [chars] at here
      refine ⟨0, .int (-1), _, _, ?_, all, ?_⟩
      · simp only [perform, unputc_empty here]
        simp only [onList, map_some, update_eq_self]
      · simp [Allowed, chars]
    · rw [concat_eq_append] at chars
      rw [chars] at here
      obtain ⟨clp, got, shorter⟩ := unputc_append here
      refine ⟨0, .int (code x), _, _, ?_, all.update shorter, ?_⟩
      · simp only [perform, got]
        rfl
      · simp [Allowed, chars]
  | bToQ cp count i =>
    obtain ⟨clp, copied, longer⟩ := bToQ_eq (all i) (Nat.lt_succ_self count.toNat)
    refine ⟨count.toNat + 1, _, _, _, ?_, all.update longer, rfl, rfl⟩
    simp only [perform, copied]
    rfl
  | qToB i count =>
    obtain ⟨clp, copied, shorter⟩ := qToB_eq (all i) (Nat.lt_succ_self count.toNat)
    refine ⟨count.toNat + 1, _, _, _, ?_, all.update shorter, rfl, rfl⟩
    simp only [perform, copied]
    rfl
  | ndflush i count =>
    obtain ⟨clp, flushed, shorter⟩ := ndflush_eq (all i) (Nat.lt_succ_self count.toNat)
    refine ⟨count.toNat + 1, _, _, _, ?_, all.update shorter, rfl, rfl⟩
    simp only [perform, flushed]
    rfl
  | ndqb i =>
    obtain ⟨n, counted, bounded, empty⟩ := ndqb_eq (all i)
    refine ⟨0, _, _, _, ?_, all, ⟨n, rfl, bounded, empty⟩, rfl⟩
    simp only [perform, counted]
    rfl
  | catq i j =>
    have ends : i ≠ j ∨ queues i = [] := by
      by_contra neither
      rw [not_or, not_not] at neither
      exact ends neither
    obtain ⟨fuel, lists', moved, represented⟩ := catq_eq all ends
    refine ⟨fuel, _, _, _, ?_, represented, rfl, rfl⟩
    simp only [perform, moved]
    rfl

/-- A call that does not end returns within no bound. -/
theorem perform_endless (all : AllRepresent lists cap queues) (endless : Endless queues call)
    (fuel : Nat) : perform fuel lists call = none := by
  cases call with
  | catq i j =>
    obtain ⟨rfl, nonempty⟩ := endless
    have some : (lists i).cCc ≠ 0 := by
      rw [(all i).cCc]
      exact ne_of_gt (length_pos_of_ne_nil nonempty)
    simp only [perform, catq]
    rw [if_neg some, if_neg (fun swaps => some swaps.1), catqLoop_self all nonempty]
    rfl
  | putc | getc | unputc | bToQ | qToB | ndflush | ndqb => exact endless.elim

/-- All clists of a run are bounded queues. -/
theorem Run.represents {sizes : ι → Nat}
    (run : Run next anyStep (fun i => clalloc (sizes i) true) lists) :
    ∃ queues, AllRepresent lists sizes queues := by
  apply Run.invariant (P := fun lists => ∃ queues, AllRepresent lists sizes queues) _ run
  · exact ⟨fun _ => [], fun i => represents_clalloc (sizes i)⟩
  · rintro ⟨fuel, call⟩ source target ⟨queues, all⟩ - stepped
    simp only [next, map_eq_some_iff] at stepped
    obtain ⟨⟨reply, lists'⟩, returned, rfl⟩ := stepped
    have ends : ¬Endless queues call := by
      intro endless
      rw [perform_endless all endless fuel] at returned
      cases returned
    obtain ⟨fuel', reply', lists'', after, performed, represented, -⟩ := perform_eq all call ends
    -- both bounds lead to the same lists
    have first := perform_mono returned (le_max_left fuel fuel')
    have second := perform_mono performed (le_max_right fuel fuel')
    rw [first] at second
    obtain ⟨-, rfl⟩ := Prod.mk.inj (some.inj second)
    exact ⟨after, represented⟩

/-- In every run of calls on clists with quote maps, each clist has as many characters as it
counts and no more than its ring has room for.  Every next call replies as the operation on
bounded queues does and leaves the characters it leaves; only `catq` of a list that is not
empty to itself does not return.  `firstc` and `nextc` enumerate the characters. -/
theorem clists_are_queues {sizes : ι → Nat}
    (run : Run next anyStep (fun i => clalloc (sizes i) true) lists) :
    (∀ i, (contents (lists i)).length = (lists i).cCc ∧ (lists i).cCc ≤ (lists i).cCn ∧
        (lists i).cCn = sizes i) ∧
      (∀ call, ¬Endless (fun i => contents (lists i)) call →
        ∃ reply lists', Returns lists call reply lists' ∧
          Allowed sizes (fun i => contents (lists i)) reply (fun i => contents (lists' i)) call) ∧
      (∀ call, Endless (fun i => contents (lists i)) call →
        ∀ fuel, perform fuel lists call = none) ∧
      ∀ i c fuel, (contents (lists i)).length < fuel →
        enumerate fuel (lists i) c = some ((contents (lists i)).map code) := by
  obtain ⟨queues, all⟩ := Run.represents run
  have known : (fun i => contents (lists i)) = queues := funext fun i => (all i).contents_eq
  refine ⟨fun i => ?_, fun call ends => ?_, fun call endless => ?_, fun i c fuel enough => ?_⟩
  · rw [(all i).contents_eq, (all i).cCc, (all i).cCn]
    exact ⟨rfl, (all i).length_le, rfl⟩
  · rw [known] at ends ⊢
    obtain ⟨enough, reply, lists', after, performed, represented, allowed⟩ :=
      perform_eq all call ends
    have knownAfter : (fun i => contents (lists' i)) = after :=
      funext fun i => (represented i).contents_eq
    refine ⟨reply, lists', ⟨enough, fun fuel larger => perform_mono performed larger⟩, ?_⟩
    rw [knownAfter]
    exact allowed
  · rw [known] at endless
    exact perform_endless all endless
  · rw [(all i).contents_eq] at enough ⊢
    exact enumerate_eq (all i) enough

end Queues

/-- A ring of three characters goes round, and is moved to one of two, which drops the last
character. -/
theorem sampleRun_queues : ∃ lists : Lists Bool,
      Run next anyStep (fun i => clalloc (if i then 2 else 3) true) lists ∧
      contents (lists false) = [] ∧ contents (lists true) = [(0x62, false), (0x63, false)] ∧
      enumerate 3 (lists true) 0 = some [0x62, 0x63] := by
  refine exec_implies (Q := fun lists =>
      contents (lists false) = [] ∧ contents (lists true) = [(0x62, false), (0x63, false)])
    [(0, .putc 0x161 false), (4, .bToQ (fun i => BitVec.ofNat 8 (0x62 + i)) 2 false),
      (0, .getc false), (0, .putc 0x164 false), (4, .catq false true)] (by decide +kernel) ?_
  rintro lists run ⟨emptied, moved⟩
  refine ⟨emptied, moved, ?_⟩
  rw [(clists_are_queues run).2.2.2 true 0 3 (by rw [moved]; decide), moved]
  rfl

end Bitrig.TtySubr
