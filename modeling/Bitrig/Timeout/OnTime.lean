import Bitrig.Timeout.Wheel

/-!
# Timeouts are on time

Every bucket with a timeout is moved to the worklist when the timeout is due, or before.  So
no timeout that is due is still in a wheel, however the calls and the two parts of the clock
follow on each other, and `softclock` runs each timeout once for each time it is queued.
-/

namespace Bitrig.Timeout

open Transition Function List
open Queues

/-! ### When a bucket is moved -/

/-- The clock interrupt at the given time moves the bucket. -/
def Moves (ticks : Ticks) (wheel : Fin 4) (index : BitVec 8) : Prop :=
  (∀ lower < wheel, maskwheel lower ticks = 0) ∧ index = maskwheel wheel ticks

/-- The bucket is moved in the future, and not after the given time. -/
def Pending (ticks time : Ticks) (wheel : Fin 4) (index : BitVec 8) : Prop :=
  ∃ d : Nat, 0 < d ∧ d ≤ (time - ticks).toNat ∧ (time - ticks).toNat < 2 ^ 31 ∧
    Moves (ticks + BitVec.ofNat 32 d) wheel index

section Buckets

variable {ticks time : Ticks} {wheel : Fin 4} {index : BitVec 8}

theorem maskwheel_toNat (wheel : Fin 4) (time : Ticks) :
    (maskwheel wheel time).toNat = time.toNat / 2 ^ (wheel.val * 8) % 2 ^ 8 := by
  simp [maskwheel, Nat.shiftRight_eq_div_pow]

/-- The last time at which the bucket of a time is moved before it. -/
theorem moves_floor (wheel : Fin 4) (time : Ticks) :
    Moves (BitVec.ofNat 32 (time.toNat - time.toNat % 2 ^ (wheel.val * 8))) wheel
      (maskwheel wheel time) := by
  constructor
  · intro lower less
    apply BitVec.eq_of_toNat_eq
    rw [maskwheel_toNat]
    fin_cases wheel <;> fin_cases lower <;> simp_all <;> omega
  · apply BitVec.eq_of_toNat_eq
    rw [maskwheel_toNat, maskwheel_toNat]
    fin_cases wheel <;> simp <;> omega

/-- A time in the future, as a number of ticks. -/
theorem toNat_of_positive {rel : Ticks} (positive : 0 < rel.toInt) :
    rel.toInt = rel.toNat ∧ 0 < rel.toNat ∧ rel.toNat < 2 ^ 31 := by
  rw [BitVec.toInt_eq_toNat_cond] at positive ⊢
  split at positive <;> omega

theorem Pending.positive (pending : Pending ticks time wheel index) : 0 < (time - ticks).toInt := by
  obtain ⟨d, future, before, small, _⟩ := pending
  rw [BitVec.toInt_eq_toNat_cond]
  split <;> omega

/-- A wheel whose buckets are not wider than the time that is left. -/
theorem pending_wheel (positive : 0 < (time - ticks).toInt)
    (room : time.toNat % 2 ^ (wheel.val * 8) < (time - ticks).toNat) :
    Pending ticks time wheel (maskwheel wheel time) := by
  obtain ⟨_, _, small⟩ := toNat_of_positive positive
  have floor := moves_floor wheel time
  have below : time.toNat % 2 ^ (wheel.val * 8) ≤ time.toNat := Nat.mod_le _ _
  generalize time.toNat % 2 ^ (wheel.val * 8) = low at room floor below
  refine ⟨(time - ticks).toNat - low, by omega, by omega, small, ?_⟩
  have target : ticks + BitVec.ofNat 32 ((time - ticks).toNat - low) =
      BitVec.ofNat 32 (time.toNat - low) := by
    bv_omega
  rw [target]
  exact floor

/-- The bucket in which `softclock` puts a timeout is moved in time. -/
theorem pending_bucket (positive : 0 < (time - ticks).toInt) :
    ∃ wheel index, bucket (time - ticks) time = .wheel wheel index ∧
      Pending ticks time wheel index := by
  obtain ⟨value, future, _⟩ := toNat_of_positive positive
  have widths : ∀ wheel : Fin 4, 2 ^ (wheel.val * 8) ≤ (time - ticks).toNat →
      Pending ticks time wheel (maskwheel wheel time) := fun wheel wide =>
    pending_wheel positive (lt_of_lt_of_le (Nat.mod_lt _ (by positivity)) wide)
  unfold bucket
  split_ifs with below16 below8 below24
  · exact ⟨_, _, rfl, widths 0 (by change 1 ≤ _; exact future)⟩
  · exact ⟨_, _, rfl, widths 1 (by simp only [Fin.val_one]; omega)⟩
  · exact ⟨_, _, rfl, widths 2 (by simp only [Fin.val_two]; omega)⟩
  · exact ⟨_, _, rfl, widths 3 (by change 2 ^ 24 ≤ _; omega)⟩

/-- A bucket that this tick does not move is still moved in time. -/
theorem Pending.tick (pending : Pending ticks time wheel index)
    (stays : ¬Moves (ticks + 1) wheel index) : Pending (ticks + 1) time wheel index := by
  obtain ⟨d, future, before, small, moves⟩ := pending
  have notNow : d ≠ 1 := by
    rintro rfl
    exact stays moves
  have left : (time - (ticks + 1)).toNat = (time - ticks).toNat - 1 := by
    bv_omega
  have target : ticks + 1 + BitVec.ofNat 32 (d - 1) = ticks + BitVec.ofNat 32 d := by
    bv_omega
  refine ⟨d - 1, by omega, by omega, by omega, ?_⟩
  rw [target]
  exact moves

/-- A bucket is in time for a later time, too. -/
theorem Pending.later {new : Ticks} (pending : Pending ticks time wheel index)
    (later : (time - ticks).toInt ≤ (new - ticks).toInt) : Pending ticks new wheel index := by
  obtain ⟨value, _, _⟩ := toNat_of_positive pending.positive
  obtain ⟨value', _, small'⟩ := toNat_of_positive (lt_of_lt_of_le pending.positive later)
  obtain ⟨d, future, before, small, moves⟩ := pending
  exact ⟨d, future, by omega, small', moves⟩

end Buckets

/-! ### The invariant -/

section Steps

variable {τ : Type} {s s' : State τ} {label : Label τ} {reply : Reply τ} {queue : Queue → List τ}
  {ticks : Ticks} {index : BitVec 8} {t new : τ}

/-- A timeout is on a queue exactly if its flag says so, on one queue only, and the bucket in
which it is will be moved in time. -/
structure Inv (s : State τ) : Prop where
  proper : Proper s.queue
  onqueue : ∀ t, s.onqueue t = true ↔ Queued s.queue t
  pending : ∀ t wheel index, t ∈ s.queue (.wheel wheel index) →
    Pending s.ticks (s.toTime t) wheel index

theorem todo_ne_wheel (wheel : Fin 4) (index : BitVec 8) : Queue.todo ≠ .wheel wheel index :=
  nofun

theorem mem_movebucket {moved wheel : Fin 4}
    (member : t ∈ movebucket moved ticks queue (.wheel wheel index)) :
    t ∈ queue (.wheel wheel index) ∧ (wheel = moved → index ≠ maskwheel moved ticks) := by
  obtain ⟨other, member | ⟨same, _⟩⟩ := (mem_append (todo_ne_wheel _ _)).mp member
  · refine ⟨member, ?_⟩
    rintro rfl rfl
    exact other rfl
  · cases same

/-- The clock interrupt leaves the buckets alone that it does not move. -/
theorem mem_cascade {wheel : Fin 4} (member : t ∈ cascade ticks queue (.wheel wheel index)) :
    t ∈ queue (.wheel wheel index) ∧ ¬Moves ticks wheel index := by
  unfold cascade at member
  -- a wheel is moved when the lower ones are at zero, and the loop goes no further than that
  split_ifs at member with zero0 zero1 zero2
  · obtain ⟨member, not3⟩ := mem_movebucket member
    obtain ⟨member, not2⟩ := mem_movebucket member
    obtain ⟨member, not1⟩ := mem_movebucket member
    obtain ⟨member, not0⟩ := mem_movebucket member
    refine ⟨member, fun ⟨_, here⟩ => ?_⟩
    fin_cases wheel
    · exact not0 rfl here
    · exact not1 rfl here
    · exact not2 rfl here
    · exact not3 rfl here
  · obtain ⟨member, not2⟩ := mem_movebucket member
    obtain ⟨member, not1⟩ := mem_movebucket member
    obtain ⟨member, not0⟩ := mem_movebucket member
    refine ⟨member, fun ⟨lower, here⟩ => ?_⟩
    fin_cases wheel
    · exact not0 rfl here
    · exact not1 rfl here
    · exact not2 rfl here
    · exact zero2 (lower 2 (by decide))
  · obtain ⟨member, not1⟩ := mem_movebucket member
    obtain ⟨member, not0⟩ := mem_movebucket member
    refine ⟨member, fun ⟨lower, here⟩ => ?_⟩
    fin_cases wheel
    · exact not0 rfl here
    · exact not1 rfl here
    · exact zero1 (lower 1 (by decide))
    · exact zero1 (lower 1 (by decide))
  · obtain ⟨member, not0⟩ := mem_movebucket member
    refine ⟨member, fun ⟨lower, here⟩ => ?_⟩
    fin_cases wheel
    · exact not0 rfl here
    · exact zero0 (lower 0 (by decide))
    · exact zero0 (lower 0 (by decide))
    · exact zero0 (lower 0 (by decide))

/-- What moving a bucket keeps. -/
structure Same (queue queue' : Queue → List τ) : Prop where
  proper : Proper queue → Proper queue'
  queued : ∀ t, Queued queue' t ↔ Queued queue t

theorem Same.movebucket {queue' : Queue → List τ} (same : Same queue queue') (wheel : Fin 4)
    (ticks : Ticks) : Same queue (movebucket wheel ticks queue') where
  proper proper := (same.proper proper).append (todo_ne_wheel _ _)
  queued t := (queued_append (todo_ne_wheel _ _)).trans (same.queued t)

theorem cascade_same (ticks : Ticks) (queue : Queue → List τ) :
    Same queue (cascade ticks queue) := by
  have start : Same queue queue := ⟨id, fun _ => .rfl⟩
  unfold cascade
  split_ifs
  · exact (((start.movebucket ..).movebucket ..).movebucket ..).movebucket ..
  · exact ((start.movebucket ..).movebucket ..).movebucket ..
  · exact (start.movebucket ..).movebucket ..
  · exact start.movebucket ..

theorem Inv.hardclock (inv : Inv s) : Inv (timeoutHardclockUpdate s).1 := by
  have same := cascade_same (s.ticks + 1) s.queue
  constructor
  · exact same.proper inv.proper
  · intro t
    exact (inv.onqueue t).trans (same.queued t).symm
  · intro t wheel index member
    obtain ⟨before, stays⟩ := mem_cascade member
    exact (inv.pending t wheel index before).tick stays

variable [DecidableEq τ]

/-- A timeout that is taken off its queue and put on another one stays queued. -/
theorem queued_requeue (proper : Proper queue) (present : Queued queue t) (place : Queue) :
    Proper (insert (remove queue t) place t) ∧
      ∀ other, Queued (insert (remove queue t) place t) other ↔ Queued queue other := by
  constructor
  · apply (proper.remove t).insert
    rw [queued_remove proper]
    exact fun removed => removed.1 rfl
  · intro other
    rw [queued_insert, queued_remove proper]
    by_cases same : other = t
    · subst same
      simp [present]
    · simp [same]

theorem Inv.add {toTicks : Ticks} (inv : Inv s)
    (added : timeoutAdd new toTicks s = some (s', reply)) : Inv s' := by
  -- the other timeouts keep their time
  have others {t : τ} (other : t ≠ new) :
      update s.toTime new (toTicks + s.ticks) t = s.toTime t :=
    update_of_ne other ..
  unfold timeoutAdd at added
  dsimp only at added
  split_ifs at added with _ queued earlier
  · cases added
    have present := (inv.onqueue new).mp queued
    obtain ⟨proper, same⟩ := queued_requeue inv.proper present .todo
    refine ⟨proper, fun t => (inv.onqueue t).trans (same t).symm, ?_⟩
    intro t wheel index member
    dsimp only at member ⊢
    rcases mem_insert.mp member with member | ⟨isTodo, _⟩
    · obtain ⟨other, member⟩ := (mem_remove inv.proper).mp member
      rw [others other]
      exact inv.pending t wheel index member
    · cases isTodo
  · cases added
    refine ⟨inv.proper, inv.onqueue, ?_⟩
    intro t wheel index member
    have pending := inv.pending t wheel index member
    dsimp only
    by_cases same : t = new
    · subst same
      rw [update_self]
      exact pending.later (not_lt.mp earlier)
    · rw [others same]
      exact pending
  · cases added
    have fresh : ¬Queued s.queue new := fun present => queued ((inv.onqueue new).mpr present)
    refine ⟨inv.proper.insert fresh, ?_, ?_⟩
    · intro t
      rw [queued_insert, ← inv.onqueue]
      by_cases same : t = new
      · subst same
        simp
      · simp [same]
    · intro t wheel index member
      dsimp only at member ⊢
      rcases mem_insert.mp member with member | ⟨isTodo, _⟩
      · have other : t ≠ new := by
          rintro rfl
          exact fresh ⟨_, member⟩
        rw [others other]
        exact inv.pending t wheel index member
      · cases isTodo

/-- Timeouts that leave the queues. -/
theorem Inv.leave (inv : Inv s) (t : τ) (triggered : τ → Bool) : Inv { s with
      queue := remove s.queue t
      onqueue := update s.onqueue t false
      triggered := triggered } := by
  constructor
  · exact inv.proper.remove t
  · intro other
    rw [queued_remove inv.proper, ← inv.onqueue]
    by_cases same : other = t
    · subst same
      simp
    · simp [same]
  · intro other wheel index member
    exact inv.pending other wheel index ((mem_remove inv.proper).mp member).2

theorem Inv.del (inv : Inv s) (t : τ) : Inv (timeoutDel t s).1 := by
  unfold timeoutDel
  split
  · exact inv.leave t _
  · exact ⟨inv.proper, inv.onqueue, inv.pending⟩

theorem Inv.softclock (inv : Inv s) (ran : softclock s = some (s', reply)) : Inv s' := by
  unfold Timeout.softclock at ran
  cases first : s.queue .todo with
  | nil =>
    rw [first] at ran
    cases ran
  | cons t rest =>
    rw [first] at ran
    dsimp only at ran
    have present : Queued s.queue t := ⟨.todo, by rw [first]; exact mem_cons_self⟩
    split at ran
    case isTrue future =>
      cases ran
      obtain ⟨wheel, index, place, pending⟩ := pending_bucket future
      obtain ⟨proper, same⟩ := queued_requeue inv.proper present (.wheel wheel index)
      rw [place]
      refine ⟨proper, fun other => (inv.onqueue other).trans (same other).symm, ?_⟩
      intro other wheel' index' member
      rcases mem_insert.mp member with member | ⟨here, rfl⟩
      · exact inv.pending other wheel' index' ((mem_remove inv.proper).mp member).2
      · cases here
        exact pending
    case isFalse =>
      cases ran
      exact inv.leave t _

theorem Inv.step (inv : Inv s) (stepped : step label s = some (s', reply)) : Inv s' := by
  cases label with
  | add new toTicks => exact inv.add stepped
  | del t =>
    have kept := inv.del t
    rw [Option.some.inj stepped] at kept
    exact kept
  | hardclock =>
    cases stepped
    exact inv.hardclock
  | softclock => exact inv.softclock stepped

/-! ### Each timeout runs once -/

/-- The calls whose timeouts have run are different ones, and none of them is that of a
timeout which is still queued. -/
structure NotesOk (s : State τ) (notes : Notes τ) : Prop where
  once : notes.ran.Nodup
  earlier : ∀ n ∈ notes.ran, n < notes.count
  counted : ∀ t, s.onqueue t = true → notes.serial t < notes.count
  waiting : ∀ t, s.onqueue t = true → notes.serial t ∉ notes.ran
  distinct : ∀ t t', s.onqueue t = true → s.onqueue t' = true →
    notes.serial t = notes.serial t' → t = t'

variable {notes : Notes τ}

omit [DecidableEq τ] in
/-- Nothing is noted when no timeout is queued anew or run. -/
theorem NotesOk.mono (ok : NotesOk s notes)
    (fewer : ∀ t, s'.onqueue t = true → s.onqueue t = true) : NotesOk s' notes where
  once := ok.once
  earlier := ok.earlier
  counted t queued := ok.counted t (fewer t queued)
  waiting t queued := ok.waiting t (fewer t queued)
  distinct t t' queued queued' := ok.distinct t t' (fewer t queued) (fewer t' queued')

/-- A call that queues a timeout has a number of its own. -/
theorem NotesOk.queued (ok : NotesOk s notes) (onqueue : s'.onqueue = update s.onqueue new true) :
    NotesOk s' { notes with
      count := notes.count + 1
      serial := update notes.serial new notes.count } := by
  -- a timeout is the new one, or was queued before
  have cases {t : τ} (queued : s'.onqueue t = true) :
      t = new ∨ t ≠ new ∧ s.onqueue t = true := by
    rw [onqueue] at queued
    by_cases same : t = new
    · exact .inl same
    · rw [update_of_ne same] at queued
      exact .inr ⟨same, queued⟩
  constructor
  · exact ok.once
  · intro n member
    exact Nat.lt_succ_of_lt (ok.earlier n member)
  · intro t queued
    rcases cases queued with rfl | ⟨other, before⟩
    · simp
    · simpa [other] using Nat.lt_succ_of_lt (ok.counted t before)
  · intro t queued
    rcases cases queued with rfl | ⟨other, before⟩
    · intro member
      simp only [update_self] at member
      exact lt_irrefl _ (ok.earlier _ member)
    · simpa [other] using ok.waiting t before
  · intro t t' queued queued' same
    rcases cases queued with rfl | ⟨other, before⟩ <;>
      rcases cases queued' with rfl | ⟨other', before'⟩
    · rfl
    · simp only [update_self, update_of_ne other'] at same
      exact absurd (ok.counted t' before') (by omega)
    · simp only [update_self, update_of_ne other] at same
      exact absurd (ok.counted t before) (by omega)
    · simp only [update_of_ne other, update_of_ne other'] at same
      exact ok.distinct t t' before before' same

/-- A timeout that runs was queued, and is not any more. -/
theorem NotesOk.ran (ok : NotesOk s notes) (queued : s.onqueue t = true)
    (onqueue : s'.onqueue = update s.onqueue t false) :
    NotesOk s' { notes with ran := notes.serial t :: notes.ran } := by
  have before {other : τ} (queued' : s'.onqueue other = true) :
      other ≠ t ∧ s.onqueue other = true := by
    rw [onqueue] at queued'
    by_cases same : other = t
    · subst same
      simp at queued'
    · rw [update_of_ne same] at queued'
      exact ⟨same, queued'⟩
  constructor
  · exact nodup_cons.mpr ⟨ok.waiting t queued, ok.once⟩
  · exact forall_mem_cons.mpr ⟨ok.counted t queued, ok.earlier⟩
  · intro other queued'
    exact ok.counted other (before queued').2
  · intro other queued' member
    obtain ⟨ne, queued'⟩ := before queued'
    rcases mem_cons.mp member with same | member
    · exact ne (ok.distinct other t queued' queued same)
    · exact ok.waiting other queued' member
  · intro a b first second
    exact ok.distinct a b (before first).2 (before second).2

theorem NotesOk.step (ok : NotesOk s notes) (inv : Inv s)
    (stepped : step label s = some (s', reply)) : NotesOk s' (notes.note label reply) := by
  cases label with
  | add new toTicks =>
    unfold Timeout.step timeoutAdd at stepped
    dsimp only at stepped
    split_ifs at stepped
    · cases stepped
      exact ok.mono fun _ => id
    · cases stepped
      exact ok.mono fun _ => id
    · cases stepped
      exact ok.queued rfl
  | del t =>
    have result : timeoutDel t s = (s', reply) := Option.some.inj stepped
    unfold timeoutDel at result
    split_ifs at result
    · cases result
      refine ok.mono fun other queued => ?_
      by_cases same : other = t
      · subst same
        simp at queued
      · simpa [same] using queued
    · cases result
      exact ok.mono fun _ => id
  | hardclock =>
    cases stepped
    exact ok.mono fun _ => id
  | softclock =>
    unfold Timeout.step Timeout.softclock at stepped
    cases first : s.queue .todo with
    | nil =>
      rw [first] at stepped
      cases stepped
    | cons t rest =>
      rw [first] at stepped
      have queued : s.onqueue t = true :=
        (inv.onqueue t).mpr ⟨.todo, by rw [first]; exact mem_cons_self⟩
      dsimp only at stepped
      split_ifs at stepped
      · cases stepped
        exact ok.mono fun _ => id
      · cases stepped
        exact ok.ran queued rfl

theorem softclock_ran_due (ran : softclock s = some (s', .ran t)) :
    (s.toTime t - s.ticks).toInt ≤ 0 := by
  unfold softclock at ran
  split at ran
  · cases ran
  · dsimp only at ran
    split_ifs at ran with future
    · cases ran
    · cases ran
      exact not_lt.mp future

omit [DecidableEq τ] in
theorem start_ok (ticks : Ticks) (toTime : τ → Ticks) : Inv (timeoutStartup ticks toTime) ∧
    NotesOk (timeoutStartup ticks toTime) Notes.start := by
  refine ⟨⟨⟨fun _ => nodup_nil, nofun⟩, ?_, nofun⟩, ⟨nodup_nil, ?_, ?_, ?_, ?_⟩⟩ <;>
    simp [timeoutStartup, Notes.start, Queued]

theorem next_ok {a b : State τ × Notes τ} (oks : Inv a.1 ∧ NotesOk a.1 a.2)
    (stepped : next label a = some b) : Inv b.1 ∧ NotesOk b.1 b.2 := by
  obtain ⟨⟨b', reply⟩, moved, result⟩ := Option.map_eq_some_iff.mp stepped
  cases result
  exact ⟨oks.1.step moved, oks.2.step oks.1 moved⟩

omit [DecidableEq τ] in
theorem Inv.onqueue_iff (inv : Inv s) (t : τ) : s.onqueue t = true ↔
    t ∈ s.queue .todo ∨ ∃ wheel index, t ∈ s.queue (.wheel wheel index) := by
  rw [inv.onqueue]
  constructor
  · rintro ⟨place, member⟩
    cases place with
    | todo => exact .inl member
    | wheel wheel index => exact .inr ⟨wheel, index, member⟩
  · rintro (member | ⟨wheel, index, member⟩)
    · exact ⟨_, member⟩
    · exact ⟨_, member⟩

omit [DecidableEq τ] in
theorem Inv.todo_of_due (inv : Inv s) (queued : s.onqueue t = true)
    (due : (s.toTime t - s.ticks).toInt ≤ 0) : t ∈ s.queue .todo := by
  rcases (inv.onqueue_iff t).mp queued with member | ⟨wheel, index, member⟩
  · exact member
  · exact absurd (inv.pending t wheel index member).positive (not_lt.mpr due)

/-- From the start with any clock, in every state that calls of `timeout_add` and
`timeout_del`, clock interrupts and turns of `softclock` lead to: the timeouts with the flag
are those on the worklist or in a bucket; those of them that are due are on the worklist;
`softclock` runs a timeout only if it is due; and no call that queued a timeout has made it
run twice. -/
theorem timeouts_on_time {ticks : Ticks} {toTime : τ → Ticks}
    (run : Run next anyStep (timeoutStartup ticks toTime, Notes.start) (s, notes)) :
    (∀ t, s.onqueue t = true ↔
      t ∈ s.queue .todo ∨ ∃ wheel index, t ∈ s.queue (.wheel wheel index)) ∧
    (∀ t, s.onqueue t = true → (s.toTime t - s.ticks).toInt ≤ 0 → t ∈ s.queue .todo) ∧
    (∀ s' t, softclock s = some (s', .ran t) → (s.toTime t - s.ticks).toInt ≤ 0) ∧
    notes.ran.Nodup := by
  have oks : Inv s ∧ NotesOk s notes :=
    run.invariant (P := fun s => Inv s.1 ∧ NotesOk s.1 s.2)
      (fun _ _ _ oks _ stepped => next_ok oks stepped) (start_ok ticks toTime)
  exact ⟨oks.1.onqueue_iff, fun _ => oks.1.todo_of_due, fun _ _ => softclock_ran_due, oks.2.once⟩

/-- The timeout is not due. -/
def Later (s : State τ) (t : τ) : Prop :=
  0 < (s.toTime t - s.ticks).toInt

/-- The first timeout leaves the worklist; it stays queued if it is for later, and is run if not. -/
theorem softclock_turn {rest : List τ} (first : s.queue .todo = t :: rest) :
    ∃ s' reply, softclock s = some (s', reply) ∧ s'.queue .todo = rest ∧ Later s' = Later s ∧
      (∀ u, s'.onqueue u = true ↔ s.onqueue u = true ∧ (u = t → Later s u)) ∧
      (Later s t ∧ reply = .moved ∨ ¬Later s t ∧ reply = .ran t) := by
  unfold softclock
  rw [first]
  dsimp only
  split
  case isTrue later =>
    obtain ⟨wheel, index, place, -⟩ := pending_bucket later
    refine ⟨_, _, rfl, ?_, rfl, fun u => (and_iff_left fun same => same ▸ later).symm,
      .inl ⟨later, rfl⟩⟩
    simp [place, Queues.insert, remove, first]
  case isFalse due =>
    refine ⟨_, _, rfl, by simp [remove, first], rfl, fun u => ?_, .inr ⟨due, rfl⟩⟩
    by_cases same : u = t
    · exact iff_of_false (by simp [same]) fun queued => due (same ▸ queued.2 same)
    · simp [same]

/-- The timeouts that have been run since then, in this order. -/
def RunSince (before after : Notes τ) (ran : List τ) : Prop :=
  after.ran = (ran.map before.serial).reverse ++ before.ran

/-- From any state the loop ends.  It has run each timeout that was queued and due, once, and no
other one; those for later are still queued. -/
theorem softclock_runs_due {ticks : Ticks} {toTime : τ → Ticks}
    (run : Run next anyStep (timeoutStartup ticks toTime, Notes.start) (s, notes)) :
    ∃ s' ran, Run next (fun label _ => label = .softclock) (s, notes) s' ∧
      s'.1.queue .todo = [] ∧ (∀ u, s'.1.onqueue u = true ↔ s.onqueue u = true ∧ Later s u) ∧
      RunSince notes s'.2 ran ∧ ran.Nodup ∧ ∀ u, u ∈ ran ↔ s.onqueue u = true ∧ ¬Later s u := by
  have inv : Inv s := (run.invariant (P := fun s => Inv s.1 ∧ NotesOk s.1 s.2)
    (fun _ _ _ oks _ stepped => next_ok oks stepped) (start_ok ticks toTime)).1
  clear run
  induction todo : s.queue .todo generalizing s notes with
  | nil =>
    have none_due : ∀ u, s.onqueue u = true → Later s u := by
      intro u queued
      by_contra due
      simpa [todo] using inv.todo_of_due queued (not_lt.mp due)
    refine ⟨_, [], .refl, todo, fun u => (and_iff_left_of_imp (none_due u)).symm, rfl, nodup_nil,
      fun u => ?_⟩
    exact iff_of_false not_mem_nil fun queued => queued.2 (none_due u queued.1)
  | cons t rest ih =>
    have isQueued : s.onqueue t = true := (inv.onqueue_iff t).mpr (.inl (todo ▸ mem_cons_self))
    obtain ⟨s', reply, turned, left, later, queued, replied⟩ := softclock_turn todo
    obtain ⟨last, ran, run, done, kept, since, once, members⟩ :=
      @ih s' (notes.note .softclock reply) (inv.softclock turned) left
    have all : Run next (fun label _ => label = .softclock) (s, notes) last :=
      .head ⟨.softclock, rfl, congrArg (Option.map _) turned⟩ run
    simp only [queued, later] at kept members
    rcases replied with ⟨isLater, rfl⟩ | ⟨isDue, rfl⟩
    · exact ⟨last, ran, all, done, by grind, since, once, by grind⟩
    · refine ⟨last, t :: ran, all, done, by grind, ?_, nodup_cons.mpr ⟨by grind, once⟩, by grind⟩
      rw [RunSince, since]
      simp [Notes.note]

end Steps

/-- A timeout for three ticks, over the zero of the clock: `softclock` puts it into the first
wheel, and runs it when it is due. -/
theorem sampleRun_on_time : ∃ s : State Nat × Notes Nat,
      Run next anyStep (timeoutStartup (-1) fun _ => 0, Notes.start) s ∧
      s.1.ticks = 2 ∧ s.2.ran = [0] ∧ s.2.ran.Nodup := by
  obtain ⟨⟨s, notes⟩, run, clock, ran⟩ : ∃ s : State Nat × Notes Nat,
      Run next anyStep (timeoutStartup (-1) fun _ => 0, Notes.start) s ∧
      s.1.ticks = 2 ∧ s.2.ran = [0] :=
    exec_reaches [.add 7 3, .softclock, .hardclock, .hardclock, .hardclock, .softclock]
      (by decide +kernel)
  exact ⟨_, run, clock, ran, (timeouts_on_time run).2.2.2⟩

theorem sampleRun_runs_due : ∃ (s s' : State Nat × Notes Nat) (ran : List Nat),
    s.1.queue .todo = [7, 8] ∧ s'.1.queue .todo = [] ∧ RunSince s.2 s'.2 ran ∧
      ∀ u, u ∈ ran ↔ s.1.onqueue u = true ∧ ¬Later s.1 u := by
  obtain ⟨s, run, test⟩ : ∃ s : State Nat × Notes Nat, Run next anyStep
      (timeoutStartup 9 fun _ => 0, Notes.start) s ∧ s.1.queue .todo = [7, 8] :=
    exec_reaches [.add 7 0, .add 8 3] (by decide +kernel)
  obtain ⟨s', ran, -, done, -, since, -, members⟩ := softclock_runs_due run
  exact ⟨s, s', ran, test, done, since, members⟩

end Bitrig.Timeout
