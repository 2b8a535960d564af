import Bitrig.IpInput.Queue
import Bitrig.Lib.KeyedList

/-!
# Reassembly by the host is correct

While the fragments with the key of a datagram are cut from it, and others are arbitrary,
`ip_reass` returns the datagram exactly when the fragments that it has accepted cover it, and all
entries of the queues are counted.
-/

namespace Bitrig.IpInput

open Bitrig.Reassembly Bitrig.Transition List Option

/-- The packets that arrive: fragments with the key of the datagram are cut from it. -/
def Arrives (d : Datagram) : Label → State → Prop
  | .packet m _, _ =>
    WellFormed m ∧ (m.ip.key = d.key → isFragment m.ip = true → CutFrom d m)
  | _, _ => True

instance (d : Datagram) (label : Label) (st : State) : Decidable (Arrives d label st) := by
  cases label <;> unfold Arrives <;> infer_instance

/-- The entries are sorted by offset and disjoint. -/
def Sorted (queue : List Ipqent) : Prop :=
  queue.Pairwise fun a b => a.ip.off ≤ b.ip.off ∧ a.ip.off + a.ip.len ≤ b.ip.off

/-- A byte of the datagram is in one of the fragments. -/
def Covered (accepted : List Ipqent) (x : Nat) : Prop :=
  ∃ e ∈ accepted, e.ip.off ≤ x ∧ x < e.ip.off + e.ip.len

/-- The fragments that have been accepted for a datagram. -/
def State.acceptedFor (st : State) (key : Key) : List Ipqent :=
  (st.find key).elim [] Ipq.accepted

/-! ### The queue of the datagram -/

/-- The queue of the datagram, and the fragments that have been accepted for it. -/
structure Parts (d : Datagram) (fp : Ipq) : Prop where
  ordered : pieces.Ordered fp.fragq
  good : ∀ e ∈ fp.fragq, Good d e
  covers : ∀ x, pieces.Covers fp.fragq x ↔ Covered fp.accepted x

structure QueueOk (d : Datagram) (fp : Ipq) : Prop where
  nonempty : fp.fragq ≠ []
  parts : fp.key = d.key → Parts d fp

section Queues

variable {d : Datagram} {fp : Ipq} {e : Ipqent}

theorem Parts.sorted (parts : Parts d fp) : Sorted fp.fragq :=
  parts.ordered.imp fun apart => ⟨(Nat.le_add_right _ _).trans apart, apart⟩

theorem Parts.single (good : Good d e) (ttl : Nat) (key : Key) : Parts d ⟨ttl, key, [e], [e]⟩ where
  ordered := pairwise_singleton _ e
  good := by
    intro e' mem
    obtain rfl := mem_singleton.mp mem
    exact good
  covers := fun _ => Iff.rfl

/-- A fragment of the datagram is inserted. -/
theorem Parts.inserted (parts : Parts d fp) (good : Good d e) {queue : List Ipqent}
    (insert : pieces.insert e fp.fragq = some queue) :
    Parts d { fp with fragq := queue, accepted := e :: fp.accepted } := by
  have inserted := Pieces.inserted cuts parts.ordered parts.good good insert
  refine ⟨inserted.ordered, inserted.good, fun x => ?_⟩
  rw [inserted.covers, parts.covers]
  exact or_comm.trans (Pieces.covers_cons (v := pieces)).symm

/-- The queue of the datagram has no gap and reaches its end exactly if the datagram is covered. -/
theorem Parts.walk_iff (parts : Parts d fp) : pieces.walk 0 fp.fragq = some d.payload.length ↔
      ∀ x < d.payload.length, Covered fp.accepted x := by
  constructor
  · intro walk x lt
    exact (parts.covers x).mp ((Pieces.covers_of_walk walk).mpr ⟨Nat.zero_le x, lt⟩)
  · intro covered
    refine Pieces.walk_of_covers parts.ordered (fun _ _ => Nat.zero_le _)
      (fun e mem => (parts.good e mem).within) (Nat.zero_le _) ?_
    exact fun x _ lt => (parts.covers x).mpr (covered x lt)

/-- The packet that is made of a queue without a gap is the datagram. -/
theorem Parts.joined {first : Ipqent} (parts : Parts d fp) (isKey : fp.key = d.key)
    (isFirst : fp.fragq.head? = some first)
    (walk : pieces.walk 0 fp.fragq = some d.payload.length) :
    first.ip.off = 0 ∧ Joined d (IpInput.joined fp first d.payload.length) := by
  have mem : first ∈ fp.fragq := mem_of_head? isFirst
  have start : first.ip.off = 0 := by
    cases queue : fp.fragq with
    | nil =>
      rw [queue] at isFirst
      cases isFirst
    | cons e rest =>
      rw [queue] at isFirst walk
      cases isFirst
      rw [Pieces.walk] at walk
      split_ifs at walk with start
      exact start
  have key := (parts.good first mem).key
  have bytes : fp.fragq.flatMap Ipqent.data = d.payload := by
    rw [Pieces.flatMap_of_walk walk (fun e mem => (parts.good e mem).data), Nat.sub_zero, slice_all]
  refine ⟨start, bytes, field16_of_le d.bound, start, ?_⟩
  -- the addresses are those of the queue, the rest is from the first header
  change (⟨first.ip.key.id, fp.key.src, fp.key.dst, first.ip.key.p⟩ : Key) = d.key
  rw [isKey, key]

end Queues

/-! ### All queues -/

/-- The number of entries of all queues. -/
def entries (ipq : List Ipq) : Int :=
  (ipq.map fun fp => (fp.fragq.length : Int)).sum

/-- The queues; a number of entries that are counted are not queued yet. -/
structure Core (d : Datagram) (st : State) (spare : Int) : Prop where
  count : st.frags = entries st.ipq + spare
  keys : (st.ipq.map Ipq.key).Nodup
  ok : ∀ fp ∈ st.ipq, QueueOk d fp

/-- The datagram has not been covered yet. -/
def Waiting (d : Datagram) (fp : Ipq) : Prop :=
  fp.key = d.key → ¬∀ x < d.payload.length, Covered fp.accepted x

structure Inv (d : Datagram) (st : State) : Prop extends Core d st 0 where
  waiting : ∀ fp ∈ st.ipq, Waiting d fp

section States

variable {d : Datagram} {st st' : State} {spare : Int} {fp fp' : Ipq} {e : Ipqent} {ipq : List Ipq}
  {m : Packet}

theorem entries_cons (fp : Ipq) (rest : List Ipq) :
    entries (fp :: rest) = fp.fragq.length + entries rest := by
  rw [entries, map_cons, sum_cons, entries]

theorem entries_append (front rest : List Ipq) :
    entries (front ++ rest) = entries front + entries rest := by
  rw [entries, map_append, sum_append, entries, entries]

theorem entries_erase (mem : fp ∈ ipq) :
    entries ipq = fp.fragq.length + entries (ipq.erase fp) := by
  exact ((perm_cons_erase mem).map _).sum_eq

/-- A queue that is replaced stays in its place. -/
theorem replace_split (mem : fp ∈ ipq) (fp' : Ipq) :
    ∃ front rest, ipq = front ++ fp :: rest ∧ ipq.replace fp fp' = front ++ fp' :: rest := by
  induction ipq with
  | nil => cases mem
  | cons first others ih =>
    by_cases same : first = fp
    · subst same
      exact ⟨[], others, rfl, replace_cons_self⟩
    · obtain ⟨front, rest, split, replaced⟩ :=
        ih ((mem_cons.mp mem).resolve_left (fun is => same is.symm))
      have differ : (fp == first) = false := beq_eq_false_iff_ne.mpr (fun is => same is.symm)
      refine ⟨first :: front, rest, congrArg (first :: ·) split, ?_⟩
      rw [replace_cons, differ, replaced]
      rfl

/-- A queue is freed. -/
theorem Core.freef (core : Core d st spare) (mem : fp ∈ st.ipq) : Core d (st.freef fp) spare where
  count := by
    have count := core.count
    have split := entries_erase mem
    change st.frags - fp.fragq.length = entries (st.ipq.erase fp) + spare
    omega
  keys := core.keys.sublist (erase_sublist.map Ipq.key)
  ok := fun other among => core.ok other (mem_of_mem_erase among)

theorem Inv.freef (inv : Inv d st) (mem : fp ∈ st.ipq) : Inv d (st.freef fp) :=
  ⟨inv.toCore.freef mem, fun other among => inv.waiting other (mem_of_mem_erase among)⟩

section Freed

variable {P : State → Prop}
  (freef : ∀ {st : State} {fp : Ipq}, P st → fp ∈ st.ipq → P (st.freef fp))
  (holds : P st)

include freef holds

theorem flushLoop_keeps (max : Nat) : P (State.flushLoop max st) := by
  induction max generalizing st with
  | zero => exact holds
  | succ max ih =>
    unfold State.flushLoop
    split
    · exact holds
    · rename_i fp rest isQueue
      split_ifs
      · exact holds
      · exact ih (freef holds (by rw [isQueue]; exact mem_cons_self))
      · exact holds

theorem drain_keeps : P st.drain := by
  unfold State.drain
  generalize isQueue : st.ipq = ipq
  induction ipq generalizing st with
  | nil => exact holds
  | cons fp rest ih =>
    refine ih (freef holds (by rw [isQueue]; exact mem_cons_self)) ?_
    change st.ipq.erase fp = rest
    rw [isQueue, erase_cons_head]

/-- What freed queues and `ip_reass` keep is kept by `ip_ours`. -/
theorem ours_keeps {m : Packet} {memory : Memory}
    (reass : isFragment m.ip = true → (convert m).mff = true ∨ (convert m).ip.off ≠ 0 →
      ∃ out st', { st with frags := st.frags + 1 }.reass (convert m) (st.find (convert m).ip.key)
        memory.ipq = some (out, st') ∧ P st') :
    ∃ out st', st.ours m memory = some (out, st') ∧ P st' := by
  unfold State.ours
  by_cases fragment : isFragment m.ip = true
  · rw [if_pos fragment]
    by_cases pullup : memory.pullup = true
    · rw [if_pos pullup]
      by_cases bad : badFragment (convert m) = true
      · exact ⟨none, st, if_pos bad, holds⟩
      rw [if_neg bad]
      by_cases passed : (convert m).mff = true ∨ (convert m).ip.off ≠ 0
      · rw [if_pos passed]
        by_cases full : st.frags + 1 > st.maxqueue
        · exact ⟨none, st.flush, if_pos full, flushLoop_keeps freef holds 50⟩
        rw [if_neg full]
        by_cases ipqent : memory.ipqent = true
        · rw [if_pos ipqent]
          obtain ⟨out, st', run, holds'⟩ := reass fragment passed
          have found : st.find m.ip.key = st.find (convert m).ip.key := rfl
          rw [found, run]
          cases out with
          | none => exact ⟨none, st', rfl, holds'⟩
          | some packet => exact ⟨_, st', rfl, holds'⟩
        · exact ⟨none, st, if_neg ipqent, holds⟩
      · rw [if_neg passed]
        cases isFound : st.find m.ip.key with
        | none => exact ⟨_, st, rfl, holds⟩
        | some fp => exact ⟨_, st.freef fp, rfl, freef holds (mem_of_find?_eq_some isFound)⟩
    · exact ⟨none, st, if_neg pullup, holds⟩
  · exact ⟨some m, st, if_neg fragment, holds⟩

end Freed

/-- The queues that the timer keeps are as they were, but for the time that they have. -/
theorem slowtimoLoop_spec (ipq : List Ipq) :
    entries ipq = entries (State.slowtimoLoop ipq).1 + (State.slowtimoLoop ipq).2 ∧
      ((State.slowtimoLoop ipq).1.map Ipq.key).Sublist (ipq.map Ipq.key) ∧
      ∀ kept ∈ (State.slowtimoLoop ipq).1, ∃ fp ∈ ipq, ∃ ttl, kept = { fp with ttl } := by
  induction ipq with
  | nil => exact ⟨rfl, List.Sublist.refl _, fun _ mem => absurd mem not_mem_nil⟩
  | cons fp rest ih =>
    obtain ⟨count, keys, among⟩ := ih
    have later : ∀ kept ∈ (State.slowtimoLoop rest).1, ∃ fp' ∈ fp :: rest, ∃ ttl,
        kept = { fp' with ttl } := by
      intro kept mem
      obtain ⟨fp', mem', is⟩ := among kept mem
      exact ⟨fp', mem_cons_of_mem fp mem', is⟩
    unfold State.slowtimoLoop
    dsimp only
    split_ifs
    · refine ⟨?_, keys.trans (sublist_cons_self _ _), later⟩
      rw [entries_cons]
      push_cast
      omega
    · refine ⟨?_, keys.cons_cons _, fun kept mem => ?_⟩
      · rw [entries_cons, count]
        exact (add_assoc _ _ _).symm
      · rcases mem_cons.mp mem with rfl | mem
        · exact ⟨fp, mem_cons_self, _, rfl⟩
        · exact later kept mem

theorem Inv.slowtimo (inv : Inv d st) : Inv d st.slowtimo := by
  obtain ⟨count, keys, among⟩ := slowtimoLoop_spec st.ipq
  refine ⟨⟨?_, inv.keys.sublist keys, fun kept mem => ?_⟩, fun kept mem => ?_⟩
  · have before := inv.count
    change st.frags - (State.slowtimoLoop st.ipq).2 = entries (State.slowtimoLoop st.ipq).1 + 0
    omega
  · obtain ⟨fp, mem', ttl, rfl⟩ := among kept mem
    obtain ⟨nonempty, parts⟩ := inv.ok fp mem'
    refine ⟨nonempty, fun isKey => ?_⟩
    obtain ⟨ordered, good, covers⟩ := parts isKey
    exact ⟨ordered, good, covers⟩
  · obtain ⟨fp, mem', ttl, rfl⟩ := among kept mem
    exact inv.waiting fp mem'

/-! ### The end of `ip_reass` -/

/-- What the end of `ip_reass` does with the queue of the datagram. -/
structure Checked (d : Datagram) (fp : Ipq) (out : Option Packet) (st' : State) : Prop where
  returned : out.isSome = true ↔ ∀ x < d.payload.length, Covered fp.accepted x
  joined : ∀ m, out = some m → Joined d m
  kept : out = none → fp ∈ st'.ipq

/-- The queue of the datagram is returned exactly if it is covered. -/
theorem check_parts (parts : Parts d fp) (isKey : fp.key = d.key) (nonempty : fp.fragq ≠ [])
    (mem : fp ∈ st.ipq) : ∃ out, st.check fp = some (out, if out.isSome then st.freef fp else st) ∧
      Checked d fp out (if out.isSome then st.freef fp else st) := by
  obtain ⟨last, isLast⟩ : ∃ last, fp.fragq.getLast? = some last :=
    ⟨_, getLast?_eq_some_getLast nonempty⟩
  obtain ⟨first, isFirst⟩ : ∃ first, fp.fragq.head? = some first :=
    ⟨_, head?_eq_some_head nonempty⟩
  have reaches := (parts.good last (mem_of_getLast? isLast)).last
  -- the queue waits if there is a gap, or if the last fragment is not there
  have waits : ¬pieces.walk 0 fp.fragq = some d.payload.length → Checked d fp none st := by
    intro gap
    refine ⟨?_, nofun, fun _ => mem⟩
    rw [parts.walk_iff] at gap
    exact iff_of_false Bool.false_ne_true gap
  unfold State.check
  rw [contiguous_eq, isLast, isFirst]
  cases walk : pieces.walk 0 fp.fragq with
  | none => exact ⟨none, rfl, waits (by rw [walk]; exact nofun)⟩
  | some stop =>
    have stops : stop = last.ip.off + last.ip.len := Pieces.eq_stop_of_walk isLast walk
    simp only [bind_eq_bind, bind_some]
    cases flag : last.mff with
    | true =>
      refine ⟨none, rfl, waits ?_⟩
      rw [walk]
      intro is
      rw [← some.inj is, stops] at reaches
      rw [flag] at reaches
      exact Bool.false_ne_true (reaches.mpr rfl).symm
    | false =>
      have whole : stop = d.payload.length := stops.trans (reaches.mp flag)
      subst whole
      obtain ⟨start, joined⟩ := parts.joined isKey isFirst walk
      have fits := (parts.good first (mem_of_head? isFirst)).fits start
      rw [if_neg (not_lt.mpr fits)]
      refine ⟨some (IpInput.joined fp first d.payload.length), rfl, ?_, ?_, nofun⟩
      · exact iff_of_true rfl (parts.walk_iff.mp walk)
      · intro m is
        cases is
        exact joined

/-- The end of `ip_reass` for any queue: it is kept or freed. -/
theorem check_cases (nonempty : fp.fragq ≠ []) (st : State) :
    ∃ out st', st.check fp = some (out, st') ∧ (st' = st ∨ st' = st.freef fp) := by
  obtain ⟨last, isLast⟩ : ∃ last, fp.fragq.getLast? = some last :=
    ⟨_, getLast?_eq_some_getLast nonempty⟩
  obtain ⟨first, isFirst⟩ : ∃ first, fp.fragq.head? = some first :=
    ⟨_, head?_eq_some_head nonempty⟩
  unfold State.check
  rw [isLast, isFirst]
  cases contiguous 0 fp.fragq with
  | none => exact ⟨none, st, rfl, .inl rfl⟩
  | some stop =>
    simp only [bind_eq_bind, bind_some]
    split_ifs
    · exact ⟨none, st, rfl, .inl rfl⟩
    · exact ⟨none, _, rfl, .inr rfl⟩
    · exact ⟨_, _, rfl, .inr rfl⟩

/-- The end of `ip_reass` leaves the queues as they should be between the calls. -/
theorem check_spec (core : Core d st 0) (mem : fp ∈ st.ipq)
    (others : ∀ other ∈ st.ipq, other ≠ fp → Waiting d other) :
    ∃ out st', st.check fp = some (out, st') ∧ Inv d st' ∧
      (fp.key = d.key → Checked d fp out st') := by
  obtain ⟨nonempty, parts⟩ := core.ok fp mem
  have nodup : st.ipq.Nodup := core.keys.of_map
  have freed : Inv d (st.freef fp) := by
    refine ⟨core.freef mem, fun other among => ?_⟩
    have inside := mem_of_mem_erase among
    refine others other inside ?_
    rintro rfl
    exact nodup.not_mem_erase among
  by_cases isKey : fp.key = d.key
  · obtain ⟨out, run, checked⟩ := check_parts (parts isKey) isKey nonempty mem
    refine ⟨out, _, run, ?_, fun _ => checked⟩
    cases out with
    | some m => exact freed
    | none =>
      refine ⟨core, fun other among => ?_⟩
      by_cases same : other = fp
      · subst same
        exact fun _ covered => Bool.false_ne_true (checked.returned.mpr covered)
      · exact others other among same
  · obtain ⟨out, st', run, cases'⟩ := check_cases nonempty st
    refine ⟨out, st', run, ?_, fun is => absurd is isKey⟩
    rcases cases' with rfl | rfl
    · refine ⟨core, fun other among => ?_⟩
      by_cases same : other = fp
      · subst same
        exact fun is => absurd is isKey
      · exact others other among same
    · exact freed

/-! ### The whole of `ip_reass` -/

/-- A queue is changed in its place. -/
theorem Core.replace (core : Core d st spare) (mem : fp ∈ st.ipq) (ok : QueueOk d fp')
    (key : fp'.key = fp.key) (frags spare' : Int)
    (count : frags = st.frags - fp.fragq.length + fp'.fragq.length + (spare' - spare)) :
    Core d { st with ipq := st.ipq.replace fp fp', frags } spare' ∧
      fp' ∈ st.ipq.replace fp fp' ∧
      ∀ other ∈ st.ipq.replace fp fp', other ≠ fp' → other ∈ st.ipq := by
  obtain ⟨front, rest, split, replaced⟩ := replace_split mem fp'
  have before := core.count
  have keys := core.keys
  have oks := core.ok
  rw [split, entries_append, entries_cons] at before
  rw [split, map_append] at keys
  have others : ∀ other ∈ front ++ fp' :: rest, other ≠ fp' → other ∈ st.ipq := by
    intro other among ne
    rw [split]
    rcases mem_append.mp among with among | among
    · exact mem_append_left _ among
    · exact mem_append_right _
        (mem_cons_of_mem fp ((mem_cons.mp among).resolve_left ne))
  rw [replaced]
  refine ⟨⟨?_, ?_, fun other among => ?_⟩, ?_, others⟩
  · dsimp only
    rw [entries_append, entries_cons]
    omega
  · rw [map_append, map_cons, key]
    exact keys
  · by_cases same : other = fp'
    · rw [same]
      exact ok
    · exact oks other (others other among same)
  · exact mem_append_right _ mem_cons_self

theorem length_markCe (ecn ecn0 : Nat) (queue : List Ipqent) :
    (markCe ecn ecn0 queue).length = queue.length := by
  cases queue with
  | nil => rfl
  | cons first rest =>
    unfold markCe
    split_ifs <;> rfl

section

variable (inv : Inv d st)
include inv

theorem Inv.find_eq (mem : fp ∈ st.ipq) : st.find fp.key = some fp :=
  (KeyedList.find?_eq_some_iff inv.keys).mpr ⟨mem, rfl⟩

/-- What `ip_reass` does with a fragment of the datagram.  It accepts the fragment, unless there is
no memory or all bytes of the fragment have been accepted; it returns the datagram exactly if the
fragments that have been accepted cover it, and else keeps them. -/
def Outcome (d : Datagram) (st : State) (e : Ipqent) (memory : Bool) (out : Option Packet)
    (st' : State) : Prop :=
  ∃ accepted,
    (accepted = e :: st.acceptedFor d.key ∨
      accepted = st.acceptedFor d.key ∧ (st.find d.key = none ∧ memory = false ∨
        ∀ x, e.ip.off ≤ x → x < e.ip.off + e.ip.len → Covered accepted x)) ∧
    (out.isSome = true ↔ ∀ x < d.payload.length, Covered accepted x) ∧
    (∀ m, out = some m → Joined d m) ∧
    (out = none → st'.acceptedFor d.key = accepted)

omit inv in
/-- The outcome when the fragment has been put into a queue. -/
theorem Checked.outcome {memory : Bool} {out : Option Packet} (checked : Checked d fp out st')
    (inv : Inv d st') (isKey : fp.key = d.key)
    (accepted : fp.accepted = e :: st.acceptedFor d.key) : Outcome d st e memory out st' := by
  refine ⟨fp.accepted, .inl accepted, checked.returned, checked.joined, fun isNone => ?_⟩
  rw [State.acceptedFor, ← isKey, inv.find_eq (checked.kept isNone)]
  rfl

/-- A fragment that is dropped is not counted any more. -/
theorem Inv.drop : Inv d ({ st with frags := st.frags + 1 }.dropfrag).2 := by
  refine ⟨⟨?_, inv.keys, inv.ok⟩, inv.waiting⟩
  change st.frags + 1 - 1 = entries st.ipq + 0
  rw [inv.count]
  omega

/-- `ip_reass` for the first fragment of a datagram that arrives. -/
theorem reass_new (isNone : st.find e.ip.key = none)
    (good : e.ip.key = d.key → Good d e ∧ 0 < d.payload.length) (memory : Bool) :
    ∃ out st', { st with frags := st.frags + 1 }.reass e none memory = some (out, st') ∧
      Inv d st' ∧ (e.ip.key = d.key → Outcome d st e memory out st') := by
  have nothing : e.ip.key = d.key → st.acceptedFor d.key = [] := by
    intro isKey
    rw [State.acceptedFor, ← isKey, isNone]
    rfl
  cases memory with
  | false =>
    refine ⟨none, _, rfl, inv.drop, fun isKey => ?_⟩
    refine ⟨st.acceptedFor d.key, .inr ⟨rfl, .inl ⟨isKey ▸ isNone, rfl⟩⟩, ?_, nofun, fun _ => rfl⟩
    refine iff_of_false Bool.false_ne_true (fun covered => ?_)
    obtain ⟨r, mem, -⟩ := covered 0 (good isKey).2
    rw [nothing isKey] at mem
    cases mem
  | true =>
    have isNew : e.ip.key ∉ st.ipq.map Ipq.key := KeyedList.find?_eq_none_iff.mp isNone
    have ok : QueueOk d ⟨ipfragttl, e.ip.key, [e], [e]⟩ :=
      ⟨cons_ne_nil e [], fun isKey => .single (good isKey).1 _ _⟩
    have core : Core d { st with
        ipq := ⟨ipfragttl, e.ip.key, [e], [e]⟩ :: st.ipq, frags := st.frags + 1 } 0 := by
      refine ⟨?_, nodup_cons.mpr ⟨isNew, inv.keys⟩, fun fp mem => ?_⟩
      · have count := inv.count
        dsimp only
        rw [entries_cons]
        change st.frags + 1 = 1 + entries st.ipq + 0
        omega
      · rcases mem_cons.mp mem with rfl | mem
        · exact ok
        · exact inv.ok fp mem
    obtain ⟨out, st', run, inv', checked⟩ := check_spec core mem_cons_self
      (fun other mem ne => inv.waiting other ((mem_cons.mp mem).resolve_left ne))
    refine ⟨out, st', run, inv', fun isKey => (checked isKey).outcome inv' isKey ?_⟩
    rw [nothing isKey]

/-- `ip_reass` for a fragment that has a queue. -/
theorem reass_found (mem : fp ∈ st.ipq) (isKeyOf : fp.key = e.ip.key)
    (good : e.ip.key = d.key → Good d e) (memory : Bool) :
    ∃ out st', { st with frags := st.frags + 1 }.reass e (some fp) memory = some (out, st') ∧
      Inv d st' ∧ (e.ip.key = d.key → Outcome d st e memory out st') := by
  obtain ⟨nonempty, parts⟩ := inv.ok fp mem
  obtain ⟨first, isFirst⟩ : ∃ first, fp.fragq.head? = some first :=
    ⟨_, head?_eq_some_head nonempty⟩
  have accepted : e.ip.key = d.key → st.acceptedFor d.key = fp.accepted := by
    intro isKey
    rw [State.acceptedFor, ← isKey, ← isKeyOf, inv.find_eq mem]
    rfl
  -- no bits of ECN are set in the fragments of the datagram
  have plain : e.ip.key = d.key → ecnDrop e.ip.ecn first.ip.ecn = false ∧
      markCe e.ip.ecn first.ip.ecn fp.fragq = fp.fragq := by
    intro isKey
    have isMem := mem_of_head? isFirst
    rw [(good isKey).ecn, ((parts (isKeyOf.trans isKey)).good first isMem).ecn]
    refine ⟨rfl, ?_⟩
    cases fp.fragq <;> rfl
  have spare : Core d { st with frags := st.frags + 1 } 1 := by
    refine ⟨?_, inv.keys, inv.ok⟩
    have count := inv.count
    dsimp only
    omega
  unfold State.reass
  simp only [isFirst, bind_eq_bind, bind_some]
  cases isDrop : ecnDrop e.ip.ecn first.ip.ecn with
  | true =>
    refine ⟨none, _, rfl, inv.drop, fun isKey => ?_⟩
    rw [(plain isKey).1] at isDrop
    cases isDrop
  | false =>
    rw [if_neg Bool.false_ne_true]
    have length := length_markCe e.ip.ecn first.ip.ecn fp.fragq
    have same := fun isKey => (plain isKey).2
    generalize markCe e.ip.ecn first.ip.ecn fp.fragq = fragq at *
    obtain ⟨insert, counted⟩ := insertEntry_spec e fragq
    cases inserted : insertEntry e fragq with
    | none =>
      have nonempty' : fragq ≠ [] := by
        rw [← length_pos_iff, length]
        exact length_pos_of_ne_nil nonempty
      have ok : QueueOk d { fp with fragq } := by
        refine ⟨nonempty', fun isKey => ?_⟩
        rw [same (isKeyOf.symm.trans isKey)]
        exact parts isKey
      obtain ⟨core, memNew, others⟩ := spare.replace mem ok rfl st.frags 0
        (by dsimp only; omega)
      have inv' : Inv d { st with ipq := st.ipq.replace fp { fp with fragq } } := by
        refine ⟨core, fun other among => ?_⟩
        by_cases isNew : other = { fp with fragq }
        · subst isNew
          exact inv.waiting fp mem
        · exact inv.waiting other (others other among isNew)
      refine ⟨none, { st with ipq := st.ipq.replace fp { fp with fragq } }, ?_, inv',
        fun isKey => ?_⟩
      · rw [State.dropfrag]
        rw [add_sub_cancel_right]
      · have isKeyFp := isKeyOf.trans isKey
        have kept : ({ st with ipq := st.ipq.replace fp { fp with fragq } } : State).acceptedFor
            d.key = fp.accepted := by
          rw [← isKeyFp]
          exact congrArg (Option.elim · [] Ipq.accepted) (inv'.find_eq memNew)
        refine ⟨fp.accepted, .inr ⟨(accepted isKey).symm, .inr ?_⟩, ?_, nofun, fun _ => kept⟩
        · intro x above below
          rw [inserted, same isKey] at insert
          exact ((parts isKeyFp).covers x).mp
            (Pieces.covers_of_insert_eq_none (parts isKeyFp).ordered insert.symm ⟨above, below⟩)
        · exact iff_of_false Bool.false_ne_true (inv.waiting fp mem isKeyFp)
    | some result =>
      have count := counted result inserted
      have positive : result.1 ≠ [] := by
        obtain ⟨new, -, rfl⟩ := map_eq_some_iff.mp inserted
        exact append_ne_nil_of_right_ne_nil _ (cons_ne_nil _ _)
      have ok : QueueOk d { fp with fragq := result.1, accepted := e :: fp.accepted } := by
        refine ⟨positive, fun isKey => ?_⟩
        have isKeyE := isKeyOf.symm.trans isKey
        rw [inserted, same isKeyE] at insert
        exact (parts isKey).inserted (good isKeyE) insert.symm
      obtain ⟨core, memNew, others⟩ := spare.replace mem ok rfl
        (st.frags + 1 - result.2) 0 (by dsimp only; omega)
      obtain ⟨out, st', run, inv', checked⟩ := check_spec core memNew
        (fun other among ne => inv.waiting other (others other among ne))
      refine ⟨out, st', run, inv', fun isKey => ?_⟩
      have isKeyFp := isKeyOf.trans isKey
      exact (checked isKeyFp).outcome inv' isKeyFp (by rw [accepted isKey])

theorem reass_spec (good : e.ip.key = d.key → Good d e ∧ 0 < d.payload.length) (memory : Bool) :
    ∃ out st', { st with frags := st.frags + 1 }.reass e (st.find e.ip.key) memory =
        some (out, st') ∧ Inv d st' ∧ (e.ip.key = d.key → Outcome d st e memory out st') := by
  cases isFound : st.find e.ip.key with
  | none => exact reass_new inv isFound good memory
  | some fp =>
    obtain ⟨mem, isKey⟩ := (KeyedList.find?_eq_some_iff inv.keys).mp isFound
    exact reass_found inv mem isKey (fun is => (good is).1) memory

/-! ### Packets -/

omit inv in
/-- A fragment that `ip_ours` gives to `ip_reass` is a part of the datagram, which is not
empty. -/
theorem good_of_arrives (wellFormed : WellFormed m) (isKey : m.ip.key = d.key)
    (cutFrom : CutFrom d m) (passed : (convert m).mff = true ∨ (convert m).ip.off ≠ 0) :
    Good d (convert m) ∧ 0 < d.payload.length := by
  have good := good_convert wellFormed isKey cutFrom
  refine ⟨good, ?_⟩
  have within := good.within
  rcases passed with more | offset
  · have early : ¬(convert m).ip.off + (convert m).ip.len = d.payload.length := by
      rw [← good.last, more]
      exact Bool.noConfusion
    omega
  · omega

theorem ours_spec {memory : Memory} (arrives : Arrives d (.packet m memory) st) :
    ∃ out st', st.ours m memory = some (out, st') ∧ Inv d st' := by
  obtain ⟨wellFormed, cutFrom⟩ := arrives
  refine ours_keeps Inv.freef inv fun fragment passed => ?_
  obtain ⟨out, st', run, inv', -⟩ := reass_spec (e := convert m) inv
    (fun isKey => good_of_arrives wellFormed isKey (cutFrom isKey fragment) passed) memory.ipq
  exact ⟨out, st', run, inv'⟩

theorem Inv.step {label : Label} (arrives : Arrives d label st) (step : next label st = some st') :
    Inv d st' := by
  cases label with
  | packet m memory =>
    obtain ⟨out, st₁, run, inv'⟩ := ours_spec inv arrives
    rw [next, run] at step
    exact some.inj step ▸ inv'
  | slowtimo =>
    cases step
    exact inv.slowtimo
  | drain =>
    cases step
    exact drain_keeps Inv.freef inv
  | limit maxqueue =>
    cases step
    exact ⟨⟨inv.count, inv.keys, inv.ok⟩, inv.waiting⟩

end

theorem inv_initial (maxqueue : Int) : Inv d (initial maxqueue) :=
  ⟨⟨rfl, nodup_nil, fun _ mem => absurd mem not_mem_nil⟩, fun _ mem => absurd mem not_mem_nil⟩

/-- After any packets, the queue of the datagram is sorted and disjoint, and the entries of all
queues are counted; and so it is after the next packet.  `ip_reass` returns the datagram exactly
when the fragments that it has accepted cover it. -/
theorem host_reassembly_correct {maxqueue : Int}
    (run : Run next (Arrives d) (initial maxqueue) st) :
    (∀ fp ∈ st.ipq, fp.key = d.key → Sorted fp.fragq) ∧ st.frags = entries st.ipq ∧
      (∀ m memory, Arrives d (.packet m memory) st →
        ∃ out st', st.ours m memory = some (out, st') ∧ st'.frags = entries st'.ipq) ∧
      ∀ m memory, WellFormed m → m.ip.key = d.key → CutFrom d m →
        (convert m).mff = true ∨ (convert m).ip.off ≠ 0 →
        ∃ out st', { st with frags := st.frags + 1 }.reass (convert m) (st.find d.key) memory =
          some (out, st') ∧ st'.frags = entries st'.ipq ∧
          Outcome d st (convert m) memory out st' := by
  have inv : Inv d st :=
    Run.invariant (fun _ _ _ inv arrives step => Inv.step inv arrives step) run
      (inv_initial maxqueue)
  refine ⟨fun fp mem isKey => ((inv.ok fp mem).parts isKey).sorted, inv.count.trans (add_zero _),
    fun m memory arrives => ?_, fun m memory wellFormed isKey cutFrom passed => ?_⟩
  · obtain ⟨out, st', run', inv'⟩ := ours_spec inv arrives
    exact ⟨out, st', run', inv'.count.trans (add_zero _)⟩
  · obtain ⟨out, st', run', inv', outcome⟩ := reass_spec (e := convert m) inv
      (fun is => good_of_arrives wellFormed is cutFrom passed) memory
    have found : st.find (convert m).ip.key = st.find d.key := congrArg st.find isKey
    rw [found] at run'
    exact ⟨out, st', run', inv'.count.trans (add_zero _), outcome isKey⟩

end States

/-- A fragment at an offset in units of eight bytes. -/
def samplePacket (off : Nat) (data : List UInt8) : Packet :=
  ⟨⟨5, 0, 20 + data.length, 7, off, 17, 1, 2⟩, data⟩

def sampleDatagram : Datagram where
  key := ⟨7, 1, 2, 17⟩
  payload := [1, 2, 3, 4, 5, 6, 7, 8, 9, 10, 11]
  bound := by decide

/-- The last fragment is there, and the first one completes the datagram. -/
theorem sampleDatagram_returned : ∃ st, Run next (Arrives sampleDatagram) (initial 300) st ∧
    st.frags = 1 ∧ (∀ fp ∈ st.ipq, fp.key = sampleDatagram.key → Sorted fp.fragq) ∧
    ∃ out st', { st with frags := st.frags + 1 }.reass
        (convert (samplePacket 8192 [1, 2, 3, 4, 5, 6, 7, 8])) (st.find sampleDatagram.key) true =
        some (out, st') ∧ out.isSome = true ∧ st'.frags = entries st'.ipq ∧
      Outcome sampleDatagram st (convert (samplePacket 8192 [1, 2, 3, 4, 5, 6, 7, 8])) true
        out st' := by
  refine exec_implies (Q := fun st => st.frags = 1 ∧
      ({ st with frags := st.frags + 1 }.reass
      (convert (samplePacket 8192 [1, 2, 3, 4, 5, 6, 7, 8])) (st.find sampleDatagram.key)
      true).any (fun result : Option Packet × State => result.1.isSome) = true)
    [.packet (samplePacket 1 [9, 10, 11]) ⟨true, true, true⟩, .slowtimo] (by decide +kernel) ?_
  rintro st run ⟨count, tested⟩
  obtain ⟨sorted, -, -, reassembles⟩ := host_reassembly_correct run
  obtain ⟨out, st', eq, counted, outcome⟩ :=
    reassembles (samplePacket 8192 [1, 2, 3, 4, 5, 6, 7, 8]) true (by decide) rfl (by decide)
      (by decide)
  rw [eq] at tested
  exact ⟨count, sorted, out, st', eq, tested, counted, outcome⟩

end Bitrig.IpInput
