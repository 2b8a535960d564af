import Bitrig.PfNorm.Entries

/-!
# Reassembly is correct

While the fragments with the key of a datagram are cut from it, and others are arbitrary, the
queues of pf are in order, and the datagram is put together again as soon as the fragments that
have been accepted cover it.
-/

namespace Bitrig.PfNorm

open Bitrig.Reassembly Bitrig.Transition List Option

/-- The packets that arrive: those with the key of the datagram are cut from it. -/
def Arrives (d : Datagram) : Label → State → Prop
  | .packet m _ _, _ => WellFormed m ∧ (keyOf m = d.key → CutFrom d m)
  | .purge _, _ => True

instance (d : Datagram) (label : Label) (st : State) : Decidable (Arrives d label st) := by
  cases label <;> unfold Arrives <;> infer_instance

/-- The entries are sorted by offset and disjoint. -/
def Sorted (queue : List Frent) : Prop :=
  queue.Pairwise fun a b => a.off < b.off ∧ a.off + a.len ≤ b.off

/-- A byte of the datagram is in one of the fragments. -/
def Covered (accepted : List Frent) (x : Nat) : Prop :=
  ∃ e ∈ accepted, e.off ≤ x ∧ x < e.off + e.len

/-! ### The queue of one datagram -/

/-- A queue, and the fragments that have been accepted for it. -/
structure QueueOk (d : Datagram) (frag : Fragment) : Prop where
  inet : frag.key.af = .inet
  nonempty : frag.queue ≠ []
  ordered : pieces.Ordered frag.queue
  good : ∀ e ∈ frag.queue, Bounded e ∧ (frag.key = d.key → Good d e)
  covers : ∀ x, pieces.Covers frag.queue x ↔ Covered frag.accepted x

section Queues

variable {d : Datagram} {frag : Fragment} {frent : Frent}

variable (ok : QueueOk d frag)
include ok

theorem QueueOk.bounded : ∀ e ∈ frag.queue, Bounded e :=
  fun e mem => (ok.good e mem).1

theorem QueueOk.sorted : Sorted frag.queue := by
  refine ok.ordered.imp_of_mem (fun {a b} memA _ apart => ⟨?_, apart⟩)
  have pos := (ok.bounded a memA).pos
  exact (Nat.lt_add_of_pos_right pos).trans_le apart

theorem QueueOk.isLast : ∃ last, frag.queue.getLast? = some last :=
  ⟨_, getLast?_eq_some_getLast ok.nonempty⟩

omit ok in
/-- A queue with one entry. -/
theorem QueueOk.single {key : Key} (inet : key.af = .inet) (bounded : Bounded frent)
    (good : key = d.key → Good d frent) (now maxlen : Nat) :
    QueueOk d ⟨key, [frent], now, maxlen, [frent]⟩ where
  inet := inet
  nonempty := cons_ne_nil frent []
  ordered := pairwise_singleton _ frent
  good := by
    intro e mem
    obtain rfl := mem_singleton.mp mem
    exact ⟨bounded, good⟩
  covers := fun _ => Iff.rfl

/-- An entry is put into the queue. -/
theorem QueueOk.queued (bounded : Bounded frent) (good : frag.key = d.key → Good d frent)
    {queue' : List Frent} (insert : pieces.insert frent frag.queue = some queue') :
    QueueOk d { frag with queue := queue', accepted := frent :: frag.accepted } := by
  have cut : pieces.Cuts (fun e => Bounded e ∧ (frag.key = d.key → Good d e)) :=
    cuts (fun e i boundE goodE lt is => (goodE is).cut boundE lt)
  have inserted := Pieces.inserted cut ok.ordered ok.good ⟨bounded, good⟩ insert
  have covers : ∀ x, pieces.Covers queue' x ↔ Covered (frent :: frag.accepted) x := by
    intro x
    rw [inserted.covers, ok.covers]
    exact or_comm.trans (Pieces.covers_cons (v := pieces)).symm
  refine ⟨ok.inet, ?_, inserted.ordered, inserted.good, covers⟩
  rintro (nil : queue' = [])
  have has : pieces.Covers queue' frent.off :=
    (inserted.covers frent.off).mpr (.inr ⟨le_rfl, Nat.lt_add_of_pos_right bounded.pos⟩)
  rw [nil] at has
  exact Pieces.not_covers_nil has

/-- The queue of the datagram is full exactly if it has no gap and reaches the end. -/
theorem QueueOk.full (isKey : frag.key = d.key) : ∃ full, isfullFragment frag = some full ∧
      (full = true ↔ pieces.walk 0 frag.queue = some d.payload.length) ∧
      (full = true ↔ ∀ x < d.payload.length, Covered frag.accepted x) := by
  obtain ⟨last, isLast⟩ := ok.isLast
  have good : ∀ e ∈ frag.queue, Good d e := fun e mem => (ok.good e mem).2 isKey
  have reaches := (good last (mem_of_getLast? isLast)).last
  have walks : (!last.mff && (pieces.walk 0 frag.queue).isSome) = true ↔
      pieces.walk 0 frag.queue = some d.payload.length := by
    rw [Bool.and_eq_true, Bool.not_eq_true', reaches]
    constructor
    · rintro ⟨atEnd, isSome⟩
      obtain ⟨stop, walk⟩ := isSome_iff_exists.mp isSome
      rw [walk, Pieces.eq_stop_of_walk isLast walk, pieces_stop, atEnd]
    · intro walk
      rw [walk]
      exact ⟨(Pieces.eq_stop_of_walk isLast walk).symm, rfl⟩
  refine ⟨_, isfullFragment_eq ok.ordered ok.bounded isLast, walks, walks.trans ?_⟩
  constructor
  · intro walk x lt
    exact (ok.covers x).mp ((Pieces.covers_of_walk walk).mpr ⟨Nat.zero_le x, lt⟩)
  · intro covered
    refine Pieces.walk_of_covers ok.ordered (fun _ _ => Nat.zero_le _)
      (fun e mem => (good e mem).within) (Nat.zero_le _) ?_
    exact fun x _ lt => (ok.covers x).mpr (covered x lt)

/-- The packet of a full queue is the datagram. -/
theorem QueueOk.complete (isKey : frag.key = d.key)
    (walk : pieces.walk 0 frag.queue = some d.payload.length) (st : State) :
    ∃ m, st.complete frag = some ((.pass, some m), st.freeFragment frag) ∧ Joined d m := by
  obtain ⟨last, isLast⟩ := ok.isLast
  have good : ∀ e ∈ frag.queue, Good d e := fun e mem => (ok.good e mem).2 isKey
  have stop : d.payload.length = last.off + last.len := Pieces.eq_stop_of_walk isLast walk
  have total := u16_of_le (ok.bounded last (mem_of_getLast? isLast)).le
  rw [← stop] at total
  unfold State.complete State.joinFragment
  rw [isLast]
  cases isQueue : frag.queue with
  | nil => exact absurd isQueue ok.nonempty
  | cons first rest =>
    rw [isQueue] at good walk
    have goodFirst := good first mem_cons_self
    have start : first.off = 0 := by
      rw [Pieces.walk] at walk
      split_ifs at walk with start
      exact start
    have room := goodFirst.room
    have fits := goodFirst.fits start
    have long := goodFirst.header
    have length : (first.m.take first.hdrlen).length = first.hdrlen := by
      rw [length_take]
      omega
    obtain ⟨hlen, offset⟩ := goodFirst.first start
    have hlen' : ipHlen (first.m.take first.hdrlen) = (first.m.take first.hdrlen).length := by
      rw [length, ipHlen, byteAt_take (by omega)]
      exact hlen
    have offset' : ipOffset (first.m.take first.hdrlen) = 0 := by
      rw [← offset, ipOffset, ipOffset, wordAt, wordAt, byteAt_take (by omega),
        byteAt_take (by omega)]
    have joined := joined_of_header (d := d) (by omega) hlen' offset' (by omega)
    rw [length] at joined
    simp only [head?_cons, bind_eq_bind, bind_some, joinQueue_eq good walk]
    rw [← stop, total, u16_of_le fits, if_neg (not_lt.mpr fits)]
    exact ⟨_, rfl, joined⟩

end Queues

/-! ### All queues -/

/-- The number of entries of all queues. -/
def entries (fragqueue : List Fragment) : Int :=
  (fragqueue.map fun frag => (frag.queue.length : Int)).sum

/-- The queues; a number of entries that are counted are not queued yet. -/
structure Inv (d : Datagram) (st : State) (spare : Int) : Prop where
  count : st.nfrents = entries st.fragqueue + spare
  keys : (st.fragqueue.map Fragment.key).Nodup
  ok : ∀ frag ∈ st.fragqueue, QueueOk d frag

/-- Some queues have been freed, and the rest is as it was. -/
structure Freed (st st' : State) : Prop where
  sublist : st'.fragqueue.Sublist st.fragqueue
  count : st'.nfrents - entries st'.fragqueue = st.nfrents - entries st.fragqueue

section States

variable {d : Datagram} {st st' : State} {spare : Int} {frag : Fragment}

theorem entries_cons (frag : Fragment) (rest : List Fragment) :
    entries (frag :: rest) = frag.queue.length + entries rest := by
  rw [entries, map_cons, sum_cons, entries]

theorem entries_erase {fragqueue : List Fragment} (mem : frag ∈ fragqueue) :
    entries fragqueue = frag.queue.length + entries (fragqueue.erase frag) := by
  exact ((perm_cons_erase mem).map _).sum_eq

theorem Freed.refl : Freed st st :=
  ⟨List.Sublist.refl _, rfl⟩

theorem Freed.trans {st'' : State} (first : Freed st st') (second : Freed st' st'') :
    Freed st st'' :=
  ⟨second.sublist.trans first.sublist, second.count.trans first.count⟩

theorem Freed.inv (freed : Freed st st') (inv : Inv d st spare) : Inv d st' spare where
  count := by
    have count := inv.count
    have same := freed.count
    omega
  keys := inv.keys.sublist (freed.sublist.map Fragment.key)
  ok := fun frag mem => inv.ok frag (freed.sublist.mem mem)

theorem freed_freeFragment (mem : frag ∈ st.fragqueue) : Freed st (st.freeFragment frag) where
  sublist := erase_sublist
  count := by
    have split := entries_erase mem
    change st.nfrents - frag.queue.length - entries (st.fragqueue.erase frag) = _
    omega

theorem freed_purgeLoop (expire rounds : Nat) (st : State) :
    Freed st (State.purgeLoop expire rounds st) := by
  induction rounds generalizing st with
  | zero => exact .refl
  | succ rounds ih =>
    unfold State.purgeLoop
    split
    · exact .refl
    · rename_i frag isLast
      split
      · exact .refl
      · exact (freed_freeFragment (mem_of_getLast? isLast)).trans (ih _)

theorem freed_flushLoop (goal : Int) (rounds : Nat) (st : State) :
    Freed st (State.flushLoop goal rounds st) := by
  induction rounds generalizing st with
  | zero => exact .refl
  | succ rounds ih =>
    unfold State.flushLoop
    split
    · split
      · exact .refl
      · rename_i frag isLast
        exact (freed_freeFragment (mem_of_getLast? isLast)).trans (ih _)
    · exact .refl

theorem poolGet_spec (st : State) (memory : Bool × Bool) :
    ∃ ok st', st.poolGet memory = (ok, st') ∧ Freed st st' ∧ (ok = (memory.1 || memory.2)) := by
  rcases memory with ⟨first, second⟩
  cases first with
  | true => exact ⟨true, st, rfl, .refl, rfl⟩
  | false => exact ⟨second, _, rfl, freed_flushLoop _ _ st, rfl⟩

/-- An entry that could not be queued is not counted any more. -/
theorem Inv.dropFrent (inv : Inv d st 1) : Inv d st.dropFrent 0 := by
  refine ⟨?_, inv.keys, inv.ok⟩
  have count := inv.count
  change st.nfrents - 1 = entries st.fragqueue + 0
  omega

/-- The queue that has been used last is the first one, and its entries have changed. -/
theorem Inv.replace (inv : Inv d st 1) (mem : frag ∈ st.fragqueue) {frag' : Fragment}
    (ok : QueueOk d frag') (key : frag'.key = frag.key) {nfrents : Int}
    (count : nfrents = st.nfrents - frag.queue.length + frag'.queue.length + (spare - 1)) :
    Inv d ⟨frag' :: st.fragqueue.erase frag, nfrents⟩ spare where
  count := by
    have before := inv.count
    have split := entries_erase mem
    rw [entries_cons]
    change nfrents = _
    omega
  keys := by
    have perm := (perm_cons_erase mem).map Fragment.key
    rw [map_cons, key]
    exact (perm.nodup_iff).mp inv.keys
  ok := forall_mem_cons.mpr ⟨ok, fun other among => inv.ok other (mem_of_mem_erase among)⟩

/-- Why an entry with the key of the datagram is not queued. -/
def Unneeded (st : State) (key : Key) (frent : Frent) (memory : Bool × Bool) : Prop :=
  malformed frent = true ∨ memory = (false, false) ∨
    ∃ frag ∈ st.fragqueue, frag.key = key ∧
      ∀ x, frent.off ≤ x → x < frent.off + frent.len → Covered frag.accepted x

/-- The fragments with a key that have been accepted and wait. -/
def State.acceptedFor (st : State) (key : Key) : List Frent :=
  ((st.fragqueue.find? fun frag => decide (frag.key = key)).map Fragment.accepted).getD []

/-- The result of `pf_fillup_fragment`. -/
structure FilledUp (d : Datagram) (st st' : State) (key : Key) (frent : Frent)
    (memory : Bool × Bool) (result : Option Fragment) : Prop where
  inv : Inv d st' 0
  queued : ∀ frag, result = some frag → frag.key = key ∧ frag ∈ st'.fragqueue ∧
    frag.accepted = frent :: st.acceptedFor key
  refused : result = none → key = d.key → Unneeded st key frent memory

theorem fillupFragment_spec (inv : Inv d st 1) {key : Key} {frent : Frent} (inet : key.af = .inet)
    (good : key = d.key → Good d frent) (memory : Bool × Bool) (now : Nat) :
    ∃ result st', st.fillupFragment key frent memory now = some (result, st') ∧
      FilledUp d st st' key frent memory result := by
  unfold State.fillupFragment
  cases isMalformed : malformed frent with
  | true => exact ⟨none, _, rfl, inv.dropFrent, nofun, fun _ _ => .inl isMalformed⟩
  | false =>
    have bounded := bounded_of_not_malformed isMalformed
    cases isFound : st.fragqueue.find? fun frag => decide (frag.key = key) with
    | none =>
      obtain ⟨ok, st₁, eq, freed, isOk⟩ := poolGet_spec st memory
      have inv₁ := freed.inv inv
      rw [eq]
      cases ok with
      | false =>
        refine ⟨none, _, rfl, inv₁.dropFrent, nofun, fun _ _ => .inr (.inl ?_)⟩
        obtain ⟨no, no'⟩ := Bool.or_eq_false_iff.mp isOk.symm
        exact Prod.ext no no'
      | true =>
        have isNew : ∀ other ∈ st₁.fragqueue, ¬other.key = key := by
          intro other mem is
          exact find?_eq_none.mp isFound other (freed.sublist.mem mem)
            (decide_eq_true is)
        refine ⟨_, _, rfl, ⟨?_, ?_, ?_⟩, ?_, nofun⟩
        · have count := inv₁.count
          rw [entries_cons]
          change st₁.nfrents = 1 + _ + 0
          omega
        · refine nodup_cons.mpr ⟨fun mem => ?_, inv₁.keys⟩
          obtain ⟨other, among, is⟩ := mem_map.mp mem
          exact isNew other among is
        · exact forall_mem_cons.mpr ⟨.single inet bounded good now frent.len, inv₁.ok⟩
        · intro frag is
          cases is
          refine ⟨rfl, mem_cons_self, ?_⟩
          rw [State.acceptedFor, isFound]
          rfl
    | some frag =>
      have mem := mem_of_find?_eq_some isFound
      have passed := find?_some isFound
      have isKey : frag.key = key := of_decide_eq_true passed
      have ok : QueueOk d { frag with maxlen := max frag.maxlen frent.len } := by
        obtain ⟨inet', nonempty, ordered, good', covers⟩ := inv.ok frag mem
        exact ⟨inet', nonempty, ordered, good', covers⟩
      have same : Inv d ⟨{ frag with maxlen := max frag.maxlen frent.len } ::
          st.fragqueue.erase frag, st.nfrents⟩ 1 :=
        inv.replace mem ok rfl (by
          change st.nfrents = st.nfrents - frag.queue.length + frag.queue.length + (1 - 1)
          omega)
      obtain ⟨result, isFill, filled⟩ := fill_spec ok.inet ok.nonempty ok.bounded bounded
      dsimp only
      rw [isFill]
      cases filled with
      | bad isLast isRefused =>
        refine ⟨none, _, rfl, same.dropFrent, nofun, fun _ isD => ?_⟩
        have memLast := mem_of_getLast? isLast
        have goodLast := (ok.good _ memLast).2 (isKey.trans isD)
        rw [not_refused (ok.bounded _ memLast) goodLast (good isD)] at isRefused
        cases isRefused
      | drop covered =>
        refine ⟨none, _, rfl, same.dropFrent, nofun, fun _ _ => .inr (.inr ?_)⟩
        refine ⟨frag, mem, isKey, fun x above below => ?_⟩
        exact (ok.covers x).mp
          (Pieces.covers_of_insert_eq_none ok.ordered covered ⟨above, below⟩)
      | queued inserted count =>
        rename_i queue' removed
        have ok' := ok.queued bounded (fun isD => good (isKey.symm.trans isD)) inserted
        refine ⟨_, _, rfl, inv.replace mem ok' rfl ?_, ?_, nofun⟩
        · change removed + queue'.length = frag.queue.length + 1 at count
          change st.nfrents - removed = st.nfrents - frag.queue.length + queue'.length + (0 - 1)
          omega
        · intro _ is
          cases is
          refine ⟨isKey, mem_cons_self, ?_⟩
          rw [State.acceptedFor, isFound]
          rfl

theorem createFragment_spec (inv : Inv d st 0) (memory : Bool × Bool) :
    ∃ ok st', st.createFragment memory = (ok, st') ∧ Inv d st' (if ok then 1 else 0) := by
  obtain ⟨ok, st₁, eq, freed, -⟩ := poolGet_spec st memory
  have inv₁ := freed.inv inv
  unfold State.createFragment
  rw [eq]
  cases ok with
  | false => exact ⟨false, st₁, rfl, inv₁⟩
  | true =>
    refine ⟨true, _, rfl, ?_, inv₁.keys, inv₁.ok⟩
    have count := inv₁.count
    change st₁.nfrents + 1 = entries st₁.fragqueue + 1
    omega

/-- A queue can be joined, whatever it is. -/
theorem QueueOk.complete_defined (ok : QueueOk d frag) (st : State) :
    ∃ out, st.complete frag = some (out, st.freeFragment frag) := by
  obtain ⟨last, isLast⟩ := ok.isLast
  unfold State.complete State.joinFragment
  rw [isLast]
  cases isQueue : frag.queue with
  | nil => exact absurd isQueue ok.nonempty
  | cons first rest =>
    simp only [head?_cons, bind_eq_bind, bind_some, joinQueue]
    split_ifs
    · exact ⟨_, rfl⟩
    · exact ⟨_, rfl⟩

/-! ### Packets -/

/-- A fragment of the datagram has been queued: if the fragments that have been accepted cover the
datagram, it is joined, and else it waits. -/
structure Queued (d : Datagram) (frag : Fragment)
    (result : (Action × Option (List UInt8)) × State) : Prop where
  sorted : Sorted frag.queue
  full : ∃ full, isfullFragment frag = some full ∧
    (full = true ↔ ∀ x < d.payload.length, Covered frag.accepted x)
  joined : isfullFragment frag = some true → ∃ m, result.1 = (.pass, some m) ∧ Joined d m
  waits : isfullFragment frag = some false →
    result.1 = (.pass, none) ∧ frag ∈ result.2.fragqueue

/-- What becomes of a fragment of the datagram.  If it is not queued, there is no memory, or it is
malformed, or its bytes are all there. -/
def Outcome (d : Datagram) (st : State) (m : List UInt8) (memory : Memory) (now : Nat)
    (result : (Action × Option (List UInt8)) × State) : Prop :=
  ∃ ok st₁, st.createFragment memory.frent = (ok, st₁) ∧ (ok = true →
    ∃ found st₂, st₁.fillupFragment d.key (frentOf m) memory.frag now = some (found, st₂) ∧
      (found = none → Unneeded st₁ d.key (frentOf m) memory.frag) ∧
      ∀ frag, found = some frag →
        frag.accepted = frentOf m :: st₁.acceptedFor d.key ∧ Queued d frag result)

theorem reassemble_spec (inv : Inv d st 0) {m : List UInt8} (wellFormed : WellFormed m)
    (cutFrom : keyOf m = d.key → CutFrom d m) (memory : Memory) (now : Nat) :
    ∃ result, st.reassemble m memory now = some result ∧ Inv d result.2 0 ∧
      (keyOf m = d.key → Outcome d st m memory now result) := by
  obtain ⟨ok, st₁, created, inv₁⟩ := createFragment_spec inv memory.frent
  unfold State.reassemble
  rw [created]
  cases ok with
  | false => exact ⟨_, rfl, inv₁, fun _ => ⟨false, st₁, created, nofun⟩⟩
  | true =>
    obtain ⟨found, st₂, isFill, filled⟩ := fillupFragment_spec inv₁
      (show (keyOf m).af = .inet from rfl)
      (fun isKey => good_frentOf wellFormed (cutFrom isKey)) memory.frag now
    dsimp only
    rw [isFill]
    cases found with
    | none =>
      refine ⟨_, rfl, filled.inv, fun isKey => ⟨true, st₁, created, fun _ => ?_⟩⟩
      rw [isKey] at isFill filled
      exact ⟨none, st₂, isFill, fun _ => filled.refused rfl rfl, nofun⟩
    | some frag =>
      obtain ⟨key, mem, accepted⟩ := filled.queued frag rfl
      have queueOk := filled.inv.ok frag mem
      -- the outcome, once it is known what a full and what another queue does
      have outcome : ∀ result, (keyOf m = d.key → Queued d frag result) →
          keyOf m = d.key → Outcome d st m memory now result := by
        intro result queued isKey
        refine ⟨true, st₁, created, fun _ => ⟨some frag, st₂, ?_, nofun, ?_⟩⟩
        · rw [← isKey]
          exact isFill
        · intro _ is
          cases is
          rw [← isKey]
          exact ⟨accepted, queued isKey⟩
      obtain ⟨last, isLast⟩ := queueOk.isLast
      have isFull := isfullFragment_eq queueOk.ordered queueOk.bounded isLast
      generalize (!last.mff && (pieces.walk 0 frag.queue).isSome) = full at isFull
      simp only [bind_eq_bind, bind_some, isFull]
      cases full with
      | false =>
        refine ⟨_, rfl, filled.inv, outcome _ (fun isKey => ?_)⟩
        obtain ⟨full, isFull', -, covers⟩ := queueOk.full (key.trans isKey)
        refine ⟨queueOk.sorted, ⟨full, isFull', covers⟩, fun is => ?_, fun _ => ⟨rfl, mem⟩⟩
        rw [isFull] at is
        cases is
      | true =>
        obtain ⟨out, completed⟩ := queueOk.complete_defined st₂
        have invFreed := (freed_freeFragment mem).inv filled.inv
        refine ⟨_, completed, invFreed, outcome _ (fun isKey => ?_)⟩
        obtain ⟨full, isFull', walks, covers⟩ := queueOk.full (key.trans isKey)
        refine ⟨queueOk.sorted, ⟨full, isFull', covers⟩, fun is => ?_, fun is => ?_⟩
        · obtain rfl := some.inj (isFull'.symm.trans is)
          obtain ⟨m', completed', joined⟩ :=
            queueOk.complete (key.trans isKey) (walks.mp rfl) st₂
          rw [completed] at completed'
          exact ⟨m', congrArg Prod.fst (some.inj completed'), joined⟩
        · rw [isFull] at is
          cases is

theorem Inv.step (inv : Inv d st 0) {label : Label} (arrives : Arrives d label st)
    (step : next label st = some st') : Inv d st' 0 := by
  cases label with
  | packet m memory now =>
    obtain ⟨result, eq, inv', -⟩ := reassemble_spec inv arrives.1 arrives.2 memory now
    rw [next, eq] at step
    exact some.inj step ▸ inv'
  | purge expire =>
    cases step
    exact (freed_purgeLoop expire _ st).inv inv

theorem inv_initial : Inv d initial 0 :=
  ⟨rfl, nodup_nil, fun _ mem => absurd mem not_mem_nil⟩

/-- After any packets, the queues are sorted and disjoint, and all entries are counted.  The
next packet is processed without a failed assertion; if it is a fragment of the datagram, the
datagram is joined exactly if the accepted fragments cover it. -/
theorem reassembly_correct (run : Run next (Arrives d) initial st) :
    (∀ frag ∈ st.fragqueue, Sorted frag.queue) ∧ st.nfrents = entries st.fragqueue ∧
      ∀ m memory now, Arrives d (.packet m memory now) st →
        ∃ result, st.reassemble m memory now = some result ∧
          result.2.nfrents = entries result.2.fragqueue ∧
          (keyOf m = d.key → Outcome d st m memory now result) := by
  have inv : Inv d st 0 :=
    Run.invariant (P := fun st => Inv d st 0)
      (fun _ _ _ inv arrives step => Inv.step inv arrives step) run inv_initial
  refine ⟨fun frag mem => (inv.ok frag mem).sorted, inv.count.trans (add_zero _), ?_⟩
  intro m memory now arrives
  obtain ⟨result, eq, inv', outcome⟩ := reassemble_spec inv arrives.1 arrives.2 memory now
  exact ⟨result, eq, inv'.count.trans (add_zero _), outcome⟩

end States

/-- A packet with twenty bytes of header. -/
def samplePacket (flags offset : UInt8) (data : List UInt8) : List UInt8 :=
  [0x45, 0, 0, UInt8.ofNat (20 + data.length), 0, 7, flags, offset, 64, 17, 0, 0, 1, 2, 3, 4, 5, 6,
    7, 8] ++ data

def sampleDatagram : Datagram where
  key := keyOf (samplePacket 0 0 [])
  payload := [1, 2, 3, 4, 5, 6, 7, 8, 9, 10, 11]

def enough : Memory := ⟨(true, true), (true, true)⟩

/-- The last fragment is there, and the first one completes the datagram. -/
theorem sampleDatagram_joined : ∃ st, Run next (Arrives sampleDatagram) initial st ∧
    (∀ frag ∈ st.fragqueue, Sorted frag.queue) ∧ st.nfrents = 1 ∧
    ∃ result, st.reassemble (samplePacket 0x20 0 [1, 2, 3, 4, 5, 6, 7, 8]) enough 5 = some result ∧
      result.2.nfrents = 0 ∧ result.1.2 = some (samplePacket 0 0 sampleDatagram.payload) ∧
      Outcome sampleDatagram st (samplePacket 0x20 0 [1, 2, 3, 4, 5, 6, 7, 8]) enough 5 result := by
  refine exec_implies (Q := fun st => st.nfrents = 1 ∧
      Arrives sampleDatagram (.packet (samplePacket 0x20 0 [1, 2, 3, 4, 5, 6, 7, 8]) enough 5) st ∧
      (st.reassemble (samplePacket 0x20 0 [1, 2, 3, 4, 5, 6, 7, 8]) enough 5).any (fun result =>
      decide (result.2.nfrents = 0 ∧
      result.1.2 = some (samplePacket 0 0 sampleDatagram.payload))) = true)
    [.packet (samplePacket 0 1 [9, 10, 11]) enough 3] (by decide +kernel) ?_
  rintro st run ⟨count, arrives, tested⟩
  obtain ⟨sorted, -, packets⟩ := reassembly_correct run
  obtain ⟨result, eq, -, outcome⟩ := packets _ _ _ arrives
  rw [eq] at tested
  obtain ⟨none, payload⟩ := of_decide_eq_true tested
  exact ⟨sorted, count, result, eq, none, payload, outcome rfl⟩

end Bitrig.PfNorm
