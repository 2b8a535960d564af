import Bitrig.IpInput.Reassembly

/-!
# The fields of a fragment that is cut

The offset and the length of an entry are in fields of 16 bits, and so is what `ip_reass` stores
when it cuts an entry.  The fields say which bytes are left while no fragment reaches beyond the
longest packet.
-/

namespace Bitrig.IpInput

open Bitrig.Reassembly Bitrig.Transition List Option

/-- The bytes of a fragment are as many as its length says, and within the longest packet. -/
def Whole (e : Ipqent) : Prop :=
  e.data.length = e.ip.len ∧ e.ip.off + e.ip.len ≤ ipMaxpacket

/-- What is left of a fragment without a number of bytes. -/
structure LeftOf (orig : Ipqent) (k : Nat) (e : Ipqent) : Prop where
  off : e.ip.off = orig.ip.off + k
  len : e.ip.len + k = orig.ip.len
  data : e.data = orig.data.drop k

/-- An entry is left of a fragment that has been accepted. -/
def Exact (accepted : List Ipqent) (e : Ipqent) : Prop :=
  ∃ orig ∈ accepted, Whole orig ∧ ∃ k, LeftOf orig k e

/-- The fragments that arrive do not reach beyond the longest packet. -/
def Fits : Label → State → Prop
  | .packet m _, _ => WellFormed m ∧
    (isFragment m.ip = true → m.ip.offset + m.data.length ≤ ipMaxpacket)
  | _, _ => True

instance (label : Label) (st : State) : Decidable (Fits label st) :=
  match label with
  | .packet .. | .slowtimo | .drain | .limit _ => by
    dsimp only [Fits]
    infer_instance

structure QueueExact (fp : Ipq) : Prop where
  nonempty : fp.fragq ≠ []
  ordered : pieces.Ordered fp.fragq
  exact : ∀ e ∈ fp.fragq, Exact fp.accepted e

/-- All queues. -/
def StateExact (st : State) : Prop :=
  ∀ fp ∈ st.ipq, QueueExact fp

section Exact

variable {e : Ipqent} {fp : Ipq} {st st' : State} {m : Packet}

theorem whole_convert (wellFormed : WellFormed m)
    (fits : m.ip.offset + m.data.length ≤ ipMaxpacket) : Whole (convert m) := by
  obtain ⟨off, len⟩ := convert_fields wellFormed
  exact ⟨len.symm, by rwa [off, len]⟩

theorem exact_cuts (accepted : List Ipqent) : pieces.Cuts (Exact accepted) := by
  have fields : ∀ {e : Ipqent} {i : Nat}, Exact accepted e → i < e.ip.len →
      (e.cut i).ip.off = e.ip.off + i ∧ (e.cut i).ip.len = e.ip.len - i := by
    rintro e i ⟨orig, -, ⟨-, bound⟩, k, left⟩ lt
    have off := left.off
    have len := left.len
    exact ⟨field16_of_le (by omega), field16_of_le (by omega)⟩
  refine ⟨fun {e i} exact lt => ?_, fun exact lt => (fields exact lt).1,
    fun exact lt => (fields exact lt).2⟩
  obtain ⟨off, len⟩ := fields exact lt
  obtain ⟨orig, mem, whole, k, left⟩ := exact
  rw [pieces_len] at lt
  refine ⟨orig, mem, whole, k + i, ?_, ?_, ?_⟩
  · exact off.trans (by rw [left.off, Nat.add_assoc])
  · change (e.cut i).ip.len + (k + i) = orig.ip.len
    rw [← left.len]
    omega
  · exact (congrArg (List.drop i) left.data).trans drop_drop

theorem Exact.mono {accepted more : List Ipqent} (exact : Exact accepted e)
    (subset : accepted ⊆ more) : Exact more e := by
  obtain ⟨orig, mem, left⟩ := exact
  exact ⟨orig, subset mem, left⟩

theorem exact_self {accepted : List Ipqent} (whole : Whole e) (mem : e ∈ accepted) :
    Exact accepted e :=
  ⟨e, mem, whole, 0, rfl, rfl, rfl⟩

/-- The ECN bits are not part of the fields. -/
theorem QueueExact.marked (queue : QueueExact fp) (ecn ecn0 : Nat) :
    QueueExact { fp with fragq := markCe ecn ecn0 fp.fragq } := by
  obtain ⟨nonempty, ordered, exact⟩ := queue
  cases isQueue : fp.fragq with
  | nil => exact absurd isQueue nonempty
  | cons first rest =>
    rw [isQueue] at ordered exact
    unfold markCe
    split_ifs
    · obtain ⟨⟨orig, mem, whole, k, left⟩, others⟩ := forall_mem_cons.mp exact
      exact ⟨cons_ne_nil _ _, pairwise_cons.mpr (pairwise_cons.mp ordered),
        forall_mem_cons.mpr ⟨⟨orig, mem, whole, k, left.off, left.len, left.data⟩, others⟩⟩
    · exact ⟨cons_ne_nil _ _, ordered, exact⟩

theorem QueueExact.inserted (queue : QueueExact fp) (whole : Whole e) {result : List Ipqent × Nat}
    (inserted : insertEntry e fp.fragq = some result) :
    QueueExact { fp with fragq := result.1, accepted := e :: fp.accepted } := by
  have insert := (insertEntry_spec e fp.fragq).1
  rw [inserted] at insert
  have done := Pieces.inserted (exact_cuts (e :: fp.accepted)) queue.ordered
    (fun q mem => (queue.exact q mem).mono (subset_cons_self _ _))
    (exact_self whole mem_cons_self) insert.symm
  refine ⟨?_, done.ordered, done.good⟩
  obtain ⟨new, -, rfl⟩ := map_eq_some_iff.mp inserted
  exact append_ne_nil_of_right_ne_nil _ (cons_ne_nil _ _)

section

variable (exact : StateExact st)
include exact

theorem StateExact.freef (_ : fp ∈ st.ipq) : StateExact (st.freef fp) :=
  fun other among => exact other (mem_of_mem_erase among)

/-- The end of `ip_reass` keeps the queues or frees one. -/
theorem check_exact (mem : fp ∈ st.ipq) :
    ∃ out st', st.check fp = some (out, st') ∧ StateExact st' := by
  obtain ⟨out, st', run, rfl | rfl⟩ := check_cases (exact fp mem).nonempty st
  · exact ⟨out, _, run, exact⟩
  · exact ⟨out, _, run, exact.freef mem⟩

theorem replace_exact (mem : fp ∈ st.ipq) {fp' : Ipq} (changed : QueueExact fp') :
    fp' ∈ st.ipq.replace fp fp' ∧ ∀ other ∈ st.ipq.replace fp fp', QueueExact other := by
  obtain ⟨front, rest, split, replaced⟩ := replace_split mem fp'
  rw [StateExact, split, forall_mem_append, forall_mem_cons] at exact
  rw [replaced]
  exact ⟨mem_append_right _ mem_cons_self,
    forall_mem_append.mpr ⟨exact.1, forall_mem_cons.mpr ⟨changed, exact.2.2⟩⟩⟩

theorem reass_exact (whole : Whole e) (memory : Bool) :
    ∃ out st', { st with frags := st.frags + 1 }.reass e (st.find e.ip.key) memory =
      some (out, st') ∧ StateExact st' := by
  cases isFound : st.find e.ip.key with
  | none =>
    cases memory with
    | false => exact ⟨none, _, rfl, exact⟩
    | true =>
      have single : QueueExact ⟨ipfragttl, e.ip.key, [e], [e]⟩ :=
        ⟨cons_ne_nil _ _, pairwise_singleton _ _,
          forall_mem_singleton.mpr (exact_self whole mem_cons_self)⟩
      exact check_exact (forall_mem_cons.mpr ⟨single, exact⟩) mem_cons_self
  | some fp =>
    have mem : fp ∈ st.ipq := mem_of_find?_eq_some isFound
    have queue := exact fp mem
    unfold State.reass
    simp only [head?_eq_some_head queue.nonempty, bind_eq_bind, bind_some]
    split_ifs
    · exact ⟨none, _, rfl, exact⟩
    · have marked := queue.marked e.ip.ecn (fp.fragq.head queue.nonempty).ip.ecn
      split
      · exact ⟨none, _, rfl, (replace_exact exact mem marked).2⟩
      · rename_i fragq removed inserted
        obtain ⟨mem', exact'⟩ := replace_exact exact mem (marked.inserted whole inserted)
        exact check_exact exact' mem'

theorem next_exact {label : Label} (fits : Fits label st) (step : next label st = some st') :
    StateExact st' := by
  cases label with
  | packet m memory =>
    obtain ⟨out, st₁, run, exact'⟩ := ours_keeps StateExact.freef exact fun fragment _ =>
      reass_exact exact (whole_convert fits.1 (fits.2 fragment)) memory.ipq
    rw [next, run] at step
    exact some.inj step ▸ exact'
  | slowtimo =>
    cases step
    intro kept mem
    obtain ⟨fp, mem', ttl, rfl⟩ := (slowtimoLoop_spec st.ipq).2.2 kept mem
    obtain ⟨nonempty, ordered, exact⟩ := exact fp mem'
    exact ⟨nonempty, ordered, exact⟩
  | drain =>
    cases step
    exact drain_keeps StateExact.freef exact
  | limit maxqueue =>
    cases step
    exact exact

end

/-- The end of the last entry is the number of the bytes. -/
theorem contiguous_length {queue : List Ipqent} {start stop : Nat}
    (whole : ∀ e ∈ queue, e.data.length = e.ip.len) (walk : contiguous start queue = some stop) :
    start + (queue.flatMap Ipqent.data).length = stop := by
  induction queue generalizing start with
  | nil => exact some.inj walk
  | cons q rest ih =>
    obtain ⟨length, others⟩ := forall_mem_cons.mp whole
    rw [contiguous] at walk
    split_ifs at walk
    rw [flatMap_cons, length_append, length, ← Nat.add_assoc]
    exact ih others walk

theorem Exact.length {accepted : List Ipqent} (exact : Exact accepted e) :
    e.data.length = e.ip.len := by
  obtain ⟨orig, -, ⟨length, -⟩, k, left⟩ := exact
  rw [left.data, length_drop, length, ← left.len, Nat.add_sub_cancel]

/-- The entries of the queues say which bytes of the fragments they have left, also while the next
fragment is inserted, and the length of a packet that is returned is that of its bytes. -/
theorem cut_fields_exact {maxqueue : Int} (run : Run next Fits (initial maxqueue) st)
    (mem : fp ∈ st.ipq) (wellFormed : WellFormed m)
    (fits : m.ip.offset + m.data.length ≤ ipMaxpacket) :
    (∀ e ∈ fp.fragq, Exact fp.accepted e) ∧
      (convert m).ip.off = m.ip.offset ∧ (convert m).ip.len + m.ip.hlen = m.ip.len ∧
      ∀ ecn ecn0 result, insertEntry (convert m) (markCe ecn ecn0 fp.fragq) = some result →
        (∀ e ∈ result.1, Exact (convert m :: fp.accepted) e) ∧
        ∀ first stop, contiguous 0 result.1 = some stop → stop + first.ip.hlen ≤ ipMaxpacket →
          (joined { fp with fragq := result.1 } first stop).ip.len =
            (result.1.flatMap Ipqent.data).length := by
  have exact : StateExact st := Run.invariant (fun _ _ _ exact fits step =>
    next_exact exact fits step) run (fun _ mem => absurd mem not_mem_nil)
  obtain ⟨off, len⟩ := convert_fields wellFormed
  refine ⟨(exact fp mem).exact, off, ?_, fun ecn ecn0 result inserted => ?_⟩
  · rw [len, wellFormed.2.2, Nat.sub_add_cancel wellFormed.1]
  · have queue := ((exact fp mem).marked ecn ecn0).inserted (whole_convert wellFormed fits) inserted
    refine ⟨queue.exact, fun first stop walk bound => ?_⟩
    have length := contiguous_length (fun e mem => (queue.exact e mem).length) walk
    rw [Nat.zero_add] at length
    exact (field16_of_le ((Nat.le_add_right _ _).trans bound)).trans length.symm

end Exact

/-- The first bytes of the second fragment have been in the first one. -/
theorem overlapping_exact : ∃ st, Run next Fits (initial 300) st ∧ ∃ fp ∈ st.ipq,
    fp.fragq.map (fun e => (e.ip.off, e.data)) = [(8, replicate 16 1), (24, replicate 8 2)] ∧
    ∀ e ∈ fp.fragq, Exact fp.accepted e := by
  refine exec_implies (Q := fun st => ∃ fp ∈ st.ipq,
      fp.fragq.map (fun e => (e.ip.off, e.data)) = [(8, replicate 16 1), (24, replicate 8 2)])
    [.packet (samplePacket 8193 (replicate 16 1)) ⟨true, true, true⟩,
      .packet (samplePacket 2 (replicate 16 2)) ⟨true, true, true⟩] (by decide +kernel) ?_
  rintro st run ⟨fp, mem, is⟩
  refine ⟨fp, mem, is, ?_⟩
  exact (cut_fields_exact (m := samplePacket 2 []) run mem (by decide) (by decide)).1

/-- The packets have been checked, but they may reach beyond the longest packet. -/
def Admitted : Label → State → Prop
  | .packet m _, _ => WellFormed m
  | _, _ => True

instance (label : Label) (st : State) : Decidable (Admitted label st) :=
  match label with
  | .packet .. | .slowtimo | .drain | .limit _ => by
    dsimp only [Admitted]
    infer_instance

/-- Two fragments at the same offset: the bytes that are left of the second one are at 65544,
and 8 is stored. -/
theorem cut_offset_wraps : ∃ st, Run next Admitted (initial 300) st ∧
    st.ipq.map (fun fp => (fp.accepted.map (·.ip.off), fp.fragq.map (·.ip.off))) =
      [([65528, 65528], [65528, 8])] :=
  exec_reaches [.packet (samplePacket 8191 (replicate 16 0)) ⟨true, true, true⟩,
    .packet (samplePacket 8191 (replicate 32 0)) ⟨true, true, true⟩] (by decide +kernel)

end Bitrig.IpInput
