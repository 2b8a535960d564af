import Bitrig.Uipc.Gc

/-!
# The marks are exact

After the last pass a file is marked if and only if it can be reached by the messages in receive
buffers.  Each pass but the last one leaves a deferred file, which the next one marks.
-/

namespace Bitrig.Uipc

open Bitrig.Transition Function List

theorem scanChain_chain (r : Record) : scanChain r.chain = r.rights := by
  have noRights : ∀ n, scanChain (List.replicate n .data) = [] := by
    intro n
    induction n with
    | zero => rfl
    | succ n ih => exact ih
  rcases r with ⟨addr, files, data⟩
  cases addr <;> cases files
  case false.none | true.none => exact noRights data
  case false.some | true.some => rfl

/-- The pointers in the receive buffer of a socket. -/
def Unp.rightsOf (s : Unp) (so : SockId) : List FileId :=
  (s.rcv so).flatMap (·.rights)

theorem unpScan_rcv (s : Unp) (so : SockId) : unpScan (s.rcv so) = s.rightsOf so := by
  unfold unpScan Unp.rightsOf
  simp only [scanChain_chain]

/-- What can be reached from files with descriptors, by messages in the receive buffers of their
sockets. -/
inductive Live (s : Unp) : FileId → Prop
  | root {f : FileId} (mem : f ∈ s.filehead) (count : (s.file f).fCount ≠ 0)
      (held : (s.file f).fCount ≠ (s.file f).fMsgcount) : Live s f
  | edge {f g : FileId} {so : SockId} (live : Live s g) (sock : (s.file g).sock = some so)
      (mem : f ∈ s.rightsOf so) : Live s f

/-- A file is marked, or will be. -/
def Marks.Seen (m : Marks) (f : FileId) : Prop :=
  m.mark f = true ∨ m.defer f = true

/-- The files that are deferred are counted and not marked. -/
structure Sane (s : Unp) (m : Marks) : Prop where
  apart : ∀ f, m.defer f = true → m.mark f = false
  listed : ∀ f, m.defer f = true → f ∈ s.filehead
  count : m.unpDefer = ((s.filehead.toFinset.filter (m.defer · = true)).card : Int)
  live : ∀ f, m.Seen f → Live s f

/-- What is in the receive buffers of marked sockets has been seen. -/
def Closed (s : Unp) (m : Marks) : Prop :=
  ∀ g so, m.mark g = true → (s.file g).sock = some so → ∀ f ∈ s.rightsOf so, m.Seen f

/-- How the marks may grow while a receive buffer is scanned. -/
structure Grown (s : Unp) (m m' : Marks) : Prop where
  mark : ∀ f, m.mark f = true → m'.mark f = true
  defer : ∀ f, m.defer f = true → m'.defer f = true
  new : ∀ f, m'.mark f = true → m.mark f = true ∨ (s.file f).sock = none

section Marking

variable {s : Unp} {m m' : Marks} {f : FileId} {p : FileId → Bool}

theorem Grown.refl : Grown s m m :=
  ⟨fun _ is => is, fun _ is => is, fun _ is => .inl is⟩

theorem Grown.trans {m'' : Marks} (first : Grown s m m') (second : Grown s m' m'') :
    Grown s m m'' := by
  refine ⟨fun f is => second.mark f (first.mark f is),
    fun f is => second.defer f (first.defer f is), fun f is => ?_⟩
  rcases second.new f is with is | none
  · exact first.new f is
  · exact .inr none

theorem Grown.seen (grown : Grown s m m') (seen : m.Seen f) : m'.Seen f :=
  seen.imp (grown.mark f) (grown.defer f)

theorem filter_update {l : Finset FileId} (mem : f ∈ l) :
    l.filter (update p f true · = true) = insert f (l.filter (p · = true)) := by
  ext g
  by_cases same : g = f
  · subst same
    simp [mem]
  · simp [same]

theorem filter_update_false (p : FileId → Bool) (l : Finset FileId) :
    l.filter (update p f false · = true) = (l.filter (p · = true)).erase f := by
  ext g
  by_cases same : g = f
  · subst same
    simp
  · simp [same]

/-- A flag that is set. -/
theorem update_true_iff {g : FileId} : update p f true g = true ↔ g = f ∨ p g = true := by
  by_cases same : g = f
  · subst same
    simp
  · simp [same]

theorem Sane.unpMark (sane : Sane s m) (mem : f ∈ s.filehead) (live : Live s f) :
    Sane s (s.unpMark m f) ∧ (s.unpMark m f).Seen f ∧ Grown s m (s.unpMark m f) := by
  unfold Unp.unpMark
  by_cases seen : (m.mark f || m.defer f) = true
  · rw [if_pos seen]
    exact ⟨sane, (Bool.or_eq_true _ _).mp seen, .refl⟩
  · rw [if_neg seen]
    rw [Bool.or_eq_true, not_or, Bool.not_eq_true, Bool.not_eq_true] at seen
    obtain ⟨notMarked, notDeferred⟩ := seen
    by_cases socket : (s.file f).fType = .socket
    · rw [if_pos socket]
      refine ⟨⟨fun g is => ?_, fun g is => ?_, ?_, ?_⟩, ?_, ?_⟩
      · rcases update_true_iff.mp is with rfl | is
        · exact notMarked
        · exact sane.apart g is
      · rcases update_true_iff.mp is with rfl | is
        · exact mem
        · exact sane.listed g is
      · rw [filter_update (mem_toFinset.mpr mem), Finset.card_insert_of_notMem, sane.count]
        · rfl
        · simp [notDeferred]
      · intro g seen
        rcases seen with marked | deferred
        · exact sane.live g (.inl marked)
        · rcases update_true_iff.mp deferred with rfl | is
          · exact live
          · exact sane.live g (.inr is)
      · exact .inr (update_true_iff.mpr (.inl rfl))
      · exact ⟨fun g is => is, fun g is => update_true_iff.mpr (.inr is), fun g is => .inl is⟩
    · rw [if_neg socket]
      have noSock : (s.file f).sock = none := if_neg socket
      refine ⟨⟨fun g is => ?_, sane.listed, sane.count, ?_⟩, ?_, ?_⟩
      · have ne : g ≠ f := by
          rintro rfl
          rw [notDeferred] at is
          cases is
        dsimp only
        rw [update_of_ne ne]
        exact sane.apart g is
      · intro g seen
        rcases seen with marked | deferred
        · rcases update_true_iff.mp marked with rfl | is
          · exact live
          · exact sane.live g (.inl is)
        · exact sane.live g (.inr deferred)
      · exact .inl (update_true_iff.mpr (.inl rfl))
      · refine ⟨fun g is => update_true_iff.mpr (.inr is), fun g is => is, fun g is => ?_⟩
        rcases update_true_iff.mp is with rfl | is
        · exact .inr noSock
        · exact .inl is

/-- All pointers of a receive buffer are marked or deferred. -/
theorem Sane.scan {files : List FileId} (sane : Sane s m) (mem : ∀ f ∈ files, f ∈ s.filehead)
    (live : ∀ f ∈ files, Live s f) :
    Sane s (files.foldl s.unpMark m) ∧ (∀ f ∈ files, (files.foldl s.unpMark m).Seen f) ∧
      Grown s m (files.foldl s.unpMark m) := by
  induction files generalizing m with
  | nil => exact ⟨sane, fun f mem => absurd mem not_mem_nil, .refl⟩
  | cons f rest ih =>
    obtain ⟨sane₁, seen₁, grown₁⟩ :=
      sane.unpMark (mem f mem_cons_self) (live f mem_cons_self)
    obtain ⟨sane₂, seen₂, grown₂⟩ := ih sane₁ (fun g memG => mem g (mem_cons_of_mem f memG))
      (fun g memG => live g (mem_cons_of_mem f memG))
    refine ⟨sane₂, fun g memG => ?_, grown₁.trans grown₂⟩
    rcases mem_cons.mp memG with rfl | memG
    · exact grown₂.seen seen₁
    · exact seen₂ g memG

/-- All pointers in messages are to open files. -/
def Listed (s : Unp) : Prop :=
  ∀ so, ∀ f ∈ s.rightsOf so, f ∈ s.filehead

/-- The marks after a file has been visited; the file itself need not have been seen before. -/
theorem Sane.visit (listed : Listed s) (sane : Sane s m)
    (closed : ∀ g so, m.mark g = true → (s.file g).sock = some so →
      ∀ h ∈ s.rightsOf so, h = f ∨ m.Seen h) (live : Live s f) (notDeferred : m.defer f = false) :
    Sane s (s.visit m f) ∧ Closed s (s.visit m f) ∧ (s.visit m f).mark f = true ∧
      (∀ g, m.mark g = true → (s.visit m f).mark g = true) ∧
      ∀ g, m.defer g = true → (s.visit m f).defer g = true := by
  have marked : Sane s { m with mark := update m.mark f true } := by
    refine ⟨fun g is => ?_, sane.listed, sane.count, fun g seen => ?_⟩
    · have ne : g ≠ f := by
        rintro rfl
        rw [notDeferred] at is
        cases is
      dsimp only
      rw [update_of_ne ne]
      exact sane.apart g is
    · rcases seen with is | is
      · rcases update_true_iff.mp is with rfl | is
        · exact live
        · exact sane.live g (.inl is)
      · exact sane.live g (.inr is)
  have self : update m.mark f true f = true := update_self ..
  have mono : ∀ g, m.mark g = true → update m.mark f true g = true :=
    fun g is => update_true_iff.mpr (.inr is)
  have seenMono : ∀ g, g = f ∨ m.Seen g →
      { m with mark := update m.mark f true }.Seen g := by
    rintro g (rfl | seen)
    · exact .inl self
    · exact seen.imp (mono g) id
  unfold Unp.visit
  cases sock : (s.file f).sock with
  | none =>
    refine ⟨marked, fun g so is sockG h memH => ?_, self, mono, fun g is => is⟩
    rcases update_true_iff.mp is with rfl | is
    · rw [sock] at sockG
      cases sockG
    · exact seenMono h (closed g so is sockG h memH)
  | some so =>
    dsimp only
    rw [unpScan_rcv]
    obtain ⟨sane', seen, grown⟩ :=
      marked.scan (listed so) (fun g memG => .edge live sock memG)
    refine ⟨sane', fun g so' is sockG h memH => ?_, grown.mark f self,
      fun g is => grown.mark g (mono g is), fun g is => grown.defer g is⟩
    rcases grown.new g is with is | none
    · rcases update_true_iff.mp is with rfl | is
      · obtain rfl := Option.some.inj (sock.symm.trans sockG)
        exact seen h memH
      · exact grown.seen (seenMono h (closed g so' is sockG h memH))
    · rw [none] at sockG
      cases sockG

/-- A root of the search. -/
def Root (s : Unp) (f : FileId) : Prop :=
  (s.file f).fCount ≠ 0 ∧ (s.file f).fCount ≠ (s.file f).fMsgcount

/-- What a part of a pass has done: the roots and the files that were deferred are marked. -/
structure Passed (s : Unp) (l : List FileId) (m m' : Marks) : Prop where
  sane : Sane s m'
  closed : Closed s m'
  mono : ∀ f, m.mark f = true → m'.mark f = true
  roots : ∀ f ∈ l, Root s f → m'.mark f = true
  deferred : ∀ f ∈ l, m.defer f = true → m'.mark f = true
  later : ∀ f, f ∉ l → m.defer f = true → m'.defer f = true

theorem Sane.undefer (sane : Sane s m) (mem : f ∈ s.filehead) (deferred : m.defer f = true) :
    Sane s (m.undefer f) := by
  have fewer : ∀ g, (m.undefer f).defer g = true → m.defer g = true := by
    intro g is
    change update m.defer f false g = true at is
    by_cases same : g = f
    · rw [same]
      exact deferred
    · rwa [update_of_ne same] at is
  refine ⟨fun g is => sane.apart g (fewer g is), fun g is => sane.listed g (fewer g is), ?_,
    fun g seen => sane.live g (seen.imp id (fewer g))⟩
  have inFilter : f ∈ s.filehead.toFinset.filter (m.defer · = true) := by
    simp [mem, deferred]
  have positive := Finset.card_pos.mpr ⟨f, inFilter⟩
  change m.unpDefer - 1 =
    ((s.filehead.toFinset.filter (update m.defer f false · = true)).card : Int)
  rw [filter_update_false, Finset.card_erase_of_mem inFilter, sane.count]
  omega

theorem Sane.turn (listed : Listed s) (sane : Sane s m) (closed : Closed s m)
    (mem : f ∈ s.filehead) : Passed s [f] m (s.turn m f) := by
  unfold Unp.turn
  by_cases deferred : m.defer f = true
  · rw [if_pos deferred]
    have others : ∀ g, g ≠ f → m.defer g = true → (m.undefer f).defer g = true := by
      intro g ne is
      change update m.defer f false g = true
      rwa [update_of_ne ne]
    obtain ⟨sane', closed', marked, mono, later⟩ := (sane.undefer mem deferred).visit listed
      (fun g so is sock h memH => by
        by_cases same : h = f
        · exact .inl same
        · exact .inr ((closed g so is sock h memH).imp id (others h same)))
      (sane.live f (.inr deferred)) (update_self ..)
    refine ⟨sane', closed', mono, ?_, ?_, fun g notMem is => ?_⟩
    · intro g memG _
      rwa [mem_singleton.mp memG]
    · intro g memG _
      rwa [mem_singleton.mp memG]
    · exact later g (others g (fun same => notMem (mem_singleton.mpr same)) is)
  · rw [if_neg deferred]
    have noDefer : ∀ g ∈ [f], m.defer g = true → False := by
      intro g memG is
      rw [mem_singleton.mp memG] at is
      exact deferred is
    split_ifs with skipped
    · refine ⟨sane, closed, fun g is => is, ?_, fun g memG is => (noDefer g memG is).elim,
        fun g _ is => is⟩
      intro g memG root
      rw [mem_singleton.mp memG] at root ⊢
      rw [Bool.or_eq_true, Bool.or_eq_true, decide_eq_true_eq, decide_eq_true_eq] at skipped
      rcases skipped with (zero | marked) | messages
      · exact absurd zero root.1
      · exact marked
      · exact absurd messages root.2
    · rw [Bool.or_eq_true, Bool.or_eq_true, decide_eq_true_eq, decide_eq_true_eq, not_or,
        not_or] at skipped
      obtain ⟨⟨count, -⟩, held⟩ := skipped
      obtain ⟨sane', closed', marked, mono, later⟩ := sane.visit listed
        (fun g so is sock h memH => .inr (closed g so is sock h memH)) (.root mem count held)
        (Bool.not_eq_true _ ▸ deferred)
      refine ⟨sane', closed', mono, ?_, fun g memG is => (noDefer g memG is).elim,
        fun g _ is => later g is⟩
      intro g memG _
      rwa [mem_singleton.mp memG]

theorem Sane.turns (listed : Listed s) {l : List FileId} (sane : Sane s m) (closed : Closed s m)
    (mem : ∀ f ∈ l, f ∈ s.filehead) : Passed s l m (l.foldl s.turn m) := by
  induction l generalizing m with
  | nil =>
    exact ⟨sane, closed, fun f is => is, fun f mem => absurd mem not_mem_nil,
      fun f mem => absurd mem not_mem_nil, fun f _ is => is⟩
  | cons f rest ih =>
    have first := sane.turn listed closed (mem f mem_cons_self)
    have others := ih first.sane first.closed fun g memG => mem g (mem_cons_of_mem f memG)
    refine ⟨others.sane, others.closed, fun g is => others.mono g (first.mono g is), ?_, ?_, ?_⟩
    · intro g memG root
      rcases mem_cons.mp memG with rfl | memG
      · exact others.mono g (first.roots g mem_cons_self root)
      · exact others.roots g memG root
    · intro g memG is
      by_cases same : g = f
      · subst same
        exact others.mono g (first.deferred g mem_cons_self is)
      · have still := first.later g (fun memF => same (mem_singleton.mp memF)) is
        exact others.deferred g ((mem_cons.mp memG).resolve_left same) still
    · intro g notMem is
      rw [mem_cons, not_or] at notMem
      exact others.later g notMem.2
        (first.later g (fun memF => notMem.1 (mem_singleton.mp memF)) is)

/-- The files that are not marked. -/
def unmarked (s : Unp) (m : Marks) : Finset FileId :=
  s.filehead.toFinset.filter (m.mark · = false)

/-- A pass marks a file that was deferred. -/
theorem Passed.fewer (passed : Passed s s.filehead m m') (sane : Sane s m)
    (deferred : m.unpDefer ≠ 0) : (unmarked s m').card < (unmarked s m).card := by
  rw [sane.count] at deferred
  obtain ⟨f, inFilter⟩ := Finset.card_ne_zero.mp (fun zero => deferred (by rw [zero]; rfl))
  obtain ⟨mem, is⟩ := Finset.mem_filter.mp inFilter
  refine Finset.card_lt_card (Finset.ssubset_iff_of_subset ?_ |>.mpr ⟨f, ?_, ?_⟩)
  · intro g memG
    obtain ⟨memHead, notMarked⟩ := Finset.mem_filter.mp memG
    refine Finset.mem_filter.mpr ⟨memHead, ?_⟩
    rw [← Bool.not_eq_true] at notMarked ⊢
    exact fun marked => notMarked (passed.mono g marked)
  · exact Finset.mem_filter.mpr ⟨mem, sane.apart f is⟩
  · intro memF
    have notMarked := (Finset.mem_filter.mp memF).2
    rw [passed.deferred f (mem_toFinset.mp mem) is] at notMarked
    cases notMarked

/-- What the passes leave. -/
structure Marked (s : Unp) (m : Marks) : Prop where
  sane : Sane s m
  closed : Closed s m
  roots : ∀ f ∈ s.filehead, Root s f → m.mark f = true

theorem Passed.marked (passed : Passed s s.filehead m m') : Marked s m' :=
  ⟨passed.sane, passed.closed, passed.roots⟩

theorem passes_spec (listed : Listed s) {fuel : Nat} (ok : Marked s m) (deferred : m.unpDefer ≠ 0)
    (enough : (unmarked s m).card ≤ fuel) :
    ∃ m', s.passes fuel m = some m' ∧ Marked s m' ∧ m'.unpDefer = 0 := by
  induction fuel generalizing m with
  | zero =>
    have fewer := (ok.sane.turns listed ok.closed (fun f mem => mem)).fewer ok.sane deferred
    omega
  | succ fuel ih =>
    have passed : Passed s s.filehead m (s.pass m) :=
      ok.sane.turns listed ok.closed (fun f mem => mem)
    have fewer := passed.fewer ok.sane deferred
    rw [Unp.passes]
    by_cases again : (s.pass m).unpDefer ≠ 0
    · rw [if_pos again]
      exact ih passed.marked again (by omega)
    · rw [if_neg again]
      exact ⟨_, rfl, passed.marked, not_not.mp again⟩

/-- The files that are marked in the end are those that can be reached. -/
theorem marks_spec (listed : Listed s) :
    ∃ m, s.marks = some m ∧ ∀ f, m.mark f = true ↔ Live s f := by
  have sane : Sane s ⟨fun _ => false, fun _ => false, 0⟩ := by
    refine ⟨fun f is => (Bool.false_ne_true is).elim, fun f is => (Bool.false_ne_true is).elim, ?_,
      fun f seen => (seen.elim Bool.false_ne_true Bool.false_ne_true).elim⟩
    rw [Finset.filter_false_of_mem (fun f _ => Bool.false_ne_true)]
    rfl
  have passed : Passed s s.filehead _ (s.pass ⟨fun _ => false, fun _ => false, 0⟩) :=
    sane.turns listed (fun g so is => (Bool.false_ne_true is).elim) (fun f mem => mem)
  have found : ∃ m, s.marks = some m ∧ Marked s m ∧ m.unpDefer = 0 := by
    rw [Unp.marks, Unp.passes]
    by_cases again : (s.pass ⟨fun _ => false, fun _ => false, 0⟩).unpDefer ≠ 0
    · rw [if_pos again]
      refine passes_spec listed passed.marked again ?_
      exact (Finset.card_filter_le _ _).trans (toFinset_card_le _)
    · rw [if_neg again]
      exact ⟨_, rfl, passed.marked, not_not.mp again⟩
  obtain ⟨m, isMarks, ok, none⟩ := found
  refine ⟨m, isMarks, fun f => ⟨fun is => ok.sane.live f (.inl is), fun live => ?_⟩⟩
  -- nothing is deferred any more
  have noDefer : ∀ g, m.defer g ≠ true := by
    intro g is
    have count := ok.sane.count
    rw [none, eq_comm, Nat.cast_eq_zero, Finset.card_eq_zero] at count
    have memG : g ∈ s.filehead.toFinset.filter (m.defer · = true) :=
      Finset.mem_filter.mpr ⟨mem_toFinset.mpr (ok.sane.listed g is), is⟩
    rw [count] at memG
    exact Finset.notMem_empty g memG
  induction live with
  | root mem count held => exact ok.roots _ mem ⟨count, held⟩
  | edge live sock mem ih => exact (ok.closed _ _ ih sock _ mem).resolve_right (noDefer _)

end Marking

end Bitrig.Uipc
