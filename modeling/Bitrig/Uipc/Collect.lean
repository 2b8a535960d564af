import Bitrig.Uipc.Marking

/-!
# Garbage collection is safe

The files that processes can get by `accept` and `recvmsg` are kept, with their receive buffers, if
and only if the connections that can be accepted hold no rights to other sockets than those that
can be reached by the receive buffers of open files.
-/

namespace Bitrig.Uipc

open Bitrig.Transition Bitrig.Descrip Function List Option

/-- Open files and messages in receive buffers.  The counts are exact, each socket has at most one
file, and a connection that has not been accepted has none. -/
structure Configuration (s : Unp) : Prop where
  refs : Refs s [] []
  transit : s.transit = []
  sockets : ∀ f ∈ s.filehead, ∀ g ∈ s.filehead, ∀ so, (s.file f).sock = some so →
    (s.file g).sock = some so → f = g
  waiting : ∀ so, ∀ c ∈ s.queue so, ∀ f ∈ s.filehead, (s.file f).sock ≠ some c

section Sweep

variable {s s' : Unp} {f : FileId} {pending extra files : List FileId} {so : SockId}

theorem mem_rightsOf : f ∈ s.rightsOf so ↔ ∃ r, (so, r) ∈ s.bufs ∧ f ∈ r.rights := by
  simp only [Unp.rightsOf, Unp.rcv, mem_flatMap, List.mem_map, mem_filter,
    decide_eq_true_eq, Prod.exists]
  constructor
  · rintro ⟨r, ⟨so', r', ⟨mem, rfl⟩, rfl⟩, memF⟩
    exact ⟨r', mem, memF⟩
  · rintro ⟨r, mem, memF⟩
    exact ⟨r, ⟨so, r, ⟨mem, rfl⟩, rfl⟩, memF⟩

theorem mem_inFlight_of_rightsOf (mem : f ∈ s.rightsOf so) : f ∈ s.inFlight := by
  obtain ⟨r, memR, memF⟩ := mem_rightsOf.mp mem
  exact mem_append_right _ (mem_flatMap.mpr ⟨(so, r), memR, memF⟩)

theorem Refs.listed (refs : Refs s [] []) : Listed s := by
  intro so f mem
  refine refs.flight f ?_
  simp only [append_nil]
  exact mem_inFlight_of_rightsOf mem

theorem Live.mem_filehead (listed : Listed s) (live : Live s f) : f ∈ s.filehead := by
  cases live with
  | root mem count held => exact mem
  | edge live sock mem => exact listed _ _ mem

/-- The files that can be reached are kept while others are flushed and closed, and so are all
receive buffers but those of the others. -/
structure Swept (s : Unp) (pending extra : List FileId) (s' : Unp) : Prop where
  refs : Refs s' pending extra
  tables : s'.tables = s.tables
  fd : s'.fd = s.fd
  sock : ∀ g, (s'.file g).sock = (s.file g).sock
  sub : ∀ g ∈ s'.filehead, g ∈ s.filehead
  live : ∀ g, Live s g → g ∈ s'.filehead
  bufs : ∀ so, (∀ g ∈ s.filehead, (s.file g).sock = some so → Live s g) → s'.rcv so = s.rcv so

theorem Configuration.live_of_sock (cfg : Configuration s) (live : Live s f)
    (sock : (s.file f).sock = some so) :
    ∀ g ∈ s.filehead, (s.file g).sock = some so → Live s g := by
  intro g mem sockG
  have memF := live.mem_filehead cfg.refs.listed
  exact cfg.sockets f memF g mem so sock sockG ▸ live

/-- A file without references cannot be reached. -/
theorem Swept.not_live (cfg : Configuration s) (swept : Swept s pending extra s')
    (mem : f ∈ s'.filehead) (zero : (s'.file f).fCount = 0) : ¬ Live s f := by
  obtain ⟨notHeld, notFlight⟩ := swept.refs.unreferenced mem zero
  intro live
  cases live with
  | root memF count held =>
    -- the file has a descriptor
    have counts := cfg.refs.count f memF
    have msgcounts := cfg.refs.msgcount f memF
    have some : s.descriptors f ≠ 0 := by
      intro none
      rw [count_nil] at counts
      omega
    have count' := swept.refs.count f mem
    have same : s'.descriptors f = s.descriptors f := by
      rw [Unp.descriptors, Unp.descriptors, swept.tables, swept.fd]
    omega
  | @edge _ g so live sock memF =>
    have kept : s'.rightsOf so = s.rightsOf so := by
      rw [Unp.rightsOf, Unp.rightsOf, swept.bufs so (cfg.live_of_sock live sock)]
    rw [← kept] at memF
    exact notFlight (mem_append_left _ (mem_append_left _ (mem_inFlight_of_rightsOf memF)))

theorem rcv_sorflush_of_ne {so' : SockId} (ne : so ≠ so') :
    (s.sorflush so').2.rcv so = s.rcv so := by
  rw [Unp.sorflush, Unp.rcv, List.filter_filter]
  congr 1
  refine filter_congr (fun b _ => ?_)
  by_cases here : b.1 = so
  · simp [here, ne]
  · simp [here]

/-- The receive buffer of a file that cannot be reached is emptied. -/
theorem Swept.sorflush (swept : Swept s pending extra s') (mem : f ∈ s.filehead)
    (notLive : ¬ Live s f) (sock : (s.file f).sock = some so) :
    Swept s ((s'.sorflush so).1 ++ pending) extra (s'.sorflush so).2 := by
  refine ⟨swept.refs.sorflush so, swept.tables, swept.fd, swept.sock, swept.sub, swept.live, ?_⟩
  intro so' live
  rw [← swept.bufs so' live]
  refine rcv_sorflush_of_ne ?_
  rintro rfl
  exact notLive (live f mem sock)

section

variable (cfg : Configuration s)
include cfg

theorem Swept.fdrop (swept : Swept s pending extra s') (mem : f ∈ s'.filehead)
    (zero : (s'.file f).fCount = 0) : Swept s ((s'.fdrop f).1 ++ pending) extra (s'.fdrop f).2 := by
  have notLive := swept.not_live cfg mem zero
  have erased : ∀ queue, Swept s pending extra
      { s' with filehead := s'.filehead.erase f, queue := queue } := by
    intro queue
    refine ⟨swept.refs.erase mem zero queue, swept.tables, swept.fd, swept.sock,
      fun g memG => swept.sub g (mem_of_mem_erase memG), fun g live => ?_, swept.bufs⟩
    have ne : g ≠ f := by
      rintro rfl
      exact notLive live
    exact (mem_erase_of_ne ne).mpr (swept.live g live)
  unfold Unp.fdrop
  cases sock : (s'.file f).sock with
  | none => exact erased s'.queue
  | some so =>
    rw [swept.sock] at sock
    exact (erased _).sorflush (swept.sub f mem) notLive sock

theorem Swept.unpDiscard (swept : Swept s (f :: pending) extra s') :
    ∃ more s'', s'.unpDiscard f = some (more, s'') ∧ Swept s (more ++ pending) extra s'' ∧
      (more ++ s''.buffered).Perm s'.buffered := by
  have mem : f ∈ s'.filehead := swept.refs.flight f (by simp)
  have positive : 1 ≤ (s'.file f).fCount := by
    have count := swept.refs.count f mem
    rw [count_append, count_cons_self] at count
    omega
  have less : Swept s pending extra (s'.addCounts f (-1) (-1)) :=
    ⟨swept.refs.discarded, swept.tables, swept.fd,
      fun g => (addCounts_sock ..).trans (swept.sock g), swept.sub, swept.live, swept.bufs⟩
  rw [unpDiscard_eq positive]
  by_cases one : (s'.file f).fCount = 1
  · rw [if_pos one]
    have zero : ((s'.addCounts f (-1) (-1)).file f).fCount = 0 := by
      rw [addCounts_fCount, if_pos rfl, one]
      rfl
    exact ⟨_, _, rfl, less.fdrop cfg mem zero, buffered_fdrop _ f⟩
  · rw [if_neg one]
    exact ⟨[], _, rfl, less, List.Perm.refl _⟩

theorem Swept.unpDispose (swept : Swept s files extra s') :
    ∃ s'', s'.unpDispose files = some s'' ∧ Swept s [] extra s'' :=
  discardAll_rule (P := fun pending => Swept s pending extra)
    (fun _ _ _ swept => swept.unpDiscard cfg) le_rfl swept

theorem Swept.flushAll (swept : Swept s [] extra s') (mem : ∀ f ∈ files, f ∈ s.filehead)
    (notLive : ∀ f ∈ files, ¬ Live s f) :
    ∃ s'', Unp.flushAll files s' = some s'' ∧ Swept s [] extra s'' := by
  induction files generalizing s' with
  | nil => exact ⟨s', rfl, swept⟩
  | cons f rest ih =>
    have memRest := fun g memG => mem g (mem_cons_of_mem f memG)
    have notRest := fun g memG => notLive g (mem_cons_of_mem f memG)
    unfold Unp.flushAll
    cases sock : (s'.file f).sock with
    | none => exact ih swept memRest notRest
    | some so =>
      rw [swept.sock] at sock
      have flushed := swept.sorflush (mem f mem_cons_self) (notLive f mem_cons_self) sock
      rw [append_nil] at flushed
      obtain ⟨s₁, run, swept₁⟩ := flushed.unpDispose cfg
      dsimp only
      rw [run]
      exact ih swept₁ memRest notRest

end

/-! ### The extra references -/

/-- The references that `unp_gc` takes. -/
def twice (files : List FileId) : List FileId :=
  files.flatMap fun f => [f, f]

theorem Swept.permExtra {extra' : List FileId} (swept : Swept s pending extra s')
    (same : extra'.Perm extra) : Swept s pending extra' s' := by
  obtain ⟨⟨nodup, apart, held, flight, count, msgcount, rights, inv⟩, tables, fd, sock, sub, live,
    bufs⟩ := swept
  refine ⟨⟨nodup, apart, held, fun g mem => ?_, fun g mem => ?_, msgcount, rights, inv⟩, tables, fd,
    sock, sub, live, bufs⟩
  · rw [mem_append, same.mem_iff, ← mem_append] at mem
    exact flight g mem
  · rw [same.count_eq]
    exact count g mem

theorem count_twice (f g : FileId) (extra : List FileId) :
    ((f :: f :: extra).count g : Int) = extra.count g + if g = f then 2 else 0 := by
  rw [count_cons, count_cons]
  simp only [beq_iff_eq, eq_comm (a := g)]
  split_ifs <;> push_cast <;> omega

theorem Swept.ref (swept : Swept s [] extra s') (mem : f ∈ s'.filehead) :
    Swept s [] (f :: f :: extra) (s'.addCounts f 2 0) := by
  obtain ⟨refs, tables, fd, sock, sub, live, bufs⟩ := swept
  refine ⟨refs.recount (fun g memG => ?_) (fun g => ?_) (add_zero _).symm (fun g => ?_), tables, fd,
    fun g => (addCounts_sock ..).trans (sock g), sub, live, bufs⟩
  · by_cases same : g = f
    · rw [same]
      exact mem
    · refine refs.flight g ?_
      rw [mem_append] at memG ⊢
      refine memG.imp_right fun memF => ?_
      have others := (mem_cons.mp memF).resolve_left same
      exact (mem_cons.mp others).resolve_left same
  · rw [ite_self, add_zero]
  · exact count_twice ..

theorem Swept.refAll (swept : Swept s [] extra s') (mem : ∀ f ∈ files, f ∈ s'.filehead) :
    Swept s [] (twice files ++ extra) (files.foldl (fun s f => s.addCounts f 2 0) s') := by
  induction files generalizing s' extra with
  | nil => exact swept
  | cons f rest ih =>
    have first := ih (swept.ref (mem f mem_cons_self))
      (fun g memG => mem g (mem_cons_of_mem f memG))
    refine first.permExtra ?_
    exact ((perm_middle.trans (perm_middle.cons f))).symm

/-- The extra references are given back. -/
theorem Swept.closef (cfg : Configuration s) (swept : Swept s [] (f :: f :: extra) s') :
    ∃ files s'', s'.closef f = some (files, s'') ∧ Swept s files extra s'' := by
  have mem : f ∈ s'.filehead := swept.refs.flight f (by simp)
  have count := swept.refs.count f mem
  rw [count_cons_self, count_cons_self] at count
  have less : Swept s [] extra (s'.addCounts f (-2) 0) := by
    obtain ⟨refs, tables, fd, sock, sub, live, bufs⟩ := swept
    refine ⟨refs.recount (fun g memG => refs.flight g ?_) (fun g => ?_) (add_zero _).symm
      (fun g => ?_), tables, fd, fun g => (addCounts_sock ..).trans (sock g), sub, live, bufs⟩
    · rw [mem_append] at memG ⊢
      exact memG.imp_right fun memE => mem_cons_of_mem f (mem_cons_of_mem f memE)
    · rw [ite_self, add_zero]
    · rw [count_twice]
      split_ifs <;> omega
  rw [Unp.closef, kassert_of_holds (by omega)]
  change ∃ files s'', some (if ((s'.addCounts f (-2) 0).file f).fCount = 0 then
    (s'.addCounts f (-2) 0).fdrop f else ([], s'.addCounts f (-2) 0)) = some (files, s'') ∧ _
  by_cases zero : ((s'.addCounts f (-2) 0).file f).fCount = 0
  · rw [if_pos zero]
    have dropped := less.fdrop cfg mem zero
    rw [append_nil] at dropped
    exact ⟨_, _, rfl, dropped⟩
  · rw [if_neg zero]
    exact ⟨[], _, rfl, less⟩

theorem Swept.closeAll (cfg : Configuration s) (swept : Swept s [] (twice files) s') :
    ∃ s'', Unp.closeAll files s' = some s'' ∧ Swept s [] [] s'' := by
  induction files generalizing s' with
  | nil => exact ⟨s', rfl, swept⟩
  | cons f rest ih =>
    have again : Swept s [] (f :: f :: twice rest) s' := swept
    obtain ⟨more, s₁, closed, swept₁⟩ := again.closef cfg
    obtain ⟨s₂, disposed, swept₂⟩ := swept₁.unpDispose cfg
    obtain ⟨s'', run, swept''⟩ := ih swept₂
    refine ⟨s'', ?_, swept''⟩
    rw [Unp.closeAll, closed, bind_eq_bind, bind_some]
    dsimp only
    rw [disposed]
    exact run

/-- `unp_gc` returns, and keeps all files that can be reached, with their receive buffers. -/
theorem unpGc_spec (cfg : Configuration s) : ∃ m s', s.marks = some m ∧ s.unpGc = some s' ∧
    (∀ f ∈ s.filehead, (s.file f).fCount ≠ 0 → (f ∈ s.extraRef m ↔ ¬ Live s f)) ∧
    Swept s [] [] s' := by
  have listed := cfg.refs.listed
  obtain ⟨m, isMarks, marked⟩ := marks_spec listed
  have exact : ∀ f ∈ s.filehead, (s.file f).fCount ≠ 0 →
      (f ∈ s.extraRef m ↔ ¬ Live s f) := by
    intro f memF count
    simp only [Unp.extraRef, mem_filter, Bool.and_eq_true, decide_eq_true_eq, Bool.not_eq_true',
      Bool.eq_false_iff, ne_eq, marked f]
    refine ⟨fun extra => extra.2.2, fun notLive => ⟨memF, ⟨count, ?_⟩, notLive⟩⟩
    by_contra held
    exact notLive (.root memF count held)
  have notLive : ∀ f ∈ s.extraRef m, ¬ Live s f := by
    intro f mem
    obtain ⟨memF, keeps⟩ := mem_filter.mp mem
    rw [Bool.and_eq_true, Bool.and_eq_true] at keeps
    exact (exact f memF (of_decide_eq_true keeps.1.1)).mp mem
  have memHead : ∀ f ∈ s.extraRef m, f ∈ s.filehead :=
    fun f mem => (mem_filter.mp mem).1
  have start : Swept s [] [] s :=
    ⟨cfg.refs, rfl, rfl, fun _ => rfl, fun _ mem => mem, fun _ live => live.mem_filehead listed,
      fun _ _ => rfl⟩
  have referenced := start.refAll memHead
  rw [append_nil] at referenced
  obtain ⟨s₁, flushed, swept₁⟩ := referenced.flushAll cfg memHead notLive
  obtain ⟨s', closed, swept'⟩ := swept₁.closeAll cfg
  refine ⟨m, s', isMarks, ?_, exact, swept'⟩
  rw [Unp.unpGc, isMarks, bind_eq_bind, bind_some]
  dsimp only
  rw [flushed]
  exact closed

end Sweep

/-! ### What processes can get -/

/-- The sockets of files that can be reached, and the connections that can be accepted from there
on. -/
inductive Open (s : Unp) : SockId → Prop
  | file {f : FileId} {so : SockId} (live : Live s f) (sock : (s.file f).sock = some so) : Open s so
  | accepted {so c : SockId} (isOpen : Open s so) (mem : c ∈ s.queue so) : Open s c

/-- The connections that can be accepted hold rights only to those sockets that can be reached
without them. -/
def QueuedLive (s : Unp) : Prop :=
  ∀ so, Open s so → ∀ c ∈ s.queue so, ∀ f ∈ s.rightsOf c, (s.file f).fType = .socket → Live s f

/-- What can be reached, with the rights to other files than sockets that connections hold. -/
def Kept (s : Unp) (f : FileId) : Prop :=
  Live s f ∨ (s.file f).fType ≠ .socket ∧ ∃ so, ∃ c ∈ s.queue so, f ∈ s.rightsOf c

/-- What processes see after some calls is no more than what is kept. -/
structure ViewOk (s : Unp) (v : View) : Prop where
  held : ∀ f ∈ v.held, f ∈ s.filehead → Kept s f
  old : ∀ f ∈ s.filehead, v.sock f = (s.file f).sock
  new : ∀ f ∈ v.held, f ∉ s.filehead → ∀ c, v.sock f = some c → ∃ so, Open s so ∧ c ∈ s.queue so
  bufs : ∀ b ∈ v.bufs, b ∈ s.bufs
  queue : ∀ so, ∀ c ∈ v.queue so, c ∈ s.queue so

/-- What processes do not see any more, they have. -/
structure Shown (s : Unp) (v : View) : Prop where
  old : ∀ f ∈ s.filehead, v.sock f = (s.file f).sock
  bufs : ∀ b ∈ s.bufs, b ∈ v.bufs ∨ ∀ f ∈ b.2.rights, f ∈ v.held
  queue : ∀ so, ∀ c ∈ s.queue so, c ∈ v.queue so ∨ ∃ g ∈ v.held, v.sock g = some c

section View

variable {s : Unp} {v v' : View} {f g new : FileId} {so c : SockId}

theorem mem_view_held (cfg : Configuration s) (mem : f ∈ s.filehead) :
    f ∈ s.view.held ↔ (s.file f).fCount ≠ 0 ∧ (s.file f).fCount ≠ (s.file f).fMsgcount := by
  have count := cfg.refs.count f mem
  have msgcount := cfg.refs.msgcount f mem
  rw [count_nil] at count
  change f ∈ s.filehead.filter _ ↔ _
  rw [mem_filter, decide_eq_true_eq]
  constructor
  · rintro ⟨-, held⟩
    omega
  · rintro ⟨-, held⟩
    exact ⟨mem, by omega⟩

theorem Configuration.viewOk (cfg : Configuration s) : ViewOk s s.view := by
  refine ⟨fun f mem memHead => ?_, fun f _ => rfl, fun f mem notMem => ?_, fun b mem => mem,
    fun so c mem => mem⟩
  · obtain ⟨count, held⟩ := (mem_view_held cfg memHead).mp mem
    exact .inl (.root memHead count held)
  · exact absurd (mem_filter.mp mem).1 notMem

theorem update_sock_old (fresh : new ∉ s.filehead)
    (old : ∀ f ∈ s.filehead, v.sock f = (s.file f).sock) :
    ∀ f ∈ s.filehead, update v.sock new (some c) f = (s.file f).sock := by
  intro f mem
  have ne : f ≠ new := by
    rintro rfl
    exact fresh mem
  rw [update_of_ne ne]
  exact old f mem

/-- A socket that a process has is that of a file that can be reached, or it has been accepted. -/
theorem ViewOk.source (ok : ViewOk s v) (mem : f ∈ v.held) (sock : v.sock f = some so) :
    (∃ g, Live s g ∧ (s.file g).sock = some so) ∨
      ∃ listener, Open s listener ∧ so ∈ s.queue listener := by
  by_cases old : f ∈ s.filehead
  · rw [ok.old f old] at sock
    rcases ok.held f mem old with live | ⟨notSocket, -⟩
    · exact .inl ⟨f, live, sock⟩
    · rw [File.sock, if_neg notSocket] at sock
      cases sock
  · exact .inr (ok.new f mem old so sock)

/-- The rights that a process receives are to files that are kept. -/
theorem ViewOk.received (ok : ViewOk s v) (queued : QueuedLive s) (mem : f ∈ v.held)
    (sock : v.sock f = some so) {r : Record} (memR : (so, r) ∈ v.bufs) :
    ∀ g ∈ r.rights, Kept s g := by
  intro g memG
  have rights : g ∈ s.rightsOf so := mem_rightsOf.mpr ⟨r, ok.bufs _ memR, memG⟩
  rcases ok.source mem sock with ⟨f, live, sock⟩ | ⟨listener, isOpen, memQ⟩
  · exact .inl (.edge live sock rights)
  · by_cases socket : (s.file g).fType = .socket
    · exact .inl (queued listener isOpen so memQ g rights socket)
    · exact .inr ⟨socket, listener, so, memQ, rights⟩

theorem ViewOk.isOpen (ok : ViewOk s v) (mem : f ∈ v.held) (sock : v.sock f = some so) :
    Open s so := by
  rcases ok.source mem sock with ⟨f, live, sock⟩ | ⟨listener, isOpen, memQ⟩
  · exact .file live sock
  · exact .accepted isOpen memQ

/-- What a call gives. -/
theorem next_cases {get : Get} (called : View.Called s.filehead get v)
    (step : View.next get v = some v') :
    (∃ f so r, f ∈ v.held ∧ v.sock f = some so ∧ (so, r) ∈ v.bufs ∧
      v' = { v with bufs := v.bufs.erase (so, r), held := r.rights ++ v.held }) ∨
    ∃ f so c rest new, f ∈ v.held ∧ v.sock f = some so ∧ v.queue so = c :: rest ∧
      new ∉ s.filehead ∧ new ∉ v.held ∧ v' = { v with
        held := new :: v.held
        sock := update v.sock new (some c)
        queue := update v.queue so rest } := by
  cases get with
  | recvmsg f =>
    obtain ⟨so, sock, rest⟩ := bind_eq_some_iff.mp step
    obtain ⟨⟨so', r⟩, found, rest⟩ := bind_eq_some_iff.mp rest
    cases rest
    have test := find?_some found
    obtain rfl : so' = so := of_decide_eq_true test
    exact .inl ⟨f, so', r, called, sock, mem_of_find?_eq_some found, rfl⟩
  | accept f new =>
    obtain ⟨held, fresh, unheld⟩ := called
    obtain ⟨so, sock, rest⟩ := bind_eq_some_iff.mp step
    cases queue : v.queue so with
    | nil =>
      rw [queue] at rest
      cases rest
    | cons c others =>
      rw [queue] at rest
      cases rest
      exact .inr ⟨f, so, c, others, new, held, sock, queue, fresh, unheld, rfl⟩

theorem ViewOk.next {get : Get} (listed : Listed s) (queued : QueuedLive s) (ok : ViewOk s v)
    (called : View.Called s.filehead get v) (step : View.next get v = some v') : ViewOk s v' := by
  rcases next_cases called step with ⟨f, so, r, held, sock, memR, rfl⟩ |
    ⟨f, so, c, rest, new, held, sock, queue, fresh, -, rfl⟩
  · have received := ok.received queued held sock memR
    refine ⟨fun g mem memHead => ?_, ok.old, fun g mem notMem => ?_,
      fun b mem => ok.bufs b (mem_of_mem_erase mem), ok.queue⟩
    · rcases mem_append.mp mem with mem | mem
      · exact received g mem
      · exact ok.held g mem memHead
    · rcases mem_append.mp mem with mem | mem
      · exact absurd (listed so g (mem_rightsOf.mpr ⟨r, ok.bufs _ memR, mem⟩)) notMem
      · exact ok.new g mem notMem
  · refine ⟨fun g mem memHead => ?_, update_sock_old fresh ok.old, fun g mem notMem c' is => ?_,
      ok.bufs, fun so' c' mem => ?_⟩
    · rcases mem_cons.mp mem with rfl | mem
      · exact absurd memHead fresh
      · exact ok.held g mem memHead
    · change update v.sock new (some c) g = _ at is
      by_cases same : g = new
      · rw [same, update_self] at is
        cases is
        exact ⟨so, ok.isOpen held sock, ok.queue so c (by rw [queue]; exact mem_cons_self)⟩
      · rw [update_of_ne same] at is
        exact ok.new g ((mem_cons.mp mem).resolve_left same) notMem c' is
    · change c' ∈ update v.queue so rest so' at mem
      by_cases here : so' = so
      · subst here
        rw [update_self] at mem
        exact ok.queue so' c' (by rw [queue]; exact mem_cons_of_mem c mem)
      · rw [update_of_ne here] at mem
        exact ok.queue so' c' mem

/-! ### All of it can be got -/

theorem Shown.next {get : Get} (shown : Shown s v) (called : View.Called s.filehead get v)
    (step : View.next get v = some v') : Shown s v' := by
  rcases next_cases called step with ⟨f, so, r, -, -, -, rfl⟩ |
    ⟨f, so, c, rest, new, -, -, queue, fresh, unheld, rfl⟩
  · refine ⟨shown.old, fun b mem => ?_, fun so' c mem => ?_⟩
    · rcases shown.bufs b mem with mem | held
      · by_cases first : b = (so, r)
        · exact .inr fun g memG => mem_append_left _ (by rwa [first] at memG)
        · exact .inl ((mem_erase_of_ne first).mpr mem)
      · exact .inr fun g memG => mem_append_right _ (held g memG)
    · exact (shown.queue so' c mem).imp_right fun ⟨g, held, sock⟩ =>
        ⟨g, mem_append_right _ held, sock⟩
  · refine ⟨update_sock_old fresh shown.old, fun b mem => ?_, fun so' c' mem => ?_⟩
    · exact (shown.bufs b mem).imp_right fun held g memG => mem_cons_of_mem _ (held g memG)
    · rcases shown.queue so' c' mem with mem | ⟨g, held, sock⟩
      · change c' ∈ update v.queue so rest so' ∨ ∃ g ∈ new :: v.held,
          update v.sock new (some c) g = some c'
        by_cases here : so' = so
        · subst here
          rw [queue] at mem
          rcases mem_cons.mp mem with rfl | mem
          · exact .inr ⟨new, mem_cons_self, update_self ..⟩
          · rw [update_self]
            exact .inl mem
        · rw [update_of_ne here]
          exact .inl mem
      · have ne : g ≠ new := by
          rintro rfl
          exact unheld held
        refine .inr ⟨g, mem_cons_of_mem _ held, ?_⟩
        change update v.sock new (some c) g = _
        rw [update_of_ne ne]
        exact sock

/-- What processes see after calls. -/
abbrev Seen (s : Unp) (v : View) : Prop :=
  Run View.next (View.Called s.filehead) s.view v

theorem Seen.shown (seen : Seen s v) : Shown s v :=
  Run.invariant (P := Shown s) (fun _ _ _ shown called step => shown.next called step) seen
    ⟨fun _ _ => rfl, fun _ mem => .inl mem, fun _ _ mem => .inl mem⟩

/-- A process takes the records from a socket until it has the rights in one of them. -/
theorem Seen.receive {r : Record} (seen : Seen s v) (held : f ∈ v.held) (sock : v.sock f = some so)
    (mem : (so, r) ∈ v.bufs) : ∃ v', Seen s v' ∧ ∀ g ∈ r.rights, g ∈ v'.held := by
  induction bufs : v.bufs.length generalizing v with
  | zero =>
    rw [length_eq_zero_iff.mp bufs] at mem
    cases mem
  | succ n ih =>
    obtain ⟨⟨so', first⟩, found⟩ : ∃ b, v.bufs.find? (·.1 = so) = some b := by
      rw [← isSome_iff_exists, find?_isSome]
      exact ⟨_, mem, decide_eq_true rfl⟩
    have step : View.next (.recvmsg f) v = some { v with
        bufs := v.bufs.erase (so', first), held := first.rights ++ v.held } := by
      simp only [View.next, sock, bind_eq_bind, bind_some, found]
    have seen' := seen.tail ⟨.recvmsg f, held, step⟩
    by_cases same : (so, r) = (so', first)
    · obtain ⟨-, rfl⟩ := Prod.mk.inj same
      exact ⟨_, seen', fun g memG => mem_append_left _ memG⟩
    · refine ih seen' (mem_append_right _ held) sock ((mem_erase_of_ne same).mpr mem) ?_
      change (v.bufs.erase _).length = n
      rw [length_erase_of_mem (mem_of_find?_eq_some found), bufs]
      rfl

/-- A process accepts connections until it has a given one. -/
theorem Seen.accept (seen : Seen s v) (held : f ∈ v.held) (sock : v.sock f = some so)
    (mem : c ∈ v.queue so) : ∃ v', Seen s v' ∧ ∃ g ∈ v'.held, v'.sock g = some c := by
  induction queue : v.queue so generalizing v with
  | nil =>
    rw [queue] at mem
    cases mem
  | cons first rest ih =>
    obtain ⟨new, fresh⟩ := Infinite.exists_notMem_finset (s.filehead ++ v.held).toFinset
    rw [List.mem_toFinset, mem_append, not_or] at fresh
    have step : View.next (.accept f new) v = some { v with
        held := new :: v.held
        sock := update v.sock new (some first)
        queue := update v.queue so rest } := by
      simp only [View.next, sock, bind_eq_bind, bind_some, queue]
    have seen' := seen.tail ⟨.accept f new, ⟨held, fresh⟩, step⟩
    rw [queue] at mem
    rcases mem_cons.mp mem with rfl | mem
    · exact ⟨_, seen', new, mem_cons_self, update_self ..⟩
    · have ne : f ≠ new := by
        rintro rfl
        exact fresh.2 held
      refine ih seen' (mem_cons_of_mem _ held) ((update_of_ne ne ..).trans sock) ?_
        (update_self ..)
      change c ∈ update v.queue so rest so
      rw [update_self]
      exact mem

theorem Seen.get (seen : Seen s v) (held : f ∈ v.held) (sock : v.sock f = some so)
    (mem : g ∈ s.rightsOf so) : Gets s g := by
  obtain ⟨r, memR, memG⟩ := mem_rightsOf.mp mem
  rcases seen.shown.bufs _ memR with memR | got
  · obtain ⟨v', seen', got⟩ := seen.receive held sock memR
    exact ⟨v', seen', got g memG⟩
  · exact ⟨v, seen, got g memG⟩

theorem Live.gets (cfg : Configuration s) (live : Live s f) : Gets s f := by
  induction live with
  | root mem count held => exact ⟨s.view, .refl, (mem_view_held cfg mem).mpr ⟨count, held⟩⟩
  | edge live sock mem ih =>
    obtain ⟨v, seen, held⟩ := ih
    have memG := live.mem_filehead cfg.refs.listed
    exact Seen.get seen held ((Seen.shown seen).old _ memG |>.trans sock) mem

theorem Open.seen (cfg : Configuration s) (isOpen : Open s so) :
    ∃ v, Seen s v ∧ ∃ g ∈ v.held, v.sock g = some so := by
  induction isOpen with
  | @file f so live sock =>
    obtain ⟨v, seen, held⟩ := live.gets cfg
    have memF := live.mem_filehead cfg.refs.listed
    exact ⟨v, seen, f, held, ((Seen.shown seen).old f memF).trans sock⟩
  | accepted isOpen mem ih =>
    obtain ⟨v, seen, g, held, sock⟩ := ih
    rcases seen.shown.queue _ _ mem with mem | accepted
    · exact seen.accept held sock mem
    · exact ⟨v, seen, accepted⟩

theorem count_ne_zero (cfg : Configuration s) (mem : f ∈ s.rightsOf so) :
    f ∈ s.filehead ∧ (s.file f).fCount ≠ 0 := by
  have memF := cfg.refs.listed so f mem
  have count := cfg.refs.count f memF
  have positive := count_pos_iff.mpr (mem_inFlight_of_rightsOf mem)
  rw [append_nil] at count
  exact ⟨memF, by omega⟩

end View

/-! ### Samples -/

/-- A table with two descriptors, for the files 7 and 8. -/
def sampleTable : Filedesc FileId :=
  ((falloc fdinit 7 false 128 noJunk).bind fun fd => falloc fd 8 false 128 noJunk).getD fdinit

theorem sampleTable_inv : Inv sampleTable := by
  have first : ∃ fd : Filedesc FileId, falloc fdinit 7 false 128 noJunk = some fd := ⟨_, rfl⟩
  obtain ⟨fd, isFd⟩ := first
  have second : falloc fd 8 false 128 noJunk = some sampleTable := by
    cases isFd
    rfl
  exact (fdinit_inv.falloc isFd).falloc second

theorem sampleTable_held {i : Nat} {f : FileId} (is : sampleTable.ofiles i = some f) :
    f = 7 ∨ f = 8 := by
  change update (update (fun _ => none) 0 (some 7)) 1 (some 8) i = some f at is
  by_cases one : i = 1
  · rw [one, update_self] at is
    exact .inr (some.inj is).symm
  · rw [update_of_ne one] at is
    by_cases zero : i = 0
    · rw [zero, update_self] at is
      exact .inl (some.inj is).symm
    · rw [update_of_ne zero] at is
      cases is

/-- The sockets 1, 3, 4 and 5 are those of the files 7, 9, 10 and 11; file 8 is a vnode.  A process
has descriptors for the files 7 and 8. -/
def gcFile (bufs : List (SockId × Record)) (f : FileId) : File :=
  let pointers := (bufs.flatMap (·.2.rights)).count f
  ⟨if f = 8 then .vnode else .socket, some (f - 6),
    (if f = 7 ∨ f = 8 then 1 else 0) + pointers, pointers⟩

theorem gcFile_sock {bufs : List (SockId × Record)} {f : FileId} {so : SockId}
    (is : (gcFile bufs f).sock = some so) : f ≠ 8 ∧ so = f - 6 := by
  unfold File.sock gcFile at is
  by_cases vnode : f = 8
  · rw [if_pos vnode, if_neg DType.noConfusion] at is
    cases is
  · rw [if_neg vnode, if_pos rfl] at is
    exact ⟨vnode, (some.inj is).symm⟩

/-- The socket 2 is on the queue of the socket 1. -/
def gcUnp (filehead : List FileId) (bufs : List (SockId × Record)) : Unp where
  filehead := filehead
  file := gcFile bufs
  tables := [0]
  fd _ := sampleTable
  unpRights := (bufs.flatMap (·.2.rights)).length
  transit := []
  bufs := bufs
  queue so := if so = 1 then [2] else []

def gcRecord (files : List FileId) : Record :=
  ⟨false, some files, 1⟩

theorem gcUnp_configuration {filehead : List FileId} {bufs : List (SockId × Record)}
    (nodup : filehead.Nodup) (mem : 7 ∈ filehead ∧ 8 ∈ filehead)
    (flight : ∀ f ∈ bufs.flatMap (·.2.rights), f ∈ filehead)
    (counts : ∀ f ∈ filehead, slots sampleTable f = if f = 7 ∨ f = 8 then 1 else 0)
    (large : ∀ f ∈ filehead, 7 ≤ f) : Configuration (gcUnp filehead bufs) := by
  have isFlight : (gcUnp filehead bufs).inFlight = bufs.flatMap (·.2.rights) := rfl
  refine ⟨⟨nodup, nodup_singleton 0, ?_, ?_, fun f memF => ?_, fun f memF => ?_, ?_,
    fun _ _ => sampleTable_inv⟩, rfl, ?_, ?_⟩
  · intro t _ i f is
    rcases sampleTable_held is with rfl | rfl
    · exact mem.1
    · exact mem.2
  · rw [append_nil, append_nil]
    exact flight
  · have descriptors : (gcUnp filehead bufs).descriptors f = if f = 7 ∨ f = 8 then 1 else 0 := by
      rw [← counts f memF]
      exact add_zero _
    rw [isFlight, descriptors, append_nil, count_nil]
    change (if f = 7 ∨ f = 8 then (1 : Int) else 0) + _ = _
    split_ifs <;> push_cast <;> omega
  · rw [append_nil]
    rfl
  · rw [append_nil]
    rfl
  · intro f memF g memG so sockF sockG
    have same : f - 6 = g - 6 := (gcFile_sock sockF).2.symm.trans (gcFile_sock sockG).2
    exact (tsub_left_inj (le_of_lt (large f memF)) (le_of_lt (large g memG))).mp same
  · intro so c memC f memF sock
    change c ∈ (if so = 1 then [2] else []) at memC
    split_ifs at memC
    · obtain ⟨notVnode, is⟩ := gcFile_sock sock
      rw [mem_singleton.mp memC] at is
      have le : 6 ≤ f := le_of_lt (large f memF)
      exact notVnode ((Nat.sub_eq_iff_eq_add le).mp is.symm)
    · cases memC

/-- The file 9 is in the receive buffer of the socket 1 and in its own; a connection that has not
been accepted has a right to it, too.  The files 10 and 11 hold each other. -/
def gcCycles : Unp :=
  gcUnp [7, 8, 9, 10, 11] [(1, gcRecord [9]), (2, gcRecord [9]), (3, gcRecord [9, 8]),
    (4, gcRecord [11]), (5, gcRecord [10])]

/-- The file 9 is only in the receive buffer of a connection that has not been accepted, and has
data in its own receive buffer. -/
def gcQueued : Unp :=
  gcUnp [7, 8, 9] [(2, gcRecord [9]), (3, ⟨false, none, 4⟩)]

end Bitrig.Uipc
