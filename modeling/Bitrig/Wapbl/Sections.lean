import Bitrig.Wapbl.Accounting

/-!
# What the critical sections do

One lemma for each function that changes the in-core log.  The counters of the
current transaction are the sums over its buffers, the length that
`wapbl_transaction_len` predicts holds the records of `wapbl_write_blocks`, and
the sections of `wapbl_truncate`, `wapbl_flush` and `wapbl_biodone` change a
sound view as the lemmas on views say.
-/

namespace Bitrig.Wapbl

open Bitrig.Transition List Option

variable {g : Geometry} {wl : WapblLog g} {fuel disp entry errorCount delta : Nat}
  {bufs : List (Buf g)} {synced left : List WapblEntry}

/-- The view of the in-core log. -/
def WapblLog.view (wl : WapblLog g) : View :=
  ⟨wl.wlHead, wl.wlTail, wl.wlReclaimableBytes, wl.wlEntries⟩

/-- Two logs that differ at most in their current transaction. -/
structure WapblLog.SameQueue (wl wl' : WapblLog g) : Prop where
  view : wl'.view = wl.view
  reserved : wl'.wlReservedBytes = wl.wlReservedBytes
  errorCount : wl'.wlErrorCount = wl.wlErrorCount

/-! ## The buffers of the current transaction -/

/-- The counters of the current transaction are those of its buffers. -/
structure WapblLog.Counted (wl : WapblLog g) : Prop where
  bufcount : wl.wlBufcount = wl.wlBufs.length
  bcount : wl.wlBcount = (wl.wlBufs.map (·.bBcount)).sum
  bufbytes : wl.wlBufbytes = (wl.wlBufs.map (·.bBufsize)).sum

/-- Taking the first match out of a list and putting it in front permutes it. -/
theorem find_cons_eraseP_perm {α : Type*} {p : α → Bool} {items : List α} {item : α}
    (found : items.find? p = some item) : (item :: items.eraseP p).Perm items := by
  rcases find?_eq_some_iff_append.mp found with ⟨holds, before, after, rfl, earlier⟩
  have skipped : ∀ other ∈ before, ¬p other := by
    intro other member
    simpa using earlier other member
  rw [eraseP_append_right _ skipped, eraseP_cons_of_pos holds]
  exact perm_middle.symm

theorem wapblAddBuf_sameQueue (wl : WapblLog g) (bp : Buf g) :
    wl.SameQueue (wapblAddBuf wl bp) := by
  unfold wapblAddBuf
  split <;> exact ⟨rfl, rfl, rfl⟩

theorem foldl_wapblAddBuf_sameQueue (wl : WapblLog g) (metadata : List (Buf g)) :
    wl.SameQueue (metadata.foldl wapblAddBuf wl) := by
  induction metadata generalizing wl with
  | nil => exact ⟨rfl, rfl, rfl⟩
  | cons bp rest ih =>
    have first := wapblAddBuf_sameQueue wl bp
    have later := ih (wapblAddBuf wl bp)
    exact ⟨later.view.trans first.view, later.reserved.trans first.reserved,
      later.errorCount.trans first.errorCount⟩

theorem wapblRemoveBufLocked_sameQueue {wl' : WapblLog g} {addr : Nat}
    (removed : wapblRemoveBufLocked wl addr = some wl') : wl.SameQueue wl' := by
  simp only [wapblRemoveBufLocked, bind_eq_bind, bind_eq_some_iff,
    kassert_eq_some_iff, Option.pure_def, Option.some.injEq] at removed
  rcases removed with ⟨bp, _, _, _, _, _, _, _, _, _, _, _, rfl⟩
  exact ⟨rfl, rfl, rfl⟩

namespace WapblLog.Counted

variable {wl : WapblLog g}

/-- There are no buffers if their sizes add up to nothing. -/
theorem length_eq_zero_iff_sum {size : Buf g → Nat} (positive : ∀ bp, 0 < size bp)
    (bufs : List (Buf g)) : bufs.length = 0 ↔ (bufs.map size).sum = 0 := by
  cases bufs with
  | nil => simp
  | cons bp rest =>
    have := positive bp
    simp only [length_cons, map_cons, sum_cons]
    omega

variable (counted : wl.Counted) {addr : Nat}
include counted

theorem bufcount_eq_zero_iff_bcount : wl.wlBufcount = 0 ↔ wl.wlBcount = 0 := by
  rw [counted.bufcount, counted.bcount]
  exact length_eq_zero_iff_sum Buf.bcount_pos _

theorem bufcount_eq_zero_iff_bufbytes : wl.wlBufcount = 0 ↔ wl.wlBufbytes = 0 := by
  rw [counted.bufcount, counted.bufbytes]
  exact length_eq_zero_iff_sum Buf.bufsize_pos _

theorem addBuf (bp : Buf g) : (wapblAddBuf wl bp).Counted := by
  rcases counted with ⟨bufcount, bcount, bufbytes⟩
  unfold wapblAddBuf
  split
  · rename_i locked found
    have perm := find_cons_eraseP_perm found
    exact ⟨bufcount.trans perm.length_eq.symm, bcount.trans (perm.map _).sum_eq.symm,
      bufbytes.trans (perm.map _).sum_eq.symm⟩
  · constructor
    · simp [bufcount]
    · simp only [map_cons, sum_cons, bcount]
      omega
    · simp only [map_cons, sum_cons, bufbytes]
      omega

theorem addBufs (metadata : List (Buf g)) :
    (metadata.foldl wapblAddBuf wl).Counted := by
  induction metadata generalizing wl with
  | nil => exact counted
  | cons bp rest ih => exact ih (counted.addBuf bp)

/-- Removing a buffer of the transaction passes every assertion. -/
theorem removeBuf {bp : Buf g} (found : wl.wlBufs.find? (·.addr = addr) = some bp) :
    ∃ wl', wapblRemoveBufLocked wl addr = some wl' ∧ wl'.Counted := by
  have perm := find_cons_eraseP_perm found
  have countEq : wl.wlBufcount = (wl.wlBufs.eraseP (·.addr = addr)).length + 1 := by
    simpa [counted.bufcount] using perm.length_eq.symm
  have bcountEq : wl.wlBcount =
      bp.bBcount + ((wl.wlBufs.eraseP (·.addr = addr)).map (·.bBcount)).sum := by
    simpa [counted.bcount] using (perm.map (·.bBcount)).sum_eq.symm
  have bytesEq : wl.wlBufbytes =
      bp.bBufsize + ((wl.wlBufs.eraseP (·.addr = addr)).map (·.bBufsize)).sum := by
    simpa [counted.bufbytes] using (perm.map (·.bBufsize)).sum_eq.symm
  let wl' : WapblLog g :=
    { wl with
      wlBufs := wl.wlBufs.eraseP (·.addr = addr)
      wlBufbytes := wl.wlBufbytes - bp.bBufsize
      wlBcount := wl.wlBcount - bp.bBcount
      wlBufcount := wl.wlBufcount - 1 }
  have counted' : wl'.Counted := by
    constructor <;> simp only [wl'] <;> omega
  refine ⟨wl', ?_, counted'⟩
  have bytesLe : bp.bBufsize ≤ wl.wlBufbytes := by omega
  have bcountLe : bp.bBcount ≤ wl.wlBcount := by omega
  have countPos : 0 < wl.wlBufcount := by omega
  simp only [wapblRemoveBufLocked, found, bind_eq_bind, bind_some,
    kassert_of_holds bytesLe, kassert_of_holds bcountLe, kassert_of_holds countPos,
    kassert_of_holds counted'.bufcount_eq_zero_iff_bufbytes,
    kassert_of_holds counted'.bufcount_eq_zero_iff_bcount, Option.pure_def, wl']

theorem removed {wl' : WapblLog g} (removed : wapblRemoveBufLocked wl addr = some wl') :
    wl'.Counted := by
  obtain ⟨bp, found, _⟩ := bind_eq_some_iff.mp removed
  rcases counted.removeBuf found with ⟨wl'', removedAs, counted'⟩
  rw [removed, Option.some.injEq] at removedAs
  exact removedAs ▸ counted'

end WapblLog.Counted

/-! ## The length of a transaction -/

theorem howmany_pos {x y : Nat} (positive : 0 < x) (divisor : 0 < y) :
    howmany x y = 1 + howmany (x - y) y := by
  unfold howmany
  by_cases below : x ≤ y
  · rw [Nat.sub_eq_zero_of_le below, Nat.zero_add, Nat.div_eq_of_lt (show y - 1 < y by omega)]
    exact Nat.div_eq_of_lt_le (by omega) (by omega)
  · rw [show x + (y - 1) = x - y + (y - 1) + y by omega, Nat.add_div_right _ divisor, Nat.add_comm]

theorem blockRecords_length (enough : bufs.length ≤ fuel) :
    (blockRecords g fuel disp bufs).length = bufs.length := by
  have group := g.bph_pos
  induction fuel generalizing disp bufs with
  | zero =>
    have none : bufs = [] := length_eq_zero_iff.mp (by omega)
    simp [none, blockRecords]
  | succ fuel ih =>
    unfold blockRecords
    split
    · rename_i none
      simp [none]
    · simp only [length_append, length_map, length_take]
      rw [ih (by rw [length_drop]; omega), length_drop]
      omega

/-- Every record lies in the bytes that `wapbl_transaction_len` counts for the
buffers and their headers. -/
theorem blockRecords_fits :
    ∀ record ∈ blockRecords g fuel disp bufs, disp ≤ record.2.1 ∧ 0 < record.2.2 ∧
        record.2.1 + record.2.2 ≤
          disp + ((bufs.map (·.bBcount)).sum + howmany bufs.length g.bph * g.blocklen) := by
  have group := g.bph_pos
  have blockPos := g.blocklen_pos
  induction fuel generalizing disp bufs with
  | zero => simp [blockRecords]
  | succ fuel ih =>
    intro record member
    unfold blockRecords at member
    split at member
    · simp at member
    · rename_i some
      have sums : (bufs.map (·.bBcount)).sum =
          ((bufs.take g.bph).map (·.bBcount)).sum + ((bufs.drop g.bph).map (·.bBcount)).sum := by
        rw [← sum_append, ← map_append, take_append_drop]
      have headers := howmany_pos (length_pos_iff.mpr some) group
      rw [headers, Nat.add_mul, Nat.one_mul]
      rcases mem_append.mp member with here | later
      · rcases mem_map.mp here with ⟨bp, _, rfl⟩
        simp only
        omega
      · have bounds := ih record later
        rw [length_drop] at bounds
        omega

/-- The buffers of a counted transaction become its writes. -/
theorem newWrites_length (counted : wl.Counted) (entry : Nat) :
    (newWrites wl entry).length = wl.wlBufcount := by
  rw [newWrites, length_map, blockRecords_length (Nat.le_refl _), counted.bufcount]

theorem newWrites_place (counted : wl.Counted) :
    ∀ write ∈ newWrites wl entry, write.entry = entry ∧ write.started = false ∧
      ∃ disp, 0 < write.len ∧ disp + write.len ≤ wapblTransactionLen wl ∧
        write.off = g.circAdd (startOff g wl.wlHead) disp := by
  intro write member
  rcases mem_map.mp member with ⟨⟨buf, disp, len⟩, recordMember, rfl⟩
  have fits := blockRecords_fits _ recordMember
  rw [← counted.bcount, ← counted.bufcount] at fits
  refine ⟨rfl, rfl, disp, fits.2.1, ?_, rfl⟩
  simp only [wapblTransactionLen] at fits ⊢
  omega

theorem wapblTransactionInodesLen_pos (wl : WapblLog g) : 0 < wapblTransactionInodesLen wl :=
  Nat.mul_pos (by omega) g.blocklen_pos

theorem wapblTransactionInodesLen_lt (counted : wl.Counted) (some : 0 < wl.wlBufcount) :
    wapblTransactionInodesLen wl < wapblTransactionLen wl := by
  have bytes := counted.bufcount_eq_zero_iff_bcount
  unfold wapblTransactionLen
  omega

/-! ## The section of `wapbl_truncate` -/

section Truncate

variable {wl : WapblLog g} {writes errored : List InPlace} {inodeList : Option (Nat × Nat)}

theorem truncateDelta_le (wl : WapblLog g) : truncateDelta wl ≤ wl.wlReclaimableBytes := by
  unfold truncateDelta
  split <;> omega

theorem reclaimable_le_used (wl : WapblLog g) : wl.wlReclaimableBytes ≤ wl.view.used :=
  Nat.le_add_right _ _

variable (sound : wl.view.Sound g writes errored inodeList wl.wlReservedBytes) {minfree : Nat}
  {debug waitonly : Bool} {outcome : TruncateOutcome}
include sound

/-- The reserved bytes are never released. -/
theorem reserved_le_used_sub_truncateDelta :
    wl.wlReservedBytes ≤ wl.view.used - truncateDelta wl := by
  have keeps := sound.reserved_le
  have last := sound.reserved_last
  simp only [View.used, WapblLog.view] at keeps last ⊢
  unfold truncateDelta
  split
  · rename_i flushed
    omega
  · rename_i kept
    rcases eq_nil_or_concat wl.wlEntries with none | ⟨before, we, entriesEq⟩
    · simp only [none, totalBytes_nil, true_and] at keeps kept
      omega
    · have lastBytes := last we (by simp [entriesEq])
      simp only [entriesEq, concat_eq_append, totalBytes_append, totalBytes_cons, totalBytes_nil]
      omega

/-- A log without free bytes releases something whenever the section does not
sleep. -/
theorem truncateDelta_proper (positive : 0 < minfree)
    (reclaimed : minfree - (g.circSize - wl.view.used) ≤ wl.wlReclaimableBytes) :
    0 < truncateDelta wl ∨ wl.view.used < g.circSize := by
  have below := sound.reserved_lt
  have fits := sound.live.used_le
  simp only [View.used, WapblLog.view] at reclaimed fits ⊢
  unfold truncateDelta
  split
  · rename_i flushed
    simp only [flushed.1, totalBytes_nil] at reclaimed fits ⊢
    omega
  · omega

section

variable (bound : minfree ≤ g.circSize - wl.wlReservedBytes)
include bound

/-- What `wapbl_truncate` tests before it moves the tail. -/
theorem wapblTruncate_eq : wapblTruncate debug wl minfree waitonly =
      if minfree < g.circSize - wl.view.used then some .enough
      else if wl.wlErrorCount = 0 ∧
          wl.wlReclaimableBytes < minfree - (g.circSize - wl.view.used) then some .sleep
      else do
        let (head, tail) ←
          wapblAdvanceTail g.circSize g.circOff (truncateDelta wl) wl.wlHead wl.wlTail
        if debug then
          let used ← wapblSpaceUsed g.circSize head tail
          kassert (wl.wlReservedBytes ≤ used)
        if wl.wlReclaimableBytes < minfree - (g.circSize - wl.view.used) then
          return .failed
        if waitonly then
          return .waited
        return .commit head tail (truncateDelta wl) := by
  have free : wapblSpaceFree g.circSize wl.wlHead wl.wlTail =
      some (g.circSize - wl.view.used) := sound.live.spaceFree
  simp only [wapblTruncate, kassert_of_holds bound, free, bind_eq_bind, bind_some, Option.pure_def]

/-- With no error recorded the section passes every assertion. -/
theorem wapblTruncate_isSome (positive : 0 < minfree) (noError : wl.wlErrorCount = 0) :
    ∃ outcome, wapblTruncate debug wl minfree waitonly = some outcome := by
  rw [wapblTruncate_eq sound bound]
  split
  · exact ⟨_, rfl⟩
  split
  · exact ⟨_, rfl⟩
  rename_i _ awake
  have reclaimed : minfree - (g.circSize - wl.view.used) ≤ wl.wlReclaimableBytes := by
    omega
  have inUse := (truncateDelta_le wl).trans (reclaimable_le_used wl)
  rcases sound.live.advanceTail inUse (truncateDelta_proper sound positive reclaimed) with
    ⟨head, tail, moved, live, _⟩
  have keeps := reserved_le_used_sub_truncateDelta sound
  simp only [WapblLog.view] at moved keeps live
  simp only [moved, live.spaceUsed, kassert_of_holds keeps, bind_eq_bind, bind_some]
  cases debug <;> simp only [Bool.false_eq_true, if_true, if_false] <;>
    split <;> first | exact ⟨_, rfl⟩ | (split <;> exact ⟨_, rfl⟩)

/-- The outcomes that say something about the log, with what has been tested. -/
theorem wapblTruncate_cases (result : wapblTruncate debug wl minfree waitonly = some outcome) :
    minfree < g.circSize - wl.view.used ∧ outcome = .enough ∨ outcome = .sleep ∨
      outcome = .failed ∨ outcome = .waited ∧ waitonly = true ∨
      ∃ head tail, outcome = .commit head tail (truncateDelta wl) ∧
        wapblAdvanceTail g.circSize g.circOff (truncateDelta wl) wl.wlHead wl.wlTail =
          some (head, tail) ∧
        ¬minfree < g.circSize - wl.view.used ∧
        minfree - (g.circSize - wl.view.used) ≤ wl.wlReclaimableBytes := by
  rw [wapblTruncate_eq sound bound] at result
  split at result
  · cases result
    exact .inl ⟨‹_›, rfl⟩
  split at result
  · cases result
    exact .inr (.inl rfl)
  rcases bind_eq_some_iff.mp result with ⟨⟨head, tail⟩, moved, rest⟩
  have last : (if wl.wlReclaimableBytes < minfree - (g.circSize - wl.view.used) then
      some TruncateOutcome.failed
      else if waitonly then some .waited else some (.commit head tail (truncateDelta wl))) =
        some outcome := by
    cases debug with
    | false => exact rest
    | true =>
      rcases bind_eq_some_iff.mp rest with ⟨_, _, rest⟩
      rcases bind_eq_some_iff.mp rest with ⟨_, _, rest⟩
      exact rest
  refine .inr (.inr ?_)
  split_ifs at last with lacking waits <;> cases last
  · exact .inl rfl
  · exact .inr (.inl ⟨rfl, waits⟩)
  · exact .inr (.inr ⟨head, tail, rfl, moved, ‹_›, Nat.le_of_not_lt lacking⟩)

/-- A caller that wants space and gets none by a commit has it already. -/
theorem wapblTruncate_enough (returned : outcome = .enough ∨ outcome = .waited)
    (result : wapblTruncate debug wl minfree false = some outcome) :
    minfree < g.circSize - wl.view.used := by
  rcases wapblTruncate_cases sound bound result with
    ⟨enough, _⟩ | rfl | rfl | ⟨_, waits⟩ | ⟨_, _, rfl, _⟩
  · exact enough
  · simp at returned
  · simp at returned
  · cases waits
  · simp at returned

/-- A commit of `wapbl_truncate` publishes a sound view with the wanted space
free. -/
theorem wapblTruncate_commit {head tail delta : Nat} (positive : 0 < minfree)
    (queued : wl.wlReclaimableBytes ≠ 0 →
      ∀ write ∈ errored, ∃ we ∈ wl.wlEntries, we.weAddr = write.entry)
    (commits : wapblTruncate debug wl minfree waitonly = some (.commit head tail delta)) :
    delta ≤ wl.wlReclaimableBytes ∧
      View.Sound g ⟨head, tail, wl.wlReclaimableBytes - delta, wl.wlEntries⟩ writes errored
        inodeList wl.wlReservedBytes ∧
      wl.view.used - delta + minfree ≤ g.circSize := by
  rcases wapblTruncate_cases sound bound commits with
    ⟨_, is⟩ | is | is | ⟨is, _⟩ | ⟨head', tail', is, moved, short, reclaimed⟩ <;> cases is
  have atMost := truncateDelta_le wl
  have inUse := atMost.trans (reclaimable_le_used wl)
  rcases sound.live.advanceTail inUse (truncateDelta_proper sound positive reclaimed) with
    ⟨head, tail, advanced, live, tailEq⟩
  simp only [WapblLog.view, moved, Option.some.injEq, Prod.mk.injEq] at advanced
  rcases advanced with ⟨rfl, rfl⟩
  have keeps := reserved_le_used_sub_truncateDelta sound
  refine ⟨atMost, ?_, ?_⟩
  · refine sound.release atMost live (fun below => (tailEq below).2) keeps ?_
    by_cases zero : truncateDelta wl = 0
    · exact .inl zero
    · exact .inr (sound.located_of_queued (queued (by omega)))
  · have fits := sound.live.used_le
    simp only [View.used, WapblLog.view] at reclaimed fits short ⊢
    unfold truncateDelta
    split
    · rename_i flushed
      simp only [flushed.1, totalBytes_nil] at reclaimed fits short ⊢
      omega
    · omega

end

end Truncate

/-! ## The sections of `wapbl_flush` -/

/-- The head of an empty log cannot move by the whole area. -/
theorem wapblAdvanceHead_whole (g : Geometry) :
    wapblAdvanceHead g.circSize g.circOff g.circSize 0 0 = none := by
  have sizePos := g.circSize_pos
  have nonzero : g.circSize ≠ 0 := by omega
  simp [wapblAdvanceHead, LiveLog.empty.spaceFree, wapblAdvance, kassert, nonzero]

section Flush

variable {wl : WapblLog g} {writes errored : List InPlace} {inodeList : Option (Nat × Nat)}

variable (counted : wl.Counted) (some : 0 < wl.wlBufcount)
include counted some

theorem newReserved_lt : newReserved wl < wapblTransactionLen wl := by
  have below := wapblTransactionInodesLen_lt counted some
  unfold newReserved
  split <;> omega

variable (sound : wl.view.Sound g writes errored inodeList wl.wlReservedBytes)
  {entry head tail : Nat} {lazy : Bool}
include sound

/-- The transaction at the head, before the tail moves. -/
theorem sound_newEntry (live : LiveLog g head tail (wl.view.used + wapblTransactionLen wl))
    (tailKeep : 0 < wl.view.used → tail = wl.wlTail)
    (tailStart : wl.view.used = 0 → tail = g.circOff)
    (newAddr : ∀ old ∈ wl.wlEntries, old.weAddr ≠ entry)
    (newErrored : ∀ write ∈ errored, write.entry ≠ entry) :
    View.Sound g ⟨head, tail, wl.wlReclaimableBytes,
        wl.wlEntries ++ [newEntry wl entry (wapblTransactionLen wl)]⟩
      (writes ++ newWrites wl entry) errored
      (newInodeList wl (wapblTransactionLen wl) (newReserved wl)) (newReserved wl) := by
  have inodesLt := newReserved_lt counted some
  have fits := live.used_le
  refine sound.extend live tailKeep tailStart (by omega) rfl rfl
    (newWrites_length counted entry).symm newAddr newErrored
    (fun write member => (newWrites_place counted write member).1)
    (fun write member => (newWrites_place counted write member).2.2)
    (Nat.le_of_lt inodesLt) (by omega) ?_
  intro off len listed
  have inodesPos := wapblTransactionInodesLen_pos wl
  unfold newInodeList at listed
  split at listed
  · cases listed
  · rename_i registered
    rcases listed with ⟨rfl, rfl⟩
    refine ⟨rfl, ?_, rfl⟩
    simp only [newReserved, if_neg registered]
    exact inodesPos

/-- The pending view of `wapbl_flush`, unless it releases nothing of a log that
the transaction has filled. -/
theorem wapblFlushAdvance_spec {delta : Nat}
    (fits : wl.view.used + wapblTransactionLen wl ≤ g.circSize)
    (proper : lazy = false → wl.wlReclaimableBytes = 0 →
      wl.view.used + wapblTransactionLen wl < g.circSize)
    (queued : delta = 0 ∨ ∀ write ∈ errored, ∃ we ∈ wl.wlEntries, we.weAddr = write.entry)
    (newAddr : ∀ old ∈ wl.wlEntries, old.weAddr ≠ entry)
    (newErrored : ∀ write ∈ errored, write.entry ≠ entry)
    (advanced : wapblFlushAdvance wl lazy (wapblTransactionLen wl) = .some (head, tail, delta)) :
    delta ≤ wl.wlReclaimableBytes ∧ View.Sound g ⟨head, tail, wl.wlReclaimableBytes - delta,
          wl.wlEntries ++ [newEntry wl entry (wapblTransactionLen wl)]⟩
        (writes ++ newWrites wl entry) errored
        (newInodeList wl (wapblTransactionLen wl) (newReserved wl)) (newReserved wl) := by
  have inodesLt := newReserved_lt counted some
  simp only [wapblFlushAdvance, bind_eq_bind, bind_eq_some_iff, kassert_eq_some_iff] at advanced
  rcases advanced with ⟨_, _, ⟨head', tail'⟩, headMoved, rest⟩
  -- an empty log was not asked to take the whole area
  have short : wl.view.used = 0 → wapblTransactionLen wl < g.circSize := by
    intro zero
    refine Nat.lt_of_le_of_ne (by omega) fun whole => ?_
    have empty : wl.wlHead = 0 ∧ wl.wlTail = 0 := sound.live.eq_zero zero
    rw [whole, empty.1, empty.2, wapblAdvanceHead_whole] at headMoved
    cases headMoved
  rcases sound.live.advanceHead (show wapblTransactionLen wl ≤ g.circSize - wl.view.used by omega)
    short with ⟨head'', tail'', moved, live, tailKeep, tailStart⟩
  simp only [WapblLog.view, headMoved, Option.some.injEq, Prod.mk.injEq] at moved
  rcases moved with ⟨rfl, rfl⟩
  have extended := sound_newEntry counted some sound live tailKeep (tailStart (by omega)) newAddr
    newErrored
  cases lazy with
  | true =>
    rcases rest with ⟨rfl, rfl, rfl⟩
    exact ⟨Nat.zero_le _, extended⟩
  | false =>
    simp only [Bool.false_eq_true, if_false, Option.pure_def, bind_eq_some_iff,
      Option.some.injEq, Prod.mk.injEq] at rest
    rcases rest with ⟨⟨head'', tail''⟩, tailMoved, rfl, rfl, rfl⟩
    have usedEq := extended.live.spaceUsed.symm.trans live.spaceUsed
    simp only [Option.some.injEq] at usedEq
    have inUse := reclaimable_le_used wl
    have nonempty := proper rfl
    rcases live.advanceTail (show wl.wlReclaimableBytes ≤ _ by omega) (by omega) with
      ⟨head, tail, moved, released, tailEq⟩
    rw [tailMoved, Option.some.injEq] at moved
    rcases moved with ⟨rfl, rfl⟩
    refine ⟨Nat.le_refl _, extended.release (Nat.le_refl _) (usedEq ▸ released)
      (fun below => (tailEq (usedEq ▸ below)).2) (by rw [usedEq]; omega) ?_⟩
    rcases queued with zero | queued
    · exact .inl zero
    · refine .inr (extended.located_of_queued ?_)
      intro write member
      rcases queued write member with ⟨we, weMember, addrEq⟩
      exact ⟨we, by simp [weMember], addrEq⟩

omit counted some in
/-- A transaction that fits passes every assertion of `wapbl_flush`. -/
theorem wapblFlushAdvance_isSome {flushsize : Nat} (fits : wl.view.used + flushsize ≤ g.circSize)
    (short : flushsize < g.circSize) :
    ∃ result, wapblFlushAdvance wl lazy flushsize = .some result := by
  have headPlace : wl.wlHead = 0 ∨
      (g.circOff ≤ wl.wlHead ∧ wl.wlHead < g.circOff + g.circSize) := sound.live.head_inArea
  rcases sound.live.advanceHead (show flushsize ≤ g.circSize - wl.view.used by omega)
    (fun _ => short) with ⟨head, tail, moved, live, _⟩
  simp only [WapblLog.view] at moved
  cases lazy with
  | true => simp [wapblFlushAdvance, kassert_of_holds headPlace, moved]
  | false =>
    have inUse := (reclaimable_le_used wl).trans (Nat.le_add_right _ flushsize)
    by_cases proper : 0 < wl.wlReclaimableBytes ∨ wl.view.used + flushsize < g.circSize
    · rcases live.advanceTail inUse proper with ⟨head', tail', released, _⟩
      simp [wapblFlushAdvance, kassert_of_holds headPlace, moved, released]
    · have zero : wl.wlReclaimableBytes = 0 := by omega
      have released := live.advanceTail_full (by omega)
      simp [wapblFlushAdvance, kassert_of_holds headPlace, moved, zero, released]

end Flush

/-! ## The section of `wapbl_biodone` -/

/-- The loop takes the leading entries without buffers off the queue. -/
theorem wapblReclaim_spec (entries : List WapblEntry) :
    ∃ synced, entries = synced ++ (wapblReclaim entries).2.2 ∧
      (∀ we ∈ synced, we.weBufcount = 0) ∧ (wapblReclaim entries).1 = totalBytes synced ∧
      (wapblReclaim entries).2.1 = synced.countP (·.weError ≠ 0) := by
  induction entries with
  | nil => exact ⟨[], rfl, by simp, rfl, rfl⟩
  | cons we rest ih =>
    rcases ih with ⟨synced, restEq, noBufs, bytesEq, errorsEq⟩
    unfold wapblReclaim
    split
    · rename_i flushed
      refine ⟨we :: synced, congrArg (we :: ·) restEq, ?_, ?_, ?_⟩
      · exact forall_mem_cons.mpr ⟨flushed, noBufs⟩
      · simp [bytesEq]
      · rw [countP_cons]
        simp only [errorsEq, decide_eq_true_eq]
        omega
    · exact ⟨[], rfl, by simp, rfl, rfl⟩

/-- The log after the entries in front of `left` have become reclaimable. -/
def WapblLog.complete (wl : WapblLog g) (synced left : List WapblEntry) (errorCount : Nat) :
    WapblLog g :=
  { wl with
    wlReclaimableBytes := wl.wlReclaimableBytes + totalBytes synced
    wlErrorCount := errorCount
    wlEntries := left }

/-- How the completion of a buffer of an entry divides the queue. -/
structure Completed (wl : WapblLog g) (entry : Nat) (synced left : List WapblEntry)
    (errorCount : Nat) : Prop where
  entries : wl.wlEntries.map (decrementBufcount entry) = synced ++ left
  noBufs : ∀ we ∈ synced, we.weBufcount = 0
  errorCount : wl.wlErrorCount = 0 → errorCount = 0

/-- The section passes its assertions for an entry with buffers. -/
theorem wapblBiodone_spec {we : WapblEntry}
    (found : wl.wlEntries.find? (·.weAddr = entry) = some we) (positive : 0 < we.weBufcount)
    (noErrors : ∀ other ∈ wl.wlEntries, other.weError = 0) :
    ∃ synced left errorCount, wapblBiodone wl entry = some (wl.complete synced left errorCount) ∧
        Completed wl entry synced left errorCount := by
  simp only [wapblBiodone, found, kassert_of_holds positive, bind_eq_bind, bind_some]
  rcases wapblReclaim_spec (wl.wlEntries.map (decrementBufcount entry)) with
    ⟨synced, entriesEq, noBufs, bytesEq, errorsEq⟩
  have noErrcnt : synced.countP (fun other => other.weError ≠ 0) = 0 := by
    refine countP_eq_zero.mpr fun other member => ?_
    have mapped : other ∈ wl.wlEntries.map (decrementBufcount entry) := by
      rw [entriesEq]
      exact mem_append_left _ member
    rcases mem_map.mp mapped with ⟨old, oldMember, rfl⟩
    simpa using noErrors old oldMember
  rw [noErrcnt] at errorsEq
  split
  · split
    · refine ⟨synced, _, wl.wlErrorCount - 0, ?_, ⟨entriesEq, noBufs, by omega⟩⟩
      simp only [errorsEq, kassert_of_holds (Nat.zero_le wl.wlErrorCount), bind_some,
        Option.pure_def, bytesEq, WapblLog.complete]
    · rename_i none
      refine ⟨synced, _, wl.wlErrorCount, ?_, ⟨entriesEq, noBufs, fun zero => zero⟩⟩
      rw [WapblLog.complete, ← bytesEq, not_ne_iff.mp none]
      rfl
  · exact ⟨[], _, wl.wlErrorCount, rfl, ⟨rfl, by simp, fun zero => zero⟩⟩

/-- A view that a log publishes when it releases `delta` bytes and queues the
entries of `more`. -/
def WapblLog.pending (wl : WapblLog g) (head tail delta : Nat) (more : List WapblEntry) : View :=
  ⟨head, tail, wl.wlReclaimableBytes - delta, wl.wlEntries ++ more⟩

theorem WapblLog.pending_self (wl : WapblLog g) :
    wl.pending wl.wlHead wl.wlTail 0 [] = wl.view := by
  simp [WapblLog.pending, WapblLog.view]

theorem Completed.used (completed : Completed wl entry synced left errorCount)
    (bound : delta ≤ wl.wlReclaimableBytes) (head tail : Nat) (more : List WapblEntry) :
    ((wl.complete synced left errorCount).pending head tail delta more).used =
      (wl.pending head tail delta more).used := by
  have bytes := congrArg totalBytes completed.entries
  simp only [totalBytes_map_decrementBufcount, totalBytes_append] at bytes
  simp only [View.used, WapblLog.pending, WapblLog.complete, totalBytes_append]
  omega

/-- A completion keeps a pending view sound. -/
theorem Completed.sound {more : List WapblEntry} {head tail reserved index : Nat}
    {writes errored : List InPlace} {inodeList : Option (Nat × Nat)} {write : InPlace}
    (completed : Completed wl write.entry synced left errorCount)
    (bound : delta ≤ wl.wlReclaimableBytes)
    (sound : (wl.pending head tail delta more).Sound g writes errored inodeList reserved)
    (found : writes[index]? = some write) (others : ∀ we ∈ more, we.weAddr ≠ write.entry) :
    ((wl.complete synced left errorCount).pending head tail delta more).Sound g
      (writes.eraseIdx index) errored inodeList reserved := by
  have unchanged : more.map (decrementBufcount write.entry) = more := by
    conv_rhs => rw [← map_id more]
    exact map_congr_left fun we member => if_neg (others we member)
  have decremented := sound.decrement found
  have entriesEq : (wl.pending head tail delta more).entries.map (decrementBufcount write.entry) =
      synced ++ (left ++ more) := by
    simp only [WapblLog.pending, map_append, completed.entries, unchanged, append_assoc]
  have dequeued := decremented.dequeue entriesEq completed.noBufs
  have bytes : wl.wlReclaimableBytes - delta + totalBytes synced =
      wl.wlReclaimableBytes + totalBytes synced - delta := by
    omega
  simpa only [WapblLog.pending, WapblLog.complete, bytes] using dequeued

end Bitrig.Wapbl
