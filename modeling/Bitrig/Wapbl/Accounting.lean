import Bitrig.Wapbl.Journal

/-!
# What a head, a tail and a queue of entries account for

A view is a head and a tail with the bytes and entries that lie between them:
first the reclaimable bytes, then the transactions of the queued entries in
order.  The journal has one view in its in-core log and, while a commit is in
progress, a second one that the commit will publish.

A view is sound for the outstanding writes if its bytes are exactly those in
use and the record of every outstanding write lies in the transaction of its
entry.  The lemmas below say how each operation on the log changes a sound
view; the steps of the journal are composed of these.
-/

namespace Bitrig.Wapbl

open List

/-- Bytes of a list of transactions. -/
def totalBytes (entries : List WapblEntry) : Nat :=
  (entries.map (·.weReclaimableBytes)).sum

@[simp]
theorem totalBytes_nil : totalBytes [] = 0 :=
  rfl

@[simp]
theorem totalBytes_cons (we : WapblEntry) (entries : List WapblEntry) :
    totalBytes (we :: entries) = we.weReclaimableBytes + totalBytes entries := by
  simp [totalBytes]

@[simp]
theorem totalBytes_append (first second : List WapblEntry) :
    totalBytes (first ++ second) = totalBytes first + totalBytes second := by
  simp [totalBytes]

@[simp]
theorem decrementBufcount_weAddr (entry : Nat) (we : WapblEntry) :
    (decrementBufcount entry we).weAddr = we.weAddr := by
  unfold decrementBufcount
  split <;> rfl

@[simp]
theorem decrementBufcount_weReclaimableBytes (entry : Nat) (we : WapblEntry) :
    (decrementBufcount entry we).weReclaimableBytes = we.weReclaimableBytes := by
  unfold decrementBufcount
  split <;> rfl

@[simp]
theorem decrementBufcount_weError (entry : Nat) (we : WapblEntry) :
    (decrementBufcount entry we).weError = we.weError := by
  unfold decrementBufcount
  split <;> rfl

@[simp]
theorem totalBytes_map_decrementBufcount (entry : Nat) (entries : List WapblEntry) :
    totalBytes (entries.map (decrementBufcount entry)) = totalBytes entries := by
  simp [totalBytes, Function.comp_def]

/-- The contents of the live part of the log. -/
structure View where
  head : Nat
  tail : Nat
  reclaimable : Nat
  entries : List WapblEntry

/-- Bytes of a view. -/
def View.used (view : View) : Nat :=
  view.reclaimable + totalBytes view.entries

/-- The record of a write lies in the transaction of its entry. -/
def View.Located (g : Geometry) (view : View) (write : InPlace) : Prop :=
  ∃ before we after disp,
    view.entries = before ++ we :: after ∧ we.weAddr = write.entry ∧ 0 < write.len ∧
      disp + write.len ≤ we.weReclaimableBytes ∧
      write.off = g.circAdd view.tail (view.reclaimable + totalBytes before + disp)

/-- The record of a write lies in the reclaimable bytes, its entry is gone. -/
def View.Reclaimed (g : Geometry) (view : View) (write : InPlace) : Prop :=
  (∀ we ∈ view.entries, we.weAddr ≠ write.entry) ∧
    ∃ disp, 0 < write.len ∧ disp + write.len ≤ view.reclaimable ∧
      write.off = g.circAdd view.tail disp

/-- A byte range of the area lies between the tail and the head. -/
def InLive (g : Geometry) (head tail off len : Nat) : Prop :=
  tail ≠ 0 ∧ g.InArea off ∧
    ∃ used, wapblSpaceUsed g.circSize head tail = some used ∧
      g.circDist tail off + len ≤ used

instance (g : Geometry) (head tail off len : Nat) : Decidable (InLive g head tail off len) :=
  decidable_of_iff
    (tail ≠ 0 ∧ g.InArea off ∧
      (wapblSpaceUsed g.circSize head tail).any (g.circDist tail off + len ≤ ·))
    (by simp [InLive, Option.any_eq_true])

/-- A view accounts for the bytes in use, for the outstanding and the failed
writes, and for the inode list at its end. -/
structure View.Sound (g : Geometry) (view : View) (writes errored : List InPlace)
    (inodeList : Option (Nat × Nat)) (reserved : Nat) : Prop where
  live : LiveLog g view.head view.tail view.used
  located : ∀ write ∈ writes, view.Located g write
  kept : ∀ write ∈ errored, view.Located g write ∨ view.Reclaimed g write
  bufcount : ∀ we ∈ view.entries,
    we.weBufcount = writes.countP fun write => write.entry = we.weAddr
  nodup : (view.entries.map (·.weAddr)).Nodup
  bytes_pos : ∀ we ∈ view.entries, 0 < we.weReclaimableBytes
  error_zero : ∀ we ∈ view.entries, we.weError = 0
  reserved_le : reserved ≤ view.used
  reserved_lt : reserved < g.circSize
  reserved_last : ∀ we, view.entries.getLast? = some we → reserved ≤ we.weReclaimableBytes
  inodes : ∀ off len, inodeList = some (off, len) →
    len = reserved ∧ 0 < len ∧ off = g.circAdd view.tail (view.used - len)

namespace View

variable {g : Geometry} {view : View} {writes errored : List InPlace}
  {inodeList : Option (Nat × Nat)} {reserved : Nat} {write : InPlace} {delta tail' head' : Nat}

theorem Located.fits (located : view.Located g write) :
    ∃ disp, 0 < write.len ∧ view.reclaimable ≤ disp ∧ disp + write.len ≤ view.used ∧
      write.off = g.circAdd view.tail disp := by
  rcases located with ⟨before, we, after, disp, entriesEq, _, lenPos, bound, offEq⟩
  refine ⟨view.reclaimable + totalBytes before + disp, lenPos, by omega, ?_, offEq⟩
  simp only [View.used, entriesEq, totalBytes_append, totalBytes_cons]
  omega

theorem Reclaimed.fits (reclaimed : view.Reclaimed g write) :
    ∃ disp, 0 < write.len ∧ disp + write.len ≤ view.reclaimable ∧
      write.off = g.circAdd view.tail disp :=
  reclaimed.2

/-- The tail of a log in use lies in the area. -/
theorem tail_inArea (live : LiveLog g view.head view.tail view.used)
    (positive : 0 < view.used) : g.InArea view.tail := by
  rcases view with ⟨head, tail, reclaimable, entries⟩
  simp only at live positive ⊢
  generalize View.used _ = used at live positive
  cases live with
  | empty => omega
  | run area _ _ => exact area

/-- A record at a displacement within the bytes in use is live. -/
theorem inLive_of_fits (live : LiveLog g view.head view.tail view.used) {off len disp : Nat}
    (lenPos : 0 < len) (bound : disp + len ≤ view.used)
    (offEq : off = g.circAdd view.tail disp) : InLive g view.head view.tail off len := by
  have area := tail_inArea live (by omega)
  have fits := live.used_le
  subst off
  refine ⟨ne_of_gt area.pos, area.circAdd (by omega), view.used, live.spaceUsed, ?_⟩
  rw [Geometry.circDist_circAdd area (by omega)]
  exact bound

section

variable (sound : view.Sound g writes errored inodeList reserved)
include sound

theorem Sound.writes_inLive :
    ∀ write ∈ writes, InLive g view.head view.tail write.off write.len := by
  intro write member
  rcases (sound.located write member).fits with ⟨disp, lenPos, _, bound, offEq⟩
  exact inLive_of_fits sound.live lenPos bound offEq

theorem Sound.errored_inLive :
    ∀ write ∈ errored, InLive g view.head view.tail write.off write.len := by
  intro write member
  rcases sound.kept write member with located | reclaimed
  · rcases located.fits with ⟨disp, lenPos, _, bound, offEq⟩
    exact inLive_of_fits sound.live lenPos bound offEq
  · rcases reclaimed.fits with ⟨disp, lenPos, bound, offEq⟩
    exact inLive_of_fits sound.live lenPos (by unfold View.used; omega) offEq

theorem Sound.inodes_inLive :
    ∀ off len, inodeList = some (off, len) → InLive g view.head view.tail off len := by
  intro off len listed
  rcases sound.inodes off len listed with ⟨lenEq, lenPos, offEq⟩
  have bound := sound.reserved_le
  exact inLive_of_fits sound.live lenPos (by omega) offEq

/-- A failed write whose entry is still queued has its record there. -/
theorem Sound.located_of_queued
    (queued : ∀ write ∈ errored, ∃ we ∈ view.entries, we.weAddr = write.entry) :
    ∀ write ∈ errored, view.Located g write := by
  intro write member
  rcases sound.kept write member with located | ⟨gone, _⟩
  · exact located
  · rcases queued write member with ⟨we, weMember, addrEq⟩
    exact absurd addrEq (gone we weMember)

end

/-! ## Releasing bytes at the tail -/

theorem Located.release (live : LiveLog g view.head view.tail view.used)
    (located : view.Located g write) (bound : delta ≤ view.reclaimable)
    (tailEq : delta < view.used → tail' = g.circAdd view.tail delta) :
    View.Located g ⟨head', tail', view.reclaimable - delta, view.entries⟩ write := by
  rcases located with ⟨before, we, after, disp, entriesEq, addrEq, lenPos, fits, offEq⟩
  have usedEq : view.used = view.reclaimable + (totalBytes before +
      (we.weReclaimableBytes + totalBytes after)) := by
    simp [View.used, entriesEq]
  have usedLe := live.used_le
  have area := tail_inArea live (by omega)
  refine ⟨before, we, after, disp, entriesEq, addrEq, lenPos, fits, ?_⟩
  simp only
  rw [tailEq (by omega), Geometry.circAdd_circAdd area (by omega), offEq]
  congr 1
  omega

/-- Releasing `delta` of the reclaimable bytes keeps a view sound, if the inode
list at the end stays and no failed write is among the released bytes. -/
theorem Sound.release (sound : view.Sound g writes errored inodeList reserved)
    (bound : delta ≤ view.reclaimable) (live : LiveLog g head' tail' (view.used - delta))
    (tailEq : delta < view.used → tail' = g.circAdd view.tail delta)
    (keeps : reserved ≤ view.used - delta)
    (queued : delta = 0 ∨ ∀ write ∈ errored, view.Located g write) :
    View.Sound g ⟨head', tail', view.reclaimable - delta, view.entries⟩
      writes errored inodeList reserved := by
  have usedLe := sound.live.used_le
  have usedEq : View.used ⟨head', tail', view.reclaimable - delta, view.entries⟩ =
      view.used - delta := by
    simp only [View.used]
    omega
  refine
    { sound with
      live := usedEq ▸ live
      located := fun write member => (sound.located write member).release sound.live bound tailEq
      kept := ?_
      reserved_le := usedEq ▸ keeps
      inodes := ?_ }
  · intro write member
    rcases queued with zero | queued
    · rcases sound.kept write member with located | ⟨gone, disp, lenPos, fits, offEq⟩
      · exact .inl (located.release sound.live bound tailEq)
      · have positive : 0 < view.used := by
          unfold View.used
          omega
        have area := tail_inArea sound.live positive
        refine .inr ⟨gone, disp, lenPos, by simp only; omega, ?_⟩
        rw [offEq, tailEq (by omega), zero, Geometry.circAdd_zero area]
    · exact .inl ((queued write member).release sound.live bound tailEq)
  · intro off len listed
    rcases sound.inodes off len listed with ⟨lenEq, lenPos, offEq⟩
    have area := tail_inArea sound.live (by omega)
    refine ⟨lenEq, lenPos, ?_⟩
    rw [usedEq, offEq]
    rw [tailEq (by omega), Geometry.circAdd_circAdd area (by omega)]
    congr 1
    omega

/-! ## Adding a transaction at the head -/

/-- The next transaction starts where the bytes of the view end. -/
theorem startOff_eq (live : LiveLog g view.head view.tail view.used)
    (tailKeep : 0 < view.used → tail' = view.tail) (tailStart : view.used = 0 → tail' = g.circOff) :
    startOff g view.head = g.circAdd tail' view.used := by
  rcases view with ⟨head, tail, reclaimable, entries⟩
  simp only at live tailKeep tailStart ⊢
  generalize View.used _ = used at live tailKeep tailStart ⊢
  cases live with
  | empty => rw [tailStart rfl, Geometry.circAdd_zero g.inArea_circOff]; rfl
  | run area positive fits =>
    have nonzero := ne_of_gt (area.circAdd fits).pos
    rw [tailKeep positive, startOff, if_neg nonzero]

theorem Located.append (located : view.Located g write) (more : List WapblEntry) :
    View.Located g ⟨head', view.tail, view.reclaimable, view.entries ++ more⟩ write := by
  rcases located with ⟨before, we, after, disp, entriesEq, rest⟩
  exact ⟨before, we, after ++ more, disp, by simp [entriesEq], rest⟩

/-- A new transaction of `flushsize` bytes at the head. -/
theorem Sound.extend (sound : view.Sound g writes errored inodeList reserved)
    {flushsize reserved' : Nat} {we : WapblEntry} {fresh : List InPlace}
    {inodeList' : Option (Nat × Nat)} (live : LiveLog g head' tail' (view.used + flushsize))
    (tailKeep : 0 < view.used → tail' = view.tail) (tailStart : view.used = 0 → tail' = g.circOff)
    (sizePos : 0 < flushsize) (bytesEq : we.weReclaimableBytes = flushsize)
    (errorZero : we.weError = 0) (countEq : we.weBufcount = fresh.length)
    (newAddr : ∀ old ∈ view.entries, old.weAddr ≠ we.weAddr)
    (newErrored : ∀ write ∈ errored, write.entry ≠ we.weAddr)
    (freshEntry : ∀ write ∈ fresh, write.entry = we.weAddr)
    (freshPlace : ∀ write ∈ fresh, ∃ disp, 0 < write.len ∧ disp + write.len ≤ flushsize ∧
      write.off = g.circAdd (startOff g view.head) disp) (reservedLe : reserved' ≤ flushsize)
    (reservedLt : reserved' < g.circSize)
    (inodesPlace : ∀ off len, inodeList' = some (off, len) → len = reserved' ∧ 0 < len ∧
        off = g.circAdd (startOff g view.head) (flushsize - len)) :
    View.Sound g ⟨head', tail', view.reclaimable, view.entries ++ [we]⟩
      (writes ++ fresh) errored inodeList' reserved' := by
  have usedEq : View.used ⟨head', tail', view.reclaimable, view.entries ++ [we]⟩ =
      view.used + flushsize := by
    simp only [View.used, totalBytes_append, totalBytes_cons, totalBytes_nil, bytesEq]
    omega
  have area : g.InArea tail' := by
    have positive : 0 < View.used ⟨head', tail', view.reclaimable, view.entries ++ [we]⟩ := by
      omega
    exact tail_inArea (usedEq ▸ live) positive
  have usedLe := live.used_le
  have start := startOff_eq sound.live tailKeep tailStart
  -- old records keep their place: the tail moves only if there are none
  have keepLocated : ∀ write, view.Located g write →
      View.Located g ⟨head', tail', view.reclaimable, view.entries ++ [we]⟩ write := by
    intro write located
    rcases located.fits with ⟨_, lenPos, _, bound, _⟩
    rw [tailKeep (by omega)]
    exact located.append [we]
  have oldEntry : ∀ write ∈ writes, write.entry ≠ we.weAddr := by
    intro write member
    rcases sound.located write member with ⟨before, old, after, _, entriesEq, addrEq, _⟩
    exact addrEq ▸ newAddr old (by simp [entriesEq])
  constructor
  case live => exact usedEq ▸ live
  case located =>
    intro write member
    rcases mem_append.mp member with old | new
    · exact keepLocated write (sound.located write old)
    · rcases freshPlace write new with ⟨disp, lenPos, bound, offEq⟩
      refine ⟨view.entries, we, [], disp, rfl, (freshEntry write new).symm, lenPos,
        bytesEq ▸ bound, ?_⟩
      rw [offEq, start, Geometry.circAdd_circAdd area (by omega)]
      rfl
  case kept =>
    intro write member
    rcases sound.kept write member with located | ⟨gone, disp, lenPos, bound, offEq⟩
    · exact .inl (keepLocated write located)
    · refine .inr ⟨?_, disp, lenPos, bound, ?_⟩
      · exact forall_mem_append.mpr ⟨gone, forall_mem_singleton.mpr (newErrored write member).symm⟩
      · have positive : 0 < view.used := by
          unfold View.used
          omega
        rw [offEq, tailKeep positive]
  case bufcount =>
    intro other member
    rw [countP_append]
    rcases mem_append.mp member with old | new
    · have noneFresh : fresh.countP (fun write => write.entry = other.weAddr) = 0 := by
        refine countP_eq_zero.mpr fun write freshMember => ?_
        simpa [freshEntry write freshMember] using (newAddr other old).symm
      rw [noneFresh, sound.bufcount other old]
      rfl
    · rw [mem_singleton.mp new, countEq]
      have noneOld : writes.countP (fun write => write.entry = we.weAddr) = 0 := by
        refine countP_eq_zero.mpr fun write oldMember => ?_
        simpa using oldEntry write oldMember
      have allFresh : fresh.countP (fun write => write.entry = we.weAddr) = fresh.length := by
        refine countP_eq_length.mpr fun write freshMember => ?_
        simpa using freshEntry write freshMember
      rw [noneOld, allFresh, zero_add]
  case nodup =>
    rw [map_append, nodup_append]
    refine ⟨sound.nodup, by simp, ?_⟩
    intro addr oldMember addr' newMember
    rcases mem_map.mp oldMember with ⟨old, member, rfl⟩
    simp only [map_cons, map_nil, mem_singleton] at newMember
    exact newMember ▸ newAddr old member
  case bytes_pos =>
    rw [← bytesEq] at sizePos
    exact forall_mem_append.mpr ⟨sound.bytes_pos, forall_mem_singleton.mpr sizePos⟩
  case error_zero =>
    exact forall_mem_append.mpr ⟨sound.error_zero, forall_mem_singleton.mpr errorZero⟩
  case reserved_le => omega
  case reserved_lt => exact reservedLt
  case reserved_last =>
    intro last lastEq
    simp only [getLast?_append, getLast?_singleton, Option.some_or, Option.some.injEq] at lastEq
    rw [← lastEq, bytesEq]
    exact reservedLe
  case inodes =>
    intro off len listed
    rcases inodesPlace off len listed with ⟨lenEq, lenPos, offEq⟩
    refine ⟨lenEq, lenPos, ?_⟩
    rw [offEq, start]
    rw [Geometry.circAdd_circAdd area (by omega)]
    congr 1
    omega

/-! ## Completions -/

theorem Located.decrement (located : view.Located g write) (entry : Nat) :
    View.Located g { view with entries := view.entries.map (decrementBufcount entry) } write := by
  rcases located with ⟨before, we, after, disp, entriesEq, addrEq, lenPos, bound, offEq⟩
  refine ⟨before.map (decrementBufcount entry), decrementBufcount entry we,
    after.map (decrementBufcount entry), disp, by simp [entriesEq], by simpa using addrEq,
    lenPos, by simpa using bound, by simpa using offEq⟩

section

variable (sound : view.Sound g writes errored inodeList reserved)
include sound

/-- One outstanding write of an entry completes. -/
theorem Sound.decrement {index : Nat} (found : writes[index]? = some write) :
    View.Sound g { view with entries := view.entries.map (decrementBufcount write.entry) }
      (writes.eraseIdx index) errored inodeList reserved := by
  have usedEq : View.used { view with
      entries := view.entries.map (decrementBufcount write.entry) } = view.used := by
    simp [View.used]
  rcases List.getElem?_eq_some_iff.mp found with ⟨inBounds, atIndex⟩
  have perm : (write :: writes.eraseIdx index).Perm writes :=
    atIndex ▸ getElem_cons_eraseIdx_perm inBounds
  constructor
  case live => exact usedEq ▸ sound.live
  case located =>
    intro other member
    exact (sound.located other (mem_of_mem_eraseIdx member)).decrement write.entry
  case kept =>
    intro other member
    rcases sound.kept other member with located | ⟨gone, place⟩
    · exact .inl (located.decrement write.entry)
    · refine .inr ⟨?_, place⟩
      intro we weMember
      rcases mem_map.mp weMember with ⟨old, oldMember, rfl⟩
      simpa using gone old oldMember
  case bufcount =>
    intro we member
    rcases mem_map.mp member with ⟨old, oldMember, rfl⟩
    have counted := sound.bufcount old oldMember
    rw [← perm.countP_eq, countP_cons] at counted
    unfold decrementBufcount
    by_cases same : old.weAddr = write.entry
    · simp only [same, decide_true, if_true] at counted ⊢
      omega
    · rw [if_neg same, counted, if_neg (by simpa using Ne.symm same), add_zero]
  case nodup => simpa [Function.comp_def] using sound.nodup
  case bytes_pos => simpa using sound.bytes_pos
  case error_zero => simpa using sound.error_zero
  case reserved_le => exact usedEq ▸ sound.reserved_le
  case reserved_lt => exact sound.reserved_lt
  case reserved_last =>
    intro we lastEq
    simp only [getLast?_map, Option.map_eq_some_iff] at lastEq
    rcases lastEq with ⟨old, oldLast, rfl⟩
    simpa using sound.reserved_last old oldLast
  case inodes =>
    intro off len listed
    simpa [usedEq] using sound.inodes off len listed

/-- Entries without buffers at the front of the queue become reclaimable. -/
theorem Sound.dequeue {synced rest : List WapblEntry} (entriesEq : view.entries = synced ++ rest)
    (noBufs : ∀ we ∈ synced, we.weBufcount = 0) :
    View.Sound g ⟨view.head, view.tail, view.reclaimable + totalBytes synced, rest⟩
      writes errored inodeList reserved := by
  have usedEq : View.used ⟨view.head, view.tail, view.reclaimable + totalBytes synced, rest⟩ =
      view.used := by
    simp only [View.used, entriesEq, totalBytes_append]
    omega
  have queued : ∀ we ∈ rest, we ∈ view.entries := by
    rw [entriesEq]
    exact fun we member => mem_append_right _ member
  -- a located record is in a synced transaction or keeps its place in the rest
  have splits : ∀ write, view.Located g write →
      (∃ we ∈ synced, we.weAddr = write.entry) ∧
          View.Reclaimed g ⟨view.head, view.tail, view.reclaimable + totalBytes synced, rest⟩
            write ∨
        View.Located g ⟨view.head, view.tail, view.reclaimable + totalBytes synced, rest⟩
          write := by
    rintro write ⟨before, we, after, disp, splitEq, addrEq, lenPos, bound, offEq⟩
    rw [entriesEq] at splitEq
    rcases append_eq_append_iff.mp splitEq with
      ⟨middle, beforeEq, restEq⟩ | ⟨middle, syncedEq, afterEq⟩
    · refine .inr ⟨middle, we, after, disp, restEq, addrEq, lenPos, bound, ?_⟩
      rw [offEq, beforeEq, totalBytes_append]
      congr 1
      simp only
      omega
    · cases middle with
      | nil =>
        simp only [append_nil, nil_append] at syncedEq afterEq
        refine .inr ⟨[], we, after, disp, afterEq.symm, addrEq, lenPos, bound, ?_⟩
        rw [offEq, syncedEq]
        simp only [totalBytes_nil, add_zero]
      | cons first middle =>
        simp only [cons_append, List.cons.injEq] at afterEq
        rcases afterEq with ⟨rfl, afterEq⟩
        refine .inl ⟨⟨we, by simp [syncedEq], addrEq⟩, ?_,
          view.reclaimable + totalBytes before + disp, lenPos, ?_, offEq⟩
        · intro other otherMember
          have distinct := sound.nodup
          rw [entriesEq, map_append, nodup_append] at distinct
          have apart := distinct.2.2 we.weAddr
            (mem_map_of_mem (by simp [syncedEq])) other.weAddr
            (mem_map_of_mem otherMember)
          exact fun equal => apart (addrEq.trans equal.symm)
        · simp only [syncedEq, totalBytes_append, totalBytes_cons]
          omega
  constructor
  case live => exact usedEq ▸ sound.live
  case located =>
    intro write member
    rcases splits write (sound.located write member) with ⟨⟨we, weMember, addrEq⟩, _⟩ | located
    · have counted := sound.bufcount we (by simp [entriesEq, weMember])
      rw [noBufs we weMember] at counted
      have absent := countP_eq_zero.mp counted.symm write member
      simp [addrEq] at absent
    · exact located
  case kept =>
    intro write member
    rcases sound.kept write member with located | ⟨gone, disp, lenPos, bound, offEq⟩
    · rcases splits write located with ⟨_, reclaimed⟩ | located
      · exact .inr reclaimed
      · exact .inl located
    · exact .inr ⟨fun we weMember => gone we (queued we weMember), disp, lenPos,
        by simp only; omega, offEq⟩
  case bufcount => exact fun we member => sound.bufcount we (queued we member)
  case nodup =>
    have distinct := sound.nodup
    rw [entriesEq, map_append, nodup_append] at distinct
    exact distinct.2.1
  case bytes_pos => exact fun we member => sound.bytes_pos we (queued we member)
  case error_zero => exact fun we member => sound.error_zero we (queued we member)
  case reserved_le => exact usedEq ▸ sound.reserved_le
  case reserved_lt => exact sound.reserved_lt
  case reserved_last =>
    intro we lastEq
    refine sound.reserved_last we ?_
    rw [entriesEq, getLast?_append, lastEq]
    rfl
  case inodes =>
    intro off len listed
    simpa [usedEq] using sound.inodes off len listed

/-- An error is seen for an outstanding write. -/
theorem Sound.error (member : write ∈ writes) :
    view.Sound g writes (errored ++ [write]) inodeList reserved := by
  have located := sound.located write member
  exact { sound with
    kept := forall_mem_append.mpr ⟨sound.kept, forall_mem_singleton.mpr (.inl located)⟩ }

/-- Starting writes changes nothing that a view accounts for. -/
theorem Sound.start (mark : InPlace → InPlace) (entryEq : ∀ write, (mark write).entry = write.entry)
    (offEq : ∀ write, (mark write).off = write.off)
    (lenEq : ∀ write, (mark write).len = write.len) :
    view.Sound g (writes.map mark) errored inodeList reserved := by
  refine { sound with located := ?_, bufcount := ?_ }
  · intro write member
    rcases mem_map.mp member with ⟨old, oldMember, rfl⟩
    simpa only [View.Located, entryEq, offEq, lenEq] using sound.located old oldMember
  · intro we member
    rw [sound.bufcount we member]
    simp [Function.comp_def, entryEq]

end

end View

end Bitrig.Wapbl
