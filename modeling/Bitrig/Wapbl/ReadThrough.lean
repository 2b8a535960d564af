import Bitrig.Wapbl.RoundTrip

/-!
# Reading through the log

While a log is not replayed, a read of the file system takes the blocks that are
in the hash table from the log.  The table has one entry for each block of the
file system, with the address in blocks of the device.  The two functions that
look blocks up do not step through a range like this.  `wapbl_replay_can_read` is
right exactly when the first block is logged if any is, and `wapbl_replay_read`
for every table exactly for one block and for blocks of the size of the device.
-/

namespace Bitrig.Wapbl

open Bitrig.Bytes
open Bitrig.Transition

namespace WapblReplay

/-- The size of a block of the file system. -/
def fsblklen (wr : WapblReplay) : Nat :=
  2 ^ wr.wrFsDevBshift

/-- A block of the file system is in the hash table. -/
def Logged (wr : WapblReplay) (blk : UInt64) : Prop :=
  (wapblBlkhashGet wr blk).isSome

instance (wr : WapblReplay) (blk : UInt64) : Decidable (wr.Logged blk) :=
  inferInstanceAs (Decidable (_ = true))

end WapblReplay

/-! ## The functions of the source -/

/-- The loop of `wapbl_replay_can_read`, which does not move the block. -/
def canReadLoop (wr : WapblReplay) (blk : UInt64) : Nat → Bool
  | 0 => false
  | n + 1 => if wr.Logged blk then true else canReadLoop wr blk n

/-- `wapbl_replay_can_read`. -/
def wapblReplayCanRead (wr : WapblReplay) (blk : UInt64) (len : Nat) : Except Fault Bool := do
  check (len % wr.fsblklen = 0)
  pure (canReadLoop wr blk (len / wr.fsblklen))

/-- The loop of `wapbl_replay_read`, with `pos` bytes of the buffer behind it. -/
def replayReadLoop (g : Geometry) (dev : Device) (wr : WapblReplay) :
    Nat → Memory → Nat → UInt64 → Except Fault Memory
  | 0, data, _, _ => pure data
  | n + 1, data, pos, blk =>
    match wapblBlkhashGet wr blk with
    | none => replayReadLoop g dev wr n data (pos + wr.fsblklen) (blk + 1)
    | some off => do
        let (block, _) ← wapblCircRead g dev wr.fsblklen off
        let data p := if pos ≤ p ∧ p < pos + wr.fsblklen then block (p - pos) else data p
        replayReadLoop g dev wr n data (pos + wr.fsblklen) (blk + 1)

/-- `wapbl_replay_read`. -/
def wapblReplayRead (g : Geometry) (dev : Device) (wr : WapblReplay) (data : Memory)
    (blk : UInt64) (len : Nat) : Except Fault Memory := do
  check (len % wr.fsblklen = 0)
  replayReadLoop g dev wr (len / wr.fsblklen) data 0 blk

/-! ## The blocks that a replay enters -/

variable {g : Geometry} {dev : Device} {wr wr' : WapblReplay}
  {fsblklen j n off off' i head fuel : Nat} {daddr : UInt64} {wc : Memory}

/-- Blocks are only entered into the table when the log has whole blocks of the
file system. -/
structure Enters (g : Geometry) (wr wr' : WapblReplay) : Prop where
  same : wr'.wrFsDevBshift = wr.wrFsDevBshift
  whole : g.blocklen ∣ wr.fsblklen ∨ ∀ blk, wr'.Logged blk → wr.Logged blk

namespace Enters

theorem refl (wr : WapblReplay) : Enters g wr wr :=
  ⟨rfl, .inr fun _ => id⟩

theorem trans {wr'' : WapblReplay} (first : Enters g wr wr') (second : Enters g wr' wr'') :
    Enters g wr wr'' := by
  refine ⟨second.same.trans first.same, ?_⟩
  rcases first.whole with whole | only
  · exact .inl whole
  · rcases second.whole with whole | only'
    · rw [WapblReplay.fsblklen, first.same] at whole
      exact .inl whole
    · exact .inr fun blk logged => only blk (only' blk logged)

theorem rem (wr : WapblReplay) (blk : UInt64) : Enters g wr (wapblBlkhashRem wr blk) := by
  refine ⟨rfl, .inr fun other logged => ?_⟩
  rw [WapblReplay.Logged, wapblBlkhashGet, wapblBlkhashRem, ChainTable.get_remove] at logged
  split at logged
  · cases logged
  · exact logged

/-- The other fields do not matter. -/
theorem of_hash (hash : ∀ blk, wapblBlkhashGet wr' blk = wapblBlkhashGet wr blk)
    (same : wr'.wrFsDevBshift = wr.wrFsDevBshift) : Enters g wr wr' :=
  ⟨same, .inr fun blk logged => by rwa [WapblReplay.Logged, ← hash]⟩

end Enters

theorem bind_eq_ok {α β : Type} {x : Except Fault α} {f : α → Except Fault β} {b : β}
    (run : x >>= f = .ok b) : ∃ a, x = .ok a ∧ f a = .ok b := by
  cases x with
  | error fault => cases run
  | ok a => exact ⟨a, rfl, run⟩

/-- The first entry of an extent is followed by an assertion. -/
theorem processExtent_enters (run : processExtent g fsblklen daddr j n wr off = .ok (wr', off')) :
    wr'.wrFsDevBshift = wr.wrFsDevBshift ∧ (g.blocklen ∣ fsblklen ∨ wr' = wr) := by
  induction n generalizing j wr off with
  | zero =>
    cases run
    exact ⟨rfl, .inr rfl⟩
  | succ n ih =>
    rw [processExtent, wapblCircAdvance, check] at run
    by_cases whole : g.blocklen ∣ fsblklen
    · rw [if_pos whole] at run
      exact ⟨(ih run).1, .inl whole⟩
    · rw [if_neg whole] at run
      cases run

theorem processBlocks_enters (run : processBlocks g fsblklen wc i n wr off = .ok (wr', off')) :
    wr'.wrFsDevBshift = wr.wrFsDevBshift ∧ (g.blocklen ∣ fsblklen ∨ wr' = wr) := by
  induction n generalizing i wr off with
  | zero =>
    cases run
    exact ⟨rfl, .inr rfl⟩
  | succ n ih =>
    obtain ⟨⟨wr₁, off₁⟩, extent, rest⟩ := bind_eq_ok run
    obtain ⟨same, whole⟩ := processExtent_enters extent
    obtain ⟨same', whole'⟩ := ih rest
    refine ⟨same'.trans same, ?_⟩
    rcases whole with whole | rfl
    · exact .inl whole
    · exact whole'

theorem revokeExtent_enters (wr : WapblReplay) :
    Enters g wr (revokeExtent fsblklen daddr j n wr) := by
  induction n generalizing j wr with
  | zero => exact .refl wr
  | succ n ih => exact (Enters.rem wr _).trans (ih _)

theorem processRevocations_enters (wr : WapblReplay) :
    Enters g wr (processRevocations fsblklen wc i n wr) := by
  induction n generalizing i wr with
  | zero => exact .refl wr
  | succ n ih => exact (revokeExtent_enters wr).trans (ih _)

theorem processRecord_enters {saveoff : Nat}
    (run : processRecord g wr saveoff off = .ok (wr', off')) : Enters g wr wr' := by
  unfold processRecord at run
  split at run
  · obtain ⟨same, whole⟩ := processBlocks_enters run
    refine ⟨same, whole.imp_right ?_⟩
    rintro rfl blk
    exact id
  · split at run
    · cases run
      exact processRevocations_enters wr
    · split at run
      · obtain ⟨wr₁, inodes, rest⟩ := bind_eq_ok run
        cases rest
        dsimp only [wapblReplayProcessInodes] at inodes
        split at inodes
        · cases inodes
          exact .of_hash (fun _ => rfl) rfl
        · obtain ⟨-, -, rest⟩ := bind_eq_ok inodes
          cases rest
          exact .of_hash (fun _ => rfl) rfl
      · cases run

theorem replayRecord_enters (run : replayRecord g dev wr off = .ok (wr', off')) :
    Enters g wr wr' := by
  obtain ⟨⟨block, off₁⟩, -, run⟩ := bind_eq_ok run
  obtain ⟨⟨wr₁, off₂⟩, record, run⟩ := bind_eq_ok run
  obtain ⟨saveoff, -, run⟩ := bind_eq_ok run
  have header : Enters g wr (readHeader g wr block) := .of_hash (fun _ => rfl) rfl
  refine header.trans ((processRecord_enters record).trans ?_)
  split at run
  · cases run
  · cases run
    exact .of_hash (fun _ => rfl) rfl

theorem replayLoop_enters (done : replayLoop g dev head fuel wr off = .done wr') :
    Enters g wr wr' := by
  induction fuel generalizing wr off with
  | zero =>
    rw [replayLoop] at done
    split at done
    · cases done
      exact .refl _
    · cases done
  | succ fuel ih =>
    rw [replayLoop] at done
    split at done
    · cases done
      exact .refl _
    · split at done
      next record => exact (replayRecord_enters record).trans (ih done)
      next => cases done
      next => cases done

/-- Only a log of whole blocks of the file system fills the hash table. -/
theorem dvd_of_logged {tail : Nat} (done : wapblReplayProcess g dev fuel wr head tail = .done wr')
    {blk : UInt64} (logged : wr'.Logged blk) : g.blocklen ∣ wr'.fsblklen := by
  have enters := replayLoop_enters done
  rw [WapblReplay.fsblklen, enters.same]
  exact enters.whole.resolve_right fun only => nomatch only blk logged

/-! ## What they return -/

theorem canReadLoop_eq (blk : UInt64) (n : Nat) :
    canReadLoop wr blk n = decide (0 < n ∧ wr.Logged blk) := by
  induction n with
  | zero => simp [canReadLoop]
  | succ n ih =>
    rw [canReadLoop, ih]
    by_cases logged : wr.Logged blk <;> simp [logged]

/-- The blocks at `addr 0`, `addr 1`, … are read over `n` blocks of a buffer from
`pos` on: the logged ones from the log, and nothing else is changed. -/
structure ReadOver (g : Geometry) (dev : Device) (wr : WapblReplay) (addr : Nat → UInt64)
    (pos n : Nat) (data data' : Memory) : Prop where
  logged : ∀ j < n, ∀ off, wapblBlkhashGet wr (addr j) = some off →
    ∃ block next, wapblCircRead g dev wr.fsblklen off = .ok (block, next) ∧
      ∀ i < wr.fsblklen, data' (pos + j * wr.fsblklen + i) = block i
  other : ∀ p, (∀ j < n, wr.Logged (addr j) →
    p < pos + j * wr.fsblklen ∨ pos + (j + 1) * wr.fsblklen ≤ p) → data' p = data p

theorem ReadOver.cons {addr : Nat → UInt64} {pos : Nat} {data data₁ data' : Memory}
    (logged : ∀ off, wapblBlkhashGet wr (addr 0) = some off →
      ∃ block next, wapblCircRead g dev wr.fsblklen off = .ok (block, next) ∧
        ∀ i < wr.fsblklen, data₁ (pos + i) = block i)
    (other : ∀ p, (wr.Logged (addr 0) → p < pos ∨ pos + wr.fsblklen ≤ p) → data₁ p = data p)
    (rest : ReadOver g dev wr (fun j => addr (j + 1)) (pos + wr.fsblklen) n data₁ data') :
    ReadOver g dev wr addr pos (n + 1) data data' := by
  constructor
  · intro j below off found
    cases j with
    | zero =>
      obtain ⟨block, next, read, bytes⟩ := logged off found
      refine ⟨block, next, read, fun i within => ?_⟩
      rw [zero_mul, ← bytes i within]
      exact rest.other _ fun j _ _ => .inl (by omega)
    | succ j =>
      obtain ⟨block, next, read, bytes⟩ := rest.logged j (by omega) off found
      refine ⟨block, next, read, fun i within => ?_⟩
      have product : (j + 1) * wr.fsblklen = j * wr.fsblklen + wr.fsblklen := Nat.succ_mul _ _
      rw [← bytes i within]
      exact congrArg data' (by omega)
  · intro p apart
    rw [← other p fun isLogged => by simpa using apart 0 (Nat.succ_pos n) isLogged]
    apply rest.other
    intro j below isLogged
    have outside := apart (j + 1) (by omega) isLogged
    simp only [Nat.succ_mul] at outside ⊢
    omega

theorem wapblCircRead_ok (healthy : dev.Healthy) {len : Nat} (whole : g.blocklen ∣ len)
    (off : Nat) : ∃ block next, wapblCircRead g dev len off = .ok (block, next) := by
  have read (len pbn : Nat) : wapblRead dev len pbn = .ok fun i => dev.bytes (dbtob pbn + i) := by
    rw [wapblRead, healthy]
  simp only [wapblCircRead, check_of_holds whole, read, bind, Except.bind, pure, Except.pure]
  generalize (if off < g.circOff then g.circOff else off) = start
  split <;> exact ⟨_, _, rfl⟩

theorem replayReadLoop_eq (healthy : dev.Healthy)
    (whole : ∀ blk, wr.Logged blk → g.blocklen ∣ wr.fsblklen) (n : Nat) (data : Memory) (pos : Nat)
    (blk : UInt64) :
    ∃ data', replayReadLoop g dev wr n data pos blk = .ok data' ∧
      ReadOver g dev wr (fun j => blk + UInt64.ofNat j) pos n data data' := by
  induction n generalizing data pos blk with
  | zero => exact ⟨data, rfl, nofun, fun _ _ => rfl⟩
  | succ n ih =>
    have first : blk + UInt64.ofNat 0 = blk := UInt64.add_zero blk
    have step : (fun j => blk + 1 + UInt64.ofNat j) = fun j => blk + UInt64.ofNat (j + 1) := by
      funext j
      rw [UInt64.ofNat_add, UInt64.add_assoc, UInt64.add_comm 1]
      rfl
    rw [replayReadLoop]
    cases found : wapblBlkhashGet wr blk with
    | none =>
      obtain ⟨data', read, covers⟩ := ih data (pos + wr.fsblklen) (blk + 1)
      rw [step] at covers
      refine ⟨data', read, .cons ?_ (fun _ _ => rfl) covers⟩
      intro off isSome
      rw [first, found] at isSome
      cases isSome
    | some off =>
      have logged : wr.Logged blk := by rw [WapblReplay.Logged, found]; rfl
      obtain ⟨block, next, here⟩ := wapblCircRead_ok healthy (whole blk logged) off
      obtain ⟨data', read, covers⟩ := ih
        (fun p => if pos ≤ p ∧ p < pos + wr.fsblklen then block (p - pos) else data p)
        (pos + wr.fsblklen) (blk + 1)
      rw [step] at covers
      refine ⟨data', ?_, .cons ?_ ?_ covers⟩
      · dsimp only
        rw [here]
        exact read
      · intro off' isSome
        rw [first, found, Option.some.injEq] at isSome
        subst isSome
        refine ⟨block, next, here, fun i within => ?_⟩
        rw [if_pos (by omega), Nat.add_sub_cancel_left]
      · intro p apart
        have outside := apart (by rw [first]; exact logged)
        exact if_neg (by omega)

theorem blockAddr_zero (fsblklen : Nat) (blk : UInt64) : blockAddr fsblklen blk 0 = blk := by
  rw [blockAddr, zero_mul]
  exact UInt64.add_zero blk

theorem blockAddr_eq (blk : UInt64) (below : j < n) (unit : n ≤ 1 ∨ wr.wrFsDevBshift = 9) :
    blockAddr wr.fsblklen blk j = blk + UInt64.ofNat j := by
  rcases unit with single | device
  · obtain rfl : j = 0 := by omega
    rw [blockAddr_zero]
    exact (UInt64.add_zero blk).symm
  · rw [WapblReplay.fsblklen, device]
    exact congrArg (blk + UInt64.ofNat ·) (Nat.mul_div_cancel j (show 0 < 2 ^ 9 by decide))

/-- `wapbl_replay_read` is right for `n` blocks of `2 ^ shift` bytes: whatever a replay has left
in the table, it reads the logged ones of them and changes nothing else. -/
def ReadsLogged (shift n : Nat) : Prop :=
  ∀ {g : Geometry} {dev : Device} {fuel head tail : Nat} {wr wr' : WapblReplay}, dev.Healthy →
    wapblReplayProcess g dev fuel wr head tail = .done wr' → wr'.wrFsDevBshift = shift →
    ∀ blk data, ∃ data', wapblReplayRead g dev wr' data blk (n * wr'.fsblklen) = .ok data' ∧
      ReadOver g dev wr' (blockAddr wr'.fsblklen blk) 0 n data data'

/-- What `wapbl_replay_read` does: it looks up consecutive addresses. -/
theorem wapblReplayRead_eq (healthy : dev.Healthy) {head tail : Nat}
    (done : wapblReplayProcess g dev fuel wr head tail = .done wr') (blk : UInt64) (n : Nat)
    (data : Memory) : ∃ data', wapblReplayRead g dev wr' data blk (n * wr'.fsblklen) = .ok data' ∧
      ReadOver g dev wr' (fun j => blk + UInt64.ofNat j) 0 n data data' := by
  have size : 0 < wr'.fsblklen := Nat.two_pow_pos _
  rw [wapblReplayRead, check_of_holds (Nat.mul_mod_left _ _), Nat.mul_div_cancel _ size]
  exact replayReadLoop_eq healthy (fun _ logged => dvd_of_logged done logged) n data 0 blk

theorem readsLogged_of_unit {shift : Nat} (unit : n ≤ 1 ∨ shift = 9) : ReadsLogged shift n := by
  rintro g dev fuel head tail wr wr' healthy done rfl blk data
  obtain ⟨data', read, covers⟩ := wapblReplayRead_eq healthy done blk n data
  refine ⟨data', read, ?_, ?_⟩
  · intro j below off found
    rw [blockAddr_eq blk below unit] at found
    exact covers.logged j below off found
  · intro p apart
    apply covers.other
    intro j below logged
    rw [← blockAddr_eq blk below unit] at logged
    exact apart j below logged

/-- A second block that is logged is not read when its address is not the next one. -/
theorem not_readsLogged {head tail : Nat} (healthy : dev.Healthy)
    (done : wapblReplayProcess g dev fuel wr head tail = .done wr') (several : 2 ≤ n)
    {blk : UInt64} (logged : wr'.Logged (blockAddr wr'.fsblklen blk 1))
    (next : ¬wr'.Logged (blk + 1)) : ¬ReadsLogged wr'.wrFsDevBshift n := by
  intro reads
  have size : 0 < wr'.fsblklen := Nat.two_pow_pos _
  obtain ⟨off, found⟩ := Option.isSome_iff_exists.mp logged
  obtain ⟨block, _, here⟩ := wapblCircRead_ok healthy (dvd_of_logged done logged) off
  -- a buffer without any byte of the block
  obtain ⟨data', read, wanted⟩ := reads healthy done rfl blk (fun _ => block 0 + 1)
  obtain ⟨data'', read', covers⟩ := wapblReplayRead_eq healthy done blk n (fun _ => block 0 + 1)
  rw [read, Except.ok.injEq] at read'
  subst read'
  obtain ⟨_, _, again, bytes⟩ := wanted.logged 1 several off found
  rw [here, Except.ok.injEq, Prod.mk.injEq] at again
  obtain ⟨rfl, -⟩ := again
  have kept := covers.other (0 + 1 * wr'.fsblklen + 0) fun j _ isLogged => by
    rcases Nat.lt_trichotomy j 1 with below | rfl | above
    · obtain rfl : j = 0 := by omega
      exact .inr (by omega)
    · exact absurd isLogged next
    · have := Nat.mul_le_mul_right wr'.fsblklen (show 2 ≤ j from above)
      exact .inl (by omega)
  rw [bytes 0 size] at kept
  have differs : block 0 ≠ block 0 + 1 := by simp
  exact differs kept

/-- A log for one block of any size that a buffer can have. -/
def wideLog : Geometry :=
  { minimalLog with
    circSize := 256 * 512
    blocklen_dvd := by decide
    circSize_pos := by decide
    circ_lt := by decide }

/-- The block after block 0, for blocks of more than 512 bytes. -/
def secondBlock (k : Fin 7) : Transaction wideLog where
  wlBufs :=
    [{ bBlkno := UInt64.ofNat (2 ^ (k.val + 1)), bBcount := 2 ^ (k.val + 10), bData := fun _ => 7
       bcount_pos := Nat.two_pow_pos _, bcount_dvd := by revert k; decide
       bcount_le := by revert k; decide }]
  wlDeallocs := []
  wlInohash := []

/-- The replay of the log of one flush, for blocks of `2 ^ shift` bytes, ends with
a state in which a test holds. -/
theorem replay_of_test {g : Geometry} (txn : Transaction g) (shift : Nat)
    (test : Device → WapblReplay → Bool)
    (passed : (exec logNext anyStep [.flush txn] (.fresh g quietDevice fun _ => 0)).any (fun log =>
      match wapblReplayProcess g log.dev 2
          { WapblReplay.fresh g 127 with wrFsDevBshift := shift } log.wlHead log.wlTail with
      | .done wr => test log.dev wr
      | _ => false) = true) :
    ∃ dev wr wr' head tail, dev.Healthy ∧
      wapblReplayProcess g dev 2 wr head tail = .done wr' ∧ test dev wr' = true := by
  obtain ⟨log, run, passed⟩ := exec_any_run passed
  split at passed
  next wr' done =>
    have inv := LogState.Inv.run (fun _ _ => rfl) run
    exact ⟨_, _, wr', _, _, inv.healthy, done, passed⟩
  next => cases passed

/-- With the second block alone in the log, the address after block 0 is not logged. -/
theorem secondBlock_logged (k : Fin 7) : ∃ dev wr wr' head tail, dev.Healthy ∧
      wapblReplayProcess wideLog dev 2 wr head tail = .done wr' ∧
      (wr'.wrFsDevBshift = k.val + 10 ∧ wr'.Logged (blockAddr wr'.fsblklen 0 1) ∧
        ¬wr'.Logged (0 + 1)) := by
  obtain ⟨dev, wr, wr', head, tail, healthy, done, facts⟩ := replay_of_test (secondBlock k)
    (k.val + 10) (fun _ wr => wr.wrFsDevBshift = k.val + 10 ∧
      wr.Logged (blockAddr wr.fsblklen 0 1) ∧ ¬wr.Logged (0 + 1)) (by revert k; decide +kernel)
  exact ⟨dev, wr, wr', head, tail, healthy, done, of_decide_eq_true facts⟩

theorem unit_of_readsLogged {shift : Nat} (lower : 9 ≤ shift) (upper : shift ≤ 16)
    (reads : ReadsLogged shift n) : n ≤ 1 ∨ shift = 9 := by
  by_contra several
  obtain ⟨k, rfl⟩ : ∃ k : Fin 7, shift = k.val + 10 := ⟨⟨shift - 10, by omega⟩, by simp; omega⟩
  obtain ⟨dev, wr, wr', head, tail, healthy, done, shiftEq, logged, next⟩ := secondBlock_logged k
  rw [← shiftEq] at reads
  exact not_readsLogged healthy done (by omega) logged next reads

/-- `wapbl_replay_can_read` is right exactly for the ranges whose first block is logged if any
block is.  `wapbl_replay_read` is right for every table exactly for one block, and for blocks of
the size of a block of the device; no block of more than `MAXBSIZE` bytes is ever logged. -/
theorem replay_reads_logged_blocks (wr : WapblReplay) (shift n : Nat) :
    (∀ blk, (∃ found, wapblReplayCanRead wr blk (n * wr.fsblklen) = .ok found ∧
        (found = true ↔ ∃ j < n, wr.Logged (blockAddr wr.fsblklen blk j))) ↔
      ((∃ j < n, wr.Logged (blockAddr wr.fsblklen blk j)) → wr.Logged blk)) ∧
    (n ≤ 1 ∨ shift = 9 → ReadsLogged shift n) ∧
    (9 ≤ shift → shift ≤ 16 → ReadsLogged shift n → n ≤ 1 ∨ shift = 9) := by
  refine ⟨fun blk => ?_, readsLogged_of_unit, unit_of_readsLogged⟩
  have size : 0 < wr.fsblklen := Nat.two_pow_pos _
  have answer : wapblReplayCanRead wr blk (n * wr.fsblklen) = .ok (0 < n ∧ wr.Logged blk) := by
    rw [wapblReplayCanRead, check_of_holds (Nat.mul_mod_left _ _), Nat.mul_div_cancel _ size,
      canReadLoop_eq]
    rfl
  simp only [answer, Except.ok.injEq, exists_eq_left', decide_eq_true_iff]
  constructor
  · intro right logged
    exact (right.mpr logged).2
  · refine fun first => ⟨?_, ?_⟩
    · rintro ⟨positive, logged⟩
      exact ⟨0, positive, (blockAddr_zero _ blk).symm ▸ logged⟩
    · rintro ⟨j, below, logged⟩
      exact ⟨j.zero_le.trans_lt below, first ⟨j, below, logged⟩⟩

/-- A transaction with a buffer of four blocks of the log. -/
def fourBlocks : Transaction minimalLog where
  wlBufs :=
    [{ bBlkno := 8, bBcount := 2048, bData := fun _ => 7
       bcount_pos := by decide, bcount_dvd := by decide, bcount_le := by decide }]
  wlDeallocs := []
  wlInohash := []

/-- A second logged block is not found, and is not read: the byte at its place
in the buffer stays. -/
theorem second_block_not_read : ∃ dev wr wr' head tail, dev.Healthy ∧
      wapblReplayProcess minimalLog dev 2 wr head tail = .done wr' ∧
      (wr'.wrFsDevBshift = 10 ∧ wr'.Logged 8 ∧ wr'.Logged 10 ∧
        (wapblReplayCanRead wr' 6 2048).toOption = some false ∧
        ((wapblReplayRead minimalLog dev wr' (fun _ => 0) 8 2048).toOption.map fun data =>
          (data 0, data 1024)) = some (7, 0)) := by
  obtain ⟨dev, wr, wr', head, tail, healthy, done, facts⟩ :=
    replay_of_test fourBlocks 10 (fun dev wr =>
    wr.wrFsDevBshift = 10 ∧ wr.Logged 8 ∧ wr.Logged 10 ∧
      (wapblReplayCanRead wr 6 2048).toOption = some false ∧
      ((wapblReplayRead minimalLog dev wr (fun _ => 0) 8 2048).toOption.map fun data =>
        (data 0, data 1024)) = some (7, 0)) (by decide +kernel)
  exact ⟨dev, wr, wr', head, tail, healthy, done, of_decide_eq_true facts⟩

end Bitrig.Wapbl
