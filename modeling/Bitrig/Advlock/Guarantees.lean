import Bitrig.Advlock.Invariant

/-!
# What the lock lists guarantee

In every state that requests reach from empty lists, the list of a file
represents a map of bytes on which requests act byte by byte.
-/

namespace Bitrig.Advlock

open Bitrig.SpanList Bitrig.Transition

variable {φ ι : Type} [DecidableEq φ] [DecidableEq ι]

/-! ## Bytes -/

/-- Case 0 is right on every part of the list that a walk may start with. -/
theorem not_overlaps_of_clear {lock : Lockf ι} {front rest skipped behind : List (Lockf ι)}
    (sorted : Sorted (front ++ rest))
    (isClear : lfFindoverlap .self lock rest = some (.clear skipped behind)) :
    ∀ lf ∈ rest, lf.lfId = lock.lfId → ¬lf.range.Overlaps lock.range := by
  rcases lfFindoverlap_self lock rest with ⟨found, isFound, own⟩
  cases Option.some.inj (isFound.symm.trans isClear)
  have ahead := own.ahead (List.pairwise_append.mp sorted).2.1
  rcases own with ⟨rfl, before, _⟩
  intro lf member isOwn meets
  rcases List.mem_append.mp member with isSkipped | isBehind
  · exact meets.1 (before lf isSkipped isOwn)
  · exact meets.2 (ahead lf isBehind isOwn)

theorem lfFindoverlap_isSome (scope : Scope) (lock : Lockf ι) (locks : List (Lockf ι)) :
    (lfFindoverlap scope lock locks).isSome := by
  cases scope with
  | self =>
    rcases lfFindoverlap_self lock locks with ⟨found, isFound, _⟩
    rw [isFound]
    rfl
  | others =>
    rcases lfFindoverlap_others lock locks with ⟨found, isFound, _⟩
    rw [isFound]
    rfl

/-- A request is granted if and only if nothing blocks it, and then it sets the
bytes of its range. -/
theorem Outcome.heldBy {lock : Lockf ι} {proc : Nat} {fl : Flock} {here here' : FileLocks ι}
    {reply : Reply} (outcome : Outcome lock proc fl here here' reply) (sorted : Sorted here.locks) :
    (reply = .done fl ↔ ∀ lf ∈ here.locks, ¬Blocks lf lock) ∧
      (reply = .done fl → heldBy here'.locks =
        (Advlock.heldBy here.locks).set lock.lfId lock.range lock.lfType) := by
  cases outcome with
  | refused errno found | asleep _ found _ =>
    have facts := lfGetblock_some found
    refine ⟨⟨nofun, fun free => absurd facts.2 (free _ facts.1)⟩, nofun⟩
  | granted found added =>
    exact ⟨⟨fun _ => lfGetblock_none found, fun _ => rfl⟩, fun _ => added.heldBy sorted⟩

/-- The list of a file represents a map of bytes: the locks of each owner are in
increasing order and disjoint, the walks never panic and case 0 overlooks
nothing, a granted request gives its type to exactly the bytes of its range, and
clearing takes away exactly the bytes of its range. -/
theorem lockList_refines_byteMap (view : WaitView φ ι) {state : LockState φ ι}
    (run : Run (lockNext view) anyStep noLocks state) (file : φ) (lock : Lockf ι) :
    Sorted (state file).locks ∧ (∀ front rest, (state file).locks = front ++ rest →
        (∀ scope, (lfFindoverlap scope lock rest).isSome) ∧
          ∀ skipped behind, lfFindoverlap .self lock rest = some (.clear skipped behind) →
            ∀ lf ∈ rest, lf.lfId = lock.lfId → ¬lf.range.Overlaps lock.range) ∧
      (∀ proc fl, ∃ here reply,
        lfSetlock view state file proc lock fl = some (Function.update state file here, reply) ∧
          (reply = .done fl ↔ ∀ lf ∈ (state file).locks, ¬Blocks lf lock) ∧
          (reply = .done fl → heldBy here.locks =
            (heldBy (state file).locks).set lock.lfId lock.range lock.lfType)) ∧
      ∃ locks heap, lfClearlock lock (state file).locks (state file).heap = some (locks, heap) ∧
        heldBy locks = (heldBy (state file).locks).clear lock.lfId lock.range := by
  have inv := inv_of_run view run file
  refine ⟨inv.sorted, ?_, ?_, ?_⟩
  · intro front rest isList
    refine ⟨fun scope => lfFindoverlap_isSome scope lock rest, ?_⟩
    intro skipped behind isClear
    exact not_overlaps_of_clear (isList ▸ inv.sorted) isClear
  · intro proc fl
    rcases lfSetlock_outcome view inv proc lock fl with ⟨here, reply, isSet, outcome⟩
    exact ⟨here, reply, isSet, outcome.heldBy inv.sorted⟩
  · rcases inv.lfClearlock_eq lock with ⟨locks, heap, isCleared, cleared⟩
    exact ⟨locks, heap, isCleared, cleared.heldBy inv.sorted⟩

/-- A request for some bytes by a process that is its own owner. -/
def sampleCall (proc : Nat) (op : LockOp) (type : LfType) (start len : Int) : LockCall Nat where
  proc := proc
  psPid := proc
  id := proc
  op := op
  fl := ⟨type, .seekSet, start, len, 0⟩
  flags := ⟨true, false, true⟩
  size := 0

/-- The lock of the second process is replaced while the first one waits for
it. -/
def sampleRun : List (LockStep Unit Nat) :=
  [.call () (sampleCall 1 .setlk .rdlck 0 10), .call () (sampleCall 2 .setlk .rdlck 5 10),
    .call () (sampleCall 1 .setlk .wrlck 3 4), .call () (sampleCall 2 .setlk .rdlck 0 0)]

theorem sampleRun_refines_byteMap : ∃ state, Run (lockNext fun _ _ => none) anyStep noLocks state ∧
      (state ()).locks.length = 2 ∧
      ∃ locks heap, lfClearlock ((sampleCall 2 .unlck .unlck 7 2).lock ⟨7, 8, by decide⟩ 9)
          (state ()).locks (state ()).heap = some (locks, heap) ∧
        heldBy locks = (heldBy (state ()).locks).clear 2 ⟨7, 8, by decide⟩ := by
  refine exec_implies (Q := fun state => (state ()).locks.length = 2)
    sampleRun (by decide +kernel) ?_
  intro state run two
  exact ⟨two, (lockList_refines_byteMap _ run () _).2.2.2⟩

end Bitrig.Advlock
