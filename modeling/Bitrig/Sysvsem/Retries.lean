import Bitrig.Sysvsem.System

/-!
# Retries of semop

`sys_semop` sets `do_undos` to zero before its main loop and not in it, so a call that slept
still counts the `SEM_UNDO` operations of the rounds that it took back.  What a call returns
depends on its sleeps when that makes the number exceed `SEMUME`.
-/

namespace Bitrig.Sysvsem

open Bitrig.Transition List

/-- The operations that the rounds before have counted. -/
def Tried.addUndos (count : Nat) : Tried → Tried
  | efbig base => .efbig base
  | blocked done sop base doUndos => .blocked done sop base (count + doUndos)
  | through base doUndos => .through base (count + doUndos)

/-- What was counted before does not change the way through a vector. -/
theorem tryOps_add (count doUndos : Nat) (done : List Sembuf) (base : List Sem)
    (sops : List Sembuf) :
    tryOps (count + doUndos) done base sops = (tryOps doUndos done base sops).addUndos count := by
  induction sops generalizing doUndos done base with
  | nil => rfl
  | cons sop rest ih =>
    have next : (if sop.semUndo = true then count + doUndos + 1 else count + doUndos) =
        count + if sop.semUndo = true then doUndos + 1 else doUndos := by
      split <;> rfl
    rw [tryOps, tryOps]
    cases base[sop.semNum.toNat]? with
    | none => rfl
    | some sem =>
      dsimp only
      rw [next, ih, ih]
      split_ifs <;> rfl

section Record

variable {π τ : Type} [DecidableEq π]

end Record

/-- Six operations with `SEM_UNDO` on one semaphore, and one on another that may have to wait. -/
def sixUndos : List Sembuf :=
  List.replicate 6 ⟨0, 1, true, false⟩ ++ [⟨1, -1, false, false⟩]

/-- The set with the address zero has two semaphores, the second of which is up. -/
def secondUp : State Nat Nat :=
  { seminit with sema := fun _ => some 0, sets := fun _ => ⟨1, 0, [⟨0, 0, 0⟩, ⟨1, 1, 0⟩]⟩ }

end Bitrig.Sysvsem
