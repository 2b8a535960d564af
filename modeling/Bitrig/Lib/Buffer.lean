import Mathlib.Data.List.Basic

/-!
# Buffers

A buffer is a memory of a given size.  An access outside of it is undefined, so that code that
is defined stays inside its buffers.
-/

namespace Bitrig

universe u

structure Buffer (α : Type u) where
  size : Nat
  get : Nat → α

namespace Buffer

variable {α : Type u} {b : Buffer α} {i off len : Nat}

def read (b : Buffer α) (i : Nat) : Option α :=
  if i < b.size then some (b.get i) else none

def write (b : Buffer α) (i : Nat) (x : α) : Option (Buffer α) :=
  if i < b.size then some { b with get := Function.update b.get i x } else none

def modify (b : Buffer α) (i : Nat) (f : α → α) : Option (Buffer α) :=
  (b.read i).bind fun x => b.write i (f x)

/-- The elements of a part of the buffer. -/
def slice (b : Buffer α) (off len : Nat) : Option (List α) :=
  if off + len ≤ b.size then some ((List.range len).map fun i => b.get (off + i)) else none

/-- The buffer with a part overwritten. -/
def splice (b : Buffer α) (off len : Nat) (source : Nat → α) : Option (Buffer α) :=
  if off + len ≤ b.size then
    some { b with get := fun i => if off ≤ i ∧ i < off + len then source (i - off) else b.get i }
  else none

theorem read_of_lt (inside : i < b.size) : b.read i = some (b.get i) :=
  if_pos inside

theorem write_of_lt {x : α} (inside : i < b.size) :
    b.write i x = some { b with get := Function.update b.get i x } :=
  if_pos inside

theorem modify_of_lt {f : α → α} (inside : i < b.size) :
    b.modify i f = some { b with get := Function.update b.get i (f (b.get i)) } := by
  unfold modify
  rw [read_of_lt inside]
  exact write_of_lt inside

theorem slice_of_le (inside : off + len ≤ b.size) :
    b.slice off len = some ((List.range len).map fun i => b.get (off + i)) :=
  if_pos inside

theorem splice_of_le {source : Nat → α} (inside : off + len ≤ b.size) : b.splice off len source =
      some { b with
        get := fun i => if off ≤ i ∧ i < off + len then source (i - off) else b.get i } :=
  if_pos inside

end Buffer

end Bitrig
