import Bitrig.Lib.Bitmap
import Bitrig.Lib.Transition

/-!
# Descriptor tables

The table of open files of a process in `kern_descrip.c`.  A bitmap `fd_lomap` has a bit for
each descriptor, and a second one, `fd_himap`, a bit for each word of the first that is all
ones.  A search that runs past the end of a bitmap reads whatever memory is there.
-/

namespace Bitrig.Descrip

open Transition
open Bitmap

/-- `u_int`, with `NDENTRIES` bits. -/
abbrev Word :=
  BitVec 32

/-- `NDFILE`. -/
def ndfile : Nat :=
  20

/-- `NDEXTENT`. -/
def ndextent : Nat :=
  50

/-- `NDREDUCE`. -/
def ndreduce (x : Nat) : Nat :=
  (x + 31) / 32

/-- `NDHISLOTS`. -/
def ndhislots (x : Nat) : Nat :=
  ndreduce (ndreduce x)

/-- `NDLOSLOTS`. -/
def ndloslots (x : Nat) : Nat :=
  ndhislots x * 32

/-- `struct filedesc`, with files of an arbitrary type. -/
structure Filedesc (φ : Type) where
  ofiles : Nat → Option φ
  nfiles : Nat
  openfd : Int
  himap : Nat → Word
  lomap : Nat → Word
  lastfile : Nat
  freefile : Nat

/-- The memory behind the bitmaps. -/
structure Junk where
  hi : Nat → Word
  lo : Nat → Word

variable {φ : Type}

namespace Filedesc

/-- A descriptor is in use if it has a file. -/
def inUse (fd : Filedesc φ) (i : Nat) : Bool :=
  (fd.ofiles i).isSome

/-- What a read of `fd_himap` gives. -/
def readHi (fd : Filedesc φ) (junk : Junk) (i : Nat) : Word :=
  if i < ndhislots fd.nfiles then fd.himap i else junk.hi i

/-- What a read of `fd_lomap` gives. -/
def readLo (fd : Filedesc φ) (junk : Junk) (i : Nat) : Word :=
  if i < ndloslots fd.nfiles then fd.lomap i else junk.lo i

end Filedesc

/-- `find_next_zero`; none for `-1`.  The loop goes up to `NDLOSLOTS(bits)` words. -/
def findNextZero (bitmap : Nat → Word) (want bits : Nat) : Option Nat :=
  if bits < want then none
  else
    let off := want / 32
    let i := want % 32
    if i ≠ 0 then
      let sub := bitmap off ||| (BitVec.allOnes 32 >>> (32 - i))
      if sub ≠ BitVec.allOnes 32 then some (off * 32 + (ffs (~~~sub) - 1))
      else scanWords bitmap (off + 1) (ndloslots bits - (off + 1))
    else scanWords bitmap off (ndloslots bits - off)

/-- The first loop of `find_last_set`: the last of the words up to one that is not zero. -/
def lastWord (bitmap : Nat → Word) : Nat → Option Nat
  | 0 => none
  | off + 1 => if bitmap off = 0 then lastWord bitmap off else some off

/-- The second loop of `find_last_set`. -/
def lastFile (ofiles : Nat → Option φ) : Nat → Nat
  | 0 => 0
  | i + 1 => if (ofiles (i + 1)).isSome then i + 1 else lastFile ofiles i

/-- `find_last_set`. -/
def findLastSet (fd : Filedesc φ) (last : Nat) : Nat :=
  -- for `last` zero the C expression `(last - 1) >> NDENTRYSHIFT` is negative
  match lastWord fd.lomap (if last = 0 then 0 else (last - 1) / 32 + 1) with
  | none => 0
  | some off => lastFile fd.ofiles (min ((off + 1) * 32 - 1) (last - 1))

/-- `fd_used`. -/
def fdUsed (fd : Filedesc φ) (i : Nat) : Filedesc φ :=
  let off := i / 32
  let lomap := setBit fd.lomap i
  { fd with
    lomap := lomap
    himap := if lomap off = BitVec.allOnes 32 then setBit fd.himap off else fd.himap
    lastfile := max fd.lastfile i
    openfd := fd.openfd + 1 }

/-- `fd_unused`; none for its panic. -/
def fdUnused (fd : Filedesc φ) (i : Nat) : Option (Filedesc φ) :=
  let off := i / 32
  let fd := { fd with
    freefile := min fd.freefile i
    himap := if fd.lomap off = BitVec.allOnes 32 then clearBit fd.himap off else fd.himap
    lomap := clearBit fd.lomap i }
  if fd.lastfile < i then none
  else some { fd with
    lastfile := if i = fd.lastfile then findLastSet fd i else fd.lastfile
    openfd := fd.openfd - 1 }

inductive Errno where
  | emfile
  | enospc
  | enfile
  | ebadf
  deriving DecidableEq

/-- The search of `fdalloc`, with at most `fuel` turns.  It gives the descriptor that it finds
and what `want` is then. -/
def fdallocSearch (fd : Filedesc φ) (junk : Junk) (last : Nat) : Nat → Nat → Option (Nat × Nat)
  | 0, _ => none
  | fuel + 1, want =>
    let i := max want fd.freefile
    let off := i / 32
    match findNextZero (fd.readHi junk) off ((last + 31) / 32) with
    | none => none
    | some new =>
      match findNextZero (fun j => fd.readLo junk (new + j))
          (if off < new then 0 else i % 32) 32 with
      | none => fdallocSearch fd junk last fuel ((new + 1) * 32)
      | some i => some (want, i + new * 32)

/-- `fdalloc`. -/
def fdalloc (fd : Filedesc φ) (junk : Junk) (lim want : Nat) :
    Except Errno (Filedesc φ × Nat) :=
  let last := min fd.nfiles lim
  let failed := .error (if lim ≤ fd.nfiles then .emfile else .enospc)
  match fdallocSearch fd junk last (last + 2) want with
  | none => failed
  | some (want, i) =>
    if i < last then
      let fd := fdUsed fd i
      .ok (if want ≤ fd.freefile then { fd with freefile := i } else fd, i)
    else failed

/-- `fdexpand`. -/
def fdexpand (fd : Filedesc φ) : Filedesc φ :=
  let nfiles := if fd.nfiles < ndextent then ndextent else 2 * fd.nfiles
  let fd' := { fd with
    nfiles := nfiles
    ofiles := fun i => if i < fd.nfiles then fd.ofiles i else none }
  if ndhislots fd.nfiles < ndhislots nfiles then
    { fd' with
      himap := fun i => if i < ndhislots fd.nfiles then fd.himap i else 0
      lomap := fun i => if i < ndloslots fd.nfiles then fd.lomap i else 0 }
  else fd'

/-- `fdremove`. -/
def fdremove (fd : Filedesc φ) (i : Nat) : Option (Filedesc φ) :=
  fdUnused { fd with ofiles := Function.update fd.ofiles i none } i

/-- `finishdup`; `deadlk` if the file has as many references as there may be. -/
def finishdup (fd : Filedesc φ) (fp : φ) (deadlk : Bool) (new : Nat) (dup2 : Bool) :
    Filedesc φ :=
  if deadlk then fd
  else
    let oldfp := fd.ofiles new
    let fd := { fd with ofiles := Function.update fd.ofiles new (some fp) }
    if dup2 ∧ oldfp.isNone then fdUsed fd new else fd

/-- The size of a copy: half of the table as long as the descriptors in use fit into that. -/
def shrink (lastfile i : Nat) : Nat :=
  if 2 * ndextent ≤ i ∧ lastfile * 2 < i then shrink lastfile (i / 2) else i
termination_by i
decreasing_by
  unfold ndextent at *
  omega

/-- The loop of `fdcopy` over the descriptors from `i` on: those of some files are removed. -/
def dropFiles (drops : φ → Bool) : Nat → Nat → Filedesc φ → Option (Filedesc φ)
  | 0, _, fd => some fd
  | fuel + 1, i, fd =>
    if fd.lastfile < i then some fd
    else if (fd.ofiles i).any drops then (fdremove fd i).bind (dropFiles drops fuel (i + 1))
    else dropFiles drops fuel (i + 1) fd

/-- `fdcopy`; some files are not copied. -/
def fdcopy (drops : φ → Bool) (fd : Filedesc φ) : Option (Filedesc φ) :=
  let nfiles := if fd.lastfile < ndfile then ndfile else shrink fd.lastfile fd.nfiles
  dropFiles drops (fd.lastfile + 1) 0
    { fd with
      nfiles := nfiles
      ofiles := fun i => if i < nfiles then fd.ofiles i else none
      himap := fun i => if i < ndhislots nfiles then fd.himap i else 0
      lomap := fun i => if i < ndloslots nfiles then fd.lomap i else 0 }

/-- `fdinit`. -/
def fdinit : Filedesc φ where
  ofiles := fun _ => none
  nfiles := ndfile
  openfd := 0
  himap := fun _ => 0
  lomap := fun _ => 0
  lastfile := 0
  freefile := 0

/-! ### Callers -/

/-- What is done to a table under its lock, until the lock is given up or a call starts anew.
The limit and the memory behind the bitmaps are those of the moment. -/
inductive Label (φ : Type) where
  /-- `falloc`, for an open file; `full` if there are too many files in the system -/
  | falloc (fp : φ) (full : Bool) (lim : Nat) (junk : Junk)
  /-- `sys_dup` and `F_DUPFD` -/
  | dup (fp : φ) (deadlk : Bool) (want lim : Nat) (junk : Junk)
  /-- `dodup3` -/
  | dup2 (fp : φ) (deadlk : Bool) (new lim : Nat) (junk : Junk)
  | fdremove (i : Nat)
  | fdrelease (i : Nat)
  | fdexpand
  | fdcopy (drops : φ → Bool)

/-- What a caller makes of a failed `fdalloc`: it expands a table without space. -/
def failed (fd : Filedesc φ) : Errno → Filedesc φ
  | .enospc => fdexpand fd
  | _ => fd

/-- `falloc`. -/
def falloc (fd : Filedesc φ) (fp : φ) (full : Bool) (lim : Nat) (junk : Junk) :
    Option (Filedesc φ) :=
  match fdalloc fd junk lim 0 with
  | .error errno => some (failed fd errno)
  | .ok (fd, i) =>
    if full then fdUnused fd i
    else some { fd with ofiles := Function.update fd.ofiles i (some fp) }

/-- `sys_dup` and `F_DUPFD`. -/
def dup (fd : Filedesc φ) (fp : φ) (deadlk : Bool) (want lim : Nat) (junk : Junk) :
    Filedesc φ :=
  match fdalloc fd junk lim want with
  | .error errno => failed fd errno
  | .ok (fd, i) => finishdup fd fp deadlk i false

/-- `dodup3` for a descriptor below the limit. -/
def dodup3 (fd : Filedesc φ) (fp : φ) (deadlk : Bool) (new lim : Nat) (junk : Junk) :
    Option (Filedesc φ) :=
  if lim ≤ new then some fd
  else if fd.nfiles ≤ new then
    match fdalloc fd junk lim new with
    | .error errno => some (failed fd errno)
    | .ok (fd, i) =>
      if new ≠ i then none
      else (fdUnused fd new).map fun fd => finishdup fd fp deadlk new true
  else some (finishdup fd fp deadlk new true)

/-- `fdrelease`. -/
def fdrelease (fd : Filedesc φ) (i : Nat) : Option (Filedesc φ) :=
  if (fd.ofiles i).isNone then some fd
  else fdUnused { fd with ofiles := Function.update fd.ofiles i none } i

/-- One step; none at a panic, and for a descriptor outside the table.  With `fdcopy` the run
goes on in the new table. -/
def next (label : Label φ) (fd : Filedesc φ) : Option (Filedesc φ) :=
  match label with
  | .falloc fp full lim junk => falloc fd fp full lim junk
  | .dup fp deadlk want lim junk => some (dup fd fp deadlk want lim junk)
  | .dup2 fp deadlk new lim junk => dodup3 fd fp deadlk new lim junk
  | .fdremove i => if i < fd.nfiles then fdremove fd i else none
  | .fdrelease i => if i < fd.nfiles then fdrelease fd i else none
  | .fdexpand => some (fdexpand fd)
  | .fdcopy drops => fdcopy drops fd

end Bitrig.Descrip
