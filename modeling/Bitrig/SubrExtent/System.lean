import Bitrig.Lib.Transition
import Bitrig.SubrExtent.Regions

/-!
# An extent and its callers

`extent_alloc_region` and `extent_free` on an extent that several threads use.  A call runs
until it sleeps in `tsleep` or in `pool_get`, and is taken up again at that place.  The
checks of a kernel with `DIAGNOSTIC` come first; `EX_CONFLICTOK` is not used.
-/

namespace Bitrig.SubrExtent

open Transition

/-- The flags of a call. -/
structure Flags where
  waitok : Bool
  catch_ : Bool
  mallocok : Bool
  waitspace : Bool
  deriving DecidableEq

inductive Request where
  | allocRegion (start size : ULong) (flags : Flags)
  | free (start size : ULong) (flags : Flags)
  deriving DecidableEq

namespace Request

def start : Request → ULong
  | allocRegion start _ _ => start
  | free start _ _ => start

/-- The variable `end` of both functions. -/
def end_ : Request → ULong
  | allocRegion start size _ => rangeEnd start size
  | free start size _ => rangeEnd start size

def flags : Request → Flags
  | allocRegion _ _ flags => flags
  | free _ _ flags => flags

end Request

/-- Where a call sleeps. -/
inductive Place where
  /-- `tsleep(&fex->fex_freelist, …)` in `extent_alloc_region_descriptor` -/
  | freelist
  /-- `pool_get(&ex_region_pl, PR_WAITOK)` -/
  | pool
  /-- `tsleep(ex, …)` in `extent_alloc_region`, which has a descriptor -/
  | space (myrp : Bool)
  deriving DecidableEq

/-- A call that sleeps; `awake` after a `wakeup`. -/
structure Waiting where
  request : Request
  place : Place
  awake : Bool
  deriving DecidableEq

/-- The changing part of a `struct extent`.  The free list has the flag `ER_ALLOC` of each
descriptor. -/
structure State where
  regions : List Region
  freelist : List Bool
  wanted : Bool
  flwanted : Bool
  calls : List Waiting

inductive Errno where
  | eagain
  | enomem
  | eintr
  | erestart
  deriving DecidableEq

inductive Reply where
  | ok
  | error (errno : Errno)
  | asleep
  deriving DecidableEq

inductive Panic where
  | badSize
  | overflow
  | outside
  | regionNotFound
  deriving DecidableEq

/-- The checks of `extent_alloc_region` and of `extent_free`, in their order. -/
def Request.check (ex : Extent) : Request → Except Panic Unit
  | allocRegion start size _ =>
    if size < 1 then .error .badSize
    else if rangeEnd start size < start then .error .overflow
    else if start < ex.exStart ∨ ex.exEnd < rangeEnd start size then .error .outside
    else .ok ()
  | free start size _ =>
    if start < ex.exStart ∨ ex.exEnd < rangeEnd start size then .error .outside
    else if rangeEnd start size < start then .error .overflow
    else .ok ()

namespace State

variable (ex : Extent)

def sleep (s : State) (request : Request) (place : Place) : State :=
  { s with calls := ⟨request, place, false⟩ :: s.calls }

/-- `wakeup(&fex->fex_freelist)`, and the flag that goes with it. -/
def wakeFreelist (s : State) : State :=
  { s with
    flwanted := false
    calls := s.calls.map fun w => if w.place = .freelist then { w with awake := true } else w }

/-- `wakeup(ex)`, and the flag that goes with it. -/
def wakeSpace (s : State) : State :=
  { s with
    wanted := false
    calls := s.calls.map fun w =>
      match w.place with
      | .space _ => { w with awake := true }
      | _ => w }

/-- `extent_free_region_descriptor`. -/
def freeRegionDescriptor (s : State) (rp : Bool) : State :=
  if ex.exfFixed then
    if rp then
      if s.flwanted then { s with freelist := true :: s.freelist }.wakeFreelist
      else s
    else
      let s := { s with freelist := false :: s.freelist }
      if s.flwanted then s.wakeFreelist else s
  else s

def freeRegionDescriptors (s : State) (descriptors : List Bool) : State :=
  descriptors.foldl (freeRegionDescriptor ex) s

end State

/-- What `extent_alloc_region_descriptor` comes to. -/
inductive Descriptor where
  | got (s : State) (rp : Bool)
  | null
  | sleeps (s : State) (place : Place)

/-- `pool_get`, which may find no memory at once. -/
def poolGet (flags : Flags) (memory : Bool) (s : State) : Descriptor :=
  if memory then .got s true
  else if flags.waitok then .sleeps s .pool
  else .null

/-- `extent_alloc_region_descriptor`, until it sleeps. -/
def allocRegionDescriptor (ex : Extent) (flags : Flags) (memory : Bool) (s : State) :
    Descriptor :=
  if ex.exfFixed then
    match s.freelist with
    | rp :: freelist => .got { s with freelist } rp
    | [] =>
      if flags.mallocok then poolGet flags memory s
      else if flags.waitok then .sleeps { s with flwanted := true } .freelist
      else .null
  else poolGet flags memory s

/-- `extent_alloc_region` from `alloc_start` on. -/
def allocStart (ex : Extent) (start size : ULong) (flags : Flags) (myrp : Bool) (s : State) :
    State × Reply :=
  match findPlace start (rangeEnd start size) [] s.regions with
  | none =>
    if flags.waitspace then
      ({ s with wanted := true }.sleep (.allocRegion start size flags) (.space myrp), .asleep)
    else (s.freeRegionDescriptor ex myrp, .error .eagain)
  | some (passed, rest) =>
    let surgery := insertAndOptimize ex start size myrp passed rest
    ({ s with regions := surgery.regions }.freeRegionDescriptors ex surgery.freed, .ok)

/-- `extent_free` from its loop on. -/
def freeStart (ex : Extent) (start size : ULong) (nrp : Option Bool) (s : State) :
    Except Panic (State × Reply) :=
  match freeLoop ex start (rangeEnd start size) nrp s.regions with
  | none => .error .regionNotFound
  | some surgery =>
    let s := { s with regions := surgery.regions }.freeRegionDescriptors ex surgery.freed
    .ok (if s.wanted then s.wakeSpace else s, .ok)

/-- The rest of a call that has its descriptor. -/
def withDescriptor (ex : Extent) (request : Request) (rp : Bool) (s : State) :
    Except Panic (State × Reply) :=
  match request with
  | .allocRegion start size flags => .ok (allocStart ex start size flags rp s)
  | .free start size _ => freeStart ex start size (some rp) s

/-- A call gets its descriptor, and goes on. -/
def getDescriptor (ex : Extent) (request : Request) (memory : Bool) (s : State) :
    Except Panic (State × Reply) :=
  match allocRegionDescriptor ex request.flags memory s with
  | .got s rp => withDescriptor ex request rp s
  | .null => .ok (s, .error .enomem)
  | .sleeps s place => .ok (s.sleep request place, .asleep)

/-- A call that has passed its checks, until it returns or sleeps. -/
def afterChecks (ex : Extent) (request : Request) (memory : Bool) (s : State) :
    Except Panic (State × Reply) :=
  match request with
  | .allocRegion .. => getDescriptor ex request memory s
  | .free start size _ =>
    if ex.exfNocoalesce then freeStart ex start size none s
    else getDescriptor ex request memory s

/-- `extent_alloc_region` and `extent_free`, until they return or sleep. -/
def call (ex : Extent) (request : Request) (memory : Bool) (s : State) :
    Except Panic (State × Reply) := do
  request.check ex
  afterChecks ex request memory s

/-- What happens next to an extent. -/
inductive Label where
  | call (request : Request) (memory : Bool)
  /-- A sleeping call goes on; one in `pool_get` has its memory. -/
  | resume (waiting : Waiting) (memory : Bool)
  /-- A signal ends a sleep with `PCATCH`. -/
  | interrupt (waiting : Waiting) (restart : Bool)

namespace Label

def request : Label → Request
  | call request _ => request
  | resume waiting _ => waiting.request
  | interrupt waiting _ => waiting.request

end Label

/-- The step of a call that goes on. -/
def resume (ex : Extent) (waiting : Waiting) (memory : Bool) (s : State) :
    Except Panic (State × Reply) :=
  match waiting.place with
  | .freelist => getDescriptor ex waiting.request memory s
  | .pool => withDescriptor ex waiting.request true s
  | .space myrp => withDescriptor ex waiting.request myrp s

/-- The step of a call whose sleep a signal ends.  A call that slept for space keeps its
descriptor. -/
def interrupted (waiting : Waiting) (restart : Bool) (s : State) : State × Reply :=
  match waiting.place with
  | .freelist => (s, .error .enomem)
  | _ => (s, .error (if restart then .erestart else .eintr))

/-- One step.  There is no result for a call that does not sleep, or still does. -/
def step (ex : Extent) (label : Label) (s : State) : Option (Except Panic (State × Reply)) :=
  match label with
  | .call request memory => some (call ex request memory s)
  | .resume waiting memory =>
    if waiting ∈ s.calls ∧ (waiting.awake ∨ waiting.place = .pool) then
      some (resume ex waiting memory { s with calls := s.calls.erase waiting })
    else none
  | .interrupt waiting restart =>
    if waiting ∈ s.calls ∧ waiting.request.flags.catch_ = true ∧ waiting.place ≠ .pool then
      some (.ok (interrupted waiting restart { s with calls := s.calls.erase waiting }))
    else none

/-- The state after a step that does not panic. -/
def next (ex : Extent) (label : Label) (s : State) : Option State :=
  match step ex label s with
  | some (.ok (s, _)) => some s
  | _ => none

/-- `extent_create`, with the number of descriptors for which a fixed extent has storage.
It returns none if a descriptor for the region of a filled extent cannot be had. -/
def extentCreate (ex : Extent) (storage : Nat) (filled : Bool) (flags : Flags) (memory : Bool) :
    Option State :=
  let s : State :=
    { regions := []
      freelist := if ex.exfFixed then List.replicate storage false else []
      wanted := false
      flwanted := false
      calls := [] }
  if filled then
    match allocRegionDescriptor ex flags memory s with
    | .got s rp => some { s with regions := [⟨ex.exStart, ex.exEnd, rp⟩] }
    | .null => none
    | .sleeps s .pool => some { s with regions := [⟨ex.exStart, ex.exEnd, true⟩] }
    | .sleeps _ _ => none
  else some s

end Bitrig.SubrExtent
