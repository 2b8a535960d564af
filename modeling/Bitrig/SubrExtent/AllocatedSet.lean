import Bitrig.SubrExtent.System

/-!
# An extent is a set of addresses

In every state that the calls lead to the region list is in order, and each call does to
the set of allocated addresses what its name says, once it has a region descriptor.
-/

namespace Bitrig.SubrExtent

open Transition List

/-- An address of the range that a request names. -/
def Request.Names (request : Request) (x : Nat) : Prop :=
  request.start.toNat ≤ x ∧ x ≤ request.end_.toNat

/-- What a request does to the set of allocated addresses, given whether the call has the
descriptor it needs. -/
def Effect (request : Request) (had : Prop) (old new : List Region) (reply : Reply) : Prop :=
  match request with
  | .allocRegion .. =>
    (reply = .ok ↔ had ∧ ∀ x, request.Names x → ¬Allocated old x) ∧
      ∀ x, Allocated new x ↔ Allocated old x ∨ reply = .ok ∧ request.Names x
  | .free .. =>
    (reply = .ok ↔ had) ∧
      ∀ x, Allocated new x ↔ Allocated old x ∧ ¬(reply = .ok ∧ request.Names x)

/-- A range is freed only if it lies in one region, or is one when there is no coalescing. -/
def Request.Allowed (ex : Extent) (regions : List Region) : Request → Prop
  | allocRegion .. => True
  | free start size _ => Contained ex regions start (rangeEnd start size)

def Descriptor.isGot : Descriptor → Bool
  | got .. => true
  | null => false
  | sleeps .. => false

/-- Whether a call has a region descriptor in this step, or needs none. -/
def hasDescriptor (ex : Extent) (label : Label) (s : State) : Bool :=
  match label with
  | .call request memory =>
    match request with
    | .allocRegion _ _ flags => (allocRegionDescriptor ex flags memory s).isGot
    | .free _ _ flags => ex.exfNocoalesce || (allocRegionDescriptor ex flags memory s).isGot
  | .resume waiting memory =>
    match waiting.place with
    | .freelist => (allocRegionDescriptor ex waiting.request.flags memory s).isGot
    | _ => true
  | .interrupt .. => false

/-- The requests of the calls that sleep. -/
def State.requests (s : State) : List Request :=
  s.calls.map (·.request)

/-- The region list is in order, and the calls that sleep have passed their checks. -/
structure Inv (ex : Extent) (s : State) : Prop where
  ok : RegionsOk ex s.regions
  checked : ∀ request ∈ s.requests, request.check ex = .ok ()

/-! ### Descriptors -/

section Descriptors

variable {ex : Extent} {s t : State}

@[simp]
theorem State.wakeFreelist_requests : s.wakeFreelist.requests = s.requests := by
  simp only [requests, wakeFreelist, map_map]
  apply map_congr_left
  intro w _
  dsimp only [Function.comp]
  split <;> rfl

@[simp]
theorem State.wakeSpace_requests : s.wakeSpace.requests = s.requests := by
  simp only [requests, wakeSpace, map_map]
  apply map_congr_left
  intro w _
  dsimp only [Function.comp]
  split <;> rfl

/-- A descriptor that is given back changes neither regions nor requests. -/
theorem freeRegionDescriptor_frame (ex : Extent) (s : State) (rp : Bool) :
    (s.freeRegionDescriptor ex rp).regions = s.regions ∧
      (s.freeRegionDescriptor ex rp).requests = s.requests := by
  unfold State.freeRegionDescriptor
  dsimp only
  split_ifs
  · exact ⟨rfl, State.wakeFreelist_requests⟩
  · exact ⟨rfl, rfl⟩
  · exact ⟨rfl, State.wakeFreelist_requests⟩
  · exact ⟨rfl, rfl⟩
  · exact ⟨rfl, rfl⟩

theorem freeRegionDescriptors_frame (ex : Extent) (s : State) (descriptors : List Bool) :
    (s.freeRegionDescriptors ex descriptors).regions = s.regions ∧
      (s.freeRegionDescriptors ex descriptors).requests = s.requests := by
  induction descriptors generalizing s with
  | nil => exact ⟨rfl, rfl⟩
  | cons rp rest hyp =>
    obtain ⟨regions, requests⟩ := freeRegionDescriptor_frame ex s rp
    obtain ⟨laterRegions, laterRequests⟩ := hyp (s.freeRegionDescriptor ex rp)
    exact ⟨laterRegions.trans regions, laterRequests.trans requests⟩

/-- Looking for a descriptor changes neither regions nor requests. -/
theorem allocRegionDescriptor_frame {flags : Flags} {memory : Bool} :
    (∀ rp, allocRegionDescriptor ex flags memory s = .got t rp →
      t.regions = s.regions ∧ t.calls = s.calls) ∧
    ∀ place, allocRegionDescriptor ex flags memory s = .sleeps t place →
      t.regions = s.regions ∧ t.calls = s.calls := by
  unfold allocRegionDescriptor poolGet
  cases s.freelist <;> constructor <;> intro _ result <;> split_ifs at result <;> cases result <;>
    exact ⟨rfl, rfl⟩

end Descriptors

/-! ### One call -/

/-- A call has its effect, and keeps the invariant. -/
structure Meets (ex : Extent) (request : Request) (had : Prop) (s t : State) (reply : Reply) :
    Prop where
  ok : RegionsOk ex t.regions
  requests : ∀ other ∈ t.requests, other = request ∨ other ∈ s.requests
  effect : Effect request had s.regions t.regions reply

section Calls

variable {ex : Extent} {request : Request} {start size : ULong} {flags : Flags} {s t : State}
  {reply : Reply} {had : Prop} {memory : Bool}

/-- A request that passes its checks names a range of the extent. -/
theorem Request.within_of_check (checked : request.check ex = .ok ()) :
    ex.exStart ≤ request.start ∧ request.start ≤ request.end_ ∧ request.end_ ≤ ex.exEnd := by
  cases request with
  | allocRegion start size flags =>
    unfold check at checked
    dsimp only at checked
    split_ifs at checked with _ overflow outside
    obtain ⟨low, high⟩ := not_or.mp outside
    exact ⟨BitVec.not_lt.mp low, BitVec.not_lt.mp overflow, BitVec.not_lt.mp high⟩
  | free start size flags =>
    unfold check at checked
    dsimp only at checked
    split_ifs at checked with outside overflow
    obtain ⟨low, high⟩ := not_or.mp outside
    exact ⟨BitVec.not_lt.mp low, BitVec.not_lt.mp overflow, BitVec.not_lt.mp high⟩

/-- A call without descriptor does nothing to the regions. -/
theorem Meets.failed (ok : RegionsOk ex s.regions) (without : ¬had) (failed : reply ≠ .ok)
    (regions : t.regions = s.regions)
    (requests : ∀ other ∈ t.requests, other = request ∨ other ∈ s.requests) :
    Meets ex request had s t reply where
  ok := by
    rw [regions]
    exact ok
  requests := requests
  effect := by
    rw [regions]
    cases request <;> simp [Effect, without, failed]

theorem allocStart_meets (ok : RegionsOk ex s.regions)
    (checked : (Request.allocRegion start size flags).check ex = .ok ()) (myrp : Bool) :
    Meets ex (.allocRegion start size flags) True s
      (allocStart ex start size flags myrp s).1 (allocStart ex start size flags myrp s).2 := by
  have within : ex.exStart ≤ start ∧ start ≤ rangeEnd start size ∧ rangeEnd start size ≤ ex.exEnd :=
    Request.within_of_check checked
  unfold allocStart
  cases place : findPlace start (rangeEnd start size) [] s.regions with
  | none =>
    obtain ⟨x, low, high, allocated⟩ :=
      findPlace_eq_none (fun r member => (ok.within r member).2.1) within.2.1 place
    have conflict : ¬∀ x, (Request.allocRegion start size flags).Names x →
        ¬Allocated s.regions x :=
      fun unused => unused x ⟨low, high⟩ allocated
    dsimp only
    split
    · refine ⟨ok, ?_, ?_⟩
      · rintro other member
        rcases mem_cons.mp member with rfl | member
        · exact .inl rfl
        · exact .inr member
      · simp [Effect, conflict, State.sleep]
    · obtain ⟨regions, requests⟩ := freeRegionDescriptor_frame ex s myrp
      refine ⟨by rw [regions]; exact ok, ?_, ?_⟩
      · rw [requests]
        exact fun _ => .inr
      · simp [Effect, conflict, regions]
  | some found =>
    obtain ⟨passed, rest⟩ := found
    obtain ⟨fits, shape⟩ := findPlace_fits ok within (by simp) place
    have adds := insertAndOptimize_adds fits myrp
    obtain ⟨regions, requests⟩ := freeRegionDescriptors_frame ex
      { s with regions := (insertAndOptimize ex start size myrp passed rest).regions }
      (insertAndOptimize ex start size myrp passed rest).freed
    refine ⟨by rw [regions]; exact adds.ok, ?_, ?_⟩
    · rw [requests]
      exact fun _ => .inr
    · have unused := fits.not_allocated
      rw [shape] at adds unused
      rw [regions]
      refine ⟨iff_of_true rfl ⟨trivial, fun x names => unused x names.1 names.2⟩, fun x => ?_⟩
      simpa [Request.Names, Request.start, Request.end_] using adds.allocated x

theorem freeStart_meets (nrp : Option Bool) (ok : RegionsOk ex s.regions)
    (checked : (Request.free start size flags).check ex = .ok ())
    (descriptor : ex.exfNocoalesce = false → nrp.isSome)
    (contained : Contained ex s.regions start (rangeEnd start size)) :
    ∃ t, freeStart ex start size nrp s = .ok (t, .ok) ∧
      Meets ex (.free start size flags) True s t .ok := by
  have within : ex.exStart ≤ start ∧ start ≤ rangeEnd start size ∧ rangeEnd start size ≤ ex.exEnd :=
    Request.within_of_check checked
  obtain ⟨surgery, result, removes⟩ := freeLoop_removes ok within.2.1 contained descriptor
  obtain ⟨regions, requests⟩ := freeRegionDescriptors_frame ex
    { s with regions := surgery.regions } surgery.freed
  unfold freeStart
  rw [result]
  refine ⟨_, rfl, ?_⟩
  generalize State.freeRegionDescriptors ex _ _ = after at regions requests ⊢
  -- the wakeup changes neither regions nor requests
  have woken : (if after.wanted then after.wakeSpace else after).regions = surgery.regions ∧
      (if after.wanted then after.wakeSpace else after).requests = s.requests := by
    split
    · exact ⟨regions, State.wakeSpace_requests.trans requests⟩
    · exact ⟨regions, requests⟩
  refine ⟨by rw [woken.1]; exact removes.ok, ?_, ?_⟩
  · rw [woken.2]
    exact fun _ => .inr
  · rw [woken.1]
    refine ⟨iff_of_true rfl trivial, fun x => ?_⟩
    simpa [Request.Names, Request.start, Request.end_] using removes.allocated x

/-- The loop of `extent_free` panics exactly when no region contains the range. -/
theorem contained_of_freeStart {nrp : Option Bool}
    (result : freeStart ex start size nrp s = .ok (t, reply)) :
    Contained ex s.regions start (rangeEnd start size) := by
  unfold freeStart at result
  cases found : freeLoop ex start (rangeEnd start size) nrp s.regions with
  | none =>
    rw [found] at result
    cases result
  | some surgery => exact contained_of_freeLoop found

section

variable (ok : RegionsOk ex s.regions)
include ok

section

variable (checked : request.check ex = .ok ())
include checked

theorem withDescriptor_isOk (allowed : request.Allowed ex s.regions) (rp : Bool) :
    ∃ t reply, withDescriptor ex request rp s = .ok (t, reply) := by
  cases request with
  | allocRegion start size flags => exact ⟨_, _, rfl⟩
  | free start size flags =>
    obtain ⟨t, result, _⟩ := freeStart_meets (some rp) ok checked (fun _ => rfl) allowed
    exact ⟨t, _, result⟩

theorem withDescriptor_meets {rp : Bool}
    (result : withDescriptor ex request rp s = .ok (t, reply)) :
    Meets ex request True s t reply := by
  cases request with
  | allocRegion start size flags =>
    have pair : allocStart ex start size flags rp s = (t, reply) := Except.ok.inj result
    have meets := allocStart_meets ok checked rp
    rw [pair] at meets
    exact meets
  | free start size flags =>
    obtain ⟨t', result', meets⟩ := freeStart_meets (some rp) ok checked (fun _ => rfl)
      (contained_of_freeStart result)
    obtain ⟨rfl, rfl⟩ := Prod.mk.inj (Except.ok.inj (result.symm.trans result'))
    exact meets

theorem getDescriptor_isOk (allowed : request.Allowed ex s.regions) :
    ∃ t reply, getDescriptor ex request memory s = .ok (t, reply) := by
  unfold getDescriptor
  cases result : allocRegionDescriptor ex request.flags memory s with
  | got s' rp =>
    obtain ⟨regions, _⟩ := allocRegionDescriptor_frame.1 rp result
    rw [← regions] at ok allowed
    exact withDescriptor_isOk ok checked allowed rp
  | null | sleeps s' place => exact ⟨_, _, rfl⟩

theorem getDescriptor_meets (result : getDescriptor ex request memory s = .ok (t, reply)) :
    Meets ex request ((allocRegionDescriptor ex request.flags memory s).isGot = true) s
      t reply := by
  unfold getDescriptor at result
  cases outcome : allocRegionDescriptor ex request.flags memory s with
  | got s' rp =>
    rw [outcome] at result
    obtain ⟨regions, calls⟩ := allocRegionDescriptor_frame.1 rp outcome
    have requests : s'.requests = s.requests := congrArg (List.map _) calls
    have meets := withDescriptor_meets (by rw [regions]; exact ok) checked result
    have effect := meets.effect
    rw [regions] at effect
    refine ⟨meets.ok, ?_, ?_⟩
    · rw [← requests]
      exact meets.requests
    · simpa [Descriptor.isGot] using effect
  | null =>
    rw [outcome] at result
    cases result
    exact .failed ok (by simp [Descriptor.isGot]) (by simp) rfl (fun _ => .inr)
  | sleeps s' place =>
    rw [outcome] at result
    cases result
    obtain ⟨regions, calls⟩ := allocRegionDescriptor_frame.2 place outcome
    have requests : (s'.sleep request place).requests = request :: s.requests := by
      simp [State.requests, State.sleep, calls]
    refine .failed ok (by simp [Descriptor.isGot]) (by simp) regions ?_
    rw [requests]
    exact fun other => mem_cons.mp

end

end

end Calls

/-! ### Steps and runs -/

section Steps

variable {ex : Extent} {label : Label} {s t : State} {reply : Reply} {request : Request}
  {memory : Bool}

/-- Whether a descriptor can be had does not depend on the calls that sleep. -/
theorem allocRegionDescriptor_isGot_calls (flags : Flags) (memory : Bool) (calls : List Waiting) :
    (allocRegionDescriptor ex flags memory { s with calls }).isGot =
      (allocRegionDescriptor ex flags memory s).isGot := by
  unfold allocRegionDescriptor poolGet
  cases s.freelist <;> split_ifs <;> rfl

theorem call_eq (request : Request) (memory : Bool) (checked : request.check ex = .ok ()) :
    call ex request memory s = afterChecks ex request memory s := by
  unfold call
  rw [checked]
  rfl

/-- A call that is allowed does not panic. -/
theorem step_isOk (inv : Inv ex s) (checked : label.request.check ex = .ok ())
    (allowed : label.request.Allowed ex s.regions) {result : Except Panic (State × Reply)}
    (stepped : step ex label s = some result) : ∃ t reply, result = .ok (t, reply) := by
  cases label with
  | call request memory =>
    cases stepped
    rw [call_eq request memory checked]
    cases request with
    | allocRegion start size flags => exact getDescriptor_isOk inv.ok checked allowed
    | free start size flags =>
      unfold afterChecks
      dsimp only
      split
      case isTrue nocoalesce =>
        obtain ⟨t, result, _⟩ := freeStart_meets none inv.ok checked
          (by simp [nocoalesce]) allowed
        exact ⟨t, _, result⟩
      case isFalse => exact getDescriptor_isOk inv.ok checked allowed
  | resume waiting memory =>
    unfold step at stepped
    dsimp only at stepped
    split at stepped
    case isTrue =>
      cases stepped
      unfold resume
      cases waiting.place with
      | freelist => exact getDescriptor_isOk inv.ok checked allowed
      | pool =>
        exact withDescriptor_isOk (s := { s with calls := s.calls.erase waiting }) inv.ok
          checked allowed true
      | space myrp =>
        exact withDescriptor_isOk (s := { s with calls := s.calls.erase waiting }) inv.ok
          checked allowed myrp
    case isFalse => cases stepped
  | interrupt waiting restart =>
    unfold step at stepped
    dsimp only at stepped
    split at stepped
    case isTrue =>
      cases stepped
      exact ⟨_, _, rfl⟩
    case isFalse => cases stepped

theorem call_meets (inv : Inv ex s) (result : call ex request memory s = .ok (t, reply)) :
    request.check ex = .ok () ∧
      Meets ex request (hasDescriptor ex (.call request memory) s = true) s t reply := by
  cases checked : request.check ex with
  | error panic =>
    unfold call at result
    rw [checked] at result
    cases result
  | ok =>
    refine ⟨rfl, ?_⟩
    rw [call_eq request memory checked] at result
    cases request with
    | allocRegion start size flags => exact getDescriptor_meets inv.ok checked result
    | free start size flags =>
      unfold afterChecks at result
      dsimp only at result
      split at result
      case isTrue nocoalesce =>
        obtain ⟨t', result', meets⟩ := freeStart_meets none inv.ok checked
          (by simp [nocoalesce]) (contained_of_freeStart result)
        obtain ⟨rfl, rfl⟩ := Prod.mk.inj (Except.ok.inj (result.symm.trans result'))
        simpa [hasDescriptor, nocoalesce] using meets
      case isFalse coalesce =>
        have meets := getDescriptor_meets inv.ok checked result
        simpa [hasDescriptor, coalesce, Request.flags] using meets

/-- A call that slept has left the list of those that sleep. -/
theorem Meets.of_erase (waiting : Waiting)
    (meets : Meets ex request had { s with calls := s.calls.erase waiting } t reply) :
    Meets ex request had s t reply where
  ok := meets.ok
  requests other member := by
    refine (meets.requests other member).imp_right fun earlier => ?_
    obtain ⟨w, present, rfl⟩ := mem_map.mp earlier
    exact mem_map.mpr ⟨w, mem_of_mem_erase present, rfl⟩
  effect := meets.effect

theorem resume_meets {waiting : Waiting} (ok : RegionsOk ex s.regions)
    (checked : waiting.request.check ex = .ok ())
    (result : resume ex waiting memory { s with calls := s.calls.erase waiting } =
      .ok (t, reply)) :
    Meets ex waiting.request (hasDescriptor ex (.resume waiting memory) s = true) s t reply := by
  have base : RegionsOk ex { s with calls := s.calls.erase waiting }.regions := ok
  apply Meets.of_erase waiting
  unfold resume at result
  unfold hasDescriptor
  cases place : waiting.place with
  | freelist =>
    rw [place] at result
    have meets := getDescriptor_meets base checked result
    rw [allocRegionDescriptor_isGot_calls] at meets
    simpa [place] using meets
  | pool | space myrp =>
    rw [place] at result
    simpa [place] using withDescriptor_meets base checked result

/-- A step that does not panic has the effect of its call. -/
theorem step_meets (inv : Inv ex s) (stepped : step ex label s = some (.ok (t, reply))) :
    label.request.check ex = .ok () ∧
      Meets ex label.request (hasDescriptor ex label s = true) s t reply := by
  cases label with
  | call request memory => exact call_meets inv (Option.some.inj stepped)
  | resume waiting memory =>
    unfold step at stepped
    dsimp only at stepped
    split at stepped
    case isTrue sleeps =>
      have checked := inv.checked _ (mem_map_of_mem sleeps.1)
      exact ⟨checked, resume_meets inv.ok checked (Option.some.inj stepped)⟩
    case isFalse => cases stepped
  | interrupt waiting restart =>
    unfold step at stepped
    dsimp only at stepped
    split at stepped
    case isTrue sleeps =>
      have pair := Except.ok.inj (Option.some.inj stepped)
      refine ⟨inv.checked _ (mem_map_of_mem sleeps.1), Meets.of_erase waiting ?_⟩
      unfold interrupted at pair
      split at pair
      · obtain ⟨rfl, rfl⟩ := Prod.mk.inj pair
        exact .failed inv.ok (by simp [hasDescriptor]) (by simp) rfl (fun _ => .inr)
      · obtain ⟨rfl, rfl⟩ := Prod.mk.inj pair
        exact .failed inv.ok (by simp [hasDescriptor]) (by simp) rfl (fun _ => .inr)
    case isFalse => cases stepped

theorem next_inv (inv : Inv ex s) (stepped : next ex label s = some t) : Inv ex t := by
  unfold next at stepped
  split at stepped
  case h_1 s' reply result =>
    cases stepped
    obtain ⟨checked, meets⟩ := step_meets inv result
    refine ⟨meets.ok, ?_⟩
    intro other member
    rcases meets.requests other member with rfl | earlier
    · exact checked
    · exact inv.checked other earlier
  case h_2 => cases stepped

theorem extentCreate_inv {storage : Nat} {filled : Bool}
    (created : extentCreate ex storage filled flags memory = some s) : Inv ex s := by
  have whole (rp : Bool) : RegionsOk ex [⟨ex.exStart, ex.exEnd, rp⟩] :=
    ⟨by simpa [Extent.Within] using ex.valid, pairwise_singleton _ _⟩
  unfold extentCreate at created
  dsimp only at created
  split at created
  case isTrue =>
    split at created
    case h_1 s' rp found =>
      cases created
      obtain ⟨_, calls⟩ := allocRegionDescriptor_frame.1 rp found
      exact ⟨whole rp, by simp [State.requests, calls]⟩
    case h_2 => cases created
    case h_3 s' found =>
      cases created
      obtain ⟨_, calls⟩ := allocRegionDescriptor_frame.2 _ found
      exact ⟨whole true, by simp [State.requests, calls]⟩
    case h_4 => cases created
  case isFalse =>
    cases created
    exact ⟨⟨by simp, .nil⟩, by simp [State.requests]⟩

end Steps

section Main

variable {ex : Extent} {storage : Nat} {filled : Bool} {createFlags : Flags} {memory : Bool}
  {s₀ s : State}

/-- From a created extent, in every state that the calls lead to: the regions are in order,
and a call whose arguments pass the checks does not panic if it allocates, or frees a range
that one region contains.  It allocates the range exactly if it has a descriptor and no
address of the range is allocated; it frees the range exactly if it has a descriptor, or
needs none; in all other cases the set stays as it is. -/
theorem extent_refines_set (created : extentCreate ex storage filled createFlags memory = some s₀)
    (run : Run (next ex) anyStep s₀ s) :
    RegionsOk ex s.regions ∧
      ∀ label result, step ex label s = some result → label.request.check ex = .ok () →
        label.request.Allowed ex s.regions → ∃ t reply, result = .ok (t, reply) ∧
            Effect label.request (hasDescriptor ex label s = true) s.regions t.regions reply := by
  have inv : Inv ex s :=
    run.invariant (fun _ _ _ inv _ stepped => next_inv inv stepped) (extentCreate_inv created)
  refine ⟨inv.ok, ?_⟩
  rintro label result stepped checked allowed
  obtain ⟨t, reply, rfl⟩ := step_isOk inv checked allowed stepped
  exact ⟨t, reply, rfl, (step_meets inv stepped).2.effect⟩

end Main

/-- A fixed extent of ten addresses. -/
def fixedExtent : Extent :=
  ⟨0, 9, true, false, by decide⟩

def nowait : Flags :=
  ⟨false, false, false, false⟩

/-- The second region closes the gap before the first, and a part is taken out of both. -/
theorem sampleRun_refines_set :
    ∃ s, Run (next fixedExtent) anyStep ⟨[], [false, false], false, false, []⟩ s ∧
      s.regions = [⟨2, 4, false⟩, ⟨6, 9, false⟩] ∧ RegionsOk fixedExtent s.regions := by
  refine exec_implies (Q := fun s => s.regions = [⟨2, 4, false⟩, ⟨6, 9, false⟩])
    [.call (.allocRegion 5 5 nowait) false, .call (.allocRegion 2 3 nowait) false,
      .call (.free 5 1 nowait) false] (by decide +kernel) ?_
  intro s run test
  have created : extentCreate fixedExtent 2 false nowait false =
      some ⟨[], [false, false], false, false, []⟩ := by rfl
  exact ⟨test, (extent_refines_set created run).1⟩

/-- With no descriptor left in a fixed extent, an address that is not allocated cannot be
had, and one that a region contains is not freed. -/
theorem no_descriptor_no_change : ∃ s₀ s, extentCreate fixedExtent 1 false nowait false = some s₀ ∧
      Run (next fixedExtent) anyStep s₀ s ∧
      (∀ x, (Request.allocRegion 6 1 nowait).Names x → ¬Allocated s.regions x) ∧
      step fixedExtent (.call (.allocRegion 6 1 nowait) false) s = some (.ok (s, .error .enomem)) ∧
      Contained fixedExtent s.regions 0 (rangeEnd 0 1) ∧
      step fixedExtent (.call (.free 0 1 nowait) false) s = some (.ok (s, .error .enomem)) := by
  refine ⟨_, ⟨[⟨0, 3, false⟩], [], false, false, []⟩, rfl,
    exec_run [.call (.allocRegion 0 4 nowait) false] rfl, ?_, rfl, by decide, rfl⟩
  rintro x ⟨low, _⟩ ⟨r, member, _, high⟩
  obtain rfl := mem_singleton.mp member
  change 6 ≤ x at low
  change x ≤ 3 at high
  omega

end Bitrig.SubrExtent
