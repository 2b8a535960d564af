import Mathlib

/-!
# Logs of map updates

A log is a list of updates of a partial map, oldest first: an update writes a
value at one key or erases some keys.  What the log leaves at a key is decided
by the last update that touches it.
-/

namespace Bitrig

open List

universe u v w

/-- One update of a partial map. -/
inductive Update (K : Type u) (V : Type v)
  | write (key : K) (value : V)
  | erase (keys : List K)

namespace Update

variable {K : Type u} {V : Type v} {W : Type w}

/-- The keys whose value an update decides. -/
def Touches (key : K) : Update K V → Prop
  | .write other _ => key = other
  | .erase keys => key ∈ keys

/-- The same update with other values. -/
def map (f : V → W) : Update K V → Update K W
  | .write key value => .write key (f value)
  | .erase keys => .erase keys

variable [DecidableEq K]

/-- The map after an update. -/
def apply (table : K → Option V) : Update K V → K → Option V
  | .write key value => fun other => if other = key then some value else table other
  | .erase keys => fun other => if other ∈ keys then none else table other

/-- The map after a log. -/
def replay (table : K → Option V) (log : List (Update K V)) : K → Option V :=
  log.foldl apply table

variable {table : K → Option V}

@[simp]
theorem replay_nil : replay table [] = table :=
  rfl

@[simp]
theorem replay_cons (update : Update K V) (log : List (Update K V)) :
    replay table (update :: log) = replay (apply table update) log :=
  rfl

theorem replay_append (first second : List (Update K V)) :
    replay table (first ++ second) = replay (replay table first) second :=
  foldl_append

theorem apply_erase_cons (key : K) (keys : List K) :
    apply table (.erase (key :: keys)) = apply (apply table (.erase [key])) (.erase keys) := by
  funext other
  by_cases later : other ∈ keys
  · simp [apply, later]
  · simp [apply, later]

theorem apply_of_not_touches {update : Update K V} {key : K} (other : ¬update.Touches key) :
    apply table update key = table key := by
  cases update with
  | write _ _ | erase _ => exact if_neg other

/-- Replaying commutes with a change of the values. -/
theorem replay_map (f : V → W) (log : List (Update K V)) (key : K) :
    replay (fun other => (table other).map f) (log.map (Update.map f)) key =
      (replay table log key).map f := by
  induction log generalizing table with
  | nil => rfl
  | cons update log ih =>
    have step : apply (fun other => (table other).map f) (update.map f) =
        fun other => (apply table update other).map f := by
      funext other
      cases update with
      | write written value | erase keys =>
        simp only [apply, Update.map]
        split <;> rfl
    rw [map_cons, replay_cons, replay_cons, step, ih]

/-- A value that the log leaves at a key is its last write there: no later
update touches the key. -/
theorem replay_eq_some_iff {log : List (Update K V)} {key : K} {value : V} :
    replay (fun _ => none) log key = some value ↔
      ∃ before after, log = before ++ .write key value :: after ∧
        ∀ update ∈ after, ¬update.Touches key := by
  -- from the end of the log: its last update decides, or it does not touch the key
  induction log using List.reverseRecOn with
  | nil => simp
  | append_singleton log update ih =>
    rw [replay_append, replay_cons, replay_nil]
    constructor
    · intro found
      by_cases touched : update.Touches key
      · cases update with
        | write written written' =>
          have same : key = written := touched
          subst same
          have equal : written' = value := by
            simpa [apply] using found
          exact ⟨log, [], by rw [equal], by simp⟩
        | erase keys =>
          have erased : key ∈ keys := touched
          simp [apply, erased] at found
      · rw [apply_of_not_touches touched] at found
        rcases ih.mp found with ⟨before, after, rfl, untouched⟩
        exact ⟨before, after ++ [update], by simp,
          forall_mem_append.mpr ⟨untouched, forall_mem_singleton.mpr touched⟩⟩
    · rintro ⟨before, after, split, untouched⟩
      rcases eq_nil_or_concat after with rfl | ⟨front, last, rfl⟩
      · rcases append_inj' split rfl with ⟨_, single⟩
        rw [List.cons.inj single |>.1]
        exact if_pos rfl
      · have parts : log = before ++ .write key value :: front ∧ update = last := by
          have regrouped : log ++ [update] = (before ++ .write key value :: front) ++ [last] := by
            simpa using split
          rcases append_inj' regrouped rfl with ⟨fronts, lasts⟩
          exact ⟨fronts, List.cons.inj lasts |>.1⟩
        have untouchedLast : ¬update.Touches key := by
          rw [parts.2]
          exact untouched last (by simp)
        rw [apply_of_not_touches untouchedLast, ih]
        refine ⟨before, front, parts.1, ?_⟩
        intro later member
        exact untouched later (by simp [member])

end Update

end Bitrig
