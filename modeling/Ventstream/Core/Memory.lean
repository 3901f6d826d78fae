import Mathlib

/-! # The memory budget

`MemoryBudget` of `memory.rs` bounds the bytes of all events that the engine retains. A reservation
reads the pressure once, then tries to raise the counter with a compare-and-swap that may fail
without a cause. Tasks reserve and release, and the pressure changes, in any order.
-/

namespace Ventstream.Core

open List hiding next after

inductive MemoryPressure where
  | normal
  | constrained
  | high
  | critical

inductive MemoryAdmission where
  | direct
  | transformInput
  | transformOutput
  deriving DecidableEq

/-- The admission is kept for what is said of the live ones. -/
structure MemoryReservation where
  bytes : Nat
  admission : MemoryAdmission

structure MemoryBudget where
  hardLimitBytes : Nat
  maxEventBytes : Nat

namespace MemoryBudget

def new (hardLimitBytes maxEventBytes : UInt64) : MemoryBudget :=
  let hard := max hardLimitBytes.toNat 1
  ⟨hard, min (max maxEventBytes.toNat 1) (max (hard / 4) 1)⟩

def percent : MemoryPressure → MemoryAdmission → Nat
  | .normal, .transformInput => 70
  | .normal, _ => 100
  | .constrained, .transformInput => 35
  | .constrained, _ => 65
  | .high, .transformInput => 15
  | .high, .transformOutput => 50
  | .high, .direct => 45
  | .critical, .transformInput => 5
  | .critical, .transformOutput => 50
  | .critical, .direct => 25

/-- The product saturates, and is divided by a hundred and rounded up. -/
def admissionLimit (budget : MemoryBudget) (pressure : MemoryPressure)
    (admission : MemoryAdmission) : Nat :=
  min (max ((min (budget.hardLimitBytes * percent pressure admission) (2 ^ 64 - 1) + 99) / 100)
    budget.maxEventBytes) budget.hardLimitBytes

/-- What the counter is to be raised to. -/
def next? (limit used charge : Nat) : Option Nat :=
  if used + charge < 2 ^ 64 ∧ used + charge ≤ limit then some (used + charge) else none

/-- A task in `try_reserve_inner`: it has its limit, and then what it last saw of the counter. -/
inductive Attempt where
  | idle
  | limited (claim : MemoryReservation) (limit : Nat)
  | loaded (claim : MemoryReservation) (limit used : Nat)

structure State where
  used : Nat
  pressure : MemoryPressure
  attempts : Nat → Attempt
  live : List MemoryReservation

def State.put (state : State) (task : Nat) (attempt : Attempt) : State :=
  { state with attempts := Function.update state.attempts task attempt }

/-- The atomic steps of any number of tasks. Only a claim that passed `validate_event_size`
    enters; a task that `reserve` wakes up enters again. -/
inductive Step (budget : MemoryBudget) (state : State) : State → Prop where
  | enter (task : Nat) : state.attempts task = .idle → 0 < claim.bytes →
      claim.bytes ≤ budget.maxEventBytes → Step budget state
        (state.put task (.limited claim (budget.admissionLimit state.pressure claim.admission)))
  | load (task : Nat) : state.attempts task = .limited claim limit →
      Step budget state (state.put task (.loaded claim limit state.used))
  | refuse (task : Nat) : state.attempts task = .loaded claim limit used →
      next? limit used claim.bytes = none → Step budget state (state.put task .idle)
  | retry (task : Nat) : state.attempts task = .loaded claim limit used →
      next? limit used claim.bytes = some next →
      Step budget state (state.put task (.loaded claim limit state.used))
  | reserve (task : Nat) : state.attempts task = .loaded claim limit state.used →
      next? limit state.used claim.bytes = some next →
      Step budget state { state.put task .idle with used := next, live := claim :: state.live }
  | release : state.live = before ++ freed :: after → Step budget state
      { state with used := (state.used + 2 ^ 64 - freed.bytes) % 2 ^ 64, live := before ++ after }
  | setPressure (pressure : MemoryPressure) : Step budget state { state with pressure := pressure }

abbrev Reachable (budget : MemoryBudget) : State → Prop :=
  Relation.ReflTransGen (Step budget) ⟨0, .normal, fun _ => .idle, []⟩

def charged (live : List MemoryReservation) : Nat := (live.map (·.bytes)).sum

def inputs (live : List MemoryReservation) : List MemoryReservation :=
  live.filter (·.admission = .transformInput)

/-- A task has the limit of some pressure. -/
def Attempt.Fits (budget : MemoryBudget) : Attempt → Prop
  | .idle => True
  | .limited claim limit | .loaded claim limit _ =>
    ∃ pressure, limit = budget.admissionLimit pressure claim.admission

structure Balanced (budget : MemoryBudget) (state : State) : Prop where
  used : state.used = charged state.live
  within : state.used ≤ budget.hardLimitBytes
  few : charged (inputs state.live) ≤ budget.admissionLimit .normal .transformInput
  attempts : ∀ task, (state.attempts task).Fits budget

variable {budget : MemoryBudget} {state : State}

theorem charged_le_of_sublist (inside : live <+ more) : charged live ≤ charged more :=
  (inside.map _).sum_le_sum (by simp)

theorem admissionLimit_input_le (budget : MemoryBudget) (pressure : MemoryPressure) :
    budget.admissionLimit pressure .transformInput ≤
      budget.admissionLimit .normal .transformInput := by
  unfold admissionLimit percent
  cases pressure <;> simp only <;> omega

theorem Balanced.put (balanced : Balanced budget state) (task : Nat) (attempt : Attempt)
    (fits : attempt.Fits budget) : Balanced budget (state.put task attempt) := by
  refine ⟨balanced.used, balanced.within, balanced.few, ?_⟩
  intro other
  by_cases same : other = task
  · subst same
    simpa [State.put] using fits
  · simpa [State.put, same] using balanced.attempts other

theorem Balanced.reserve (balanced : Balanced budget state)
    (fits : (Attempt.loaded claim limit state.used).Fits budget)
    (raises : next? limit state.used claim.bytes = some next) (task : Nat) :
    Balanced budget { state.put task .idle with used := next, live := claim :: state.live } := by
  obtain ⟨pressure, rfl⟩ := fits
  obtain ⟨⟨-, below⟩, rfl⟩ := Option.ite_some_none_eq_some.mp raises
  have isUsed := balanced.used
  refine ⟨?_, below.trans (min_le_right _ _), ?_, (balanced.put task .idle trivial).attempts⟩
  · simp [charged, isUsed, Nat.add_comm]
  · by_cases isInput : claim.admission = .transformInput
    · -- The counter the task saw covers the inputs that are live.
      have rest : charged (inputs state.live) ≤ charged state.live :=
        charged_le_of_sublist filter_sublist
      have limit := admissionLimit_input_le budget pressure
      have total : charged (inputs (claim :: state.live)) =
          claim.bytes + charged (inputs state.live) := by simp [inputs, charged, isInput]
      rw [isInput] at below
      exact total.trans_le (by omega)
    · simpa [inputs, isInput] using balanced.few

theorem Balanced.step (balanced : Balanced budget state) (word : budget.hardLimitBytes < 2 ^ 64)
    (step : Step budget state later) : Balanced budget later := by
  cases step with
  | enter task => exact balanced.put task _ ⟨_, rfl⟩
  | load task isAttempt | retry task isAttempt =>
    have fits := balanced.attempts task
    rw [isAttempt] at fits
    exact balanced.put task _ fits
  | refuse task => exact balanced.put task _ trivial
  | reserve task isAttempt raises =>
    have fits := balanced.attempts task
    rw [isAttempt] at fits
    exact balanced.reserve fits raises task
  | @release before freed after split =>
    obtain ⟨isUsed, within, few, attempts⟩ := balanced
    have total : state.used = freed.bytes + charged (before ++ after) := by
      simp only [isUsed, split, charged, map_append, map_cons, sum_append, sum_cons]
      omega
    have left : (state.used + 2 ^ 64 - freed.bytes) % 2 ^ 64 = charged (before ++ after) := by omega
    refine ⟨left, left.le.trans (by omega), ?_, attempts⟩
    refine le_trans (charged_le_of_sublist ?_) few
    rw [split]
    exact ((sublist_cons_self freed after).append_left before).filter _
  | setPressure => exact ⟨balanced.used, balanced.within, balanced.few, balanced.attempts⟩

theorem Reachable.balanced (reached : Reachable (new hard event) state) :
    Balanced (new hard event) state := by
  have word : (new hard event).hardLimitBytes < 2 ^ 64 := by
    have := hard.toNat_lt
    simp only [new]
    omega
  induction reached with
  | refl => exact ⟨rfl, Nat.zero_le _, Nat.zero_le _, fun _ => trivial⟩
  | tail _ step ih => exact ih.step word step

/-- In whatever order the tasks take their steps, the counter is the sum of the live charges, and
    never above the hard limit. -/
theorem used_eq_charged {hard event : UInt64} {state : State}
    (reached : Reachable (new hard event) state) :
    state.used = charged state.live ∧ state.used ≤ max hard.toNat 1 :=
  ⟨(Reachable.balanced reached).used, (Reachable.balanced reached).within⟩

/-- Live inputs, admitted under whatever pressure, leave an output its room under normal pressure.
    Below four bytes there is none, and large products saturate. -/
theorem inputs_leave_headroom {hard event : UInt64} {state : State}
    (reached : Reachable (new hard event) state)
    (four : 4 ≤ hard.toNat) (product : 100 * hard.toNat < 2 ^ 64)
    (onlyInputs : ∀ claim ∈ state.live, claim.admission = .transformInput) (charge : Nat)
    (fits : charge ≤ (new hard event).maxEventBytes) :
    next? ((new hard event).admissionLimit .normal .transformOutput) state.used charge =
      some (state.used + charge) := by
  have all : inputs state.live = state.live := filter_eq_self.mpr (by simpa using onlyInputs)
  have few := (Reachable.balanced reached).few
  rw [all, ← (Reachable.balanced reached).used] at few
  refine if_pos ?_
  simp only [new, admissionLimit, percent] at fits few ⊢
  omega

/-- An input of two bytes is live. -/
theorem reachable_input : ∃ state, Reachable (new 8 2) state ∧ state.used = 2 ∧
    state.live = [⟨2, .transformInput⟩] := by
  have entered : Reachable (new 8 2) _ :=
    .single (@Step.enter _ _ ⟨2, .transformInput⟩ 0 rfl (by decide) (by decide))
  have loaded := entered.tail (.load 0 rfl)
  exact ⟨_, loaded.tail (.reserve 0 rfl rfl), rfl, rfl⟩

theorem used_eq_charged_input : ∃ state : State, state.live = [⟨2, .transformInput⟩] ∧
    state.used = charged state.live := by
  obtain ⟨state, reached, -, isLive⟩ := reachable_input
  exact ⟨state, isLive, (used_eq_charged reached).1⟩

theorem inputs_leave_headroom_input : next? 8 2 2 = some 4 := by
  obtain ⟨state, reached, isUsed, isLive⟩ := reachable_input
  have leaves :=
    inputs_leave_headroom reached (by decide) (by decide) (by simp [isLive]) 2 (by decide)
  rwa [isUsed] at leaves

end MemoryBudget

end Ventstream.Core
