import Mathlib

/-! # The cap on connections

`try_admit` raises the counter before it compares it with the cap, and takes the increment
back when the call is refused. Until then the refused call counts as a connection.
-/

namespace Ventstream.Realtime.Admission

open List hiding after
open Relation

/-- A running `try_admit`: what `fetch_add` gave it, and whether as many guards as the cap were
    live at some moment since the call began. -/
structure Call where
  raised : Option Nat
  sawFull : Bool

structure Registry where
  active : Nat
  guards : Nat
  calls : List Call
  /-- The `sawFull` of the calls that returned `None`. -/
  refused : List Bool

/-- The check after the increment. -/
def exceeds (max : Option Nat) (n : Nat) : Bool := max.any (· < n)

def Registry.observe (max : Option Nat) (registry : Registry) : Registry :=
  { registry with calls := registry.calls.map fun call =>
      { call with sawFull := call.sawFull || max = some registry.guards } }

/-- The atomic steps of the calls and of the guards that are dropped. -/
inductive Step (max : Option Nat) : Registry → Registry → Prop
  | start : Step max ⟨active, guards, calls, refused⟩
      (Registry.observe max ⟨active, guards, ⟨none, false⟩ :: calls, refused⟩)
  | fetchAdd : Step max ⟨active, guards, front ++ ⟨none, sawFull⟩ :: back, refused⟩
      (Registry.observe max
        ⟨active + 1, guards, front ++ ⟨some (active + 1), sawFull⟩ :: back, refused⟩)
  | accept : exceeds max n = false →
      Step max ⟨active, guards, front ++ ⟨some n, sawFull⟩ :: back, refused⟩
        (Registry.observe max ⟨active, guards + 1, front ++ back, refused⟩)
  | rollBack : exceeds max n →
      Step max ⟨active, guards, front ++ ⟨some n, sawFull⟩ :: back, refused⟩
        (Registry.observe max ⟨active - 1, guards, front ++ back, sawFull :: refused⟩)
  | drop : Step max ⟨active, guards + 1, calls, refused⟩
      (Registry.observe max ⟨active - 1, guards, calls, refused⟩)

/-- The states that a new registry gets to with at most `width` calls at a time. -/
def Reachable (max : Option Nat) (width : Nat) : Registry → Prop :=
  ReflTransGen (fun before after => Step max before after ∧ after.calls.length ≤ width)
    ⟨0, 0, [], []⟩

/-- The counter has the guards and the calls that raised it, and the guards leave room for the
    calls that will be admitted. -/
structure Sound (max : Option Nat) (registry : Registry) : Prop where
  counted : registry.active = registry.guards + registry.calls.countP (·.raised.isSome)
  within : ∀ cap, max = some cap →
    registry.guards + registry.calls.countP (·.raised.any (· ≤ cap)) ≤ cap

variable {max : Option Nat} {registry : Registry}

theorem countP_raised_le (cap : Nat) (calls : List Call) :
    calls.countP (·.raised.any (· ≤ cap)) ≤ calls.countP (·.raised.isSome) :=
  countP_mono_left fun call _ => by cases h : call.raised <;> simp

theorem Step.sound (step : Step max before after) (sound : Sound max before) : Sound max after := by
  obtain ⟨counted, within⟩ := sound
  constructor
  · cases step <;> simp_all [Registry.observe, countP_map, Function.comp_def, countP_cons] <;> omega
  · intro cap isCap
    have room := within cap isCap
    cases step with
    | @fetchAdd active _ front back =>
      have fewer := countP_raised_le cap (front ++ back)
      simp_all [Registry.observe, countP_map, Function.comp_def, countP_cons]
      split <;> omega
    | _ =>
      simp_all [Registry.observe, countP_map, Function.comp_def, countP_cons, exceeds] <;> omega

theorem Reachable.sound (reachable : Reachable max width registry) : Sound max registry := by
  induction reachable with
  | refl => exact ⟨rfl, by simp⟩
  | tail _ step ih => exact step.1.sound ih

/-- A call that is or will be refused saw as many guards as the cap. -/
def Justified (max : Option Nat) (registry : Registry) : Prop :=
  (∀ call ∈ registry.calls, ∀ n, call.raised = some n → exceeds max n → call.sawFull) ∧
    ∀ sawFull ∈ registry.refused, sawFull = true

theorem justified_observe (refused : ∀ sawFull ∈ registry.refused, sawFull = true)
    (calls : ∀ call ∈ registry.calls, ∀ n, call.raised = some n → exceeds max n →
      call.sawFull ∨ max = some registry.guards) : Justified max (registry.observe max) := by
  refine ⟨fun call isCall => ?_, refused⟩
  obtain ⟨earlier, isEarlier, rfl⟩ := mem_map.mp isCall
  simpa using calls earlier isEarlier

theorem Step.justified (step : Step max before after) (sound : Sound max before)
    (apart : max = none ∨ max = some 0 ∨ after.calls.length ≤ 1)
    (justified : Justified max before) : Justified max after := by
  obtain ⟨calls, refused⟩ := justified
  cases step with
  | @fetchAdd active guards front back =>
    have isFull : exceeds max (active + 1) → max = some guards := by
      intro exceeded
      obtain ⟨cap, rfl, below⟩ := (Option.any_eq_true _ _).mp exceeded
      have room := sound.within cap rfl
      have counted := sound.counted
      have few := countP_le_length (p := fun call : Call => call.raised.isSome) (l := front ++ back)
      simp_all [Registry.observe]
      omega
    exact justified_observe refused (by grind)
  | @rollBack n _ _ _ _ _ sawFull exceeded =>
    have own := calls ⟨some n, sawFull⟩ (by simp) n rfl exceeded
    exact justified_observe (forall_mem_cons.mpr ⟨own, refused⟩) (by grind)
  | _ => exact justified_observe refused (by grind)

theorem reachable_full {cap : Nat} (wide : 0 < width) (n : Nat) (fits : n ≤ cap) :
    Reachable (some cap) width ⟨n, n, [], []⟩ := by
  induction n with
  | zero => exact .refl
  | succ n ih =>
    refine (((ih (by omega)).tail ⟨.start, ?_⟩).tail ⟨@Step.fetchAdd _ _ _ [] [] _ _, ?_⟩).tail
      ⟨@Step.accept _ (n + 1) _ _ [] [] _ _ ?_, ?_⟩
    · exact wide
    · exact wide
    · simpa [exceeds] using fits
    · simp

theorem refused_early (cap : Nat) (wide : 1 < width) :
    ∃ registry, Reachable (some (cap + 1)) width registry ∧ false ∈ registry.refused := by
  have filled := @reachable_full width (cap + 1) (by omega) (cap + 1) le_rfl
  refine ⟨_, (((((filled.tail ⟨.start, ?_⟩).tail ⟨@Step.fetchAdd _ _ _ [] [] _ _, ?_⟩).tail
    ⟨.drop, ?_⟩).tail ⟨.start, ?_⟩).tail ⟨@Step.fetchAdd _ _ _ [] [_] _ _, ?_⟩).tail
      ⟨@Step.rollBack _ (cap + 2) _ _ [] [_] _ _ ?_, ?_⟩, ?_⟩ <;>
    simp [Registry.observe, exceeds] <;> omega

/-- With the cap at `max` and at most `width` calls at a time, the guards never exceed the cap
    and the counter is right between the calls. Each refusal has its reason if there is no cap,
    if nothing is ever admitted, or if no two calls overlap, and only then. -/
theorem cap_exact_iff (max : Option Nat) (width : Nat) : (∀ registry, Reachable max width registry →
      (∀ cap, max = some cap → registry.guards ≤ cap) ∧
      ((∀ call ∈ registry.calls, call.raised = none) → registry.active = registry.guards)) ∧
    ((∀ registry, Reachable max width registry → ∀ sawFull ∈ registry.refused, sawFull = true) ↔
      max = none ∨ max = some 0 ∨ width ≤ 1) := by
  refine ⟨fun registry reachable => ?_, fun always => ?_, fun apart registry reachable => ?_⟩
  · obtain ⟨counted, within⟩ := reachable.sound
    refine ⟨fun cap isCap => Nat.le_of_add_right_le (within cap isCap), fun idle => ?_⟩
    rw [counted, countP_eq_zero.mpr (by simpa using idle), Nat.add_zero]
  · by_contra overlap
    obtain ⟨cap, rfl⟩ : ∃ cap, max = some (cap + 1) := by
      rcases max with _ | _ | cap <;> simp_all
    obtain ⟨registry, reachable, early⟩ := @refused_early width cap (by omega)
    exact absurd (always registry reachable false early) (by decide)
  · have justified : Justified max registry := by
      induction reachable with
      | refl => exact ⟨by simp, by simp⟩
      | tail reached step ih =>
        refine step.1.justified (Reachable.sound reached) ?_ ih
        exact apart.imp_right (Or.imp_right step.2.trans)
    exact justified.2

/-- With a cap of one, a second call is refused while no guard is live, because the first has
    not yet taken its increment back. -/
theorem refused_below_cap : ∃ registry, Reachable (some 1) 2 registry ∧ false ∈ registry.refused :=
  refused_early 0 (by decide)

end Ventstream.Realtime.Admission
