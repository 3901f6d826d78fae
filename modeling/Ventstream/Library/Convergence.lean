import Mathlib

/-! # A copy that is refreshed in rounds

A value changes step by step. A copy of it is kept in rounds: each round covers the
steps up to some point, and either leaves the copy alone or replaces it by the value
at that point or a later one. The copy ends up right if no change goes unnoticed:
once the value changes, a round that covers this step or a later one refreshes the
copy.
-/

namespace Ventstream.Library

universe u

theorem exists_last {holds : Nat → Prop} (bounded : ∀ point, holds point → point ≤ bound)
    (atFirst : holds first) :
    ∃ last, first ≤ last ∧ holds last ∧ ∀ later, last < later → ¬ holds later := by
  classical
  have within := bounded first atFirst
  refine ⟨Nat.findGreatest holds bound, Nat.le_findGreatest within atFirst,
    Nat.findGreatest_spec within atFirst, fun later after atLater => ?_⟩
  exact Nat.findGreatest_is_greatest after (bounded later atLater) atLater

/-- The value at the end of a round or later. -/
def Fresh {δ : Type u} (value : Nat → δ) (reached final : Nat) (copy : δ) : Prop :=
  ∃ seen, reached ≤ seen ∧ seen ≤ final ∧ copy = value seen

/-- The copies of a value after each of some rounds. -/
structure Refreshed {δ : Type u} (value : Nat → δ) (reached : Nat → Nat) (final rounds : Nat)
    (copies : Nat → δ) : Prop where
  start : copies 0 = value 0
  monotone : Monotone reached
  round : ∀ index < rounds, copies (index + 1) = copies index ∨
    Fresh value (reached (index + 1)) final (copies (index + 1))
  noticed : ∀ step < final, value step ≠ value (step + 1) → ∃ later, step ≤ later ∧
    ∃ index < rounds, later < reached (index + 1) ∧
      Fresh value (reached (index + 1)) final (copies (index + 1))

variable {δ : Type u} {value : Nat → δ} {reached : Nat → Nat} {final rounds : Nat}
  {copies : Nat → δ}

theorem value_eq_final
    (constant : ∀ step, since ≤ step → step < final → value step = value (step + 1))
    (after : since ≤ seen) (within : seen ≤ final) : value seen = value final := by
  induction final, within using Nat.le_induction with
  | base => rfl
  | succ last upTo ih =>
    have same := ih fun step afterStep below => constant step afterStep (by omega)
    rw [same, constant last (by omega) (by omega)]

theorem Refreshed.keeps (refreshed : Refreshed value reached final rounds copies)
    (constant : ∀ step, since ≤ step → step < final → value step = value (step + 1))
    (covers : ∀ index, first ≤ index → since ≤ reached (index + 1))
    (right : copies first = value final) {round} (after : first ≤ round)
    (within : round ≤ rounds) : copies round = value final := by
  induction round, after using Nat.le_induction with
  | base => exact right
  | succ index afterFirst ih =>
    cases refreshed.round index within with
    | inl same => rw [same, ih (by omega)]
    | inr fresh =>
      obtain ⟨seen, afterRound, upTo, isSeen⟩ := fresh
      have late := covers index afterFirst
      rw [isSeen, value_eq_final constant (by omega) upTo]

theorem Refreshed.settles (refreshed : Refreshed value reached final rounds copies) :
    copies rounds = value final := by
  by_cases changes : ∃ step < final, value step ≠ value (step + 1)
  · -- The last change is noticed by a round that already sees the final value.
    obtain ⟨step, isChange⟩ := changes
    have bounded : ∀ point, point < final ∧ value point ≠ value (point + 1) → point ≤ final :=
      fun point changes => le_of_lt changes.1
    obtain ⟨last, -, ⟨below, changed⟩, isLast⟩ := exists_last bounded isChange
    have constant : ∀ step, last + 1 ≤ step → step < final → value step = value (step + 1) :=
      fun step after within => by_contra fun changes => isLast step after ⟨within, changes⟩
    obtain ⟨later, after, index, isRound, covered, seen, afterRound, within, isSeen⟩ :=
      refreshed.noticed last below changed
    refine refreshed.keeps constant ?_ ?_ (show index + 1 ≤ rounds from isRound)
      (Nat.le_refl rounds)
    · intro other afterIndex
      have grown := refreshed.monotone (show index + 1 ≤ other + 1 by omega)
      omega
    · rw [isSeen, value_eq_final constant (by omega) within]
  · have constant : ∀ step, 0 ≤ step → step < final → value step = value (step + 1) :=
      fun step _ below => by_contra fun changed => changes ⟨step, below, changed⟩
    refine refreshed.keeps constant (fun _ _ => Nat.zero_le _) ?_ (Nat.zero_le rounds)
      (Nat.le_refl rounds)
    rw [refreshed.start, value_eq_final constant (Nat.zero_le 0) (Nat.zero_le final)]

end Ventstream.Library
