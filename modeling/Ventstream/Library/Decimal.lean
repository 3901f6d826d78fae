import Mathlib

/-! # Comparing decimal numbers as texts

Decimal numbers without leading zeros compare like their texts, by length first and then
letter by letter.
-/

namespace Ventstream.Library

open List

theorem append_singleton_lt_iff {front other : List Char}
    (sameLength : front.length = other.length) :
    front ++ [last] < other ++ [final] ↔ front < other ∨ front = other ∧ last < final := by
  induction front generalizing other with
  | nil =>
    cases other with
    | nil => simp [cons_lt_cons_iff]
    | cons first rest => cases sameLength
  | cons first rest ih =>
    cases other with
    | nil => cases sameLength
    | cons another more =>
      rw [cons_append, cons_append, cons_lt_cons_iff, cons_lt_cons_iff,
        ih (Nat.succ.inj sameLength), cons.injEq]
      tauto

theorem digitChar_lt_iff : ∀ low < 10, ∀ high < 10,
    (Nat.digitChar low < Nat.digitChar high ↔ low < high) := by
  decide

theorem toDigits_eq_iff : Nat.toDigits 10 low = Nat.toDigits 10 high ↔ low = high :=
  ⟨fun same => by simpa using congrArg (Nat.ofDigitChars 10 · 0) same, congrArg _⟩

theorem length_toDigits_eq_one : (Nat.toDigits 10 number).length = 1 ↔ number < 10 := by
  have short := @Nat.length_toDigits_le_iff 10 number 1 (by decide) (by decide)
  have positive := length_pos_iff.mpr (@Nat.toDigits_ne_nil number 10)
  omega

theorem toDigits_lt_iff
    (sameLength : (Nat.toDigits 10 low).length = (Nat.toDigits 10 high).length) :
    Nat.toDigits 10 low < Nat.toDigits 10 high ↔ low < high := by
  induction low using Nat.strongRecOn generalizing high with
  | ind low ih =>
    by_cases isDigit : low < 10
    · have otherDigit := length_toDigits_eq_one.mp
        (sameLength.symm.trans (length_toDigits_eq_one.mpr isDigit))
      rw [Nat.toDigits_of_lt_base isDigit, Nat.toDigits_of_lt_base otherDigit, cons_lt_cons_iff]
      simp [digitChar_lt_iff low isDigit high otherDigit]
    · have longer : ¬ high < 10 := fun otherDigit => isDigit (length_toDigits_eq_one.mp
        (sameLength.trans (length_toDigits_eq_one.mpr otherDigit)))
      have front : (Nat.toDigits 10 (low / 10)).length = (Nat.toDigits 10 (high / 10)).length := by
        rw [Nat.toDigits_of_base_le (by decide) (not_lt.mp isDigit),
          Nat.toDigits_of_base_le (by decide) (not_lt.mp longer)] at sameLength
        simpa using sameLength
      rw [Nat.toDigits_of_base_le (by decide) (not_lt.mp isDigit),
        Nat.toDigits_of_base_le (by decide) (not_lt.mp longer), append_singleton_lt_iff front,
        ih (low / 10) (by omega) front, toDigits_eq_iff,
        digitChar_lt_iff _ (Nat.mod_lt _ (by decide)) _ (Nat.mod_lt _ (by decide))]
      omega

theorem lt_of_length_toDigits_lt
    (shorter : (Nat.toDigits 10 low).length < (Nat.toDigits 10 high).length) : low < high := by
  have positive := length_pos_iff.mpr (@Nat.toDigits_ne_nil low 10)
  have below := (Nat.length_toDigits_le_iff (by decide) positive).mp (le_refl _)
  have above := (@Nat.length_toDigits_le_iff 10 high _ (by decide) positive).not.mp
    (not_le.mpr shorter)
  omega

theorem toString_lt_iff {low high : Nat} :
    (if (toString high).length ≠ (toString low).length then
        (toString low).length < (toString high).length
      else toString low < toString high) ↔ low < high := by
  have chars : ∀ number : Nat, (toString number).toList = Nat.toDigits 10 number := by
    intro number
    rw [Nat.toString_eq_ofList_toDigits, String.toList_ofList]
  rw [← String.length_toList, ← String.length_toList, String.lt_iff, chars, chars]
  split
  · refine ⟨lt_of_length_toDigits_lt, fun less => ?_⟩
    by_contra notShorter
    have := @lt_of_length_toDigits_lt high low (by omega)
    omega
  · rename_i same
    exact toDigits_lt_iff (not_not.mp same).symm

end Ventstream.Library
