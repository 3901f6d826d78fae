import Mathlib

/-! # Contiguous runs of a numbered sequence

Positions `0, 1, 2, …` are settled one by one, in any order. The run of a
predicate is how far the settled positions reach without a hole, and the
supremum below a position is what a cumulative acknowledgement may report.
-/

namespace Ventstream.Library

open List

/-- The length of the longest run `0, 1, …` of positions below `bound` that all
    satisfy `ok`. -/
def contiguousRun (ok : Nat → Bool) (bound : Nat) : Nat :=
  ((range bound).takeWhile ok).length

/-- The run is the position of its first hole, or the bound when there is none. -/
theorem contiguousRun_eq (below : ∀ pos < reach, ok pos)
    (hole : reach = bound ∨ reach < bound ∧ ok reach = false) : contiguousRun ok bound = reach := by
  have allBelow : ∀ pos ∈ range reach, ok pos :=
    fun pos mem => below pos (mem_range.mp mem)
  rcases hole with rfl | ⟨inside, missing⟩
  · rw [contiguousRun, takeWhile_eq_self_iff.mpr allBelow, length_range]
  · obtain ⟨rest, rfl⟩ := Nat.exists_eq_add_of_lt inside
    have split : range (reach + rest + 1) =
        range reach ++ reach :: (range rest).map (reach + 1 + ·) := by
      rw [Nat.add_right_comm, range_add, range_succ, append_assoc, singleton_append]
    rw [contiguousRun, split, takeWhile_append_of_pos allBelow,
      takeWhile_cons_of_neg (by simp [missing]), append_nil, length_range]

/-- The largest `value` of a position below `reach`, and zero when there is none. -/
def supBelow (value : Nat → Nat) (reach : Nat) : Nat :=
  (Finset.range reach).sup value

@[simp] theorem supBelow_zero (value : Nat → Nat) : supBelow value 0 = 0 := rfl

theorem supBelow_succ (value : Nat → Nat) (reach : Nat) :
    supBelow value (reach + 1) = max (supBelow value reach) (value reach) := by
  rw [supBelow, Finset.range_add_one, Finset.sup_insert, Nat.max_comm]
  rfl

theorem supBelow_congr (agree : ∀ pos < reach, first pos = second pos) :
    supBelow first reach = supBelow second reach :=
  Finset.sup_congr rfl fun pos mem => agree pos (Finset.mem_range.mp mem)

end Ventstream.Library
