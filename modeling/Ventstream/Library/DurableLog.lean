import Mathlib

/-! # An append-only log with a durable front

Entries are appended in one order and become durable in that order: the durable
entries are always a front of the log. A watermark read off the durable front
says how far everything before it has been settled.
-/

namespace Ventstream.Library

open List hiding count

universe u

structure DurableLog (α : Type u) where
  entries : List α
  durableCount : Nat
  within : durableCount ≤ entries.length

namespace DurableLog

variable {α : Type u} (log : DurableLog α)

def empty : DurableLog α := ⟨[], 0, Nat.le_refl 0⟩

def settled : List α := log.entries.take log.durableCount

def push (entry : α) : DurableLog α where
  entries := log.entries ++ [entry]
  durableCount := log.durableCount
  within := by
    rw [length_append]
    exact Nat.le_add_right_of_le log.within

def settle (count : Nat) (within : count ≤ log.entries.length) : DurableLog α where
  entries := log.entries
  durableCount := count
  within := within

@[simp] theorem entries_empty : (empty : DurableLog α).entries = [] := rfl

@[simp] theorem settled_empty : (empty : DurableLog α).settled = [] := rfl

@[simp] theorem entries_push (entry : α) : (log.push entry).entries = log.entries ++ [entry] := rfl

@[simp] theorem settled_push (entry : α) : (log.push entry).settled = log.settled := by
  simp [settled, push, take_append_of_le_length log.within]

@[simp] theorem entries_settle (count : Nat) (within : count ≤ log.entries.length) :
    (log.settle count within).entries = log.entries := rfl

theorem settled_prefix_entries : log.settled <+: log.entries := take_prefix _ _

theorem settled_prefix_settle (within : count ≤ log.entries.length)
    (grows : log.durableCount ≤ count) : log.settled <+: (log.settle count within).settled :=
  take_prefix_take_left grows

theorem front_push (inside : front ++ [last] <+: (log.push entry).entries) :
    front ++ [last] <+: log.entries ∨ front = log.entries ∧ last = entry := by
  rw [entries_push, prefix_concat_iff] at inside
  rcases inside with whole | earlier
  · right
    exact append_singleton_inj.mp whole
  · exact .inl earlier

/-- Where some entries carry numbers that rise along the log, an entry whose number is at
    most that of a durable one is durable, with everything before it. -/
theorem front_settled (ordered : (log.entries.filterMap number).Pairwise (· < ·))
    {own reported : Nat} (inside : front ++ [entry] <+: log.entries)
    (isOwn : number entry = some own) (isReported : reported ∈ log.settled.filterMap number)
    (reached : own ≤ reported) : front ++ [entry] <+: log.settled := by
  rcases prefix_or_prefix_of_prefix inside log.settled_prefix_entries with isFront | beyond
  · exact isFront
  · obtain ⟨more, isFront⟩ := beyond
    rcases eq_nil_or_concat more with rfl | ⟨others, last, rfl⟩
    · rw [append_nil] at isFront
      exact isFront ▸ prefix_rfl
    -- The entry lies past the durable front, so its number is above the reported one.
    · rw [concat_eq_append, ← append_assoc] at isFront
      obtain ⟨sameFront, isLast⟩ := append_inj' isFront rfl
      cases isLast
      have parts := ordered.sublist (inside.sublist.filterMap number)
      rw [filterMap_append, ← sameFront, filterMap_append, append_assoc, pairwise_append] at parts
      have later := parts.2.2 reported isReported own (by simp [isOwn])
      exact absurd reached (Nat.not_le_of_lt later)

end DurableLog

end Ventstream.Library
