import Mathlib

/-! # Ordered maps and sets over a linear order

The standard library's tree maps and sets, for a key type with a linear order:
equality of keys is what the comparison says, and removing or adding a list of
keys one by one is removing or adding them all.
-/

namespace Ventstream.Library

open List

open Std (ExtTreeMap ExtTreeSet)

universe u v

variable {α : Type u} [LinearOrder α] {β : Type v}

instance lawfulEqCmp_compare : Std.LawfulEqCmp (compare : α → α → Ordering) where
  eq_of_compare := compare_eq_iff_eq.mp

namespace Ordered

section

def insertAll (set : ExtTreeSet α) (items : List α) : ExtTreeSet α :=
  items.foldl (fun known item => known.insert item) set

def eraseAll (set : ExtTreeSet α) (items : List α) : ExtTreeSet α :=
  items.foldl (fun known item => known.erase item) set

variable {set : ExtTreeSet α} {items : List α} {item : α}

theorem mem_insertAll : item ∈ insertAll set items ↔ item ∈ items ∨ item ∈ set := by
  unfold insertAll
  induction items generalizing set with
  | nil => simp
  | cons first rest ih =>
    grind

theorem mem_eraseAll : item ∈ eraseAll set items ↔ item ∉ items ∧ item ∈ set := by
  unfold eraseAll
  induction items generalizing set with
  | nil => simp
  | cons first rest ih =>
    grind

theorem mem_set : item ∈ set.insert added ↔ item = added ∨ item ∈ set := by
  rw [ExtTreeSet.mem_insert, compare_eq_iff_eq, eq_comm]

theorem mem_unset : item ∈ set.erase removed ↔ item ≠ removed ∧ item ∈ set := by
  rw [ExtTreeSet.mem_erase, ne_eq, compare_eq_iff_eq, ne_comm]

theorem toList_sorted (set : ExtTreeSet α) : set.toList.Pairwise (· < ·) := by
  have ordered := set.ordered_toList
  exact ordered.imp fun less => compare_lt_iff_lt.mp less

end

section

def dropAll (map : ExtTreeMap α β) (keys : List α) : ExtTreeMap α β :=
  keys.foldl (fun known key => known.erase key) map

variable {map : ExtTreeMap α β}

theorem getElem?_dropAll [DecidableEq α] {keys : List α} :
    (dropAll map keys)[key]? = if key ∈ keys then none else map[key]? := by
  unfold dropAll
  induction keys generalizing map with
  | nil => simp
  | cons first rest ih =>
    grind

theorem getElem?_set [DecidableEq α] :
    (map.insert key value)[other]? = if key = other then some value else map[other]? := by
  simp [ExtTreeMap.getElem?_insert]

theorem getElem?_drop [DecidableEq α] :
    (map.erase key)[other]? = if key = other then none else map[other]? := by
  simp [ExtTreeMap.getElem?_erase]

theorem mem_keys : key ∈ map.keys ↔ (map[key]?).isSome := by
  rw [ExtTreeMap.mem_keys, ExtTreeMap.mem_iff_isSome_getElem?]

end

end Ordered

end Ventstream.Library
