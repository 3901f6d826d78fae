import Mathlib

/-! # Keyset paging over an ordered list

A page holds the first items past a cursor, in key order. An item past the
cursor that does not make it onto the page lies past the page's last item, so
moving the cursor there keeps it in view.
-/

namespace Ventstream.Library

open List hiding after le_of_lt lt_trans

universe u v

variable {α : Type u} {κ : Type v} [LinearOrder κ]

/-- The cursor lies before the key. -/
def Past (cursor : Option κ) (key : κ) : Prop := ∀ bound ∈ cursor, bound < key

instance (cursor : Option κ) (key : κ) : Decidable (Past cursor key) :=
  inferInstanceAs (Decidable (∀ bound ∈ cursor, bound < key))

@[simp] theorem past_none (key : κ) : Past none key := by simp [Past]

@[simp] theorem past_some (bound key : κ) : Past (some bound) key ↔ bound < key := by simp [Past]

def page (key : α → κ) (items : List α) (cursor : Option κ) (limit : Nat) : List α :=
  (items.filter fun item => Past cursor (key item)).take limit

section

variable {key : α → κ} {items : List α} {cursor : Option κ} {limit : Nat} {item last : α}

theorem mem_of_mem_page (mem : item ∈ page key items cursor limit) :
    item ∈ items ∧ Past cursor (key item) := by
  have filtered := mem_of_mem_take mem
  simpa using filtered

/-- An item past the cursor is on the page, or the page is full and the item is
    past its last entry. -/
theorem mem_page_or_past (limit : Nat) (sorted : items.Pairwise (key · < key ·))
    (mem : item ∈ items) (past : Past cursor (key item)) :
    item ∈ page key items cursor limit ∨ (page key items cursor limit).length = limit ∧
      ∀ last ∈ page key items cursor limit, key last < key item := by
  have filtered : item ∈ items.filter fun item => Past cursor (key item) := by
    simpa using ⟨mem, past⟩
  have sortedFilter := sorted.filter fun item => Past cursor (key item)
  rw [← take_append_drop limit (items.filter _), mem_append] at filtered
  rw [← take_append_drop limit (items.filter _), pairwise_append] at sortedFilter
  rcases filtered with onPage | beyond
  · exact .inl onPage
  · right
    have long : limit < (items.filter fun item => Past cursor (key item)).length := by
      have nonempty := length_pos_of_mem beyond
      rw [length_drop] at nonempty
      omega
    exact ⟨length_take_of_le (le_of_lt long),
      fun last onPage => sortedFilter.2.2 last onPage item beyond⟩

theorem filter_past_of_past (past : Past cursor after) (items : List α) :
    (items.filter fun item => Past (some after) (key item)) =
      (items.filter fun item => Past cursor (key item)).filter
        fun item => Past (some after) (key item) := by
  rw [filter_filter]
  apply filter_congr
  intro item _
  have later : after < key item → Past cursor (key item) :=
    fun beyond bound isBound => lt_trans (past bound isBound) beyond
  by_cases beyond : after < key item
  · simp [beyond, later beyond]
  · simp [beyond]

theorem length_filter_past_lt {keys : List κ} (past : Past cursor after) (listed : after ∈ keys) :
    (keys.filter fun key => Past (some after) key).length <
      (keys.filter fun key => Past cursor key).length := by
  have narrowed := @filter_past_of_past κ κ _ id cursor after past keys
  have dropped : after ∈ keys.filter fun key => Past cursor key := by
    simpa using ⟨listed, past⟩
  have shorter := length_filter_lt_length_iff_exists.mpr
    (show ∃ other ∈ keys.filter fun key => Past cursor key,
      ¬ decide (Past (some after) other) = true from ⟨after, dropped, by simp⟩)
  simp only [id_eq] at narrowed
  rw [narrowed]
  exact shorter

theorem length_past_last (sorted : items.Pairwise (key · < key ·))
    (atEnd : (page key items cursor limit).getLast? = some last) :
    (items.filter fun item => Past (some (key last)) (key item)).length +
        (page key items cursor limit).length ≤
      (items.filter fun item => Past cursor (key item)).length := by
  have member := mem_of_getLast? atEnd
  have lastPast := (mem_of_mem_page member).2
  have stays := @filter_past_of_past α κ _ key cursor (key last) lastPast items
  have pageSorted : (page key items cursor limit).Pairwise (key · < key ·) :=
    (sorted.filter _).sublist (take_sublist _ _)
  have nothing : (page key items cursor limit).filter
      (fun item => Past (some (key last)) (key item)) = [] := by
    rw [filter_eq_nil_iff]
    intro item onPage
    obtain ⟨front, split⟩ := getLast?_eq_some_iff.mp atEnd
    rw [split, pairwise_append] at pageSorted
    rw [split, mem_append, mem_singleton] at onPage
    rcases onPage with earlier | rfl
    · have before := pageSorted.2.2 item earlier last (mem_singleton_self last)
      simpa using le_of_lt before
    · simp
  have split := take_append_drop limit (items.filter fun item => Past cursor (key item))
  rw [stays, ← split, filter_append, ← page, nothing, nil_append, length_append]
  have bound := length_filter_le (fun item => decide (Past (some (key last)) (key item)))
    ((items.filter fun item => Past cursor (key item)).drop limit)
  omega

end

end Ventstream.Library
