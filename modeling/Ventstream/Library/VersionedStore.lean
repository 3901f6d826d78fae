import Mathlib

/-! # A store that turns stale writes away

A write names a key, or none. The store keeps the last write it took for each key
and turns away one that conflicts with the write it holds. When no write conflicts
with an earlier one of its key, nothing is turned away.
-/

namespace Ventstream.Library.VersionedStore

open List Function

variable {κ ω : Type} [DecidableEq κ] (key : ω → Option κ) (conflicts : ω → ω → Prop)
  [DecidableRel conflicts]

/-- Take a write, unless it conflicts with the one held under its key. -/
def put (store : κ → Option ω) (write : ω) : κ → Option ω :=
  match key write with
  | none => store
  | some name =>
    match store name with
    | none => update store name (some write)
    | some held =>
      if conflicts held write then store else update store name (some write)

def run (writes : List ω) : κ → Option ω :=
  writes.foldl (put key conflicts) fun _ => none

def lastWrite (name : κ) (writes : List ω) : Option ω :=
  (writes.filter fun write => key write = some name).getLast?

variable {key} in
theorem lastWrite_concat_of_eq (isKey : key write = some name)
    (writes : List ω) : lastWrite key name (writes ++ [write]) = some write := by
  simp [lastWrite, isKey]

variable {key} in
theorem lastWrite_concat_of_ne (notKey : key write ≠ some name)
    (writes : List ω) : lastWrite key name (writes ++ [write]) = lastWrite key name writes := by
  simp [lastWrite, notKey]

variable {key} in
theorem mem_of_lastWrite (last : lastWrite key name writes = some write) :
    write ∈ writes ∧ key write = some name := by
  simpa using mem_of_getLast? last

variable {key conflicts}

theorem put_of_fresh (isKey : key write = some name)
    (fresh : ∀ held, store name = some held → ¬ conflicts held write) :
    put key conflicts store write = update store name (some write) := by
  unfold put
  rw [isKey]
  cases held : store name with
  | none => simp [held]
  | some earlier => simp [held, fresh earlier held]

/-- When no write conflicts with an earlier one of its key, the store ends with the last write
    of every key. -/
theorem run_eq_lastWrite
    (ordered : writes.Pairwise fun earlier later => ∀ name, key earlier = some name →
      key later = some name → ¬ conflicts earlier later) (name : κ) :
    run key conflicts writes name = lastWrite key name writes := by
  induction writes using reverseRecOn generalizing name with
  | nil => rfl
  | append_singleton writes write ih =>
    obtain ⟨orderedBefore, -, orderedLast⟩ := pairwise_append.mp ordered
    unfold run at ih ⊢
    rw [foldl_append, foldl_cons, foldl_nil]
    cases isKey : key write with
    | none =>
      rw [lastWrite_concat_of_ne (by simp [isKey])]
      simpa [put, isKey] using ih orderedBefore name
    | some other =>
      have fresh : ∀ held, writes.foldl (put key conflicts) (fun _ => none) other = some held →
          ¬ conflicts held write := by
        intro held isHeld
        rw [ih orderedBefore other] at isHeld
        obtain ⟨mem, heldKey⟩ := mem_of_lastWrite isHeld
        exact orderedLast held mem write (mem_singleton_self write) other heldKey isKey
      rw [put_of_fresh isKey fresh]
      by_cases same : name = other
      · subst same
        rw [lastWrite_concat_of_eq isKey, update_self]
      · rw [lastWrite_concat_of_ne (by simpa [isKey] using Ne.symm same), update_of_ne same]
        exact ih orderedBefore name

section

variable (conflicts) in
/-- What a key holds after a write to it. -/
def take (held : Option ω) (write : ω) : Option ω :=
  match held with
  | none => some write
  | some earlier => if conflicts earlier write then some earlier else some write

theorem put_apply : put key conflicts store write name =
      if key write = some name then take conflicts (store name) write else store name := by
  unfold put
  cases isKey : key write with
  | none => simp
  | some other =>
    by_cases same : other = name
    · subst same
      cases held : store other with
      | none => simp [take, held]
      | some earlier => by_cases stale : conflicts earlier write <;> simp [take, held, stale]
    · cases held : store other with
      | none => simp [held, same, update_of_ne (Ne.symm same)]
      | some earlier =>
        by_cases stale : conflicts earlier write <;>
          simp [held, stale, same, update_of_ne (Ne.symm same)]

variable {writes : List ω}

theorem foldl_put_apply : writes.foldl (put key conflicts) store name =
      (writes.filter fun write => key write = some name).foldl (take conflicts) (store name) := by
  induction writes generalizing store with
  | nil => rfl
  | cons write rest ih =>
    rw [foldl_cons, ih, put_apply]
    by_cases isKey : key write = some name <;> simp [isKey]

theorem foldl_take_cases (writes : List ω) (held : Option ω) :
    writes.foldl (take conflicts) held = held ∨
      ∃ write ∈ writes, writes.foldl (take conflicts) held = some write := by
  induction writes using reverseRecOn with
  | nil => exact .inl rfl
  | append_singleton writes write ih =>
    rw [foldl_append, foldl_cons, foldl_nil]
    have taken : take conflicts (writes.foldl (take conflicts) held) write =
        writes.foldl (take conflicts) held ∨
        take conflicts (writes.foldl (take conflicts) held) write = some write := by
      cases writes.foldl (take conflicts) held with
      | none => exact .inr rfl
      | some earlier => by_cases stale : conflicts earlier write <;> simp [take, stale]
    rcases taken with same | new
    · rw [same]
      exact ih.imp_right fun ⟨other, mem, isOther⟩ =>
        ⟨other, mem_append_left _ mem, isOther⟩
    · exact .inr ⟨write, mem_append_right _ (mem_singleton_self write), new⟩

theorem foldl_take_of_fresh
    (fresh : ∀ earlier, held = some earlier → ∀ write ∈ writes, ¬ conflicts earlier write)
    (agree : ∀ write ∈ writes, ∀ other ∈ writes, ¬ conflicts write other) :
    writes.foldl (take conflicts) held = writes.getLast?.or held := by
  induction writes generalizing held with
  | nil => rfl
  | cons write rest ih =>
    have taken : take conflicts held write = some write := by
      cases isHeld : held with
      | none => rfl
      | some earlier => simp [take, fresh earlier isHeld write mem_cons_self]
    rw [foldl_cons, taken, ih]
    · cases last : rest.getLast? <;> simp [getLast?_cons, last]
    · rintro _ ⟨⟩ other mem
      exact agree write mem_cons_self other (mem_cons_of_mem write mem)
    · intro first isFirst second isSecond
      exact agree first (mem_cons_of_mem write isFirst) second (mem_cons_of_mem write isSecond)

theorem foldl_take_of_stale (stale : ∀ write ∈ writes, conflicts earlier write) :
    writes.foldl (take conflicts) (some earlier) = some earlier := by
  induction writes with
  | nil => rfl
  | cons write rest ih =>
    have kept : take conflicts (some earlier) write = some earlier := by
      simp [take, stale write mem_cons_self]
    rw [foldl_cons, kept, ih fun other mem => stale other
    (mem_cons_of_mem write mem)]

end

end Ventstream.Library.VersionedStore
