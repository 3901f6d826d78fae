import Mathlib

/-! # Packing a sequence of operations into runs

Operations come one after another, each with the position it came from. A run is a group of
consecutive operations of one kind. An operation joins the last run where that is of its kind
and has room, and starts a run of its own otherwise; the order of the operations stays.
-/

namespace Ventstream.Library.Runs

open List

/-- What a run may hold. -/
structure Limits where
  maxDocs : Nat
  maxBytes : Nat

structure Run (κ α : Type) where
  kind : κ
  /-- The operations, each with its position. -/
  items : List (Nat × α)
  bytes : Nat

/-- An operation together with its kind and position. -/
structure Placed (κ α : Type) where
  kind : κ
  offset : Nat
  item : α

variable {κ α : Type}

def Run.offsets (run : Run κ α) : List Nat := run.items.map (·.1)

def Run.placed (run : Run κ α) : List (Placed κ α) :=
  run.items.map fun entry => ⟨run.kind, entry.1, entry.2⟩

def placed (runs : List (Run κ α)) : List (Placed κ α) := runs.flatMap Run.placed

/-- A run of its own for an operation. -/
def push (operation : Placed κ α) (bytes : Nat) (runs : List (Run κ α)) : List (Run κ α) :=
  runs ++ [⟨operation.kind, [(operation.offset, operation.item)], bytes⟩]

def Run.hasRoom (limits : Limits) (bytes : Nat) (run : Run κ α) : Bool :=
  run.items.length < limits.maxDocs && run.bytes + bytes ≤ limits.maxBytes

def Run.extend (operation : Placed κ α) (bytes : Nat) (run : Run κ α) : Run κ α :=
  { run with
    items := run.items ++ [(operation.offset, operation.item)]
    bytes := run.bytes + bytes }

/-- Into the last run if it may join that, else into a run of its own. -/
def add (limits : Limits) (joins : κ → Bool) (operation : Placed κ α) (bytes : Nat)
    (runs : List (Run κ α)) : List (Run κ α) :=
  match runs.getLast? with
  | some last =>
    if joins last.kind && last.hasRoom limits bytes then
      runs.dropLast ++ [last.extend operation bytes]
    else push operation bytes runs
  | none => push operation bytes runs

variable {operation : Placed κ α} {bytes : Nat} {runs : List (Run κ α)}

@[simp] theorem placed_nil : placed ([] : List (Run κ α)) = [] := rfl

@[simp] theorem placed_append (front back : List (Run κ α)) :
    placed (front ++ back) = placed front ++ placed back := flatMap_append

@[simp] theorem placed_cons (run : Run κ α) (rest : List (Run κ α)) :
    placed (run :: rest) = run.placed ++ placed rest := rfl

@[simp] theorem placed_push : placed (push operation bytes runs) = placed runs ++ [operation] := by
  simp [push, Run.placed]

theorem Run.placed_extend {run : Run κ α} (same : run.kind = operation.kind) :
    (run.extend operation bytes).placed = run.placed ++ [operation] := by
  simp [Run.placed, Run.extend, same]

theorem placed_add (sound : ∀ run ∈ runs, joins run.kind → run.kind = operation.kind) :
    placed (add limits joins operation bytes runs) = placed runs ++ [operation] := by
  unfold add
  split
  · rename_i last isLast
    split
    · rename_i mayJoin
      have same : last.kind = operation.kind :=
        sound last (mem_of_getLast? isLast) (Bool.and_eq_true _ _ ▸ mayJoin).1
      have whole : placed runs = placed runs.dropLast ++ last.placed := by
        conv_lhs => rw [← dropLast_append_getLast? last isLast]
        simp
      rw [placed_append, whole, append_assoc]
      simp [Run.placed_extend same]
    · exact placed_push
  · exact placed_push

/-- A loop that adds to what it has collected collects what its steps add, in order. -/
theorem foldl_collects {σ β γ : Type} {step} (collected : σ → List γ) (adds : β → List γ)
    (grows : ∀ state entry,
      collected (step state entry) = collected state ++ adds entry) (state : σ) (entries : List β) :
    collected (entries.foldl step state) = collected state ++ entries.flatMap adds := by
  induction entries generalizing state with
  | nil => simp
  | cons entry rest ih => rw [foldl_cons, ih, grows, flatMap_cons, append_assoc]

section

variable {run : Run κ α}

theorem kind_of_mem_push (mem : run ∈ push operation bytes runs) :
    (∃ earlier ∈ runs, run.kind = earlier.kind) ∨ run.kind = operation.kind := by
  rcases mem_append.mp mem with old | new
  · exact .inl ⟨run, old, rfl⟩
  · rw [mem_singleton.mp new]
    exact .inr rfl

theorem kind_of_mem_add (mem : run ∈ add limits joins operation bytes runs) :
    (∃ earlier ∈ runs, run.kind = earlier.kind) ∨ run.kind = operation.kind := by
  unfold add at mem
  split at mem
  · rename_i last isLast
    split at mem
    · rcases mem_append.mp mem with old | new
      · exact .inl ⟨run, dropLast_subset _ old, rfl⟩
      · rw [mem_singleton.mp new]
        exact .inl ⟨last, mem_of_getLast? isLast, rfl⟩
    · exact kind_of_mem_push mem
  · exact kind_of_mem_push mem

end

end Ventstream.Library.Runs
