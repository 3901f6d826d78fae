import Ventstream.Library.Program

/-! # Readers and formats

A reader takes a value off the front of what is left of a text, or stops. It is exact for a format
if it succeeds on nothing but the texts of the format, and takes all of such a text.
-/

namespace Ventstream.Library

open Program

variable {ε τ α β : Type} {reader : Program ε (List τ) α} {format : α → List τ → Prop}

def Reads (reader : Program ε (List τ) α) (format : α → List τ → Prop) : Prop :=
  ∀ cursor value rest, exec reader cursor = (.ok value, rest) ↔
    ∃ text, format value text ∧ cursor = text ++ rest

/-- The format of a function, for the values that fit. -/
def Coded (fits : α → Prop) (encode : α → List τ) (value : α) (text : List τ) : Prop :=
  fits value ∧ text = encode value

def times (reader : Program ε (List τ) α) : Nat → Program ε (List τ) (List α)
  | 0 => pure []
  | count + 1 => do
      let first ← reader
      let rest ← times reader count
      pure (first :: rest)

namespace Reads

theorem pure (value : α) :
    Reads (Pure.pure value : Program ε (List τ) α) fun found text => found = value ∧ text = [] := by
  intro cursor found rest
  simp [eq_comm]

theorem throw (error : ε) :
    Reads (MonadExcept.throw error : Program ε (List τ) α) fun _ _ => False := by
  intro cursor found rest
  simp

theorem congr (reads : Reads reader format) {other : α → List τ → Prop}
    (same : ∀ value text, format value text ↔ other value text) : Reads reader other := by
  intro cursor value rest
  rw [reads]
  simp only [same]

theorem bind {next : α → Program ε (List τ) β} {formats : α → β → List τ → Prop}
    (first : Reads reader format) (second : ∀ value, Reads (next value) (formats value)) :
    Reads (reader >>= next) fun found text =>
      ∃ value front, format value front ∧ ∃ back, formats value found back ∧
        text = front ++ back := by
  intro cursor found rest
  constructor
  · intro ran
    obtain ⟨value, between, ranFirst, ranSecond⟩ := exec_bind_inv ran
    obtain ⟨front, isFront, rfl⟩ := (first _ _ _).mp ranFirst
    obtain ⟨back, isBack, rfl⟩ := (second _ _ _ _).mp ranSecond
    exact ⟨_, ⟨value, front, isFront, back, isBack, rfl⟩, (List.append_assoc ..).symm⟩
  · rintro ⟨_, ⟨value, front, isFront, back, isBack, rfl⟩, rfl⟩
    rw [exec_bind_ok ((first _ value (back ++ rest)).mpr ⟨front, isFront, by simp⟩)]
    exact (second _ _ _ _).mpr ⟨back, isBack, rfl⟩

theorem ite {condition : Prop} [Decidable condition] {other : Program ε (List τ) α}
    {formats : α → List τ → Prop} (yes : Reads reader format) (no : Reads other formats) :
    Reads (if condition then reader else other) fun value text =>
      if condition then format value text else formats value text := by
  split <;> assumption

theorem elim {option : Option β} {error : ε} {next : β → Program ε (List τ) α}
    {formats : β → α → List τ → Prop} (some : ∀ found, Reads (next found) (formats found)) :
    Reads (option.elim (MonadExcept.throw error) next) fun value text =>
      ∃ found, option = .some found ∧ formats found value text := by
  cases option with
  | none => exact (throw error).congr (by simp)
  | some found => exact (some found).congr (by simp)

theorem times {fits : α → Prop} {encode : α → List τ} (reads : Reads reader (Coded fits encode))
    (count : Nat) : Reads (Library.times reader count) fun values text =>
      values.length = count ∧ Coded (∀ value ∈ ·, fits value) (List.flatMap encode) values text := by
  induction count with
  | zero =>
    refine (pure []).congr ?_
    intro values text
    cases values <;> simp [Coded]
  | succ count ih =>
    refine (reads.bind fun first => ih.bind fun rest => pure (first :: rest)).congr ?_
    intro values text
    cases values <;> simp [Coded, and_assoc, and_left_comm]

end Reads

end Ventstream.Library
