import Mathlib

/-! # Strands of overwriting steps, seen at one cell

Each step puts a value into the cell or leaves it as it is. Several strands of steps are
worked off at once, each in its own order. A step may fail and is then made again; the failed
attempt may have had its effect. Where at most one strand touches the cell, it ends as if the
steps had been made once each, strand after strand.
-/

namespace Ventstream.Library.Strands

open List hiding after

variable {ρ ν : Type} (effect : ρ → Option ν)

def put (cell : ν) (run : ρ) : ν := (effect run).getD cell

def putAll (cell : ν) (runs : List ρ) : ν := runs.foldl (put effect) cell

/-- An attempt at the first step of a strand. -/
inductive Advance : List (List ρ) × ν → List (List ρ) × ν → Prop where
  | done (front : List (List ρ)) (run : ρ) (rest : List ρ) (back : List (List ρ)) (cell : ν) :
      Advance (front ++ (run :: rest) :: back, cell) (front ++ rest :: back, put effect cell run)
  | again (front : List (List ρ)) (run : ρ) (rest : List ρ) (back : List (List ρ)) (cell : ν) :
      Advance (front ++ (run :: rest) :: back, cell)
        (front ++ (run :: rest) :: back, put effect cell run)
  | lost (state : List (List ρ) × ν) : Advance state state

/-- A strand that leaves the cell as it is. -/
def Idle (strand : List ρ) : Prop := ∀ run ∈ strand, effect run = none

/-- At most one strand touches the cell. -/
def Solo (strands : List (List ρ)) : Prop :=
  strands.Pairwise fun strand other => Idle effect strand ∨ Idle effect other

variable {effect} {cell : ν} {run : ρ} {strand rest runs : List ρ}
  {front back strands : List (List ρ)}

@[simp] theorem putAll_nil : putAll effect cell [] = cell := rfl

@[simp] theorem putAll_cons : putAll effect cell (run :: rest) =
    putAll effect (put effect cell run) rest := rfl

@[simp] theorem putAll_append (more : List ρ) : putAll effect cell (runs ++ more) =
    putAll effect (putAll effect cell runs) more := foldl_append

theorem put_put : put effect (put effect cell run) run = put effect cell run := by
  unfold put
  cases effect run <;> rfl

theorem put_of_none (leaves : effect run = none) : put effect cell run = cell := by
  rw [put, leaves]
  rfl

theorem putAll_idle (idle : Idle effect runs) : putAll effect cell runs = cell := by
  induction runs with
  | nil => rfl
  | cons run rest ih =>
    obtain ⟨leaves, idle⟩ := forall_mem_cons.mp idle
    rw [putAll_cons, put_of_none leaves, ih idle]

theorem putAll_filter (keeps : ∀ run ∈ runs, effect run ≠ none → keep run) :
    putAll effect cell (runs.filter keep) = putAll effect cell runs := by
  induction runs generalizing cell with
  | nil => rfl
  | cons run rest ih =>
    obtain ⟨keepsFirst, keepsRest⟩ := forall_mem_cons.mp keeps
    by_cases isKept : keep run
    · rw [filter_cons_of_pos isKept, putAll_cons, ih keepsRest, putAll_cons]
    · have leaves : effect run = none := by
        by_contra touches
        exact isKept (keepsFirst touches)
      rw [filter_cons_of_neg isKept, ih keepsRest, putAll_cons, put_of_none leaves]

/-- What several steps come to together. -/
def overall (effect : ρ → Option ν) (runs : List ρ) : Option ν :=
  runs.foldl (fun last run => (effect run).or last) none

theorem overall_concat : overall effect (runs ++ [run]) =
    (effect run).or (overall effect runs) := by
  simp [overall]

theorem overall_getD : (overall effect runs).getD cell = putAll effect cell runs := by
  induction runs using reverseRecOn with
  | nil => rfl
  | append_singleton runs run ih =>
    rw [overall_concat, putAll_append, putAll_cons, putAll_nil, ← ih, put]
    cases effect run <;> rfl

theorem overall_eq_none (idle : Idle effect runs) : overall effect runs = none := by
  induction runs using reverseRecOn with
  | nil => rfl
  | append_singleton runs run ih =>
    rw [overall_concat, idle run (by simp), ih fun other mem => idle other (mem_append_left _ mem)]
    rfl

theorem idle_flatten (idle : ∀ strand ∈ strands, Idle effect strand) :
    Idle effect strands.flatten := by
  intro run mem
  obtain ⟨strand, isStrand, isRun⟩ := mem_flatten.mp mem
  exact idle strand isStrand run isRun

theorem Solo.others_idle (solo : Solo effect (front ++ strand :: back))
    (touches : ¬ Idle effect strand) :
    (∀ other ∈ front, Idle effect other) ∧ ∀ other ∈ back, Idle effect other := by
  obtain ⟨-, behind, across⟩ := pairwise_append.mp solo
  refine ⟨fun other mem => ?_, fun other mem => ?_⟩
  · exact (across other mem strand mem_cons_self).resolve_right touches
  · exact ((pairwise_cons.mp behind).1 other mem).resolve_left touches

theorem putAll_flatten (before : ∀ other ∈ front, Idle effect other)
    (behind : ∀ other ∈ back, Idle effect other) :
    putAll effect cell (front ++ strand :: back).flatten = putAll effect cell strand := by
  rw [flatten_append, putAll_append, putAll_idle (idle_flatten before), flatten_cons,
    putAll_append, putAll_idle (idle_flatten behind)]

theorem Solo.tail (solo : Solo effect (front ++ (run :: rest) :: back)) :
    Solo effect (front ++ rest :: back) := by
  obtain ⟨before, behind, across⟩ := pairwise_append.mp solo
  obtain ⟨first, behind⟩ := pairwise_cons.mp behind
  have shorter : Idle effect (run :: rest) → Idle effect rest :=
    fun idle other mem => idle other (mem_cons_of_mem _ mem)
  refine pairwise_append.mpr ⟨before, pairwise_cons.mpr ⟨?_, behind⟩, ?_⟩
  · intro other mem
    exact (first other mem).imp_left shorter
  · intro other mem strand isStrand
    rcases mem_cons.mp isStrand with rfl | isBehind
    · exact (across other mem _ mem_cons_self).imp_right shorter
    · exact across other mem strand (mem_cons_of_mem _ isBehind)

/-- What an attempt does not change: the value that the remaining steps lead to. -/
theorem Advance.keeps (advance : Advance effect before after)
    (solo : Solo effect before.1) : Solo effect after.1 ∧
      putAll effect after.2 after.1.flatten = putAll effect before.2 before.1.flatten := by
  cases advance with
  | done front run rest back cell =>
    refine ⟨solo.tail, ?_⟩
    by_cases leaves : effect run = none
    · simp [put_of_none leaves]
    · have touches : ¬ Idle effect (run :: rest) := fun idle =>
        leaves (idle run mem_cons_self)
      obtain ⟨before, behind⟩ := solo.others_idle touches
      rw [putAll_flatten before behind, putAll_flatten before behind, putAll_cons]
  | again front run rest back cell =>
    refine ⟨solo, ?_⟩
    dsimp only at solo ⊢
    by_cases idle : Idle effect (run :: rest)
    · rw [put_of_none (idle run mem_cons_self)]
    · obtain ⟨before, behind⟩ := solo.others_idle idle
      rw [putAll_flatten before behind, putAll_flatten before behind, putAll_cons, put_put,
        putAll_cons]
  | lost => exact ⟨solo, rfl⟩

/-- When all strands are worked off the cell is as if each step had been made once. -/
theorem settles (solo : Solo effect strands)
    (run : Relation.ReflTransGen (Advance effect) (strands, cell) final)
    (finished : ∀ strand ∈ final.1, strand = []) :
    final.2 = putAll effect cell strands.flatten := by
  have kept : Solo effect final.1 ∧
      putAll effect final.2 final.1.flatten = putAll effect cell strands.flatten := by
    clear finished
    induction run with
    | refl => exact ⟨solo, rfl⟩
    | tail _ advance ih =>
      obtain ⟨soloThen, same⟩ := ih
      obtain ⟨soloLater, sameLater⟩ := advance.keeps soloThen
      exact ⟨soloLater, sameLater.trans same⟩
  rw [← kept.2, flatten_eq_nil_iff.mpr finished]
  rfl

end Ventstream.Library.Strands
