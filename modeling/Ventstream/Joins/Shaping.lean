import Ventstream.Joins.Engine

/-! # The order of embedded arrays

Values of two types are compared by their texts, and the first character of a text already tells
the type. So `json_compare` orders all values by type first, and within a type by value or by text.

A `many` relation projects its rows before it sorts them. The sort column decides the order as
long as projecting keeps it.
-/

namespace Ventstream.Joins

open List

open Json (Value Fields)

/-- The text of a number starts with a digit or a sign. -/
def IsJson : Value → Prop
  | .number number => ∃ first rest, number.text.toList = first :: rest ∧
      (first = '-' ∨ first.isDigit = true)
  | _ => True

/-- Where a value stands: its type, then its value or its text. -/
def sortKey : Value → ℕ ×ₗ ℤ ×ₗ String
  | .null => toLex (0, toLex (0, ""))
  | .string text => toLex (1, toLex (0, text))
  | .number number => toLex (2, toLex (number.order, ""))
  | .array items => toLex (3, toLex (0, Json.render (.array items)))
  | .bool value => toLex (4, toLex (value.toNat, ""))
  | .object fields => toLex (5, toLex (0, Json.render (.object fields)))

def rank (value : Value) : ℕ := (ofLex (sortKey value)).1

/-- The least code that the text of a type can start with. -/
def leastCode : ℕ → ℕ
  | 0 => 0
  | 1 => 34
  | 2 => 45
  | 3 => 91
  | 4 => 102
  | 5 => 123
  | _ => 124

theorem leastCode_le : ∀ high < 6, ∀ low < high, leastCode (low + 1) ≤ leastCode high := by
  decide

theorem rank_lt (value : Value) : rank value < 6 := by
  cases value <;> simp [rank, sortKey]

theorem exists_first (isJson : IsJson value) (notNull : value ≠ .null) :
    ∃ first rest, Json.chars value = first :: rest ∧
      leastCode (rank value) ≤ first.toNat ∧ first.toNat < leastCode (rank value + 1) := by
  cases value with
  | null => exact absurd rfl notNull
  | bool value => cases value <;> exact ⟨_, _, rfl, by decide, by decide⟩
  | number number =>
    obtain ⟨first, rest, isText, isFirst⟩ := isJson
    refine ⟨first, rest, isText, ?_⟩
    change 45 ≤ first.val.toNat ∧ first.val.toNat < 91
    rcases isFirst with rfl | isDigit
    · decide
    · simp only [Char.isDigit, Bool.and_eq_true, decide_eq_true_eq,
        UInt32.le_iff_toNat_le] at isDigit
      change 48 ≤ first.val.toNat ∧ first.val.toNat ≤ 57 at isDigit
      omega
  | string | array | object => exact ⟨_, _, rfl, by simp [rank, sortKey, leastCode]⟩

theorem render_lt_of_rank (leftJson : IsJson left) (rightJson : IsJson right)
    (notNull : left ≠ .null) (below : rank left < rank right) :
    Json.render left < Json.render right := by
  have rightNotNull : right ≠ .null := by
    rintro rfl
    cases below
  obtain ⟨first, rest, isLeft, -, high⟩ := exists_first leftJson notNull
  obtain ⟨second, others, isRight, low, -⟩ := exists_first rightJson rightNotNull
  have codes : first.toNat < second.toNat :=
    lt_of_lt_of_le high (le_trans (leastCode_le _ (rank_lt right) _ below) low)
  rw [String.lt_iff_toList_lt, Json.render, Json.render, String.toList_ofList,
    String.toList_ofList, isLeft, isRight]
  exact List.Lex.rel codes

theorem jsonCompare_lt (leftJson : IsJson left) (rightJson : IsJson right)
    (below : rank left < rank right) :
    jsonCompare left right = .lt ∧ jsonCompare right left = .gt := by
  by_cases isNull : left = .null
  · cases right <;> simp_all [rank, sortKey, jsonCompare]
  · have less := render_lt_of_rank leftJson rightJson isNull below
    rw [← compare_lt_iff_lt.mpr less, ← compare_gt_iff_gt.mpr less]
    cases left <;> cases right <;> simp_all [rank, sortKey, jsonCompare]

theorem jsonCompare_eq (leftJson : IsJson left) (rightJson : IsJson right) :
    jsonCompare left right = compare (sortKey left) (sortKey right) := by
  rcases lt_trichotomy (rank left) (rank right) with below | same | above
  · rw [(jsonCompare_lt leftJson rightJson below).1,
      compare_lt_iff_lt.mpr (Prod.Lex.lt_iff.mpr (.inl below))]
  · cases left <;> cases right <;> simp [rank, sortKey] at same
    case bool.bool left right => cases left <;> cases right <;> rfl
    all_goals simp [jsonCompare, sortKey, Prod.Lex.compare_def, compareLex, compareOn]
  · rw [(jsonCompare_lt rightJson leftJson above).2,
      compare_gt_iff_gt.mpr (Prod.Lex.lt_iff.mpr (.inl above))]

/-- Exchanging two values reverses the answer, and an ascending chain ascends from its first
    value to its last, whatever the types are. -/
theorem jsonCompare_total_preorder {left middle right : Value} (leftJson : IsJson left)
    (middleJson : IsJson middle) (rightJson : IsJson right) :
    jsonCompare left middle = (jsonCompare middle left).swap ∧
      (jsonCompare left middle ≠ .gt → jsonCompare middle right ≠ .gt →
        jsonCompare left right ≠ .gt) := by
  rw [jsonCompare_eq leftJson middleJson, jsonCompare_eq middleJson leftJson,
    jsonCompare_eq middleJson rightJson, jsonCompare_eq leftJson rightJson]
  refine ⟨Std.OrientedOrd.eq_swap, ?_⟩
  simp only [Ne, compare_gt_iff_gt, not_lt]
  exact le_trans

/-- Three types, of which no two are compared by value. -/
theorem jsonCompare_total_preorder_mixed : jsonCompare (.string "b") (.number ⟨"-1", -1⟩) = .lt ∧
      jsonCompare (.number ⟨"-1", -1⟩) (.bool true) = .lt ∧
      jsonCompare (.string "b") (.bool true) ≠ .gt := by
  have string : IsJson (.string "b") := trivial
  have number : IsJson (.number ⟨"-1", -1⟩) := ⟨'-', ['1'], by decide, .inl rfl⟩
  have bool : IsJson (.bool true) := trivial
  have first : jsonCompare (.string "b") (.number ⟨"-1", -1⟩) = .lt := by decide +kernel
  have second : jsonCompare (.number ⟨"-1", -1⟩) (.bool true) = .lt := by decide +kernel
  refine ⟨first, second, ?_⟩
  exact (jsonCompare_total_preorder string number bool).2 (by simp [first]) (by simp [second])

section

variable {rel : RelatedDefinition} {column : String}

/-- What a row has in a column; nothing counts as null. -/
def cellOf (column : String) (row : Value) : Value := (row.get? column).getD .null

theorem get?_selected (isStep : ∀ out column, step out column = match Fields.get? column fields with
      | some value => Fields.set column value out
      | none => out) (select : List String) (out : Fields) :
    Fields.get? column (select.foldl step out) =
      if column ∈ select then (Fields.get? column fields).or (Fields.get? column out)
      else Fields.get? column out := by
  induction select generalizing out with
  | nil => rfl
  | cons first rest ih =>
    rw [foldl_cons, ih, isStep]
    cases found : Fields.get? first fields with
    | none => by_cases same : column = first <;> simp_all
    | some value =>
      simp only [Fields.get?_set]
      by_cases same : column = first <;> grind

theorem cellOf_projectRow (row : Value) (nonempty : select ≠ []) :
    cellOf column (projectRow row select) =
      if column ∈ select then cellOf column row else .null := by
  rw [projectRow, if_neg (by simpa using nonempty)]
  cases row with
  | object fields =>
    refine (congrArg (·.getD .null) (get?_selected (fun _ _ => rfl) select [])).trans ?_
    rw [Fields.get?, Option.or_none]
    split <;> rfl
  | _ => simp [cellOf, Value.asObject, Value.get?]

/-- The rows are in ascending order of the column. -/
def SortedBy (column : String) (rows : List Value) : Prop :=
  rows.Pairwise fun left right => jsonCompare (cellOf column left) (cellOf column right) ≠ .gt

/-- The array is the projection of the rows in ascending order of the column. -/
def Arranges (column : String) (select : List String) (rows : List Value) (array : Value) : Prop :=
  ∃ ordered, ordered.Perm rows ∧ SortedBy column ordered ∧
    array = .array (ordered.map (projectRow · select))

theorem arranges_of_kept (kept : ∀ row, cellOf column (projectRow row select) = cellOf column row)
    (areJson : ∀ row ∈ rows, IsJson (cellOf column row)) :
    Arranges column select rows (.array (sortRows column (rows.map (projectRow · select)))) := by
  let precedes (left right : Value) : Prop :=
    sortKey (cellOf column left) ≤ sortKey (cellOf column right)
  have decided {left right : Value} (leftJson : IsJson (cellOf column left))
      (rightJson : IsJson (cellOf column right)) :
      precedes left right ↔ jsonCompare (cellOf column left) (cellOf column right) ≠ .gt := by
    rw [jsonCompare_eq leftJson rightJson, Ne, compare_gt_iff_gt, not_lt]
  have : Std.Total precedes := ⟨fun _ _ => le_total _ _⟩
  refine ⟨rows.insertionSort precedes, perm_insertionSort _ _, ?_, ?_⟩
  · refine (pairwise_insertionSort precedes rows).imp_of_mem fun inLeft inRight => ?_
    rw [mem_insertionSort] at inLeft inRight
    exact (decided (areJson _ inLeft) (areJson _ inRight)).mp
  · rw [sortRows]
    congr 1
    refine (map_insertionSort _ _ _ rows fun left inLeft right inRight => ?_).symm
    rw [decided (areJson _ inLeft) (areJson _ inRight), ← kept left, ← kept right]
    rfl

/-- Two rows in descending order of the column, which another column tells apart. -/
def descending (other column : String) : List Value :=
  [true, false].map fun flag => .object [(other, .bool flag), (column, .bool flag)]

theorem cellOf_descending (differs : other ≠ column) (mem : row ∈ descending other column) :
    ∃ flag, cellOf other row = .bool flag ∧ cellOf column row = .bool flag := by
  obtain ⟨flag, -, rfl⟩ := mem_map.mp mem
  exact ⟨flag, by simp [cellOf, Value.get?, Fields.get?], by
    simp [cellOf, Value.get?, Fields.get?, differs]⟩

theorem not_arranges_descending (omitted : column ∉ other :: rest) :
    ¬ Arranges column (other :: rest) (descending other column) (.array (sortRows column
      ((descending other column).map (projectRow · (other :: rest))))) := by
  rintro ⟨ordered, isPerm, sorted, isArray⟩
  have unsorted : sortRows column ((descending other column).map (projectRow · (other :: rest))) =
      (descending other column).map (projectRow · (other :: rest)) := by
    have empty (row : Value) : cellOf column (projectRow row (other :: rest)) = .null := by
      rw [cellOf_projectRow row (by simp), if_neg omitted]
    refine List.Pairwise.insertionSort_eq (pairwise_map.mpr ?_)
    refine pairwise_of_forall fun left right => ?_
    change jsonCompare (cellOf _ _) (cellOf _ _) ≠ .gt
    rw [empty, empty]
    nofun
  rw [unsorted, Value.array.injEq] at isArray
  have differs : other ≠ column := fun same => omitted (same ▸ mem_cons_self)
  have projected (row : Value) :
      cellOf other (projectRow row (other :: rest)) = cellOf other row := by
    rw [cellOf_projectRow row (by simp), if_pos mem_cons_self]
  have cells : ordered.map (cellOf column) = [.bool true, .bool false] := by
    calc ordered.map (cellOf column)
        = ordered.map (cellOf other ∘ (projectRow · (other :: rest))) :=
          map_congr_left fun row mem => by
            obtain ⟨flag, first, second⟩ := cellOf_descending differs (isPerm.mem_iff.mp mem)
            rw [Function.comp_apply, projected, first, second]
      _ = (descending other column).map (cellOf other ∘ (projectRow · (other :: rest))) := by
          rw [← map_map, ← isArray, map_map]
      _ = [.bool true, .bool false] := by
          simp only [descending, map_map, Function.comp_def, projected]
          simp [cellOf, Value.get?, Fields.get?]
  have ascending : (ordered.map (cellOf column)).Pairwise (jsonCompare · · ≠ .gt) :=
    pairwise_map.mpr sorted
  rw [cells] at ascending
  exact (pairwise_cons.mp ascending).1 _ mem_cons_self rfl

/-- An embedded array is in the order of the sort column, for all rows, exactly when projecting
    keeps that column. -/
theorem embedded_sorted_iff (isMany : rel.cardinality = .many)
    (isSorted : rel.sortBy = some column) :
    (∀ rows, (∀ row ∈ rows, IsJson (cellOf column row)) →
      Arranges column rel.select rows (applySelectAndShape rel (.many rows))) ↔
    rel.select = [] ∨ column ∈ rel.select := by
  have shaped (rows : List Value) : applySelectAndShape rel (.many rows) =
      .array (sortRows column (rows.map (projectRow · rel.select))) := by
    simp [applySelectAndShape, isMany, isSorted]
  simp only [shaped]
  constructor
  · intro arranged
    by_contra omitted
    obtain ⟨nonempty, omitted⟩ := not_or.mp omitted
    obtain ⟨other, rest, isSelect⟩ := exists_cons_of_ne_nil nonempty
    rw [isSelect] at arranged omitted
    refine not_arranges_descending omitted (arranged _ fun row member => ?_)
    have differs : other ≠ column := fun same => omitted (same ▸ mem_cons_self)
    obtain ⟨flag, -, isCell⟩ := cellOf_descending differs member
    rw [isCell]
    trivial
  · rintro kept rows areJson
    refine arranges_of_kept (fun row => ?_) areJson
    by_cases all : rel.select = []
    · simp [projectRow, all]
    · rw [cellOf_projectRow row all, if_pos (kept.resolve_left all)]

/-- Orders embed the article of each line, in the order of the lines. -/
def lines : RelatedDefinition where
  id := "line"
  table := "public.lines"
  pk := ⟨["id"], by simp⟩
  joinOn := ⟨⟨["id"], by simp⟩, ⟨["order_id"], by simp⟩⟩
  select := ["article"]
  embedAs := "lines"
  cardinality := .many
  onMissing := .null
  sortBy := some "position"

theorem embedded_sorted_iff_lines : (∀ rows, (∀ row ∈ rows, IsJson (cellOf "position" row)) →
      Arranges "position" lines.select rows (applySelectAndShape lines (.many rows))) ↔
    lines.select = [] ∨ "position" ∈ lines.select :=
  embedded_sorted_iff rfl rfl

/-- The sort column is gone when the projected lines are sorted, so they stay as they came. -/
theorem unselected_column_does_not_sort :
    applySelectAndShape lines (.many (descending "article" "position")) =
      .array [.object [("article", .bool true)], .object [("article", .bool false)]] ∧
    ¬ Arranges "position" lines.select (descending "article" "position")
      (applySelectAndShape lines (.many (descending "article" "position"))) :=
  ⟨by decide +kernel, not_arranges_descending (by decide)⟩

end

end Ventstream.Joins
