import Ventstream.SqlDenormalize.Projection

/-! # What a batch takes note of

A committed change is described by an event with the full row before and after it.
The event loop notes the key of a changed primary row, and of a changed related row the
join keys it had and has. Nothing that has been noted is forgotten, and nothing else is noted.
-/

namespace Ventstream.SqlDenormalize

open Core (Event)
open Joins (JoinDefinition RelatedDefinition)
open Json (Value Fields)
open List hiding after

variable {change : Change} {ev : Event}

/-- A committed change of the database. -/
inductive Change where
  | insert (table : Table) (row : Row)
  | update (table : Table) (before after : Row)
  | delete (table : Table) (row : Row)
  | truncate (table : Table)
  deriving DecidableEq

namespace Change

def table : Change → Table
  | .insert table _ => table
  | .update table _ _ => table
  | .delete table _ => table
  | .truncate table => table

def op : Change → TailOp
  | .insert _ _ => .other
  | .update _ _ _ => .update
  | .delete _ _ => .delete
  | .truncate _ => .truncate

def after? : Change → Option Row
  | .insert _ row => some row
  | .update _ _ after => some after
  | _ => none

def before? : Change → Option Row
  | .update _ before _ => some before
  | .delete _ row => some row
  | _ => none

end Change

/-- A row as JSON: all columns are texts or null. -/
def rowValue (row : Row) : Value :=
  .object (row.map fun (column, text) => (column, text.elim .null .string))

/-- The event describes the change, under a full replica identity. -/
structure Describes (change : Change) (ev : Event) : Prop where
  relation : ev.headers["ventstream.cdc.relation"]? = some change.table.2
  op : tailOp ev = change.op
  payload : match change with
    | .insert _ row => ev.payload = .ok (rowValue row)
    | .update _ before after => ev.payload =
        .ok (.object [("new", rowValue after), ("old", rowValue before)])
    | .delete _ row => ev.payload = .ok (.object [("old", rowValue row)])
    | .truncate _ => True

theorem get?_map_value (row : Row) (column : String) :
    Fields.get? column (row.map fun (column, text) => (column, text.elim .null .string)) =
      (row.lookup column).map fun text => text.elim .null .string := by
  induction row with
  | nil => rfl
  | cons field rest ih =>
    obtain ⟨name, text⟩ := field
    by_cases same : name = column
    · subst same
      simp [Fields.get?, lookup]
    · have other : (column == name) = false := by simpa using Ne.symm same
      simpa [Fields.get?, same, lookup, other] using ih

theorem extractCols_rowValue (row : Row) (columns : List String) :
    extractCols (rowValue row) columns = cells row columns := by
  unfold extractCols rowValue cells
  simp only [Value.asObject, Option.bind_eq_bind, Option.bind_some, get?_map_value]
  congr 1
  funext column
  unfold cell
  cases row.lookup column with
  | none => rfl
  | some text => cases text <;> rfl

namespace Describes

variable (describes : Describes change ev)

include describes

theorem parse_relation : (parse ev).relation = change.table.2 := by
  simp [parse, describes.relation]

theorem parse_op : (parse ev).op = change.op := describes.op

theorem parse_row (isRow : change.after? = some row ∨
    change.op = .delete ∧ change.before? = some row) : (parse ev).row = rowValue row := by
  have payload := describes.payload
  have op := describes.op
  cases change with
  | insert table inserted =>
    simp_all [parse, Change.after?, Change.op, effectiveRow, Except.toOption]
  | update table before after =>
    simp_all [parse, Change.after?, Change.op, effectiveRow, Except.toOption, Value.get?,
      Fields.get?]
  | delete table deleted =>
    simp_all [parse, Change.after?, Change.before?, Change.op, effectiveRow, Except.toOption,
      Value.get?, Fields.get?]
  | truncate table => simp [Change.after?, Change.before?] at isRow

theorem parse_preImage (isUpdate : change.op = .update)
    (isRow : change.before? = some row) : (parse ev).preImage = some (rowValue row) := by
  have payload := describes.payload
  have op := describes.op
  cases change with
  | update table before after =>
    simp_all [parse, Change.before?, Except.toOption, Value.get?, Fields.get?]
  | insert | delete | truncate => cases isUpdate

end Describes

section

/-- What an event can hint at: a primary row that was written or deleted, or a join key. -/
inductive Hint where
  | affected (key : Key)
  | deleted (key : Key)
  | joinKey (index : Nat) (key : Key)

def Gathered.Has (gathered : Gathered) : Hint → Prop
  | .affected key => key ∈ gathered.affected
  | .deleted key => key ∈ gathered.deletes
  | .joinKey index key => (index, key) ∈ gathered.many1

theorem has_foldl {α : Type} {take : Gathered → α → Gathered} {adds : α → Hint → Prop}
    (step : ∀ gathered item hint,
      (take gathered item).Has hint ↔ gathered.Has hint ∨ adds item hint)
    (items : List α) (gathered : Gathered) (hint : Hint) : (items.foldl take gathered).Has hint ↔
      gathered.Has hint ∨ ∃ item ∈ items, adds item hint := by
  induction items generalizing gathered with
  | nil => simp
  | cons item rest ih => simp [ih, step, or_assoc]

variable (defn : JoinDefinition)

/-- A join key is the key of a primary, or to be looked up. -/
def joinHint (rel : RelatedDefinition) (index : Nat) (key : Key) : Hint :=
  if isOneToMany defn rel then .affected key else .joinKey index key

/-- The join keys of a related row after an event, and before an update. -/
def joinKeys (rel : RelatedDefinition) (parsed : Parsed) : List Key :=
  (extractCols parsed.row rel.joinOn.target.columns).toList ++ (if parsed.op = .update then
    parsed.preImage.bind (extractCols · rel.joinOn.target.columns) else none).toList

/-- A written primary row tells its key, and the key that it has left. -/
def WriteTells (parsed : Parsed) (hint : Hint) : Prop :=
  ∃ key, extractCols parsed.row (pkColumns defn) = some key ∧ (hint = .affected key ∨
    ∃ old, parsed.preImage.bind (extractCols · (pkColumns defn)) = some old ∧ old ≠ key ∧
      hint = .deleted old)

/-- What an event tells by its table, its operation and the rows before and after it. -/
inductive Tells (parsed : Parsed) : Hint → Prop where
  | deleted {key : Key} (named : relationOf defn.primary.table = parsed.relation)
      (isDelete : parsed.op = .delete)
      (isKey : extractCols parsed.row (pkColumns defn) = some key) : Tells parsed (.deleted key)
  | written {hint : Hint} (named : relationOf defn.primary.table = parsed.relation)
      (notDelete : parsed.op ≠ .delete) (noted : WriteTells defn parsed hint) : Tells parsed hint
  | joined {rel : RelatedDefinition} {index : Nat} {key : Key}
      (apart : relationOf defn.primary.table = parsed.relation → parsed.op ≠ .delete)
      (numbered : (rel, index) ∈ defn.related.zipIdx)
      (named : relationOf rel.table = parsed.relation) (isKey : key ∈ joinKeys rel parsed) :
      Tells parsed (joinHint defn rel index key)

variable {defn} {gathered : Gathered} {parsed : Parsed} {hint : Hint}

theorem has_notePrimary : (notePrimary defn gathered parsed).Has hint ↔
    gathered.Has hint ∨ WriteTells defn parsed hint := by
  unfold WriteTells
  unfold notePrimary
  cases extractCols parsed.row (pkColumns defn) with
  | none => simp
  | some key =>
    cases parsed.preImage.bind (extractCols · (pkColumns defn)) with
    | none => cases hint <;> simp [Gathered.Has, or_comm]
    | some old =>
      by_cases changed : old = key <;> cases hint <;>
        simp [Gathered.Has, Option.filter, changed, or_comm]

theorem has_noteJoinKey {rel : RelatedDefinition} {index : Nat} (gathered : Gathered) (key : Key)
    (hint : Hint) : (noteJoinKey defn rel index gathered key).Has hint ↔
      gathered.Has hint ∨ hint = joinHint defn rel index key := by
  unfold noteJoinKey joinHint
  split
  · cases hint <;> simp [Gathered.Has, or_comm]
  · cases hint <;> simp [Gathered.Has]

theorem has_noteLookup {rel : RelatedDefinition} :
    (noteLookup defn rel gathered parsed).Has hint ↔ gathered.Has hint := by
  unfold noteLookup
  split
  · split
    · rfl
    · split
      · rfl
      · cases hint <;> rfl
  · rfl

theorem has_noteRelated (gathered : Gathered) (numbered : RelatedDefinition × Nat) (hint : Hint) :
    (noteRelated defn parsed gathered numbered).Has hint ↔ gathered.Has hint ∨
      relationOf numbered.1.table = parsed.relation ∧
        ∃ key ∈ joinKeys numbered.1 parsed, hint = joinHint defn numbered.1 numbered.2 key := by
  obtain ⟨rel, index⟩ := numbered
  unfold noteRelated joinKeys
  dsimp only
  by_cases named : relationOf rel.table = parsed.relation
  · rw [if_neg (not_not.mpr named)]
    generalize (if parsed.op = .update then
      parsed.preImage.bind (extractCols · rel.joinOn.target.columns) else none) = old
    cases extractCols parsed.row rel.joinOn.target.columns with
    | none => cases old <;> simp [has_noteLookup, has_noteJoinKey, named]
    | some now =>
      cases old with
      | none => simp [has_noteJoinKey, named]
      | some old =>
        by_cases same : old = now
        · simp [has_noteJoinKey, named, Option.filter, same]
        · simp [has_noteJoinKey, named, Option.filter, same]
          tauto
  · simp [named]

theorem has_noteEvent (gathered : Gathered) (parsed : Parsed) (hint : Hint) :
    (noteEvent defn gathered parsed).Has hint ↔ gathered.Has hint ∨ Tells defn parsed hint := by
  unfold noteEvent
  by_cases isOwn : relationOf defn.primary.table = parsed.relation ∧ parsed.op = .delete
  · rw [if_pos isOwn]
    have only : Tells defn parsed hint ↔
        ∃ key, extractCols parsed.row (pkColumns defn) = some key ∧ hint = .deleted key := by
      constructor
      · rintro (⟨_, _, isKey⟩ | ⟨_, notDelete, _⟩ | ⟨apart⟩)
        · exact ⟨_, isKey, rfl⟩
        · exact absurd isOwn.2 notDelete
        · exact absurd isOwn.2 (apart isOwn.1)
      · rintro ⟨key, isKey, rfl⟩
        exact .deleted isOwn.1 isOwn.2 isKey
    rw [only]
    cases extractCols parsed.row (pkColumns defn) with
    | none => simp
    | some key => cases hint <;> simp [Gathered.Has, or_comm]
  · rw [if_neg isOwn, has_foldl has_noteRelated]
    have apart : relationOf defn.primary.table = parsed.relation → parsed.op ≠ .delete :=
      fun named isDelete => isOwn ⟨named, isDelete⟩
    have early : (if relationOf defn.primary.table = parsed.relation then
        notePrimary defn gathered parsed else gathered).Has hint ↔ gathered.Has hint ∨
          relationOf defn.primary.table = parsed.relation ∧ WriteTells defn parsed hint := by
      split
      · rename_i named
        simp [has_notePrimary, named]
      · rename_i other
        simp [other]
    rw [early, or_assoc]
    refine or_congr_right ⟨?_, ?_⟩
    · rintro (⟨named, noted⟩ | ⟨numbered, mem, named, key, isKey, rfl⟩)
      · exact .written named (apart named) noted
      · exact .joined apart mem named isKey
    · rintro (⟨named, isDelete, _⟩ | ⟨named, _, noted⟩ | ⟨_, mem, named, isKey⟩)
      · exact absurd isDelete (apart named)
      · exact .inl ⟨named, noted⟩
      · exact .inr ⟨_, mem, named, _, isKey, rfl⟩

theorem has_gather {batch : List Parsed} :
    (gather defn batch).Has hint ↔ ∃ parsed ∈ batch, Tells defn parsed hint := by
  rw [gather, has_foldl has_noteEvent]
  cases hint <;> simp [Gathered.Has]

end

section

variable {defn : JoinDefinition} {batch : List Event} {row : Row} {key : Key}

theorem mem_affected_of_primary (describes : Describes change ev) (mem : ev ∈ batch)
    (isPrimary : relationOf defn.primary.table = change.table.2)
    (isAfter : change.after? = some row) (isKey : keyOf defn row = some key) :
    (gather defn (batch.map parse)).Has (.affected key) := by
  refine has_gather.mpr ⟨parse ev, mem_map_of_mem mem, .written ?_ ?_ ⟨key, ?_, .inl rfl⟩⟩
  · exact isPrimary.trans describes.parse_relation.symm
  · rw [describes.parse_op]
    cases change with
    | delete => cases isAfter
    | insert | update | truncate => simp [Change.op]
  · rw [describes.parse_row (.inl isAfter), extractCols_rowValue]
    exact isKey

section

variable (describes : Describes (.delete table row) ev)
  (isPrimary : relationOf defn.primary.table = table.2) (isKey : keyOf defn row = some key)

include describes isPrimary isKey

theorem noteEvent_delete (gathered : Gathered) : noteEvent defn gathered (parse ev) =
    { gathered with deletes := gathered.deletes.insert key } := by
  have extracted : extractCols (parse ev).row (pkColumns defn) = some key := by
    rw [describes.parse_row (.inr ⟨rfl, rfl⟩), extractCols_rowValue]
    exact isKey
  unfold noteEvent
  rw [if_pos ⟨isPrimary.trans describes.parse_relation.symm, describes.parse_op⟩, extracted]

theorem mem_deletes_of_primary (mem : ev ∈ batch) :
    (gather defn (batch.map parse)).Has (.deleted key) := by
  refine has_gather.mpr ⟨parse ev, mem_map_of_mem mem, .deleted ?_ describes.parse_op ?_⟩
  · exact isPrimary.trans describes.parse_relation.symm
  · rw [describes.parse_row (.inr ⟨rfl, rfl⟩), extractCols_rowValue]
    exact isKey

end

variable {rel : RelatedDefinition} {index : Nat}

/-- The join key that a row had before the change or has after it is noted. -/
theorem has_joinHint (describes : Describes change ev)
    (isRelated : relationOf rel.table = change.table.2)
    (isRow : change.after? = some row ∨ change.before? = some row)
    (isKey : cells row rel.joinOn.target.columns = some key) (mem : ev ∈ batch)
    (numbered : (rel, index) ∈ defn.related.zipIdx)
    (apart : change.op = .delete → relationOf defn.primary.table ≠ change.table.2) :
    (gather defn (batch.map parse)).Has (joinHint defn rel index key) := by
  refine has_gather.mpr ⟨parse ev, mem_map_of_mem mem, .joined ?_ numbered ?_ ?_⟩
  · rw [describes.parse_op, describes.parse_relation]
    exact fun named isDelete => apart isDelete named
  · exact isRelated.trans describes.parse_relation.symm
  · have extracted : extractCols (rowValue row) rel.joinOn.target.columns = some key := by
      rw [extractCols_rowValue, isKey]
    by_cases current : change.after? = some row ∨ change.op = .delete ∧ change.before? = some row
    · simp [joinKeys, describes.parse_row current, extracted]
    · -- The row before an update.
      obtain ⟨isBefore, isUpdate⟩ : change.before? = some row ∧ change.op = .update := by
        cases change with
        | insert | truncate => simp_all [Change.after?, Change.before?]
        | delete | update => simp_all [Change.after?, Change.op]
      simp [joinKeys, describes.parse_op, isUpdate, describes.parse_preImage isUpdate isBefore,
        extracted]

theorem truncates_of_mem (describes : Describes (.truncate table) ev) (mem : ev ∈ batch)
    (isTable : relationOf name = table.2) : truncates (batch.map parse) name := by
  refine any_eq_true.mpr ⟨parse ev, mem_map_of_mem mem, ?_⟩
  rw [describes.parse_op, describes.parse_relation]
  simp [Change.op, Change.table, isTable]

end

end Ventstream.SqlDenormalize
