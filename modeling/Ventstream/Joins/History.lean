import Ventstream.Joins.RelatedRows

/-! # Histories of a database

The engine is fed the changes of a database. An event is legal when it describes
one: it inserts a row that is not there, updates one that is, possibly leaving
columns out or moving it to a free key, deletes one it identifies by its key or by a
document id alone, or truncates a table. A history runs the database and the engine side by side.
-/

namespace Ventstream.Joins

open Core Library Library.Program List
open Std (ExtTreeMap ExtTreeSet)
open Json (Value Fields)

abbrev Database := RowKey → Option Fields

abbrev Schema := String → List String

/-- The spec names the primary keys of the tables as the database has them. -/
def Fits (schema : Schema) (joins : List JoinDefinition) : Prop :=
  ∀ defn ∈ joins, defn.primary.pk.columns = schema defn.primary.table ∧
    ∀ rel ∈ defn.related, rel.pk.columns = schema rel.table

def isScalar : Value → Bool
  | .bool _ | .number _ | .string _ => true
  | _ => false

def HasScalars (columns : List String) (row : Fields) : Prop :=
  ∀ column ∈ columns, ∃ value, Fields.get? column row = some value ∧ isScalar value = true

def DistinctNames (row : Fields) : Prop := (row.map (·.1)).Nodup

section

variable {columns : List String}

theorem normalize_scalar (scalar : isScalar value) :
    normalizeComponent value = .string (componentText value) := by
  cases value with
  | bool value => cases value <;> rfl
  | number | string => simp [normalizeComponent, componentText, Json.render, Json.chars]
  | null | array | object => cases scalar

/-- The texts of a row in the key columns. -/
def keyTexts (columns : List String) (row : Fields) : List String :=
  columns.map fun column => componentText ((Fields.get? column row).getD .null)

theorem keyOf_scalars (scalars : HasScalars columns row) :
    keyOf columns row = ⟨Json.render (.array ((keyTexts columns row).map .string))⟩ := by
  rw [keyOf, PkValue.fromValues, keyTexts, map_map, map_map]
  congr 3
  refine map_congr_left fun column isColumn => ?_
  obtain ⟨value, found, scalar⟩ := scalars column isColumn
  simp [found, normalize_scalar scalar]

/-- Merging a row twice is merging it once, unless it was not an object that it met first. -/
theorem mergeOver_settles (op : Op) (found : Option Value) (row : Value) :
    mergeOver (priorOf op (some (mergeOver (priorOf op found) row))) row =
        mergeOver (priorOf op found) row ∨
      row.isObject ∧ ∀ value, found = some value → value.isObject = false := by
  by_cases isUpdate : op = .update
  · simp only [priorOf, if_pos isUpdate]
    cases row with
    | object new =>
      cases found with
      | none => exact .inr ⟨rfl, by simp⟩
      | some value =>
        cases value with
        | object base => exact .inl (congrArg Value.object (Fields.merge_merge base new))
        | _ => exact .inr ⟨rfl, by rintro _ ⟨⟩; rfl⟩
    | _ => exact .inl (by simp [mergeOver])
  · simp [priorOf, isUpdate]

theorem mergeOver_twice (op : Op) (found : Option Value) (distinct : DistinctNames fields) :
    mergeOver (priorOf op (some (mergeOver (priorOf op found) (.object fields))))
      (.object fields) = mergeOver (priorOf op found) (.object fields) := by
  rcases mergeOver_settles op found (.object fields) with settled | ⟨_, fresh⟩
  · exact settled
  · have unmerged : mergeOver (priorOf op found) (.object fields) = .object fields := by
      cases found with
      | none => by_cases isUpdate : op = .update <;> simp [priorOf, isUpdate, mergeOver]
      | some value =>
        by_cases isUpdate : op = .update <;> cases value <;>
          simp_all [priorOf, mergeOver, Value.isObject, Value.asObject]
    rw [unmerged]
    by_cases isUpdate : op = .update
    · simp [priorOf, isUpdate, mergeOver, Fields.merge_self distinct]
    · simp [priorOf, isUpdate, mergeOver]

end

/-- The event is about rows of a table. -/
structure Concerns (ev : Event) (table : String) (op : Op) : Prop where
  isRow : IsRow ev
  located : sourceTable ev = .ok table
  named : subjectOp ev = .ok op

/-- The event carries the key of the row it deletes: in a tuple that has the key columns, or,
    with an empty payload, in the document id. -/
def Identifies (columns : List String) (env : Env) (ev : Event) (key : PkValue) : Prop :=
  (∃ tuple, eventRow ev .delete = some (.object tuple) ∧ keyOf columns tuple = key) ∨
    ev.payload = .ok (.object []) ∧ pkFromDocId env ev columns.length = some key

/-- What a legal event does to the database. -/
inductive Legal (schema : Schema) (env : Env) (ev : Event) (table : String) :
    Op → Database → Database → Prop where
  | insert {db : Database} {row : Fields} :
      eventRow ev .insert = some (.object row) → DistinctNames row →
      HasScalars (schema table) row → db ⟨table, keyOf (schema table) row⟩ = none →
      Legal schema env ev table .insert db
        (Function.update db ⟨table, keyOf (schema table) row⟩ (some row))
  | update {db : Database} {key : PkValue} {old new : Fields} :
      eventRow ev .update = some (.object new) → DistinctNames new →
      db ⟨table, key⟩ = some old → HasScalars (schema table) (Fields.merge old new) →
      (keyOf (schema table) (Fields.merge old new) = key ∨
        db ⟨table, keyOf (schema table) (Fields.merge old new)⟩ = none) →
      Legal schema env ev table .update db
        (Function.update (Function.update db ⟨table, key⟩ none)
          ⟨table, keyOf (schema table) (Fields.merge old new)⟩ (some (Fields.merge old new)))
  | delete {db : Database} {key : PkValue} {old : Fields} :
      db ⟨table, key⟩ = some old → Identifies (schema table) env ev key →
      Legal schema env ev table .delete db (Function.update db ⟨table, key⟩ none)
  | truncate {db : Database} :
      Legal schema env ev table .truncate db fun row =>
        if row.table = table then none else db row

/-- A database and an engine that has been fed its changes, each of which met a condition. -/
inductive History (schema : Schema) (joins : List JoinDefinition)
    (Meets : Engine → Env → Event → Prop) : Database → Engine → Prop where
  | start (engine : Engine) :
      engine.tables = .empty → History schema joins Meets (fun _ => none) engine
  | step {db later : Database} {engine after : Engine} {env : Env} {ev : Event}
      {table : String} {op : Op} {result : Except JoinError PUnit} :
      History schema joins Meets db engine → Concerns ev table op →
      Legal schema env ev table op db later → Meets engine env ev →
      exec (handle env joins ev) engine = (result, after) → Continues result →
      History schema joins Meets later after

theorem History.reachable
    (history : History schema joins Meets db engine) : Reachable joins Meets engine := by
  induction history with
  | start engine isEmpty => exact .start engine isEmpty
  | step _ _ _ meets ran continues ih => exact .step ih meets ran continues

end Ventstream.Joins
