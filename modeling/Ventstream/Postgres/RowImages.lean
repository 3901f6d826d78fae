import Ventstream.Postgres.VersionFloor

/-! # Rows of the snapshot and rows of the log

The same row reaches the pipeline from a scan and from the replication stream. The event mapper
of `event_mapper.rs` takes a tuple apart by the columns of its relation and makes the document
id of those that are flagged as part of the key, in the order of the columns. The scan takes the
key columns in the order of the constraint, and rewrites every text that looks like a timestamp.
-/

namespace Ventstream.Postgres

open Core List
open Json (Value Fields)
open Postgres.Bootstrap (SnapshotTable)

inductive TupleColumn where
  | null
  | unchangedToast
  /-- The text, unless the bytes are not UTF-8. -/
  | text (decoded : Option String)
  | binary (hex : String)

structure RelationColumn where
  name : String
  isKeyPart : Bool

structure Relation where
  id : Nat
  schema : String
  name : String
  columns : List RelationColumn

/-- The value of a column; an unchanged one that was not sent is left out. -/
def columnToJson : TupleColumn → Option (Option Value)
  | .null => some (some .null)
  | .unchangedToast => some none
  | .text decoded => decoded.map fun text => some (.string text)
  | .binary hex => some (some (.string hex))

def tupleFields : List (RelationColumn × TupleColumn) → Fields → Option Fields
  | [], fields => some fields
  | (column, value) :: rest, fields => do
    match ← columnToJson value with
    | some value => tupleFields rest (fields.set column.name value)
    | none => tupleFields rest fields

section

variable (relation : Relation) (columns : List TupleColumn)

def tupleAsJsonValue : Option Value :=
  (tupleFields (relation.columns.zip columns) []).map .object

def keyComponentsOf : List (RelationColumn × TupleColumn) → List String → Bool →
    Option (Option (List String))
  | [], components, anyKey => some (if anyKey then some components else none)
  | (column, value) :: rest, components, anyKey =>
    if column.isKeyPart then do
      match ← columnToJson value with
      | none | some .null => some none
      | some value => keyComponentsOf rest (components ++ [componentText value]) true
    else keyComponentsOf rest components anyKey

def keyComponents : Option (Option (List String)) :=
  keyComponentsOf (relation.columns.zip columns) [] false

def tupleDocId : Option (Option String) := do
  let components ← keyComponents relation columns
  some (components.map (docId (relation.schema ++ "." ++ relation.name)))

def subjectForOp (op : String) : Option Subject :=
  Subject.ofText ("postgres." ++ sanitizeSegment relation.schema ++ "." ++
    sanitizeSegment relation.name ++ "." ++ op)

def defaultHeaders : Headers :=
  ((((∅ : Headers).insert "ventstream.cdc.namespace" relation.schema).insert
    "ventstream.cdc.relation" relation.name).insert "ventstream.cdc.relation_oid"
    (toString relation.id))

/-- The event of an inserted row; none when the message is refused. -/
def insertToEvent : Option Event := do
  guard (columns.length = relation.columns.length)
  let subject ← subjectForOp relation "insert"
  let payload ← tupleAsJsonValue relation columns
  let headers := match ← tupleDocId relation columns with
    | some id => (defaultHeaders relation).insert "ventstream.doc.id" id
    | none => defaultHeaders relation
  some ⟨subject, headers, .ok payload⟩

/-- The event of an updated row; a document whose key changed is marked with its old id. -/
def updateToEvent (new : List TupleColumn) (old : Option (List TupleColumn)) : Option Event := do
  guard (new.length = relation.columns.length ∧
    ∀ columns ∈ old, columns.length = relation.columns.length)
  let subject ← subjectForOp relation "update"
  let newRow ← tupleAsJsonValue relation new
  let oldRow ← old.elim (some .null) (tupleAsJsonValue relation)
  let headers := if new.any (· matches .unchangedToast) then
      (defaultHeaders relation).insert "ventstream.pg.toast_incomplete" "1"
    else defaultHeaders relation
  let payload := .object [("new", newRow), ("old", oldRow)]
  match ← tupleDocId relation new with
  | none => some ⟨subject, headers, .ok payload⟩
  | some id =>
    let oldId ← old.elim (some none) (tupleDocId relation)
    let headers := match oldId with
      | some oldId => if oldId = id then headers else headers.insert "ventstream.doc.old_id" oldId
      | none => headers
    some ⟨subject, headers.insert "ventstream.doc.id" id, .ok payload⟩

end

/-- The columns that `fetch_full_row` compares and the texts it compares them to. -/
def boundColumns (primaryKey components : List String) : Option (List (String × String)) :=
  if primaryKey.length = components.length then some (primaryKey.zip components) else none

variable {relation : Relation} {row : String → String}

section

variable {texts : String → Option String}

/-- A text or null, as both sides have it. -/
def textValue : Option String → Value
  | some text => .string text
  | none => .null

def textColumn : Option String → TupleColumn
  | some text => .text (some text)
  | none => .null

/-- The tuple of a row of texts. -/
def textTuple (relation : Relation) (texts : String → Option String) : List TupleColumn :=
  relation.columns.map fun column => textColumn (texts column.name)

/-- The row as the scan reads it, in any order of the columns. -/
def IsRow (relation : Relation) (texts : String → Option String) (fields : Fields) : Prop :=
  ∀ name, fields.get? name =
    if name ∈ relation.columns.map (·.name) then some (textValue (texts name)) else none

theorem get?_stringify (fields : Fields) (name : String) :
    Fields.get? name (fields.map fun field => (field.1, stringify field.2)) =
      (fields.get? name).map stringify := by
  induction fields with
  | nil => rfl
  | cons field rest ih =>
    simp only [map_cons, Fields.get?]
    split
    · rfl
    · exact ih

theorem normalizeIsoTimestamp_eq_iff :
    normalizeIsoTimestamp text = text ↔ looksIso text.toList = false := by
  constructor
  · intro same
    by_contra isIso
    rw [Bool.not_eq_false] at isIso
    obtain ⟨long, shaped⟩ := Bool.and_eq_true_iff.mp isIso
    have inside : 10 < text.toList.length := by
      have := of_decide_eq_true long
      omega
    have isT := all_eq_true.mp shaped (text.toList[10], 'T')
      (mem_iff_getElem?.mpr ⟨10, by simp [inside]⟩)
    rw [normalizeIsoTimestamp, if_pos isIso] at same
    have isSpace := congrArg (fun text => text.toList[10]?) same
    have short : min 10 text.toList.length = 10 := by omega
    simp [short, inside] at isSpace isT
    rw [← isSpace] at isT
    cases isT
  · intro notIso
    simp [normalizeIsoTimestamp, notIso]

theorem tupleFields_texts (columns : List RelationColumn) (fields : Fields) :
    ∃ result, tupleFields (columns.zip (columns.map fun column =>
        textColumn (texts column.name))) fields = some result ∧
      ∀ name, Fields.get? name result =
        if name ∈ columns.map (·.name) then some (textValue (texts name))
        else fields.get? name := by
  induction columns generalizing fields with
  | nil => exact ⟨fields, rfl, by simp⟩
  | cons column rest ih =>
    obtain ⟨result, isResult, found⟩ := ih (fields.set column.name (textValue (texts column.name)))
    refine ⟨result, ?_, fun name => ?_⟩
    · rw [← isResult, map_cons, zip_cons_cons, tupleFields]
      cases texts column.name <;> rfl
    · rw [found, Fields.get?_set]
      by_cases isName : column.name = name
      · subst isName
        simp
      · simp [isName, Ne.symm isName]

/-- Rows of texts look the same from both sides exactly when no text looks like a timestamp. -/
theorem text_payloads_agree_iff (relation : Relation) (texts : String → Option String)
    (fields : Fields) (isRow : IsRow relation texts fields) :
    ∃ payload, tupleAsJsonValue relation (textTuple relation texts) = some payload ∧
      ((∀ name, (stringifyTopLevel (.object fields)).get? name = payload.get? name) ↔
        ∀ column ∈ relation.columns, ∀ text, texts column.name = some text →
          looksIso text.toList = false) := by
  obtain ⟨result, isResult, found⟩ := @tupleFields_texts texts relation.columns []
  refine ⟨.object result, by rw [tupleAsJsonValue, textTuple, isResult]; rfl, ?_⟩
  have scanned : ∀ name, (stringifyTopLevel (.object fields)).get? name =
      (fields.get? name).map stringify := get?_stringify fields
  have logged : ∀ name, (Value.object result).get? name = _ := found
  simp only [scanned, logged, isRow _]
  constructor
  · intro same column isColumn text isText
    have isName : column.name ∈ relation.columns.map (·.name) := mem_map_of_mem isColumn
    have atColumn := same column.name
    rw [if_pos isName, if_pos isName, isText] at atColumn
    simpa [textValue, stringify, normalizeIsoTimestamp_eq_iff] using atColumn
  · intro plain name
    split
    · rename_i isName
      obtain ⟨column, isColumn, rfl⟩ := mem_map.mp isName
      cases isText : texts column.name with
      | none => rfl
      | some text =>
        simpa [textValue, stringify, normalizeIsoTimestamp_eq_iff] using
          plain column isColumn text isText
    · rfl

theorem text_payloads_agree_note : ∃ payload,
    tupleAsJsonValue ⟨1, "public", "notes", [⟨"text", true⟩]⟩ [.text (some "a")] = some payload ∧
      ∀ name, (stringifyTopLevel (.object [("text", .string "a")])).get? name = payload.get? name :=
  let ⟨payload, mapped, agree⟩ := text_payloads_agree_iff ⟨1, "public", "notes", [⟨"text", true⟩]⟩
    (fun _ => some "a") [("text", .string "a")] fun name => by
      simp [Fields.get?, textValue, @eq_comm _ name]
  ⟨payload, mapped, agree.mpr fun _ _ _ isA => Option.some.inj isA ▸ by decide⟩

/-- A note that begins like a timestamp loses its `T` in the snapshot. -/
theorem snapshot_rewrites_text :
    (stringifyTopLevel (.object [("text", .string "2026-01-02T03:04:05 hello")])).get? "text" =
      some (.string "2026-01-02 03:04:05 hello") ∧
    (tupleAsJsonValue ⟨1, "public", "notes", [⟨"text", false⟩]⟩
      [.text (some "2026-01-02T03:04:05 hello")]).bind (·.get? "text") =
      some (.string "2026-01-02T03:04:05 hello") := by
  decide +kernel

end

section

variable {table : SnapshotTable}

/-- The names of the columns that are flagged as part of the key. -/
def Relation.keyColumns (relation : Relation) : List String :=
  (relation.columns.filter (·.isKeyPart)).map (·.name)

/-- The document id of a row of the scan. -/
def snapshotDocId (table : SnapshotTable) (fields : Fields) : Option String :=
  (table.primaryKey.mapM (keyComponent (stringifyTopLevel (.object fields)))).map
    (docId (table.schema ++ "." ++ table.name))

/-- A row whose key columns are texts that both sides deliver as they are. -/
structure Verbatim (table : SnapshotTable) (relation : Relation) (row : String → String)
    (tuple : String → TupleColumn) (fields : Fields) : Prop where
  logged : ∀ column ∈ relation.columns, column.isKeyPart = true →
    tuple column.name = .text (some (row column.name))
  scanned : ∀ column ∈ table.primaryKey, fields.get? column = some (.string (row column))
  plain : ∀ column ∈ table.primaryKey, looksIso (row column).toList = false

variable {tuple : String → TupleColumn} {fields : Fields}

theorem Verbatim.snapshotDocId (verbatim : Verbatim table relation row tuple fields) :
    snapshotDocId table fields =
      some (docId (table.schema ++ "." ++ table.name) (table.primaryKey.map row)) := by
  have each : ∀ column ∈ table.primaryKey,
      keyComponent (stringifyTopLevel (.object fields)) column = some (row column) := by
    intro column isColumn
    have found : (stringifyTopLevel (.object fields)).get? column = _ :=
      get?_stringify fields column
    rw [keyComponent, found, verbatim.scanned column isColumn]
    simp [stringify, componentText,
      normalizeIsoTimestamp_eq_iff.mpr (verbatim.plain column isColumn)]
  have all : table.primaryKey.mapM (keyComponent (stringifyTopLevel (.object fields))) =
      some (table.primaryKey.map row) := by
    generalize table.primaryKey = columns at each
    induction columns with
    | nil => rfl
    | cons column rest ih =>
      obtain ⟨first, each⟩ := forall_mem_cons.mp each
      simp [mapM_cons, first, ih each]
  rw [Postgres.snapshotDocId, all, Option.map_some]

theorem keyComponentsOf_texts {columns : List RelationColumn}
    (logged : ∀ column ∈ columns, column.isKeyPart →
      tuple column.name = .text (some (row column.name))) (front : List String) (anyKey : Bool) :
    keyComponentsOf (columns.zip (columns.map fun column => tuple column.name)) front anyKey =
      some (if anyKey || columns.any (·.isKeyPart) then
        some (front ++ ((columns.filter (·.isKeyPart)).map (·.name)).map row) else none) := by
  induction columns generalizing front anyKey with
  | nil => simp [keyComponentsOf]
  | cons column rest ih =>
    obtain ⟨first, logged⟩ := forall_mem_cons.mp logged
    rw [map_cons, zip_cons_cons, keyComponentsOf]
    cases isKey : column.isKeyPart with
    | false => simp [ih logged, isKey]
    | true => simp [first isKey, columnToJson, ih logged, isKey, componentText]

theorem Verbatim.keyComponents (verbatim : Verbatim table relation row tuple fields) :
    keyComponents relation (relation.columns.map fun column => tuple column.name) =
      some (if relation.keyColumns = [] then none else some (relation.keyColumns.map row)) := by
  rw [Postgres.keyComponents, keyComponentsOf_texts verbatim.logged]
  by_cases noKey : relation.keyColumns = []
  · have noPart : relation.columns.any (·.isKeyPart) = false := by
      simpa [Relation.keyColumns, filter_eq_nil_iff] using noKey
    simp [noKey, noPart]
  · have somePart : relation.columns.any (·.isKeyPart) := by
      simpa [Relation.keyColumns, filter_eq_nil_iff] using noKey
    rw [if_neg noKey, if_pos (by simpa using somePart)]
    rfl

theorem header_of_insertToEvent {id} (mapped : insertToEvent relation columns = some ev)
    (isId : tupleDocId relation columns = some (some id)) :
    ev.headers["ventstream.doc.id"]? = some id := by
  simp only [insertToEvent, isId, Option.bind_eq_bind, Option.bind_eq_some_iff] at mapped
  obtain ⟨_, -, _, -, _, -, _, isSome, built⟩ := mapped
  cases isSome
  cases built
  exact Std.ExtTreeMap.getElem?_insert_self

theorem header_of_updateToEvent {id} (mapped : updateToEvent relation new old = some ev)
    (isId : tupleDocId relation new = some (some id)) :
    ev.headers["ventstream.doc.id"]? = some id := by
  simp only [updateToEvent, isId, Option.bind_eq_bind, Option.bind_eq_some_iff] at mapped
  obtain ⟨_, -, _, -, _, -, _, -, _, isSome, mapped⟩ := mapped
  cases isSome
  obtain ⟨_, -, built⟩ := Option.bind_eq_some_iff.mp mapped
  cases built
  exact Std.ExtTreeMap.getElem?_insert_self

theorem header_of_snapshot {id}
    (built : buildSyntheticInsert publication table (.object fields) versionFloor = some ev)
    (isId : Postgres.snapshotDocId table fields = some id) :
    ev.headers["ventstream.doc.id"]? = some id := by
  obtain ⟨components, isComponents, rfl⟩ := Option.map_eq_some_iff.mp isId
  simp only [buildSyntheticInsert, isComponents, Option.bind_eq_bind,
    Option.bind_eq_some_iff] at built
  obtain ⟨_, -, built⟩ := built
  cases built
  exact Std.ExtTreeMap.getElem?_insert_self

theorem get?_of_mem {columns : List String} {value : String → Value} (mem : column ∈ columns) :
    Fields.get? column (columns.map fun column => (column, value column)) =
      some (value column) := by
  induction columns with
  | nil => cases mem
  | cons first rest ih =>
    by_cases isFirst : first = column
    · simp [Fields.get?, isFirst]
    · have later := (mem_cons.mp mem).resolve_left (Ne.symm isFirst)
      simp [Fields.get?, isFirst, ih later]

/-- Both sides name the documents of a table alike exactly when the constraint lists the key
    columns as the relation does. Otherwise a row read again by its id is looked for under the
    values of the wrong columns as well. -/
theorem doc_ids_agree_iff (table : SnapshotTable) (relation : Relation)
    (sameSchema : relation.schema = table.schema) (sameName : relation.name = table.name) :
    (∀ columns event id, tupleDocId relation columns = some (some id) →
      (insertToEvent relation columns = some event ∨
        ∃ old, updateToEvent relation columns old = some event) →
      event.headers["ventstream.doc.id"]? = some id) ∧
    (∀ publication fields floor event id, snapshotDocId table fields = some id →
      buildSyntheticInsert publication table (.object fields) floor = some event →
      event.headers["ventstream.doc.id"]? = some id) ∧
    ((∀ row tuple fields, Verbatim table relation row tuple fields →
      tupleDocId relation (relation.columns.map fun column => tuple column.name) =
        some (snapshotDocId table fields) ∧
      ∃ components, keyComponents relation (relation.columns.map fun column => tuple column.name) =
        some (some components) ∧ boundColumns table.primaryKey components =
          some (table.primaryKey.map fun column => (column, row column))) ↔
      table.primaryKey = relation.keyColumns) := by
  refine ⟨fun _ _ _ isId mapped => ?_, fun _ _ _ _ _ isId built => header_of_snapshot built isId,
    ?_, ?_⟩
  · rcases mapped with inserted | ⟨old, updated⟩
    · exact header_of_insertToEvent inserted isId
    · exact header_of_updateToEvent updated isId
  · intro agree
    let row : String → String := fun column => "x" ++ column
    have verbatim : Verbatim table relation row (fun column => .text (some (row column)))
        (table.primaryKey.map fun column => (column, .string (row column))) := by
      refine ⟨fun _ _ _ => rfl, fun column isColumn => get?_of_mem isColumn, fun column _ => ?_⟩
      simp [row, looksIso]
    obtain ⟨same, -⟩ := agree row _ _ verbatim
    rw [tupleDocId, verbatim.keyComponents, verbatim.snapshotDocId] at same
    by_cases noKey : relation.keyColumns = []
    · simp [noKey] at same
    · simp only [noKey, if_false, Option.bind_eq_bind, Option.bind_some, Option.map_some,
        Option.some.injEq] at same
      have injective : Function.Injective row := fun _ _ => (String.append_right_inj "x").mp
      exact (map_injective_iff.mpr injective (docId_inj same).2).symm
  · intro same row tuple fields verbatim
    have keyed : relation.keyColumns ≠ [] := same ▸ table.keyed
    rw [tupleDocId, verbatim.keyComponents, verbatim.snapshotDocId, if_neg keyed, sameSchema,
      sameName, same]
    refine ⟨rfl, _, rfl, ?_⟩
    rw [boundColumns, if_pos (by simp), map_prod_left_eq_zip]

def shelfRelation : Relation := ⟨7, "public", "shelves", [⟨"row", true⟩, ⟨"hall", true⟩]⟩

theorem doc_ids_agree_shelves : tupleDocId shelfRelation [.text (some "row"), .text (some "hall")] =
      some (snapshotDocId ⟨"public", "shelves", ["row", "hall"], by decide⟩
        [("row", .string "row"), ("hall", .string "hall")]) :=
  ((doc_ids_agree_iff _ shelfRelation rfl rfl).2.2.mpr rfl id (.text ∘ some) _
    ⟨fun _ _ _ => rfl, by simp [Fields.get?], by decide +kernel⟩).1

/-- The constraint names the hall before the row, and the shelf gets two documents. -/
theorem key_order_splits_document : snapshotDocId ⟨"public", "shelves", ["hall", "row"], by decide⟩
      [("row", .string "1"), ("hall", .string "A")] = some "public.shelves:[\"A\",\"1\"]" ∧
    tupleDocId shelfRelation [.text (some "1"), .text (some "A")] =
      some (some "public.shelves:[\"1\",\"A\"]") := by
  decide +kernel

end

end Ventstream.Postgres
