import Ventstream.Core.Event
import Ventstream.Library.Reread
import Ventstream.MySql.Source

/-! # Documents of the MySQL source in raw mode

A row of a rows event is published under the id made from its primary key. For an
insert or an update the body is the row as a SELECT by that key finds it, which may be
a later one, and a row that is not found is passed over; a delete is published as it
is. No event carries the id that an update has moved its row away from.

The definitions follow `process` of `mysql/source.rs` with `row_change_value`,
`normalize_binlog_value` and `pk_components_binlog`, `change_event` of
`mysql/event_mapper.rs` and `value_to_json` of `mysql/value.rs`.
-/

namespace Ventstream.MySql.RawMode

open Library List

variable {κ : Type}

section

inductive Value where
  | null
  | int (value : Int)
  | uint (value : Nat)
  | bytes (value : List UInt8)
  /-- A FLOAT, DOUBLE, DATE, DATETIME or TIME value, by its JSON form. -/
  | scalar (json : Json.Value)

abbrev Row := List Value

/-- The schema of a table, with the key that the server compares for `<=>` on the primary-key
    columns. -/
structure TableSchema (κ : Type) where
  columnNames : List String
  pkOrdinals : List Nat
  jsonColumns : List String
  enumLabels : Nat → Option (List String)
  setLabels : Nat → Option (List String)
  keyOf : List Value → κ

/-- The source, with the tables of its database and the parser of JSON columns. -/
structure Source (κ : Type) where
  database : String
  schema : String → TableSchema κ
  fromSlice : List UInt8 → Option Json.Value

def hex (bytes : List UInt8) : String :=
  String.ofList (bytes.flatMap fun byte =>
    [Nat.digitChar (byte.toNat / 16), Nat.digitChar (byte.toNat % 16)])

variable (source : Source κ) (schema : TableSchema κ)

def valueToJson (isJson : Bool) : Value → Json.Value
  | .null => .null
  | .int value => .number ⟨toString value, value⟩
  | .uint value => .number ⟨toString value, value⟩
  | .bytes value =>
    match if isJson then source.fromSlice value else none with
    | some json => json
    | none =>
      match String.fromUTF8? ⟨value.toArray⟩ with
      | some text => .string text
      | none => .string (hex value)
  | .scalar json => json

def textBytes (text : String) : Value := .bytes text.toUTF8.toList

/-- The index of an ENUM value, or the bits of a SET value. -/
def labelIndex : Value → Option Nat
  | .int value => if 0 ≤ value then some value.toNat else none
  | .uint value => some value
  | _ => none

/-- An ENUM or SET value of the binlog as the text that a SELECT returns. -/
def normalizeBinlogValue (value : Value) (ordinal : Nat) : Value :=
  match labelIndex value with
  | none => value
  | some index =>
    match schema.enumLabels ordinal with
    | some labels =>
      if index = 0 then .bytes []
      else
        match labels[index - 1]? with
        | some label => textBytes label
        | none => value
    | none =>
      match schema.setLabels ordinal with
      | some labels =>
        let parts := labels.zipIdx.filter fun label =>
          decide (label.2 < 64) && index.testBit label.2
        textBytes (String.intercalate "," (parts.map Prod.fst))
      | none => value

def pkComponentsBinlog (values : List Value) : List String :=
  (values.zip schema.pkOrdinals).map fun part =>
    Core.componentText (valueToJson source false (normalizeBinlogValue schema part.1 part.2))

def selectRow (row : Row) : Row :=
  row.mapIdx fun ordinal value => normalizeBinlogValue schema value ordinal

def rowToJson (row : Row) : Json.Value :=
  .object ((schema.columnNames.zip row).foldl (fun fields column =>
    Json.Fields.set column.1
      (valueToJson source (schema.jsonColumns.contains column.1) column.2) fields) [])

end

section

/-- A decoded row of a rows event. An image lacks the columns that the binlog leaves out. -/
structure RowChange where
  table : String
  op : Op
  before : Option (List (Option Value))
  after : Option (List (Option Value))

def imageValue (image : Option (List (Option Value))) (ordinal : Nat) : Option Value :=
  image.bind fun values => values[ordinal]?.join

def rowChangeValue (change : RowChange) (ordinal : Nat) : Option Value :=
  match change.op with
  | .insert => imageValue change.after ordinal
  | .update => (imageValue change.after ordinal).or (imageValue change.before ordinal)
  | .delete => imageValue change.before ordinal

/-- What an event says to a sink. -/
structure ChangeEvent where
  docId : String
  oldDocId : Option String
  op : Op
  body : Json.Value

variable (source : Source κ)

def buildDocId (table : String) (pk : List String) : String :=
  Core.docId (source.database ++ "." ++ table) pk

def rowImageToJson (schema : TableSchema κ) (image : Option (List (Option Value))) : Json.Value :=
  match image with
  | none => .object []
  | some values => .object ((values.zip schema.columnNames).zipIdx.foldl (fun fields column =>
    match column.1.1 with
    | none => fields
    | some value =>
      if column.1.2.isEmpty then fields
      else Json.Fields.set column.1.2
        (valueToJson source (schema.jsonColumns.contains column.1.2)
          (normalizeBinlogValue schema value column.2)) fields) [])

def changeEventWithTransition (table : String) (op : Op) (pk : List String)
    (fullDoc beforeDoc : Option Json.Value) : Except String ChangeEvent :=
  let ev body : ChangeEvent := ⟨buildDocId source table pk, none, op, body⟩
  match op, fullDoc, beforeDoc with
  | .delete, some doc, _ => .ok (ev (.object [("old", doc)]))
  | .update, some doc, some before => .ok (ev (.object [("new", doc), ("old", before)]))
  | .insert, some doc, _ | .update, some doc, none => .ok (ev doc)
  | .insert, none, _ | .update, none, _ => .error s!"upsert for {table} has no row body"
  | .delete, none, _ => .ok (ev (.object []))

def changeEvent (table : String) (op : Op) (pk : List String) (fullDoc : Option Json.Value) :
    Except String ChangeEvent :=
  changeEventWithTransition source table op pk fullDoc none

theorem changeEvent_upsert (upserts : op.isDelete = false) (table : String) (pk : List String)
    (doc : Json.Value) :
    changeEvent source table op pk (some doc) = .ok ⟨buildDocId source table pk, none, op, doc⟩ := by
  cases op with
  | insert | update => rfl
  | delete => cases upserts

/-- Publish one row, where `select` reads a row of its table by its key. -/
def process (emitTransitionImages : Bool) (select : List Value → Option Row)
    (change : RowChange) : Except String (Option ChangeEvent) :=
  let schema := source.schema change.table
  if schema.pkOrdinals.isEmpty then .ok none
  else
    let beforeDoc := rowImageToJson source schema change.before
    let pkValues := schema.pkOrdinals.map fun ordinal =>
      (rowChangeValue change ordinal).getD .null
    let pk := pkComponentsBinlog source schema pkValues
    if change.op.isDelete then
      (changeEvent source change.table change.op pk (some beforeDoc)).map some
    else
      match select pkValues with
      | some row =>
        let doc := rowToJson source schema row
        if emitTransitionImages && change.op == .update then
          (changeEventWithTransition source change.table change.op pk (some doc)
            (some beforeDoc)).map some
        else (changeEvent source change.table change.op pk (some doc)).map some
      | none => .ok none

end

def applyEvent (docs : String → Option Json.Value) (ev : ChangeEvent) :
    String → Option Json.Value :=
  if ev.op.isDelete then Function.update docs ev.docId none
  else
    let moved := match ev.oldDocId with
      | some old => Function.update docs old none
      | none => docs
    Function.update moved ev.docId (some ev.body)

def applyResult (docs : String → Option Json.Value) :
    Except String (Option ChangeEvent) → String → Option Json.Value
  | .ok (some ev) => applyEvent docs ev
  | _ => docs

section

variable [DecidableEq κ] (source : Source κ)

def pkValues (schema : TableSchema κ) (row : Row) : List Value :=
  schema.pkOrdinals.map fun ordinal => row[ordinal]?.getD .null

abbrev TableRow := String × Row

def rowKey (row : TableRow) : String × κ :=
  (row.1, (source.schema row.1).keyOf (pkValues (source.schema row.1) row.2))

def rowDocId (row : TableRow) : String :=
  buildDocId source row.1
    (pkComponentsBinlog source (source.schema row.1) (pkValues (source.schema row.1) row.2))

def rowBody (row : TableRow) : Json.Value :=
  rowToJson source (source.schema row.1) (selectRow (source.schema row.1) row.2)

/-- A row change with full images. -/
def image : RowEvent TableRow → RowChange
  | .insert row => ⟨row.1, .insert, none, some (row.2.map some)⟩
  | .update before after => ⟨after.1, .update, some (before.2.map some), some (after.2.map some)⟩
  | .delete row => ⟨row.1, .delete, some (row.2.map some), none⟩

/-- Tables with primary keys and what happens to their rows. -/
structure BinlogHistory extends RowHistory (rowKey source) where
  keyedTables : ∀ ev ∈ events, (source.schema (image ev).table).pkOrdinals ≠ []
  full : ∀ ev : RowEvent TableRow, ev ∈ events → ∀ row, ev.arrival = some row →
    ∀ ordinal ∈ (source.schema row.1).pkOrdinals, ordinal < row.2.length

def selectFrom (tables : String × κ → Option TableRow) (table : String) (pk : List Value) :
    Option Row :=
  (tables (table, (source.schema table).keyOf pk)).map fun found =>
    selectRow (source.schema table) found.2

/-- The documents of the sink once the first changes of the binlog are processed, the row of each
    read again from the tables at the observed time. -/
def docsAfter (history : BinlogHistory source) (observed : Nat → Nat)
    (docs : String → Option Json.Value) : Nat → String → Option Json.Value
  | 0 => docs
  | count + 1 =>
    let earlier := docsAfter history observed docs count
    match history.events[count]? with
    | some ev =>
      applyResult earlier
        (process source false (selectFrom source (history.table (observed count)) (image ev).table)
          (image ev))
    | none => earlier

end

section

variable [DecidableEq κ] {source : Source κ}

theorem imageValue_full (row : Row) (ordinal : Nat) :
    imageValue (some (row.map some)) ordinal = row[ordinal]? := by
  simp only [imageValue, Option.bind_some, getElem?_map]
  cases row[ordinal]? <;> rfl

variable {ev : RowEvent TableRow}

theorem pkValues_image_arrival (arrives : ev.arrival = some row) {ordinals : List Nat}
    (full : ∀ ordinal ∈ ordinals, ordinal < row.2.length) :
    (ordinals.map fun ordinal => (rowChangeValue (image ev) ordinal).getD .null) =
      ordinals.map fun ordinal => row.2[ordinal]?.getD .null := by
  refine map_congr_left fun ordinal mem => ?_
  cases ev with
  | delete => cases arrives
  | insert =>
    cases arrives
    simp [rowChangeValue, image, imageValue_full]
  | update =>
    cases arrives
    have inside := full ordinal mem
    simp [rowChangeValue, image, imageValue_full, getElem?_eq_getElem inside]

theorem applyResult_process {history : BinlogHistory source} (mem : ev ∈ history.events)
    (docs : String → Option Json.Value) (count : Nat) :
    applyResult docs
        (process source false (selectFrom source (history.table count) (image ev).table)
          (image ev)) =
      ev.reread (rowKey source) (rowDocId source) (rowBody source) (history.table count)
        docs := by
  have keyed := history.keyedTables ev mem
  cases arrives : ev.arrival with
  | none =>
    cases ev with
    | insert | update => cases arrives
    | delete row =>
      have pk : ((source.schema row.1).pkOrdinals.map fun ordinal =>
          (rowChangeValue (image (.delete row)) ordinal).getD .null) =
            pkValues (source.schema row.1) row.2 := by
        refine map_congr_left fun ordinal _ => ?_
        simp [rowChangeValue, image, imageValue_full]
      simp only [image] at pk keyed
      simp [process, image, keyed, pk, Op.isDelete, changeEvent, changeEventWithTransition,
        Except.map, applyResult, applyEvent, RowEvent.reread, RowEvent.arrival,
        RowEvent.target, rowDocId]
  | some row =>
    have isTable : (image ev).table = row.1 := by cases ev <;> cases arrives <;> rfl
    have pk := pkValues_image_arrival arrives (history.full ev mem row arrives)
    have upserts : (image ev).op.isDelete = false := by
      cases ev <;> cases arrives <;> rfl
    have isKeyed : (source.schema row.1).pkOrdinals.isEmpty = false := by
      simpa [isTable] using keyed
    have read : selectFrom source (history.table count) row.1
        (pkValues (source.schema row.1) row.2) =
          (history.table count (rowKey source row)).map fun found =>
            selectRow (source.schema row.1) found.2 := rfl
    simp only [process, isTable, pk, upserts, isKeyed, Bool.false_eq_true, if_false, Bool.false_and]
    rw [show ((source.schema row.1).pkOrdinals.map fun ordinal => row.2[ordinal]?.getD .null) =
      pkValues (source.schema row.1) row.2 from rfl, read]
    cases isFound : history.table count (rowKey source row) with
    | none => simp [applyResult, RowEvent.reread, arrives, isFound]
    | some found =>
      have sameKey := (RowHistory.occurs_table count _ found isFound).1
      have sameTable : found.1 = row.1 := (Prod.ext_iff.mp sameKey).1
      simp [changeEvent_upsert source upserts, Except.map, applyResult, applyEvent, upserts,
        RowEvent.reread, arrives, isFound, rowBody, rowDocId, sameTable]

theorem docsAfter_eq (history : BinlogHistory source) (observed : Nat → Nat)
    (docs : String → Option Json.Value) (count : Nat) :
    docsAfter source history observed docs count =
      history.toRowHistory.docsAfter (rowDocId source) (rowBody source) observed docs count := by
  induction count with
  | zero => rfl
  | succ count ih =>
    simp only [docsAfter, RowHistory.docsAfter, ih]
    cases isEvent : history.events[count]? with
    | none => rfl
    | some ev => exact applyResult_process (mem_of_getElem? isEvent) _ _

end

/-- A table with an integer key and nothing else. -/
def orderSource : Source Int where
  database := "shop"
  schema _ :=
    { columnNames := ["id"]
      pkOrdinals := [0]
      jsonColumns := []
      enumLabels := fun _ => none
      setLabels := fun _ => none
      keyOf := fun
        | [.int value] => value
        | _ => 0 }
  fromSlice _ := none

def order (number : Int) : TableRow := ("orders", [.int number])

theorem rowDocId_order : rowDocId orderSource (order 1) ≠ rowDocId orderSource (order 2) := by
  decide +kernel

/-- A history in which the first order is placed or becomes the second one. -/
def orderHistory (evs : List (RowEvent TableRow))
    (legal : ∀ (index : Nat) (ev : RowEvent TableRow), evs[index]? = some ev →
      ev.Legal (rowKey orderSource)
        (tableAfter (rowKey orderSource) (fun _ => none) evs index))
    (orders : ∀ ev ∈ evs, ev = .insert (order 1) ∨ ev = .update (order 1) (order 2)) :
    BinlogHistory orderSource where
  initial _ := none
  keyed _ _ isRow := by cases isRow
  events := evs
  legal := legal
  keyedTables _ _ := by simp [orderSource]
  full ev member row arrives ordinal isOrdinal := by
    have isFirst : ordinal = 0 := by simpa [orderSource] using isOrdinal
    rcases orders ev member with rfl | rfl <;> cases arrives <;> simp [isFirst, order]

section

variable {evs : List (RowEvent TableRow)}
  {legal : ∀ (index : Nat) (ev : RowEvent TableRow), evs[index]? = some ev →
    ev.Legal (rowKey orderSource)
      (tableAfter (rowKey orderSource) (fun _ => none) evs index)}
  {orders : ∀ ev ∈ evs, ev = .insert (order 1) ∨ ev = .update (order 1) (order 2)}

theorem distinctIds_orderHistory :
    (orderHistory evs legal orders).DistinctIds (rowDocId orderSource) := by
  have isOrder : ∀ row, (orderHistory evs legal orders).Occurs row →
      row = order 1 ∨ row = order 2 := by
    rintro row (⟨_, ⟨⟩⟩ | ⟨ev, mem, arrives⟩)
    rcases orders ev mem with rfl | rfl
    · cases arrives
      exact .inl rfl
    · cases arrives
      exact .inr rfl
  intro row other occurs occursToo sameId
  rcases isOrder row occurs with rfl | rfl <;> rcases isOrder other occursToo with rfl | rfl
  · rfl
  · exact absurd sameId rowDocId_order
  · exact absurd sameId.symm rowDocId_order
  · rfl

theorem projects_orderHistory : Projects (rowDocId orderSource) (rowBody orderSource)
      (orderHistory evs legal orders).initial (fun _ => none) where
  right _ := by
    refine ⟨fun _ _ isRow => ?_, fun _ isDoc => ?_⟩
    · cases isRow
    · cases isDoc
  apart _ _ _ _ isRow := by cases isRow

end

/-- An order moves to the second number, and a new one takes the first. -/
def renumbered : BinlogHistory orderSource :=
  orderHistory [.insert (order 1), .update (order 1) (order 2), .insert (order 1)]
    (fun
      | 0, _, rfl => rfl
      | 1, _, rfl => ⟨rfl, Or.inr rfl⟩
      | 2, _, rfl => rfl)
    (by simp)

/-- An order moves to the second number, and nothing else happens. -/
def moved : BinlogHistory orderSource :=
  orderHistory [.insert (order 1), .update (order 1) (order 2)]
    (fun
      | 0, _, rfl => rfl
      | 1, _, rfl => ⟨rfl, Or.inr rfl⟩)
    (by simp)

end Ventstream.MySql.RawMode
