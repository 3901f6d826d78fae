import Ventstream.Joins.State

/-! # The join engine

One event is routed through every definition that names its table: as the primary
table, where the row is stored, linked and sent out composed with its related
rows, and as a related table, where the row is stored and every primary that
joins it is composed and sent again. A handler first decodes the event, which is
where it may reject it, and changes the state only afterwards.

What the engine does not decide itself is in `Env`: the answers of the backfill
fetcher, whether the bus takes a publication, the order in which hash maps yield
their entries, and the JSON reader. The definitions follow `engine.rs`.
-/

namespace Ventstream.Joins

open Core Library
open Std (ExtTreeMap)
open Json (Value Fields)
open Library.Program (check update read each walk)

inductive FetchError where
  | unreachable (detail : String)
  | query (table message : String)
  | decode (table message : String)
  deriving DecidableEq

inductive JoinError where
  | missingColumn (table column : String)
  | invalidPayload (table detail : String)
  | fetcher (relatedId : String) (source : FetchError)
  | malformedSubject (subject : String)
  | internal (detail : String)
  deriving DecidableEq

/-- The failure is a property of the event, so that a replay fails the same way. -/
def JoinError.isPermanent : JoinError → Bool
  | .missingColumn _ _ | .invalidPayload _ _ | .malformedSubject _ => true
  | .fetcher _ _ | .internal _ => false

inductive FetchOutcome where
  | one (row : Option Value)
  | many (rows : List Value)

namespace FetchOutcome

def emptyFor : Cardinality → FetchOutcome
  | .one => .one none
  | .many => .many []

/-- The rows of a lookup, of which a relation of cardinality one takes the first. -/
def ofRows (cardinality : Cardinality) (rows : List Value) : FetchOutcome :=
  match cardinality with
  | .one => .one rows.head?
  | .many => .many rows

end FetchOutcome

/-- What happens around the engine while it handles one event. -/
structure Env where
  /-- The JSON reader, of which only arrays of strings matter. -/
  fromStr : String → Option Value
  fromStr_strings : ∀ texts : List String,
    fromStr (Json.render (.array (texts.map .string))) = some (.array (texts.map .string))
  fetchMany : (table : String) → (fkColumns : List String) → PkValue → (select : List String) →
    Except FetchError (List Value)
  fetchManyBatch : (table : String) → (fkColumns : List String) → List PkValue →
    (select : List String) → Except FetchError (List (PkValue × List Value))
  /-- The order in which a bucket of `foreign_by_fk` yields its keys. -/
  foreignOrder : (relatedId : String) → PkValue → List PkValue → List PkValue
  foreignOrder_perm : ∀ relatedId key pks, (foreignOrder relatedId key pks).Perm pks
  /-- The order in which `primary_rows` yields its keys. -/
  primaryOrder : List RowKey → List RowKey
  primaryOrder_perm : ∀ rows, (primaryOrder rows).Perm rows
  /-- The bus's refusal of a publication, counted from the first one of the run. -/
  refusal : Nat → Option String

/-- A calm environment: nothing to fetch, every publication taken, maps in key order. -/
def Env.calm : Env where
  fromStr text := (Json.stringArray text).map fun texts => .array (texts.map .string)
  fromStr_strings := Json.stringArray_map_render
  fetchMany _ _ _ _ := .ok []
  fetchManyBatch _ _ _ _ := .ok []
  foreignOrder _ _ pks := pks
  foreignOrder_perm _ _ pks := .refl pks
  primaryOrder rows := rows
  primaryOrder_perm rows := .refl rows
  refusal _ := none

structure Engine where
  state : JoinState
  sent : List Event

namespace Engine

def new : Engine := ⟨.new, []⟩

abbrev tables (engine : Engine) : Tables := engine.state.tables

end Engine

def onState {α : Type} (step : JoinState → α × JoinState) : Program JoinError Engine α :=
  update fun engine => ((step engine.state).1, { engine with state := (step engine.state).2 })

def send (env : Env) (ev : Event) : Program JoinError Engine PUnit := fun engine =>
  match env.refusal engine.sent.length with
  | some detail => (.error (.internal ("publish: " ++ detail)), engine)
  | none => (.ok ⟨⟩, { engine with sent := engine.sent ++ [ev] })

inductive Op where
  | insert
  | update
  | delete
  | truncate
  deriving DecidableEq

/-- The table an event is about: its headers, or else two segments of its subject. -/
def sourceTable (ev : Event) : Except JoinError String :=
  match ev.headers["ventstream.cdc.namespace"]?, ev.headers["ventstream.cdc.relation"]? with
  | some ns, some relation => .ok (ns ++ "." ++ relation)
  | _, _ =>
    match segments ev.subject.text with
    | _ :: ns :: relation :: _ :: _ => .ok (ns ++ "." ++ relation)
    | _ => .error (.malformedSubject ev.subject.text)

def subjectOp (ev : Event) : Except JoinError Op :=
  match (segments ev.subject.text).getLast? with
  | some "insert" => .ok .insert
  | some "update" => .ok .update
  | some "delete" => .ok .delete
  | some "truncate" => .ok .truncate
  | _ => .error (.malformedSubject ev.subject.text)

def parsePayload (ev : Event) : Except JoinError Value :=
  ev.payload.mapError (.invalidPayload ev.subject.text)

/-- The row an event carries. An update without `new` is taken to be the row itself. -/
def currentRow (payload : Value) : Op → Option Value
  | .insert => some payload
  | .update =>
    match payload.get? "new" with
    | some row => some row
    | none => if payload.isObject then some payload else none
  | .delete => payload.get? "old"
  | .truncate => none

/-- What follows the first colon. -/
def afterColon (text : String) : Option String :=
  match text.toList.dropWhile (· != ':') with
  | [] => none
  | _ :: rest => some (String.ofList rest)

/-- The key in the document id header, if it has the expected number of components. -/
def pkFromDocId (env : Env) (ev : Event) (expectedColumns : Nat) : Option PkValue := do
  let docId ← ev.headers["ventstream.doc.id"]?
  let suffix ← afterColon docId
  match env.fromStr suffix with
  | some (.array components) =>
    if components.length = expectedColumns then some (.fromValues components) else none
  | _ => none

/-- The key of the row the event is about, from the row or else from the document id. -/
def resolvePk (env : Env) (table : String) (columns : List String) (payload : Value) (op : Op)
    (ev : Event) : Except JoinError PkValue :=
  match (currentRow payload op).bind (extractPk · columns) with
  | some pk => .ok pk
  | none =>
    match pkFromDocId env ev columns.length with
    | some pk => .ok pk
    | none => .error (.invalidPayload table
        ("event subject '" ++ ev.subject.text ++ "' has no row and no usable doc id"))

def missingRow (table : String) (ev : Event) : JoinError :=
  .invalidPayload table ("event subject '" ++ ev.subject.text ++ "' missing op row")

/-- What an accepted event asks of a primary table. -/
inductive PrimaryChange where
  | store (pk : PkValue) (row : Fields)
  | remove (pk : PkValue)

def decodePrimary (env : Env) (defn : JoinDefinition) (table : String) (op : Op)
    (ev : Event) : Except JoinError PrimaryChange := do
  let payload ← parsePayload ev
  let pk ← resolvePk env table defn.primary.pk.columns payload op ev
  match op with
  | .insert | .update =>
    match currentRow payload op with
    | none => .error (missingRow table ev)
    | some (.object row) => .ok (.store pk row)
    | some _ => .error (.invalidPayload table
        ("event subject '" ++ ev.subject.text ++ "' row is not a JSON object"))
  | .delete | .truncate => .ok (.remove pk)

/-- What an accepted event asks of a related table; `lookup` is the join key on the event. -/
inductive RelatedChange where
  | store (pk : PkValue) (row : Value) (lookup : PkValue)
  | remove (pk lookup : PkValue)

def decodeRelated (env : Env) (rel : RelatedDefinition) (op : Op) (ev : Event) :
    Except JoinError RelatedChange := do
  let payload ← parsePayload ev
  let pk ← resolvePk env rel.table rel.pk.columns payload op ev
  let lookup := ((currentRow payload op).bind (extractPk · rel.joinOn.target.columns)).getD
    (.fromValues [])
  match op with
  | .insert | .update =>
    match currentRow payload op with
    | none => .error (missingRow rel.table ev)
    | some row => .ok (.store pk row lookup)
  | .delete | .truncate => .ok (.remove pk lookup)

/-- The selected columns that the row has; the whole row if none is selected. -/
def projectRow (row : Value) (select : List String) : Value :=
  if select.isEmpty then row
  else
    match row.asObject with
    | none => .null
    | some fields =>
      .object (select.foldl (fun out column =>
        match Fields.get? column fields with
        | some value => Fields.set column value out
        | none => out) [])

/-- Null first; numbers, strings and booleans by value; different types by their text. -/
def jsonCompare : Value → Value → Ordering
  | .null, .null => .eq
  | .null, _ => .lt
  | _, .null => .gt
  | .number left, .number right => compare left.order right.order
  | .string left, .string right => compare left right
  | .bool left, .bool right => compare left right
  | left, right => compare (Json.render left) (Json.render right)

def sortRows (column : String) (rows : List Value) : List Value :=
  rows.insertionSort fun left right =>
    jsonCompare ((left.get? column).getD .null) ((right.get? column).getD .null) ≠ .gt

/-- The value to embed: one projected row or the substitute for none, or all of them. -/
def applySelectAndShape (rel : RelatedDefinition) : FetchOutcome → Value
  | .one none =>
    match rel.cardinality, rel.onMissing with
    | .one, .emptyObject => .object []
    | _, _ => .null
  | .one (some row) =>
    match rel.cardinality with
    | .one => projectRow row rel.select
    | .many => .null
  | .many rows =>
    match rel.cardinality with
    | .one => .null
    | .many =>
      let projected := rows.map (projectRow · rel.select)
      .array (match rel.sortBy with
        | some column => sortRows column projected
        | none => projected)

/-- The selected columns and the join columns that they leave out. -/
def selectWithFk (select fkColumns : List String) : List String :=
  if select.isEmpty then []
  else fkColumns.foldl (fun columns fk => if fk ∈ columns then columns else columns ++ [fk]) select

section

variable (env : Env)

def docIdValue (row : RowKey) : String :=
  docId row.table (componentsFromJson (row.pk.toJson env.fromStr))

def stampTargetIndex (defn : JoinDefinition) (headers : Headers) : Headers :=
  match defn.target with
  | some index => headers.insert "ventstream.target.index" index
  | none => headers

/-- The headers every document and tombstone of a definition carries. -/
def stampDocument (defn : JoinDefinition) (row : RowKey) (headers : Headers) : Headers :=
  stampTargetIndex defn
    (((headers.insert "ventstream.join.name" defn.effectiveName).insert
      "ventstream.join.primary_pk" row.pk.display).insert
      "ventstream.doc.id" (docIdValue env row))

def buildTombstone (source : Event) (defn : JoinDefinition) (row : RowKey) : Event where
  subject := source.subject.toDelete
  headers := stampDocument env defn row source.headers
  payload := source.payload

def buildComposed (source : Event) (defn : JoinDefinition) (row : RowKey)
    (composed : Value) : Event where
  subject := source.subject
  headers := stampDocument env defn row source.headers
  payload := .ok composed

/-- The subject of a document sent again because of a foreign row: the primary's, as an
    update, unless the table's name does not make a subject. -/
def reEmitSubject (triggering : Subject) (table : String) : Subject :=
  (Subject.ofText ((segments triggering.text).headD "source" ++ "." ++ table ++ ".update")).getD
    triggering

def buildReEmit (triggering : Event) (defn : JoinDefinition) (row : RowKey)
    (composed : Value) : Event where
  subject := reEmitSubject triggering.subject row.table
  headers := stampDocument env defn row
    (((triggering.headers.insert "ventstream.join.reason"
      ("foreign-side change on '" ++ triggering.subject.text ++ "'")).insert
      "ventstream.cdc.relation" ((segments row.table).getLastD row.table)).insert
      "ventstream.cdc.namespace" ((segments row.table).headD ""))
  payload := .ok composed

end

section

variable (env : Env) (defn : JoinDefinition)

def shouldReconcileFromSource (cardinality : Cardinality) (backfill : BackfillMode) : Bool :=
  cardinality = .many ∧ backfill ≠ .none

/-- The related rows in state, unless no key is listed. -/
def fromState (tables : Tables) (rel : RelatedDefinition) (key : PkValue) : Option FetchOutcome :=
  let pks := env.foreignOrder rel.id key (tables.foreignPksFor rel.id key)
  if pks.isEmpty then none
  else some (.ofRows rel.cardinality (pks.filterMap (tables.getForeign rel.table)))

/-- The outcome of a lookup that needs no fetch. -/
def resolve (tables : Tables) (rel : RelatedDefinition) (key : PkValue) : Option FetchOutcome :=
  if key.isNull then some (.emptyFor rel.cardinality)
  else
    let cached :=
      if shouldReconcileFromSource rel.cardinality defn.backfill then none
      else fromState env tables rel key
    match cached, defn.backfill with
    | some outcome, _ => some outcome
    | none, .none => some (.emptyFor rel.cardinality)
    | none, .syncOnMiss => none

/-- Keep fetched rows as if they had come in as events. -/
def backfillRows (rel : RelatedDefinition) (key : PkValue) (rows : List Value) : List Mutation :=
  rows.flatMap fun row =>
    match extractPk row rel.pk.columns with
    | some pk => [.setForeign ⟨rel.table, pk⟩ row, .addForeignByFk ⟨rel.id, key, pk⟩]
    | none => []

def backfill (rel : RelatedDefinition) (key : PkValue) (rows : List Value) :
    Program JoinError Engine FetchOutcome :=
  onState fun state =>
    (.ofRows rel.cardinality rows, state.mutateAll "" (backfillRows rel key rows))

def lookupRelated (rel : RelatedDefinition) (key : PkValue) :
    Program JoinError Engine FetchOutcome := do
  match ← read fun engine => resolve env defn engine.tables rel key with
  | some outcome => pure outcome
  | none => do
      let rows ← check ((env.fetchMany rel.table rel.joinOn.target.columns key
        (selectWithFk rel.select rel.joinOn.target.columns)).mapError (.fetcher rel.id))
      backfill rel key rows

/-- Keep the rows fetched for each key. Of two answers for one key the later one counts. -/
def backfillBatch (rel : RelatedDefinition) (fetched : List (PkValue × List Value)) :
    List PkValue → Program JoinError Engine (List (PkValue × FetchOutcome))
  | [] => pure []
  | key :: rest => do
      let outcome ← backfill rel key ((fetched.reverse.lookup key).getD [])
      let outcomes ← backfillBatch rel fetched rest
      pure ((key, outcome) :: outcomes)

def lookupRelatedBatch (rel : RelatedDefinition) (keys : List PkValue) :
    Program JoinError Engine (List (PkValue × FetchOutcome)) := do
  let resolved ← read fun engine =>
    keys.eraseDups.map fun key => (key, resolve env defn engine.tables rel key)
  let outcomes := resolved.filterMap fun entry => entry.2.map (entry.1, ·)
  let unresolved := (resolved.filter fun entry => entry.2.isNone).map (·.1)
  if unresolved.isEmpty then pure outcomes
  else do
    let fetched ← check ((env.fetchManyBatch rel.table rel.joinOn.target.columns unresolved
      (selectWithFk rel.select rel.joinOn.target.columns)).mapError (.fetcher rel.id))
    let backfilled ← backfillBatch rel fetched unresolved
    pure (outcomes ++ backfilled)

def notAnObject (table : String) : JoinError :=
  .invalidPayload table "primary row must be a JSON object to embed related data"

/-- Embed one relation after the other into a primary row. -/
def embedRelated (fkValues : ExtTreeMap String PkValue) :
    List RelatedDefinition → Fields → Program JoinError Engine Fields
  | [], composed => pure composed
  | rel :: rest, composed =>
    match fkValues[rel.id]? with
    | none => embedRelated fkValues rest composed
    | some key => do
        let outcome ← lookupRelated env defn rel key
        embedRelated fkValues rest
          (Fields.set rel.embedAs (applySelectAndShape rel outcome) composed)

def composePrimary (row : Value) (fkValues : ExtTreeMap String PkValue) :
    Program JoinError Engine Value :=
  match row.asObject with
  | none => throw (notAnObject defn.primary.table)
  | some fields => do
      let composed ← embedRelated env defn fkValues defn.related fields
      pure (.object composed)

/-- A primary that is being composed again. -/
structure Materialized where
  row : RowKey
  document : Value
  fkValues : ExtTreeMap String PkValue

def embedOutcome (rel : RelatedDefinition) (outcomes : List (PkValue × FetchOutcome))
    (primary : Materialized) : Except JoinError Materialized :=
  match primary.fkValues[rel.id]? with
  | none => .ok primary
  | some key =>
    match primary.document.asObject with
    | none => .error (notAnObject primary.row.table)
    | some fields => .ok { primary with
        document := .object (Fields.set rel.embedAs (applySelectAndShape rel
          ((outcomes.lookup key).getD (.emptyFor rel.cardinality))) fields) }

def embedOutcomes (rel : RelatedDefinition) (outcomes : List (PkValue × FetchOutcome)) :
    List Materialized → Except JoinError (List Materialized)
  | [] => .ok []
  | primary :: rest => do
      let embedded ← embedOutcome rel outcomes primary
      let others ← embedOutcomes rel outcomes rest
      pure (embedded :: others)

/-- Embed one relation after the other into a chunk of primaries. -/
def embedBatch : List RelatedDefinition → List Materialized →
    Program JoinError Engine (List Materialized)
  | [], primaries => pure primaries
  | rel :: rest, primaries => do
      let outcomes ← lookupRelatedBatch env defn rel
        (primaries.filterMap fun primary => primary.fkValues[rel.id]?)
      let embedded ← check (embedOutcomes rel outcomes primaries)
      embedBatch rest embedded

/-- The stored primaries of a chunk that belong to this definition's table. -/
def materialize (tables : Tables) (affected : List RowKey) : List Materialized :=
  (affected.filter fun row => row.table = defn.primary.table).filterMap fun row =>
    (tables.getPrimary row).map fun stored => ⟨row, stored.raw, stored.fkValues⟩

def reEmitPrimaryChunk (triggering : Event) (affected : List RowKey) :
    Program JoinError Engine PUnit := do
  let primaries ← read fun engine => materialize defn engine.tables affected
  if primaries.isEmpty then pure ⟨⟩
  else do
    let documents ← embedBatch env defn defn.related primaries
    each (fun primary : Materialized =>
      send env (buildReEmit env triggering defn primary.row primary.document)) documents

/-- Primaries per page of a fan-out. -/
def reEmitPrimaryChunkSize : Nat := 256

/-- Each page has a primary past the one before, so the links bound the number of pages. -/
def linkCount (engine : Engine) : Nat := engine.tables.primaryReverse.size + 1

def reEmitPrimariesForKeys (relatedId : String) (key : PkValue) (secondary : Option PkValue)
    (triggering : Event) : Program JoinError Engine PUnit := do
  let fuel ← read linkCount
  walk (fun engine after => engine.tables.primariesForKeysChunk relatedId key secondary
    reEmitPrimaryChunkSize after) (reEmitPrimaryChunk env defn triggering) fuel none

def reEmitPrimariesForRelation (relatedId : String) (triggering : Event) :
    Program JoinError Engine PUnit := do
  let fuel ← read linkCount
  walk (fun engine after => engine.tables.primariesForRelationChunk relatedId
    reEmitPrimaryChunkSize after) (reEmitPrimaryChunk env defn triggering) fuel none

end

section

variable (env : Env)

/-- An update's row over the stored one, which has the columns the update leaves out. -/
def mergeOver (prior : Option Value) (row : Value) : Value :=
  match prior, row with
  | some (.object base), .object new => .object (Fields.merge base new)
  | _, _ => row

def priorOf {α : Type} (op : Op) (stored : Option α) : Option α :=
  if op = .update then stored else none

/-- The key under which a primary row joins a relation. -/
def sourceKey (rel : RelatedDefinition) (row : Value) : PkValue :=
  (extractPk row rel.joinOn.source.columns).getD (.fromValues [])

def fkValuesOf (defn : JoinDefinition) (row : Value) : ExtTreeMap String PkValue :=
  defn.related.foldl (fun values rel => values.insert rel.id (sourceKey rel row)) ∅

/-- The links of the stored version of a primary row. -/
def storedLinks (tables : Tables) (row : RowKey) : List PrimaryLink :=
  match tables.getPrimary row with
  | none => []
  | some prior => prior.fkValues.toList.map fun entry => ⟨entry.1, entry.2, row⟩

def clearPrimaryReverse (tables : Tables) (row : RowKey) : List Mutation :=
  (storedLinks tables row).map .removePrimaryReverse

/-- The links of a primary row under a definition's relations, but for null keys. -/
def linksOf (defn : JoinDefinition) (row : RowKey) (fkValues : ExtTreeMap String PkValue) :
    List PrimaryLink :=
  defn.related.filterMap fun rel =>
    (fkValues[rel.id]?.filter fun key => !key.isNull).map fun key => ⟨rel.id, key, row⟩

def updatePrimaryIndexes (tables : Tables) (defn : JoinDefinition) (row : RowKey)
    (fkValues : ExtTreeMap String PkValue) : List Mutation :=
  clearPrimaryReverse tables row ++ (linksOf defn row fkValues).map .addPrimaryReverse

/-- Relink and store a primary row. -/
def storePrimary (tables : Tables) (defn : JoinDefinition) (row : RowKey) (value : Value) :
    List Mutation :=
  updatePrimaryIndexes tables defn row (fkValuesOf defn value) ++
    [.setPrimary row ⟨value, fkValuesOf defn value⟩]

/-- Store the row an event brings to a primary table, over the stored one for an update. -/
def storePrimaryRow (defn : JoinDefinition) (row : RowKey) (op : Op) (fields : Fields)
    (state : JoinState) : Value × JoinState :=
  let value := mergeOver (priorOf op ((state.tables.getPrimary row).map (·.raw))) (.object fields)
  (value, state.mutateAll "" (storePrimary state.tables defn row value))

def removePrimaryRow (row : RowKey) (state : JoinState) : Unit × JoinState :=
  ((), state.mutateAll "" (.takePrimary row :: clearPrimaryReverse state.tables row))

def handlePrimary (defn : JoinDefinition) (table : String) (op : Op) (ev : Event) :
    Program JoinError Engine PUnit :=
  if op = .truncate then pure ⟨⟩
  else do
    match ← check (decodePrimary env defn table op ev) with
    | .store pk fields => do
        let value ← onState (storePrimaryRow defn ⟨table, pk⟩ op fields)
        let composed ← composePrimary env defn value (fkValuesOf defn value)
        send env (buildComposed env ev defn ⟨table, pk⟩ composed)
    | .remove pk => do
        onState (removePrimaryRow ⟨table, pk⟩)
        send env (buildTombstone env ev defn ⟨table, pk⟩)

section

variable (rel : RelatedDefinition)

/-- The join key of a related row, or of the event when the row has none. -/
def joinKey (row : Value) (lookup : PkValue) : PkValue :=
  (extractPk row rel.joinOn.target.columns).getD lookup

/-- The key a related row was listed under before, if an update moves it. -/
def reparentedFrom (prior : Option Value) (key : PkValue) : Option PkValue :=
  (prior.bind (extractPk · rel.joinOn.target.columns)).filter (· ≠ key)

def storeRelated (pk : PkValue) (value : Value) (key : PkValue)
    (moved : Option PkValue) : List Mutation :=
  [.setForeign ⟨rel.table, pk⟩ value, .addForeignByFk ⟨rel.id, key, pk⟩] ++
    (moved.map fun old => Mutation.removeForeignByFk ⟨rel.id, old, pk⟩).toList

/-- Store the row an event brings to a related table, over the stored one for an update.
    Returns the key it is listed under and the one it has left, if any. -/
def storeRelatedRow (op : Op) (pk : PkValue) (row : Value)
    (lookup : PkValue) (state : JoinState) : (PkValue × Option PkValue) × JoinState :=
  let prior := priorOf op (state.tables.getForeign rel.table pk)
  let value := mergeOver prior row
  let key := joinKey rel value lookup
  let moved := reparentedFrom rel prior key
  ((key, moved), state.mutateAll "" (storeRelated rel pk value key moved))

/-- Drop a related row and its link, under the stored row's key if there is one: a delete
    carries the join columns only under a full replica identity. -/
def removeRelatedRow (pk lookup : PkValue) (state : JoinState) : PkValue × JoinState :=
  let key := match state.tables.getForeign rel.table pk with
    | some prior => joinKey rel prior lookup
    | none => lookup
  (key, state.mutateAll "" [.deleteForeign ⟨rel.table, pk⟩, .removeForeignByFk ⟨rel.id, key, pk⟩])

def purgeRelated (state : JoinState) : Unit × JoinState :=
  ((), state.mutateAll "purge_related_table." (state.tables.purgeRelatedTable rel.id rel.table))

end

def handleRelated (defn : JoinDefinition) (rel : RelatedDefinition) (op : Op)
    (ev : Event) : Program JoinError Engine PUnit :=
  if op = .truncate then do
    onState (purgeRelated rel)
    reEmitPrimariesForRelation env defn rel.id ev
  else do
    match ← check (decodeRelated env rel op ev) with
    | .store pk row lookup => do
        let keys ← onState (storeRelatedRow rel op pk row lookup)
        reEmitPrimariesForKeys env defn rel.id keys.1 keys.2 ev
    | .remove pk lookup => do
        let key ← onState (removeRelatedRow rel pk lookup)
        reEmitPrimariesForKeys env defn rel.id key none ev

variable (joins : List JoinDefinition)

/-- Remove a truncated primary table page by page, with a tombstone per row and definition.
    Each page removes a row, so the stored rows bound the number of pages. -/
def truncatePages (table : String) (ev : Event) : Nat → Program JoinError Engine PUnit
  | 0 => pure ⟨⟩
  | fuel + 1 => do
      let removed ← onState (JoinState.takePrimaryTablePage env.primaryOrder table
        reEmitPrimaryChunkSize)
      if removed.isEmpty then pure ⟨⟩
      else do
        each (fun defn : JoinDefinition =>
          each (fun pk => send env (buildTombstone env ev defn ⟨table, pk⟩)) removed)
          (joins.filter fun defn => defn.primary.table = table)
        truncatePages table ev fuel

def handlePrimaryTruncate (table : String) (ev : Event) : Program JoinError Engine PUnit := do
  let fuel ← read fun engine => engine.tables.primaryRows.size + 1
  truncatePages env joins table ev fuel

/-- One way in which a definition is concerned by a table. -/
inductive Route where
  | primary (defn : JoinDefinition)
  | related (defn : JoinDefinition) (rel : RelatedDefinition)
  deriving DecidableEq

def routesOf (table : String) (defn : JoinDefinition) : List Route :=
  (if defn.primary.table = table then [.primary defn] else []) ++
    (defn.related.filter fun rel => rel.table = table).map (.related defn)

def routes (table : String) : List Route :=
  joins.flatMap (routesOf table)

def handleRoute (table : String) (op : Op) (ev : Event) : Route → Program JoinError Engine PUnit
  | .primary defn => handlePrimary env defn table op ev
  | .related defn rel => handleRelated env defn rel op ev

/-- Handle a row event: a truncated primary table once, then every route. -/
def handleRow (table : String) (op : Op) (ev : Event) : Program JoinError Engine PUnit := do
  (if op = .truncate ∧ joins.any fun defn => defn.primary.table = table then
    handlePrimaryTruncate env joins table ev else pure ⟨⟩)
  each (handleRoute env table op ev) (routes joins table)

def ackBarrierHeader : String := "ventstream.internal.ack_barrier"

def bootstrapHeader : String := "ventstream.cdc.bootstrap"

/-- Rows of a snapshot suspend persistence until the state is dumped. -/
def suspendPersistence (ev : Event) : Program JoinError Engine PUnit :=
  onState fun state =>
    if ev.headers[bootstrapHeader]? = some "snapshot" then
      (PUnit.unit, { state with persistEnabled := false })
    else (PUnit.unit, state)

/-- Handle an event; false means that it is none of the engine's business. -/
def handleInner (ev : Event) : Program JoinError Engine Bool :=
  if ev.headers[ackBarrierHeader]? = some "true" then pure false
  else if ev.headers[bootstrapHeader]? = some "snapshot-complete" then pure true
  else do
    suspendPersistence ev
    let table ← check (sourceTable ev)
    let op ← check (subjectOp ev)
    handleRow env joins table op ev
    pure !(routes joins table).isEmpty

def handle (ev : Event) : Program JoinError Engine PUnit := do
  if ← handleInner env joins ev then pure ⟨⟩
  else send env ev

end

/-- The engine goes on after an event that it handled, and after one that it can never handle,
    which is set aside. -/
def Continues {α : Type} (result : Except JoinError α) : Prop :=
  ∀ error, result = .error error → error.isPermanent = true

/-- The engines that a run from empty tables can reach when each event meets a condition. -/
inductive Reachable (joins : List JoinDefinition) (Meets : Engine → Env → Event → Prop) :
    Engine → Prop where
  | start (engine : Engine) : engine.tables = .empty → Reachable joins Meets engine
  | step {engine later : Engine} {env : Env} {ev : Event} {result : Except JoinError PUnit} :
      Reachable joins Meets engine → Meets engine env ev →
      Program.exec (handle env joins ev) engine = (result, later) → Continues result →
      Reachable joins Meets later

theorem continues_of_isOk {α : Type} {result : Except JoinError α} (ok : result.isOk) :
    Continues result := by
  rintro error rfl
  cases ok

theorem Reachable.invariant (start : ∀ engine : Engine, engine.tables = .empty → holds engine)
    (kept : ∀ engine env ev, Meets engine env ev →
      Program.Triple (fun state => state = engine ∧ holds state) (handle env joins ev)
        (fun _ => holds) fun error state => error.isPermanent → holds state)
    (reached : Reachable joins Meets engine) : holds engine := by
  induction reached with
  | start engine isEmpty => exact start engine isEmpty
  | @step engine later env ev result _ meets ran continues ih =>
    have step := kept engine env ev meets engine ⟨rfl, ih⟩
    rw [ran] at step
    cases result with
    | ok done => exact step
    | error error => exact step (continues error rfl)

def feed (joins : List JoinDefinition) (ev : Event) (engine : Engine) : Engine :=
  (Program.exec (handle .calm joins ev) engine).2

theorem Reachable.feed {Meets} (reached : Reachable joins Meets engine)
    (meets : Meets engine .calm ev) (ok : (Program.exec (handle .calm joins ev) engine).1.isOk) :
    Reachable joins Meets (feed joins ev engine) :=
  .step reached meets rfl (continues_of_isOk ok)

theorem ok_feed (ok : (Program.exec (handle .calm joins ev) engine).1.isOk) :
    Program.exec (handle .calm joins ev) engine = (.ok ⟨⟩, feed joins ev engine) := by
  unfold feed
  cases ran : Program.exec (handle .calm joins ev) engine with
  | mk result later =>
    rw [ran] at ok
    cases result with
    | ok done => rfl
    | error error => cases ok

theorem reachable_new : Reachable joins Meets .new := .start .new rfl

end Ventstream.Joins
