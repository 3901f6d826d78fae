import Ventstream.Joins.Config
import Ventstream.Library.Keyset
import Ventstream.SqlDenormalize.Durability

/-! # Recomposing the documents of a batch

In SQL mode no join state is kept. A batch of changes is resolved to the primary keys
whose documents it may affect, and these are composed again by a query against the
database, which may have moved on since. The definitions follow `sql_denormalize.rs`.

A row is what the server writes to its log: the text of each column, or null. Lookups
compare values in the type of the primary's column, where two texts may stand for one
value; the join compares the columns of the two tables in the types that they have.
-/

namespace Ventstream.SqlDenormalize

open Library
open Core (Event Subject Headers segments docId)
open Joins (JoinDefinition RelatedDefinition)
open Json (Value Fields)

abbrev Row := List (String × Option String)

abbrev Table := String × String

/-- A table's name split at its first dot, as it is quoted in SQL. -/
def qualified (table : String) : Table :=
  match table.toList.span (· != '.') with
  | (_, []) => ("", table)
  | (front, _ :: rest) => (String.ofList front, String.ofList rest)

def relationOf (table : String) : String := (segments table).getLastD table

def namespaceOf (table : String) : String := (segments table).headD ""

abbrev Database := Table → List Row

/-- A column that is there and not null. -/
def cell (row : Row) (column : String) : Option String := (row.lookup column).join

def cells (row : Row) (columns : List String) : Option (List String) :=
  columns.mapM (cell row)

/-- What the database knows about values. Columns are those of the primary table. -/
structure Catalog (V : Type) where
  /-- The value of a text in the type of a column. -/
  value : (column : String) → String → V
  /-- The cast of a value to text, which need not be the text in the log. -/
  text : (column : String) → String → String
  value_text : ∀ column written, value column (text column written) = value column written
  /-- Whether a column of the primary table equals one of a related table. -/
  equates : (source : String) → (related : Table) → (target : String) → String → String → Bool
  toJsonb : Table → Row → Fields
  orderBy : Table → (column : String) → List Row → List Row

/-- What a subject says has happened. Anything but these three counts as an upsert. -/
inductive TailOp where
  | update
  | delete
  | truncate
  | other
  deriving DecidableEq

def tailOp (ev : Event) : TailOp :=
  match (segments ev.subject.text).getLastD "" with
  | "update" => .update
  | "delete" => .delete
  | "truncate" => .truncate
  | _ => .other

def effectiveRow (raw : Value) : TailOp → Value
  | .update => (raw.get? "new").getD .null
  | .delete => (raw.get? "old").getD .null
  | _ => raw

/-- The columns of a row as texts, unless one of them is missing or null. -/
def extractCols (row : Value) (columns : List String) : Option (List String) := do
  let fields ← row.asObject
  columns.mapM fun column =>
    match Fields.get? column fields with
    | some (.string text) => some text
    | some .null => none
    | some other => some (Json.render other)
    | none => none

structure Parsed where
  relation : String
  op : TailOp
  row : Value
  preImage : Option Value

def parse (ev : Event) : Parsed :=
  let raw := ev.payload.toOption.getD .null
  { relation := ev.headers["ventstream.cdc.relation"]?.getD ""
    op := tailOp ev
    row := effectiveRow raw (tailOp ev)
    preImage := if tailOp ev = .update then raw.get? "old" else none }

section

abbrev Key := List String

/-- The sets that the event loop fills; a set is a list without repetitions. -/
structure Gathered where
  affected : List Key := []
  deletes : List Key := []
  /-- Deleted children without their parent's key, by the fields that embed them. -/
  lookups : List (List String × Key) := []
  /-- Join keys to be looked up, by the number of the relation. -/
  many1 : List (Nat × Key) := []

variable (defn : JoinDefinition)

def pkColumns : List String := defn.primary.pk.columns

/-- The join key is the primary's own key: one primary with many related rows. -/
def isOneToMany (rel : RelatedDefinition) : Bool :=
  rel.joinOn.source.columns = pkColumns defn

def reverseLookupFields (rel : RelatedDefinition) : Option (List String × List String) :=
  if !isOneToMany defn rel then none
  else if rel.pk.columns.isEmpty then none
  else if !rel.select.isEmpty && !rel.pk.columns.all (rel.select.contains ·) then none
  else some (rel.pk.columns.map fun column => rel.embedAs ++ "." ++ column, rel.pk.columns)

/-- An insert or update of the primary table; a key that has changed leaves the old one. -/
def notePrimary (gathered : Gathered) (parsed : Parsed) : Gathered :=
  match extractCols parsed.row (pkColumns defn) with
  | none => gathered
  | some pk =>
    let left := (parsed.preImage.bind (extractCols · (pkColumns defn))).filter (· ≠ pk)
    { gathered with
      deletes := left.elim gathered.deletes (gathered.deletes.insert ·)
      affected := gathered.affected.insert pk }

def noteJoinKey (rel : RelatedDefinition) (index : Nat) (gathered : Gathered) (key : Key) :
    Gathered :=
  if isOneToMany defn rel then { gathered with affected := gathered.affected.insert key }
  else { gathered with many1 := gathered.many1 ++ [(index, key)] }

def noteLookup (rel : RelatedDefinition) (gathered : Gathered) (parsed : Parsed) : Gathered :=
  if parsed.op = .delete then
    match reverseLookupFields defn rel with
    | none => gathered
    | some (fields, columns) =>
      match extractCols parsed.row columns with
      | none => gathered
      | some childPk => { gathered with lookups := gathered.lookups ++ [(fields, childPk)] }
  else gathered

/-- The join keys of a related row after the event, and before it where they differ. -/
def noteRelated (parsed : Parsed) (gathered : Gathered) (numbered : RelatedDefinition × Nat) :
    Gathered :=
  let (rel, index) := numbered
  if relationOf rel.table ≠ parsed.relation then gathered
  else
    let target := rel.joinOn.target.columns
    let oldVals :=
      if parsed.op = .update then parsed.preImage.bind (extractCols · target) else none
    match extractCols parsed.row target with
    | some toVals =>
      ((oldVals.filter (· ≠ toVals)).toList ++ [toVals]).foldl (noteJoinKey defn rel index) gathered
    | none =>
      noteLookup defn rel
        (oldVals.toList.foldl (noteJoinKey defn rel index) gathered) parsed

def noteEvent (gathered : Gathered) (parsed : Parsed) : Gathered :=
  if relationOf defn.primary.table = parsed.relation ∧ parsed.op = .delete then
    match extractCols parsed.row (pkColumns defn) with
    | none => gathered
    | some pk => { gathered with deletes := gathered.deletes.insert pk }
  else
    let gathered :=
      if relationOf defn.primary.table = parsed.relation then
        notePrimary defn gathered parsed
      else gathered
    defn.related.zipIdx.foldl (noteRelated defn parsed) gathered

def gather (batch : List Parsed) : Gathered := batch.foldl (noteEvent defn) {}

end

section

variable {V : Type} [LinearOrder V] (catalog : Catalog V) (defn : JoinDefinition)

/-- The values of a tuple in the types of the columns. -/
def values (columns : List String) (key : Key) : List V :=
  List.zipWith catalog.value columns key

def primaryRows (database : Database) : List Row := database (qualified defn.primary.table)

def keyOf (row : Row) : Option Key := cells row (pkColumns defn)

/-- The primary key of a row cast to text, of which the document id is made. -/
def keyText (row : Row) : Option Key :=
  (keyOf defn row).map (List.zipWith catalog.text (pkColumns defn))

/-- The join condition: no null on either side, and equal columns. -/
def joinCondition (rel : RelatedDefinition) (row other : Row) : Bool :=
  (List.zip rel.joinOn.source.columns rel.joinOn.target.columns).all fun (source, target) =>
    match cell row source, cell other target with
    | some left, some right => catalog.equates source (qualified rel.table) target left right
    | _, _ => false

def relatedProjection (rel : RelatedDefinition) (row : Row) : Value :=
  let fields := catalog.toJsonb (qualified rel.table) row
  if rel.select.isEmpty then .object fields
  else .object (rel.select.map fun column => (column, (Fields.get? column fields).getD .null))

def matching (database : Database) (rel : RelatedDefinition) (row : Row) : List Row :=
  (database (qualified rel.table)).filter (joinCondition catalog rel row)

/-- The value of one relation's subquery. -/
def subquery (database : Database) (rel : RelatedDefinition) (row : Row) : Value :=
  match rel.cardinality with
  | .one => ((matching catalog database rel row).head?.map (relatedProjection catalog rel)).getD .null
  | .many =>
    let rows := matching catalog database rel row
    .array ((match rel.sortBy with
      | some column => catalog.orderBy (qualified rel.table) column rows
      | none => rows).map (relatedProjection catalog rel))

def docExpr (database : Database) (row : Row) : Value :=
  .object (defn.related.foldl (fun fields rel =>
    Fields.set rel.embedAs (subquery catalog database rel row) fields)
    (catalog.toJsonb (qualified defn.primary.table) row))

/-- The rows of a projection query: the key as text, and the document. -/
def project (database : Database) (rows : List Row) : List (Key × Value) :=
  rows.filterMap fun row =>
    (keyText catalog defn row).map fun key => (key, docExpr catalog defn database row)

def keyValues (row : Row) : List V :=
  ((keyOf defn row).map (values catalog (pkColumns defn))).getD []

def hasKey (key : Key) (row : Row) : Bool :=
  ((keyOf defn row).map (values catalog (pkColumns defn))) =
    some (values catalog (pkColumns defn) key)

end

section

/-- The queries of one batch. Each may see another state of the database. -/
inductive Query where
  | page (number : Nat)
  | lookup (relation : Nat) (tuple : Option Key)
  | recompose (key : Option Key)
  deriving DecidableEq

variable {V : Type} [LinearOrder V] (catalog : Catalog V) (defn : JoinDefinition)

/-- One chunk of the whole projection, in key order, past the last key of the one before. -/
def fetchChunk (chunkSize : Nat) (database : Database) (last : Option Key) : List Row :=
  Library.page (keyValues catalog defn)
    ((primaryRows defn database).insertionSort fun left right =>
      keyValues catalog defn left ≤ keyValues catalog defn right)
    (last.map (values catalog (pkColumns defn))) chunkSize

/-- The whole projection chunk by chunk; none when the fuel does not suffice. -/
def emitAll (chunkSize : Nat) (see : Query → Database) : Nat → (number : Nat) → Option Key →
    Option (List (Key × Value))
  | 0, _, _ => none
  | fuel + 1, number, last =>
    let database := see (.page number)
    let rows := fetchChunk catalog defn chunkSize database last
    match rows.getLast? with
    | none => some []
    | some lastRow =>
      if rows.length ≥ chunkSize then
        (emitAll chunkSize see fuel (number + 1) (keyText catalog defn lastRow)).map
          (project catalog defn database rows ++ ·)
      else some (project catalog defn database rows)

def recompose (see : Query → Database) (keys : List Key) : List (Key × Value) :=
  if (pkColumns defn).length = 1 then
    let database := see (.recompose none)
    project catalog defn database ((primaryRows defn database).filter fun row =>
      keys.any fun key => hasKey catalog defn key row)
  else
    keys.flatMap fun key =>
      let database := see (.recompose (some key))
      project catalog defn database
        ((primaryRows defn database).filter (hasKey catalog defn key))

/-- The row refers to the tuple with its join columns. -/
def refersTo (columns : List String) (tuple : Key) (row : Row) : Bool :=
  (cells row columns).map (values catalog columns) = some (values catalog columns tuple)

def lookupPrimaryByBatch (see : Query → Database) (relation : Nat) (columns : List String)
    (tuples : List Key) : List Key :=
  if columns.length = 1 then
    ((primaryRows defn (see (.lookup relation none))).filter fun row =>
      tuples.any fun tuple => refersTo catalog columns tuple row).filterMap
        (keyText catalog defn)
  else
    tuples.flatMap fun tuple =>
      ((primaryRows defn (see (.lookup relation (some tuple)))).filter
        (refersTo catalog columns tuple)).filterMap (keyText catalog defn)

end

section

inductive Output where
  | upsert (key : Key) (doc : Value)
  | tombstone (key : Key)
  | clear

variable {V : Type} [LinearOrder V] (catalog : Catalog V) (defn : JoinDefinition)

structure Settings where
  chunkSize : Nat
  emitTargetClears : Bool
  /-- The sink's answer to a reverse lookup. -/
  reverseLookup : (fields : List String) → List Key → List Key

def upserts (rows : List (Key × Value)) : List Output := rows.map fun (key, doc) => .upsert key doc

def truncates (batch : List Parsed) (table : String) : Bool :=
  batch.any fun parsed => parsed.op = .truncate ∧ relationOf table = parsed.relation

/-- The keys to compose again: those noted, those that refer to a noted join key, and those
    of the deleted rows. -/
def affectedKeys (settings : Settings) (see : Query → Database) (gathered : Gathered) : List Key :=
  let byJoinKey := defn.related.zipIdx.flatMap fun (rel, index) =>
    let tuples := (gathered.many1.filter fun entry => entry.1 = index).map (·.2)
    if tuples.isEmpty then []
    else lookupPrimaryByBatch catalog defn see index rel.joinOn.source.columns
      tuples.dedup
  let byChild := (gathered.lookups.map (·.1)).dedup.flatMap fun fields =>
    settings.reverseLookup fields
      ((gathered.lookups.filter fun entry => entry.1 = fields).map (·.2)).dedup
  (gathered.affected ++ byJoinKey ++ byChild ++ gathered.deletes).dedup

def recomposed (settings : Settings) (see : Query → Database) (gathered : Gathered) : List Output :=
  let emitted := recompose catalog defn see
    (affectedKeys catalog defn settings see gathered)
  upserts emitted ++ (gathered.deletes.filter fun key => key ∉ emitted.map (·.1)).map .tombstone

/-- The outputs of a batch; none when the fuel does not suffice for its pages. -/
def batchOutputs (settings : Settings) (see : Query → Database) (fuel : Nat)
    (batch : List Parsed) : Option (List Output) := do
  if truncates batch defn.primary.table then
    let rows ← emitAll catalog defn settings.chunkSize see fuel 0 none
    pure ((if settings.emitTargetClears then [.clear] else []) ++ upserts rows)
  else
    let rows ← if defn.related.any fun rel => truncates batch rel.table then
        emitAll catalog defn settings.chunkSize see fuel 0 none
      else pure []
    pure (upserts rows ++ recomposed catalog defn settings see (gather defn batch))

/-- The headers of an event about a definition's documents. -/
def targetHeaders (lsn : Option String) : Headers :=
  let routed := ((∅ : Headers).insert "ventstream.cdc.relation"
    (relationOf defn.primary.table)).insert "ventstream.cdc.namespace"
    (namespaceOf defn.primary.table)
  let targeted := defn.target.elim routed (routed.insert "ventstream.target.index" ·)
  lsn.elim targeted (targeted.insert "ventstream.cdc.lsn" ·)

def subjectFor (op : String) : Option Subject :=
  Subject.ofText ("postgres." ++ namespaceOf defn.primary.table ++ "." ++
    relationOf defn.primary.table ++ "." ++ op)

/-- The event of an output; none when the table's name does not make a subject. -/
def buildEvent (lsn : Option String) : Output → Option Event
  | .upsert key doc =>
    (subjectFor defn "upsert").map fun subject =>
      ⟨subject, (targetHeaders defn lsn).insert "ventstream.doc.id"
        (docId defn.primary.table key), .ok doc⟩
  | .tombstone key =>
    (subjectFor defn "delete").map fun subject =>
      ⟨subject, ((targetHeaders defn lsn).insert "ventstream.doc.id"
        (docId defn.primary.table key)).insert "ventstream.cdc.op" "delete",
        .ok (.object [])⟩
  | .clear =>
    (subjectFor defn "truncate").map fun subject =>
      ⟨subject, (targetHeaders defn lsn).insert "ventstream.target.clear" "true", .ok (.object [])⟩

def handleTailBatch (settings : Settings) (see : Query → Database) (fuel : Nat)
    (evs : List Event) : Option (List Event) := do
  if evs.isEmpty then pure []
  else
    let outputs ← batchOutputs catalog defn settings see fuel (evs.map parse)
    outputs.mapM (buildEvent defn ((maxLsn evs).map (·.2)))

end

end Ventstream.SqlDenormalize
