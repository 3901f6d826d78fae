import Ventstream.Core.Event
import Ventstream.Library.Program
import Ventstream.Library.Runs

/-! # From events to the runs of the SurrealDB sink

The translation of a batch in `statements.rs` and the checks of the edge specs in
`SurrealDbSink::new`. An event becomes operations on the record of its document and, for the
specs of its relation, operations on the edge that its foreign key stands for. The edge
operations are collected while the events are gone through and follow the documents.
-/

namespace Ventstream.SurrealDb

open Core Library Library.Runs List
open Json (Value Fields)

section

inductive TableRouting where
  | byOutputRelation
  | byProjectionTarget
  | fixed (table : String)

/-- A foreign key that is kept as edges. -/
structure EdgeSpec where
  name : String
  fromTable : String
  fkColumns : List String
  toTable : String
  reversed : Bool
  deriving DecidableEq

structure LookupField where
  table : String
  field : String

structure Config where
  tableRouting : TableRouting
  tablePrefix : String
  batching : Limits
  lookupFields : List LookupField
  graphEdges : List EdgeSpec
  /-- What reading a text as JSON gives. -/
  fromStr : String → Option Value

variable (cfg : Config) (spec : EdgeSpec)

def Config.routedFrom : String := cfg.tablePrefix ++ spec.fromTable

def Config.routedTo : String := cfg.tablePrefix ++ spec.toTable

def Config.edgeTable : String := cfg.tablePrefix ++ spec.name

def isSafeIdentifier (input : String) : Bool :=
  !input.isEmpty &&
    (input.toList.all fun char =>
      char.isAlphanum || char == '_' || char == '.' || char == '-') &&
    (segments input).all (!·.isEmpty)

def checkPrefix : Except String Unit :=
  if !cfg.tablePrefix.isEmpty && !isSafeIdentifier cfg.tablePrefix then
    .error ("table_prefix `" ++ cfg.tablePrefix ++ "` uses characters outside [A-Za-z0-9_.-]")
  else .ok ⟨⟩

def checkRouting : Except String Unit :=
  if cfg.graphEdges.isEmpty then .ok ⟨⟩
  else
    match cfg.tableRouting with
    | .byOutputRelation => .ok ⟨⟩
    | .fixed _ => .error "graph_edges requires by_output_relation table routing, not fixed"
    | .byProjectionTarget => .error ("graph_edges requires by_output_relation table routing; " ++
        "by_projection_target routes by a header edge specs do not match")

/-- The specs one after another, with the names of those before. -/
def checkSpecs : List String → List EdgeSpec → Except String Unit
  | _, [] => .ok ⟨⟩
  | names, spec :: rest =>
    if !isSafeIdentifier spec.name || !isSafeIdentifier spec.fromTable ||
        !isSafeIdentifier spec.toTable then
      .error ("graph edge `" ++ spec.name ++ "` (" ++ spec.fromTable ++ " -> " ++ spec.toTable ++
        ") uses characters outside [A-Za-z0-9_.-]")
    else if spec.fkColumns.isEmpty then
      .error ("graph edge `" ++ spec.name ++ "` declares no fk_columns")
    else if names.contains spec.name then
      .error ("graph edge `" ++ spec.name ++ "` is declared more than once")
    else checkSpecs (spec.name :: names) rest

def checkCollisions : Except String Unit :=
  match cfg.graphEdges.find? fun spec => cfg.graphEdges.any fun other =>
      spec.name == other.fromTable || spec.name == other.toTable with
  | some spec => .error ("graph edge `" ++ spec.name ++ "` collides with a document table name")
  | none => .ok ⟨⟩

/-- The checks of `SurrealDbSink::new` that concern tables and edges. -/
def checkConfig : Except String Unit := do
  checkPrefix cfg
  checkRouting cfg
  checkSpecs [] cfg.graphEdges
  checkCollisions cfg

/-- A sink that `SurrealDbSink::new` has built. -/
structure Sink extends Config where
  accepted : checkConfig toConfig = .ok ⟨⟩

end

section

theorem checkSpecs_inv (isOk : checkSpecs names specs = .ok ⟨⟩) :
    (∀ spec ∈ specs, spec.fkColumns ≠ [] ∧ spec.name ∉ names) ∧
      (specs.map (·.name)).Nodup := by
  induction specs generalizing names with
  | nil => exact ⟨fun _ mem => absurd mem not_mem_nil, nodup_nil⟩
  | cons spec rest ih =>
    unfold checkSpecs at isOk
    split at isOk
    · cases isOk
    · split at isOk
      · cases isOk
      · rename_i hasColumns
        split at isOk
        · cases isOk
        · rename_i isNew
          obtain ⟨facts, distinct⟩ := ih isOk
          refine ⟨forall_mem_cons.mpr ⟨⟨by simpa using hasColumns, by simpa using isNew⟩,
            fun other mem => ?_⟩, ?_⟩
          · obtain ⟨columns, isOther⟩ := facts other mem
            exact ⟨columns, fun earlier => isOther (mem_cons_of_mem _ earlier)⟩
          · rw [map_cons, nodup_cons]
            refine ⟨fun again => ?_, distinct⟩
            obtain ⟨other, mem, same⟩ := mem_map.mp again
            exact (facts other mem).2 (same ▸ mem_cons_self)

variable (sink : Sink)

theorem Sink.checked : checkRouting sink.toConfig = .ok ⟨⟩ ∧
    checkSpecs [] sink.graphEdges = .ok ⟨⟩ ∧ checkCollisions sink.toConfig = .ok ⟨⟩ := by
  obtain ⟨_, -, accepted⟩ := ok_of_bind sink.accepted
  obtain ⟨_, routing, accepted⟩ := ok_of_bind accepted
  obtain ⟨_, specs, collisions⟩ := ok_of_bind accepted
  exact ⟨routing, specs, collisions⟩

variable {sink} {spec other : EdgeSpec}

theorem Sink.edgeTable_inj (isSpec : spec ∈ sink.graphEdges) (isOther : other ∈ sink.graphEdges)
    (same : sink.edgeTable spec = sink.edgeTable other) : spec = other :=
  inj_on_of_nodup_map (checkSpecs_inv sink.checked.2.1).2 isSpec isOther
    (String.append_right_inj sink.tablePrefix |>.mp same)

end

section

variable (cfg : Config)

/-- The record id that a document id stands for: always an array. -/
def recordIdComponent (docId : String) : Value :=
  match docId.toList.dropWhile (· != ':') with
  | [] => .array [.string docId]
  | _ :: rest =>
    let keys := String.ofList rest
    match cfg.fromStr keys with
    | some (.array items) => .array items
    | _ => .array [.string keys]

/-- Under fixed routing the id stays fully qualified. -/
def routedRecordId (docId : String) : Value :=
  match cfg.tableRouting with
  | .fixed _ => .array [.string docId]
  | _ => recordIdComponent cfg docId

def requireHeader (ev : SinkEvent) (header : String) : Except String String :=
  ev.routingHeader "event" header "table routing"

def resolveTable (ev : SinkEvent) : Except String String := do
  let target ← match cfg.tableRouting with
    | .byOutputRelation => requireHeader ev "ventstream.cdc.relation"
    | .byProjectionTarget => requireHeader ev "ventstream.target.index"
    | .fixed table => .ok table
  if target.isEmpty then .error ("event " ++ ev.id ++ " routed to an empty table name")
  else .ok (cfg.tablePrefix ++ target)

def requiredDocId (ev : SinkEvent) : Except String String := ev.stableId "SurrealDB"

def scalarText : Value → Option String
  | .string text => some text
  | .number number => some number.text
  | .bool flag => some (if flag then "true" else "false")
  | _ => none

mutual

/-- The texts of the scalars at the end of a path, through arrays. -/
def collectPathStrings : Value → List String → List String
  | .array items, path => collectItems items path
  | .object _, [] => []
  | .object fields, head :: rest => collectField fields head rest
  | scalar, [] => (scalarText scalar).toList
  | _, _ :: _ => []

def collectItems : List Value → List String → List String
  | [], _ => []
  | item :: rest, path => collectPathStrings item path ++ collectItems rest path

def collectField : List (String × Value) → String → List String → List String
  | [], _, _ => []
  | (name, value) :: rest, head, path =>
    if name = head then collectPathStrings value path else collectField rest head path

end

def lookupFieldName (path : String) : String :=
  "_vs_lx_" ++ String.ofList (path.toList.flatMap fun char =>
    if char.isAlphanum then [char] else replicate char.utf8Size '_')

/-- The values at a path, kept next to the document for lookups. -/
def addLookup (fields : Fields) (path : String) : Fields :=
  let values := match segments path with
    | [] => []
    | head :: rest =>
      match fields.get? head with
      | none => []
      | some root => collectPathStrings root rest
  fields.set (lookupFieldName path) (.array (values.map .string))

/-- A column `id` is kept as `source_id`, unless there is one. -/
def preserveId (fields : Fields) : Fields :=
  match fields.get? "id" with
  | none => fields
  | some sourceId =>
    let rest := fields.remove "id"
    if (rest.get? "source_id").isSome then rest else rest.set "source_id" sourceId

def buildDocument (ev : SinkEvent) (docId : String) (lookupPaths : List String) :
    Except String Fields := do
  let fields ← ev.objectPayload "SurrealDB"
  .ok (lookupPaths.foldl addLookup ((preserveId fields).set "_vs_id" (.string docId)))

def lookupPaths (table : String) : List String :=
  (cfg.lookupFields.filter (·.table == table)).map (·.field)

def documentBytes (ev : SinkEvent) (docId : String) : Nat :=
  ev.bytes.utf8ByteSize + docId.utf8ByteSize + 192

def oversized (bytes : Nat) : String :=
  "document is ~" ++ toString bytes ++ " bytes, exceeding max_bytes=" ++
    toString cfg.batching.maxBytes

/-- The old id of a relocated document; one that cannot be an id is an error. -/
def relocatedFrom (ev : SinkEvent) : Except String (Option String) :=
  match ev.headers["ventstream.doc.old_id"]? with
  | none => .ok none
  | some oldId =>
    if isBadId oldId then
      .error ("event " ++ ev.id ++ " has an empty or control-character `ventstream.doc.old_id`")
    else .ok (some oldId)

/-- The components of the foreign key of a row; none if one is missing or null. -/
def fkComponents (document : Fields) (fkColumns : List String) : Option (List String) :=
  fkColumns.mapM fun column =>
    match document.get? (if column = "id" then "source_id" else column) with
    | none | some .null => none
    | some value => some (componentText value)

end

section

variable (cfg : Config)

/-- The class of the operations of a run; edges carry the tables of their ends. -/
inductive RunKind where
  | upsert | delete | truncate
  | edgeApply (aTable bTable : String)
  deriving DecidableEq

def RunKind.isEdgeApply : RunKind → Bool
  | .edgeApply .. => true
  | _ => false

/-- The table, the lane if that is not the table's own, and the class of a run. -/
@[ext]
structure Call where
  table : String
  lane : Option String
  kind : RunKind
  deriving DecidableEq

def Call.laneKey (call : Call) : String := call.lane.getD call.table

inductive Operation where
  | upsert (rid : Value) (document : Fields)
  | delete (rid : Value)
  | truncate
  | edgeApply (eid a b : Value)
  deriving DecidableEq

inductive EdgeOp where
  | apply (eid a b : Value)
  | delete (eid : Value)
  | truncate

/-- The edge operations of a spec, collected in the order of the events. -/
structure EdgeCtx where
  spec : EdgeSpec
  ops : List (Nat × EdgeOp)

structure Translated where
  runs : List (Run Call Operation)
  rejects : List (Nat × String)
  edges : List EdgeCtx

def Translated.reject (translated : Translated) (offset : Nat) (error : String) : Translated :=
  { translated with rejects := translated.rejects ++ [(offset, error)] }

def Translated.push (translated : Translated) (operation : Placed Call Operation) (bytes : Nat) :
    Translated :=
  { translated with runs := Runs.push operation bytes translated.runs }

/-- Into the last run, if that is on the same table and of the same class. -/
def Translated.add (translated : Translated) (operation : Placed Call Operation) (bytes : Nat) :
    Translated :=
  { translated with
    runs := Runs.add cfg.batching
      (fun call => call.table == operation.kind.table && call.kind == operation.kind.kind)
      operation bytes translated.runs }

/-- The operations of the specs whose relation a table is. -/
def Translated.relate (translated : Translated) (table : String) (offset : Nat)
    (op : EdgeSpec → EdgeOp) : Translated :=
  { translated with
    edges := translated.edges.map fun ctx =>
      if cfg.routedFrom ctx.spec = table then
        { ctx with ops := ctx.ops ++ [(offset, op ctx.spec)] }
      else ctx }

def documentCall (table : String) (kind : RunKind) : Call := ⟨table, none, kind⟩

/-- The edge that the foreign key of a row stands for, or its removal. -/
def edgeOpOf (rid : Value) (document : Fields) (spec : EdgeSpec) : EdgeOp :=
  match fkComponents document spec.fkColumns with
  | some components =>
    let fk : Value := .array (components.map .string)
    if spec.reversed then .apply rid fk rid else .apply rid rid fk
  | none => .delete rid

/-- The delete of the record that a relocated document had before, a run of its own. -/
def relocate (translated : Translated) (offset : Nat) (table : String) : Option String → Translated
  | none => translated
  | some oldId =>
    let oldRid := routedRecordId cfg oldId
    (translated.relate cfg table offset fun _ => .delete oldRid).push
      ⟨documentCall table .delete, offset, .delete oldRid⟩ (oldId.utf8ByteSize + 8)

def translateUpsert (translated : Translated) (offset : Nat) (ev : SinkEvent)
    (table docId : String) : Translated :=
  match buildDocument ev docId (lookupPaths cfg table) with
  | .error error => translated.reject offset error
  | .ok document =>
    let bytes := documentBytes ev docId
    if cfg.batching.maxBytes < bytes then
      translated.reject offset (oversized cfg bytes)
    else
      match relocatedFrom ev with
      | .error error => translated.reject offset error
      | .ok oldId =>
        let rid := routedRecordId cfg docId
        let translated := relocate cfg translated offset table oldId
        (translated.relate cfg table offset (edgeOpOf rid document)).add cfg
          ⟨documentCall table .upsert, offset, .upsert rid document⟩ bytes

def translateEvent (translated : Translated) (entry : SinkEvent × Nat) : Translated :=
  let (ev, offset) := entry
  match resolveTable cfg ev with
  | .error error => translated.reject offset error
  | .ok table =>
    if ev.endsWith "truncate" then
      (translated.relate cfg table offset fun _ => .truncate).push
        ⟨documentCall table .truncate, offset, .truncate⟩ 0
    else
      match requiredDocId ev with
      | .error error => translated.reject offset error
      | .ok docId =>
        if ev.endsWith "delete" then
          let rid := routedRecordId cfg docId
          (translated.relate cfg table offset fun _ => .delete rid).add cfg
            ⟨documentCall table .delete, offset, .delete rid⟩ (docId.utf8ByteSize + 8)
        else translateUpsert cfg translated offset ev table docId

/-- The ends of the edges of a spec, as tables. -/
def endTables (spec : EdgeSpec) : RunKind :=
  if spec.reversed then .edgeApply (cfg.routedTo spec) (cfg.routedFrom spec)
  else .edgeApply (cfg.routedFrom spec) (cfg.routedTo spec)

def edgeCall (spec : EdgeSpec) (kind : RunKind) : Call :=
  ⟨cfg.edgeTable spec, some (cfg.routedFrom spec), kind⟩

def addEdgeOp (spec : EdgeSpec) (runs : List (Run Call Operation)) (entry : Nat × EdgeOp) :
    List (Run Call Operation) :=
  match entry with
  | (offset, .truncate) => Runs.push ⟨edgeCall cfg spec .truncate, offset, .truncate⟩ 0 runs
  | (offset, .delete eid) =>
    Runs.add cfg.batching
      (fun call => call.table == cfg.edgeTable spec && call.lane.isSome && call.kind == .delete)
      ⟨edgeCall cfg spec .delete, offset, .delete eid⟩ 96 runs
  | (offset, .apply eid a b) =>
    Runs.add cfg.batching
      (fun call => call.table == cfg.edgeTable spec && call.kind.isEdgeApply)
      ⟨edgeCall cfg spec (endTables cfg spec), offset, .edgeApply eid a b⟩ 96 runs

def addEdges (runs : List (Run Call Operation)) (ctx : EdgeCtx) : List (Run Call Operation) :=
  ctx.ops.foldl (addEdgeOp cfg ctx.spec) runs

/-- The documents of a batch, and what was collected for its edges. -/
def translateDocuments (evs : List SinkEvent) : Translated :=
  evs.zipIdx.foldl (translateEvent cfg) ⟨[], [], cfg.graphEdges.map (⟨·, []⟩)⟩

def translateBatch (evs : List SinkEvent) : Translated :=
  let translated := translateDocuments cfg evs
  { translated with runs := translated.edges.foldl (addEdges cfg) translated.runs }

end

end Ventstream.SurrealDb
