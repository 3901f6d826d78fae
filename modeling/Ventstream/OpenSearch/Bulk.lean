import Ventstream.Core.Event

/-! # Bulk requests and their answers

What `bulk.rs` and the classifying functions of `sink.rs` do: the actions of each
event of a batch, one request for a slice of a batch, and the reading of an answer,
item by item. The lines of an action enter only through their length, and a template
only through the names it renders.
-/

namespace Ventstream.OpenSearch

open Core
open Json (Value)

/-- An event of a batch, with the id that stands in for a missing document id. -/
structure BatchEvent extends Event where
  id : String

/-- Why a whole request, or the preparation of one, failed. -/
inductive Failure where
  | transport (message : String)
  | server (status : Nat) (message : String)
  | rateLimited (message : String)
  | client (status : Nat) (message : String)
  | auth (status : Nat) (message : String)
  | malformedResponse (message : String)
  | indexTemplate (message : String)
  | internal (message : String)

def Failure.isRetryable : Failure → Bool
  | transport _ | server _ _ | rateLimited _ => true
  | _ => false

section

def docIdOf (ev : Event) : Option String := ev.headers["ventstream.doc.id"]?

/-- The source watermark that the sink stamps on a write. -/
def externalVersion (ev : Event) : Option Nat :=
  (((ev.headers["ventstream.cdc.lsn"]?.or ev.headers["ventstream.cdc.tx_id"]?).or
    ev.headers["ventstream.cdc.source_version"]?).bind parseU64).filter (0 < ·)

/-- A TRUNCATE, which the sink answers by clearing the documents of the relation. -/
def isTargetClear (ev : Event) : Bool := ev.headers["ventstream.target.clear"]? == some "true"

def isDeleteEvent (ev : Event) : Bool := (segments ev.subject.text).getLast? == some "delete"

/-- The index and id of a document and the version it is written under. -/
structure ActionMeta where
  index : String
  id : String
  version : Option Nat
  deriving DecidableEq

inductive Action where
  | index (target : ActionMeta) (document : Except String Value)
  | delete (target : ActionMeta)

def Action.target : Action → ActionMeta
  | index target _ => target
  | delete target => target

/-- An index template: its names for an event at a time, and the time one period back when it has
    time placeholders. A literal one has the same name for every event. -/
structure Template (Time : Type) where
  render : Event → Time → Except Failure String
  previousPeriod : Time → Except Failure (Option Time)
  isLiteral : Bool
  render_literal : isLiteral = true → ∀ ev other now, render ev now = render other now

/-- The indices that hold a document to delete, as far as the lookup before the batch knows. -/
abbrev DeleteTargets := String → Option (List String)

/-- The resolved indices, then the rendered one, then that of the previous period. -/
def deleteIndices (targets : Option DeleteTargets) (docId rendered : String)
    (previous : Option String) : List String :=
  let resolved := (targets.bind (· docId)).getD []
  let unseen := fun candidate => !resolved.contains candidate
  resolved ++ ((some rendered).filter unseen).toList ++
    ((previous.filter (· != rendered)).filter unseen).toList

def updateRowBody (ev : Event) : Option Value := ev.updateRow

def documentOf (ev : Event) : Except String Value :=
  match updateRowBody ev with
  | some row => .ok row
  | none => ev.payload

variable {Time : Type} (template : Template Time) (targets : Option DeleteTargets) (now : Time)

/-- Deletes of one id, in every index it may be in. -/
def deleteActions (previous : Option Time) (index docId : String) (ev : Event) :
    Except Failure (List Action) := do
  let previousIndex ← previous.mapM (template.render ev)
  pure ((deleteIndices targets docId index previousIndex).map fun target =>
    .delete ⟨target, docId, externalVersion ev⟩)

/-- An update that moved its document deletes the old one. -/
def relocations (previous : Option Time) (index : String) (ev : Event) :
    Except Failure (List Action) :=
  match ev.headers["ventstream.doc.old_id"]? with
  | none => .ok []
  | some oldId => deleteActions template targets previous index oldId ev

/-- The actions of one event in the given index. A delete needs a stable id. -/
def actionsIn (previous : Option Time) (index : String) (ev : BatchEvent) :
    Except Failure (List Action) :=
  if isDeleteEvent ev.toEvent then
    match docIdOf ev.toEvent with
    | none => .error (.internal ("delete event " ++ ev.id ++ " (subject '" ++
        ev.subject.text ++ "') has no `ventstream.doc.id`; cannot identify the doc to remove. " ++
        "Delivery is blocked until the source or denormalization mode stamps a stable doc id."))
    | some docId => deleteActions template targets previous index docId ev.toEvent
  else do
    let moved ← relocations template targets previous index ev.toEvent
    let target := ⟨index, (docIdOf ev.toEvent).getD ev.id, externalVersion ev.toEvent⟩
    pure (moved ++ [.index target (documentOf ev.toEvent)])

/-- The actions of one event, in the index its template gives. -/
def eventActions (ev : BatchEvent) : Except Failure (List Action) := do
  let previous ← template.previousPeriod now
  let index ← template.render ev.toEvent now
  actionsIn template targets previous index ev

/-- An event with its place in the batch, which nothing the sink does depends on. -/
structure Placed where
  event : BatchEvent
  place : Nat

/-- An action of a request, with the event it is for: by its offset in the attempt, which is what
    the sink keeps, and by its place in the batch. -/
structure Requested where
  place : Nat
  offset : Nat
  action : Action

/-- The index of an event; that of a literal template is known. -/
def indexOf (static : Option String) (ev : Event) : Except Failure String :=
  match static with
  | some index => .ok index
  | none => template.render ev now

/-- The actions of one event of an attempt. A clear has none. -/
def attemptActions (previous : Option Time) (static : Option String) (ev : BatchEvent) :
    Except Failure (List Action) :=
  if isTargetClear ev.toEvent then .ok []
  else do
    let index ← indexOf template now static ev.toEvent
    actionsIn template targets previous index ev

def requestFrom (previous : Option Time) (static : Option String) :
    Nat → List Placed → Except Failure (List Requested)
  | _, [] => pure []
  | offset, placed :: rest => do
      let actions ← attemptActions template targets now previous static placed.event
      let later ← requestFrom previous static (offset + 1) rest
      pure (actions.map (fun action => ⟨placed.place, offset, action⟩) ++ later)

/-- The name that a literal template has for every event. -/
def staticIndex (evs : List Placed) : Except Failure (Option String) :=
  match template.isLiteral, evs with
  | true, first :: _ => (template.render first.event.toEvent now).map some
  | _, _ => .ok none

def buildBulkBody (evs : List Placed) : Except Failure (List Requested) := do
  let static ← staticIndex template now evs
  let previous ← template.previousPeriod now
  requestFrom template targets now previous static 0 evs

end

inductive ActionKind where
  | index
  | create
  | update
  | delete
  deriving DecidableEq

structure BulkResponseItem where
  kind : ActionKind
  status : Nat
  error : Option Value

def asText : Value → Option String
  | .string text => some text
  | _ => none

def mentions (text word : String) : Bool := decide (word.toList <:+: text.toList)

namespace BulkResponseItem

variable (item : BulkResponseItem)

def errorField (name : String) : Option String :=
  (item.error.bind (·.get? name)).bind asText

def errorType : Option String := item.errorField "type"

def errorReason : Option String := item.errorField "reason"

def isSuccess : Bool := 200 ≤ item.status && item.status < 300

def isDeleteNotFound : Bool :=
  item.kind = .delete && item.status = 404 &&
    (item.error.isNone || item.errorType = some "document_missing_exception" ||
      item.errorType = some "index_not_found_exception")

def isVersionConflict : Bool :=
  item.status = 409 && (item.errorType.map fun text => mentions text "version_conflict").getD true

def message : String :=
  (item.error.map Json.render).getD ("status " ++ toString item.status)

end BulkResponseItem

def isTransientErrorType (errorType : Option String) : Bool :=
  errorType.any fun text =>
    ["circuit_breaking_exception", "cluster_block_exception", "es_rejected_execution_exception",
      "master_not_discovered_exception", "node_not_connected_exception",
      "snapshot_in_progress_exception", "unavailable_shards_exception"].contains text

def isTransientItemFailure (item : BulkResponseItem) : Bool :=
  item.status = 429 || item.status = 408 || 500 ≤ item.status || isTransientErrorType item.errorType

/-- A document the mapping does not take. Another illegal argument may be a wrong setting. -/
def isPermanentDocumentFailure (item : BulkResponseItem) : Bool :=
  match item.errorType with
  | some "document_parsing_exception" | some "mapper_parsing_exception"
  | some "strict_dynamic_mapping_exception" => true
  | some "illegal_argument_exception" =>
    let reason := item.errorReason.getD ""
    mentions reason "mapper" || mentions reason "cannot be changed" ||
      mentions reason "different type"
  | _ => false

/-- What the sink makes of one item of an answer. -/
inductive ItemClass where
  | applied
  | transient
  | permanent
  | blocked
  deriving DecidableEq

def classify (item : BulkResponseItem) : ItemClass :=
  if item.isSuccess then .applied
  else if item.isDeleteNotFound then .applied
  else if item.isVersionConflict then .applied
  else if isTransientItemFailure item then .transient
  else if isPermanentDocumentFailure item then .permanent
  else .blocked

/-- A non-2xx answer, as an error of the whole request. -/
def classifyFailure (status : Nat) (errorType : Option String) (body : String) : Failure :=
  if status = 429 then .rateLimited body
  else if status = 408 then .server status body
  else if 500 ≤ status ∧ status < 600 then .server status body
  else if 400 ≤ status ∧ status < 500 ∧ status ≠ 401 ∧ isTransientErrorType errorType then
    .server status body
  else if status = 401 ∨ status = 403 then .auth status body
  else if 400 ≤ status ∧ status < 500 then .client status body
  else .internal ("unexpected status " ++ toString status ++ ": " ++ body)

structure FailedItem where
  offset : Nat
  error : String

/-- Keep the items of a bucket whose event no earlier item has claimed. -/
def retainUnclaimed : List Nat → List FailedItem → List FailedItem
  | _, [] => []
  | claimed, item :: rest =>
    if claimed.contains item.offset then retainUnclaimed claimed rest
    else item :: retainUnclaimed (item.offset :: claimed) rest

/-- The failed items of an answer, each event in one bucket: one that can be retried in the first,
    else a refused one in the second. -/
structure Buckets where
  transient : List FailedItem
  permanent : List FailedItem
  blocked : List FailedItem

def dedupeByOffset (buckets : Buckets) : Buckets :=
  let transient := retainUnclaimed [] buckets.transient
  let permanent := retainUnclaimed (transient.map (·.offset)) buckets.permanent
  let blocked := retainUnclaimed (transient.map (·.offset) ++ permanent.map (·.offset))
    buckets.blocked
  ⟨transient, permanent, blocked⟩

/-- The items of one class, each with the offset of its event. -/
def itemsOf (itemClass : ItemClass) (answers : List (Requested × BulkResponseItem)) :
    List FailedItem :=
  answers.filterMap fun answer =>
    if classify answer.2 = itemClass then some ⟨answer.1.offset, answer.2.message⟩ else none

def partitionBulkItems (answers : List (Requested × BulkResponseItem)) : Buckets :=
  dedupeByOffset ⟨itemsOf .transient answers, itemsOf .permanent answers, itemsOf .blocked answers⟩

end Ventstream.OpenSearch
