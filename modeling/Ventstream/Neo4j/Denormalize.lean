import Ventstream.Library.PropertyGraph

/-! # Denormalised Neo4j documents

A spec projects every node with its primary label into a document, along paths of typed
hops. The tail collects the element ids that a poll's change events name, drops the ids
that it takes for shared lookup nodes, selects the primaries that reach one of the rest
along a path and composes their documents anew. A deleted primary gets a tombstone.

The definitions follow `neo4j/denormalize.rs`, `neo4j/hot_endpoints.rs` and
`neo4j/projection.rs`; a query's result is that of the graph it reads.
-/

namespace Ventstream.Neo4j

open Library Library.PropertyGraph List

abbrev ElementId := { id : String // id ≠ "" }

abbrev Graph (π : Type) := PropertyGraph ElementId String π

/-- One projection. The paths are those of the body's patterns, and `compose` is the one row
    that the body returns for a primary. -/
structure DenormalizeSpec (π δ : Type) where
  primaryLabel : String
  outputTable : String
  paths : List (List (Hop String))
  fanOutMaxHops : Nat
  compose : Graph π → ElementId → δ

variable {π : Type}

/-- The fields of a change event that are read. -/
structure ChangeEvent where
  elementId : Option String
  eventType : Option String
  operation : Option String
  labels : Option (List String)
  beforeLabels : Option (List String)
  startId : Option String
  endId : Option String
  type : Option String

structure EventMeta where
  elementId : Option String
  isNode : Bool
  isDelete : Bool
  labels : List String
  startEid : Option String
  endEid : Option String
  relType : Option String

namespace EventMeta

/-- The labels at the top of the event and those of its state before. -/
def extract (ev : ChangeEvent) : EventMeta where
  elementId := ev.elementId
  isNode := ev.eventType.getD "" == "n"
  isDelete := ev.operation.getD "" == "d"
  labels := (ev.beforeLabels.getD []).foldl
    (fun labels label => if label ∈ labels then labels else labels ++ [label])
    (ev.labels.getD [])
  startEid := ev.startId
  endEid := ev.endId
  relType := ev.type

def isNodeDelete (info : EventMeta) : Bool := info.isNode && info.isDelete

def hasLabel (info : EventMeta) (want : String) : Bool := info.labels.contains want

end EventMeta

def nodeEvent (operation : String) (node : Node ElementId String π)
    (before : Option (List String)) : ChangeEvent where
  elementId := some node.id
  eventType := some "n"
  operation := some operation
  labels := some node.labels
  beforeLabels := before
  startId := none
  endId := none
  type := none

def relationshipEvent (operation : String) (rel : Relationship ElementId String π) :
    ChangeEvent where
  elementId := some rel.id
  eventType := some "r"
  operation := some operation
  labels := none
  beforeLabels := none
  startId := some rel.start
  endId := some rel.stop
  type := some rel.type

/-- The events for what two lists of entities differ in: one for each entity that is gone, was
    changed or is new. -/
def differences {α β : Type} [DecidableEq α] (key : α → ElementId) (before after : List α)
    (deleted created : α → β) (updated : α → α → β) : List β :=
  (before.filterMap fun item =>
    match after.find? fun later => key later = key item with
    | none => some (deleted item)
    | some later => if item = later then none else some (updated item later)) ++
  (after.filter fun item => key item ∉ before.map key).map created

/-- What the server reports for a transaction. -/
def changeEvents [DecidableEq π] (before after : Graph π) : List ChangeEvent :=
  differences Node.id before.nodes after.nodes
    (fun node => nodeEvent "d" node (some node.labels))
    (fun node => nodeEvent "c" node none)
    (fun node later => nodeEvent "u" later (some node.labels)) ++
  differences Relationship.id before.rels after.rels
    (relationshipEvent "d") (relationshipEvent "c") (fun _ => relationshipEvent "u")

section

variable {α β : Type} [DecidableEq α] {key : α → ElementId} {before after : List α}
  {deleted created : α → β} {updated : α → α → β}

theorem mem_differences (distinct : (after.map key).Nodup) :
    ev ∈ differences key before after deleted created updated ↔
      (∃ item ∈ before, key item ∉ after.map key ∧ ev = deleted item) ∨
      (∃ item ∈ before, ∃ later ∈ after, key later = key item ∧ item ≠ later ∧
        ev = updated item later) ∨
      ∃ item ∈ after, key item ∉ before.map key ∧ ev = created item := by
  have found {item later : α} (isLater : later ∈ after) (same : key later = key item) :
      after.find? (fun other => key other = key item) = some later := by
    cases isFound : after.find? (fun other => key other = key item) with
    | none => exact absurd (find?_eq_none.mp isFound later isLater) (by simpa using same)
    | some other =>
      have isOther := mem_of_find?_eq_some isFound
      have sameKey : key other = key item := by simpa using find?_some isFound
      rw [inj_on_of_nodup_map distinct isOther isLater (sameKey.trans same.symm)]
  rw [differences, mem_append, mem_filterMap, mem_map]
  constructor
  · rintro (⟨item, isItem, isEvent⟩ | ⟨item, isItem, rfl⟩)
    · split at isEvent
      · rename_i gone
        refine .inl ⟨item, isItem, fun present => ?_, (Option.some.inj isEvent).symm⟩
        obtain ⟨later, isLater, same⟩ := mem_map.mp present
        rw [found isLater same] at gone
        cases gone
      · rename_i later isFound
        split at isEvent
        · cases isEvent
        · rename_i differs
          exact .inr (.inl ⟨item, isItem, later, mem_of_find?_eq_some isFound,
            by simpa using find?_some isFound, differs, (Option.some.inj isEvent).symm⟩)
    · rw [mem_filter, decide_eq_true_eq] at isItem
      exact .inr (.inr ⟨item, isItem.1, isItem.2, rfl⟩)
  · rintro (⟨item, isItem, gone, rfl⟩ | ⟨item, isItem, later, isLater, same, differs, rfl⟩ |
      ⟨item, isItem, isNew, rfl⟩)
    · refine .inl ⟨item, isItem, ?_⟩
      have isNone : after.find? (fun other => key other = key item) = none := by
        rw [find?_eq_none]
        intro other isOther same
        exact gone (by simpa using ⟨other, isOther, by simpa using same⟩)
      rw [isNone]
    · refine .inl ⟨item, isItem, ?_⟩
      rw [found isLater same]
      simp only [if_neg differs]
    · exact .inr ⟨item, mem_filter.mpr ⟨isItem, by simpa using isNew⟩, rfl⟩

/-- What is not the same afterwards has an event: of itself, or of the pair it belongs to. -/
theorem reported_of_change (distinct : (after.map key).Nodup)
    (differs : item ∈ before ∧ item ∉ after ∨ item ∈ after ∧ item ∉ before) :
    (key item ∉ after.map key ∧
        deleted item ∈ differences key before after deleted created updated) ∨
      created item ∈ differences key before after deleted created updated ∨
      ∃ old ∈ before, ∃ later ∈ after, key later = key old ∧ (item = old ∨ item = later) ∧
        updated old later ∈ differences key before after deleted created updated := by
  simp only [mem_differences distinct]
  rcases differs with ⟨isOld, gone⟩ | ⟨isNew, unknown⟩
  · by_cases lives : key item ∈ after.map key
    · obtain ⟨later, isLater, same⟩ := mem_map.mp lives
      exact .inr (.inr ⟨item, isOld, later, isLater, same, .inl rfl, .inr (.inl
        ⟨item, isOld, later, isLater, same, fun equal => gone (equal ▸ isLater), rfl⟩)⟩)
    · exact .inl ⟨lives, .inl ⟨item, isOld, lives, rfl⟩⟩
  · by_cases lived : key item ∈ before.map key
    · obtain ⟨old, isOld, same⟩ := mem_map.mp lived
      exact .inr (.inr ⟨old, isOld, item, isNew, same.symm, .inr rfl, .inr (.inl
        ⟨old, isOld, item, isNew, same.symm, fun equal => unknown (equal ▸ isOld), rfl⟩)⟩)
    · exact .inr (.inl (.inr (.inr ⟨item, isNew, lived, rfl⟩)))

end

variable {δ : Type}

/-- The end of a relationship that lies away from the primary. -/
inductive FarSide where
  | start
  | stop
  deriving DecidableEq

structure HotRel where
  farSide : FarSide
  eids : Finset String

/-- For each relationship type, the end to drop and the nodes to drop there. -/
structure SpecHotEndpoints where
  byRel : String → Option HotRel

namespace SpecHotEndpoints

def none : SpecHotEndpoints := ⟨fun _ => .none⟩

/-- Whether the start and the end of a relationship event are kept as anchors. -/
def keepEndpoints (hot : SpecHotEndpoints) (relType startEid endEid : Option String) :
    Bool × Bool :=
  match relType.bind hot.byRel with
  | .none => (true, true)
  | some entry =>
    match entry.farSide with
    | .stop => (true, !(endEid.any (· ∈ entry.eids)))
    | .start => (!(startEid.any (· ∈ entry.eids)), true)

end SpecHotEndpoints

structure HotBuilder where
  byRel : String → Option HotRel
  disabled : List String

namespace HotBuilder

def new : HotBuilder := ⟨fun _ => none, []⟩

/-- A type with two orientations is not filtered at all. -/
def add (builder : HotBuilder) (relType : String) (farSide : FarSide) (eids : Finset String) :
    HotBuilder :=
  if relType ∈ builder.disabled then builder
  else
    match builder.byRel relType with
    | some existing =>
      if existing.farSide ≠ farSide then
        ⟨Function.update builder.byRel relType none, relType :: builder.disabled⟩
      else
        { builder with
          byRel := Function.update builder.byRel relType
            (some { existing with eids := existing.eids ∪ eids }) }
    | none =>
      { builder with byRel := Function.update builder.byRel relType (some ⟨farSide, eids⟩) }

def finish (builder : HotBuilder) : SpecHotEndpoints := ⟨builder.byRel⟩

end HotBuilder

/-- The end of a relationship that a hop in a direction reaches; an undirected one reaches
    either. -/
def farSideOf : Direction → Option FarSide
  | .out => some .stop
  | .into => some .start
  | .undirected => none

/-- The nodes that a pattern reaches from the primaries, unless there are more than the
    threshold or none. -/
def countPathEndpoints (graph : Graph π) (primaryLabel : String) (hops : List (Hop String))
    (threshold : Nat) : Option (Finset String) :=
  let reached := (graph.nodes.filter fun node => primaryLabel ∈ node.labels).flatMap fun node =>
    (graph.trails hops [] node.id).map (arrival node.id)
  let eids := (reached.dedup.take (threshold + 1)).map Subtype.val
  if threshold < eids.length then none
  else if eids.isEmpty then none
  else some eids.toFinset

/-- Probe a path down to one hop. -/
def probe (graph : Graph π) (spec : DenormalizeSpec π δ) (threshold : Nat)
    (path : List (Hop String)) (builder : HotBuilder) (depth : Nat) : HotBuilder :=
  match path[depth]? with
  | none => builder
  | some last =>
    match farSideOf last.direction,
      countPathEndpoints graph spec.primaryLabel (path.take (depth + 1)) threshold with
    | some farSide, some eids =>
      last.relTypes.foldl (fun builder relType => builder.add relType farSide eids) builder
    | _, _ => builder

/-- The table of one spec, from the graph at startup; a threshold of zero turns it off. -/
def computeForSpec (graph : Graph π) (spec : DenormalizeSpec π δ) (threshold : Nat) :
    SpecHotEndpoints :=
  if threshold = 0 then .none
  else
    (spec.paths.foldl (fun builder path =>
      (range (min path.length spec.fanOutMaxHops)).foldl (probe graph spec threshold path)
        builder) .new).finish

variable {spec : DenormalizeSpec π δ}

section

/-- The element ids of a poll: those to fan out from, and the deleted primaries. -/
structure Affected where
  recompose : Finset String
  deletes : Finset String

variable (spec) (hot : SpecHotEndpoints)

def Affected.note (affected : Affected) (ev : ChangeEvent) : Affected :=
  let info := EventMeta.extract ev
  match info.elementId.filter (· ≠ "") with
  | none => affected
  | some elementId =>
    if info.isNodeDelete && info.hasLabel spec.primaryLabel then
      { affected with deletes := insert elementId affected.deletes }
    else
      let keep := hot.keepEndpoints info.relType info.startEid info.endEid
      let starts := if keep.1 then info.startEid.toFinset else ∅
      let ends := if keep.2 then info.endEid.toFinset else ∅
      { affected with recompose := insert elementId affected.recompose ∪ starts ∪ ends }

def affectedBy (evs : List ChangeEvent) : Affected :=
  evs.foldl (Affected.note spec hot) ⟨∅, ∅⟩

/-- What one event says is affected. -/
def noted (ev : ChangeEvent) : Affected :=
  Affected.note spec hot ⟨∅, ∅⟩ ev

/-- The patterns of the fan-out query: the primary itself, and each path down to each of its
    first hops. -/
def fanOutBranches : List (List (Hop String)) :=
  [] :: spec.paths.flatMap fun path =>
    (range (min path.length spec.fanOutMaxHops)).map fun depth => path.take (depth + 1)

def selectPrimaries (graph : Graph π) (eids : List String) : List ElementId :=
  (graph.nodes.filter fun node => spec.primaryLabel ∈ node.labels ∧
    ∃ hops ∈ fanOutBranches spec, ∃ steps ∈ graph.trails hops [] node.id,
      (arrival node.id steps).val ∈ eids).map Node.id

@[simp] theorem filter_named (id : ElementId) :
    (some id.val).filter (fun text => !decide (text = "")) = some id.val := by
  simp [Option.filter, id.property]

theorem Affected.note_eq (affected : Affected) (ev : ChangeEvent) :
    affected.note spec hot ev = ⟨affected.recompose ∪ (noted spec hot ev).recompose,
        affected.deletes ∪ (noted spec hot ev).deletes⟩ := by
  simp only [noted, Affected.note]
  split
  · simp
  · split
    · simp
    · simp only [Finset.union_empty, Affected.mk.injEq, and_true]
      ext
      simp only [Finset.mem_union, Finset.mem_insert, Finset.notMem_empty, or_false]
      tauto

theorem mem_affectedBy (evs : List ChangeEvent) (id : String) :
    (id ∈ (affectedBy spec hot evs).recompose ↔ ∃ ev ∈ evs, id ∈ (noted spec hot ev).recompose) ∧
    (id ∈ (affectedBy spec hot evs).deletes ↔
      ∃ ev ∈ evs, id ∈ (noted spec hot ev).deletes) := by
  have general (affected : Affected) :
      (id ∈ (evs.foldl (Affected.note spec hot) affected).recompose ↔ id ∈ affected.recompose ∨
          ∃ ev ∈ evs, id ∈ (noted spec hot ev).recompose) ∧
      (id ∈ (evs.foldl (Affected.note spec hot) affected).deletes ↔ id ∈ affected.deletes ∨
          ∃ ev ∈ evs, id ∈ (noted spec hot ev).deletes) := by
    induction evs generalizing affected with
    | nil => simp
    | cons ev rest ih =>
      obtain ⟨recompose, deletes⟩ := ih (affected.note spec hot ev)
      rw [foldl_cons, recompose, deletes, Affected.note_eq]
      simp only [Finset.mem_union, exists_mem_cons_iff, or_assoc, and_self]
  simpa [affectedBy] using general ⟨∅, ∅⟩

variable {spec hot} {operation : String} {node : Node ElementId String π}
  {rel : Relationship ElementId String π}

theorem note_nodeEvent (lives : operation ≠ "d") :
    (noted spec hot (nodeEvent operation node before)) = ⟨{node.id.val}, ∅⟩ := by
  simp [noted, Affected.note, nodeEvent, EventMeta.extract, EventMeta.isNodeDelete, lives,
    SpecHotEndpoints.keepEndpoints]

theorem mem_labels_extract : label ∈ (EventMeta.extract ev).labels ↔
      label ∈ ev.labels.getD [] ∨ label ∈ ev.beforeLabels.getD [] := by
  have general (init more : List String) : label ∈ more.foldl
      (fun labels label => if label ∈ labels then labels else labels ++ [label]) init ↔
      label ∈ init ∨ label ∈ more := by
    induction more generalizing init with
    | nil => simp
    | cons head rest ih =>
      rw [foldl_cons, ih]
      split
      · rename_i isKnown
        rw [mem_cons]
        constructor
        · exact Or.imp_right Or.inr
        · rintro (isOld | rfl | isNew)
          · exact .inl isOld
          · exact .inl isKnown
          · exact .inr isNew
      · simp [or_assoc]
  exact general _ _

theorem deletes_note_deletion : (noted spec hot (nodeEvent "d" node (some node.labels))).deletes =
      if spec.primaryLabel ∈ node.labels then {node.id.val} else ∅ := by
  have known : (EventMeta.extract (nodeEvent "d" node (some node.labels))).hasLabel
      spec.primaryLabel = decide (spec.primaryLabel ∈ node.labels) := by
    rw [EventMeta.hasLabel, contains_eq_mem, decide_eq_decide, mem_labels_extract]
    simp [nodeEvent]
  simp only [noted, Affected.note, known]
  split
  · rename_i unnamed
    simp [nodeEvent, EventMeta.extract] at unnamed
  · rename_i elementId isElement
    have isId : node.id.val = elementId := by
      simpa [nodeEvent, EventMeta.extract] using isElement
    simp [EventMeta.isNodeDelete, EventMeta.extract, nodeEvent, apply_ite Affected.deletes, isId]

theorem mem_note_relationshipEvent {id : String} :
    id ∈ (noted spec hot (relationshipEvent operation rel)).recompose ↔ id = rel.id ∨
      (hot.keepEndpoints (some rel.type) (some rel.start.val) (some rel.stop.val)).1 ∧
        id = rel.start ∨
      (hot.keepEndpoints (some rel.type) (some rel.start.val) (some rel.stop.val)).2 ∧
        id = rel.stop := by
  rcases isKeep : hot.keepEndpoints (some rel.type) (some rel.start.val) (some rel.stop.val) with
    ⟨keepStart, keepEnd⟩
  cases keepStart <;> cases keepEnd <;>
    simp [noted, Affected.note, relationshipEvent, EventMeta.extract, EventMeta.isNodeDelete, isKeep]

theorem deletes_note_relationshipEvent :
    (noted spec hot (relationshipEvent operation rel)).deletes = ∅ := by
  simp [noted, Affected.note, relationshipEvent, EventMeta.extract, EventMeta.isNodeDelete]

end

structure Neo4jCdcConfig where
  recomposeChunk : Nat
  recomposeConcurrency : Nat
  batchSize : Int

/-- The graphs that the queries of one poll read, in the order of the queries. -/
structure Reads (π : Type) where
  selector : Nat → Graph π
  projection : Nat → Graph π

/-- What is sent: a tombstone or a document, with the transaction id it is stamped with. -/
inductive Output (δ : Type) where
  | delete (elementId : String) (txId : Nat)
  | document (elementId : ElementId) (doc : δ) (txId : Option Nat)

def DenormalizeSpec.docId (spec : DenormalizeSpec π δ) (elementId : String) : String :=
  spec.outputTable ++ ":" ++ elementId

/-- Cut a list into chunks, the first of which is begun already. -/
def chunksFrom {α : Type} (size : Nat) : List α → List α → List (List α)
  | [], chunk => if chunk.isEmpty then [] else [chunk]
  | item :: rest, chunk =>
    if size ≤ chunk.length + 1 then (chunk ++ [item]) :: chunksFrom size rest []
    else chunksFrom size rest (chunk ++ [item])

def chunks {α : Type} (size : Nat) (items : List α) : List (List α) := chunksFrom size items []

inductive FanOutDedupAction where
  | duplicate
  | accept
  | rollover

def classify (capacity : Nat) (seen : List ElementId) (primaryEid : ElementId) :
    FanOutDedupAction :=
  if primaryEid ∈ seen then .duplicate
  else if capacity ≤ seen.length then .rollover
  else .accept

/-- The selected primaries on their way into chunks, with those seen in this generation. -/
structure FanOut where
  seen : List ElementId
  projectionChunk : List ElementId
  submitted : List (List ElementId)

namespace FanOut

def submit (fanOut : FanOut) : FanOut :=
  if fanOut.projectionChunk.isEmpty then fanOut
  else
    { fanOut with
      projectionChunk := []
      submitted := fanOut.submitted ++ [fanOut.projectionChunk] }

def push (chunkSize : Nat) (fanOut : FanOut) (primaryEid : ElementId) : FanOut :=
  let pushed := { fanOut with projectionChunk := fanOut.projectionChunk ++ [primaryEid] }
  if chunkSize ≤ pushed.projectionChunk.length then pushed.submit else pushed

/-- One row of the selector. Before the generation ends, what it has admitted is submitted. -/
def accept (chunkSize capacity : Nat) (fanOut : FanOut) (primaryEid : ElementId) : FanOut :=
  match classify capacity fanOut.seen primaryEid with
  | .duplicate => fanOut
  | .accept => push chunkSize { fanOut with seen := primaryEid :: fanOut.seen } primaryEid
  | .rollover => push chunkSize { fanOut.submit with seen := [primaryEid] } primaryEid

end FanOut

section

variable (spec) (hot : SpecHotEndpoints) (cfg : Neo4jCdcConfig)

/-- The rows of the body for the primaries among some ids. -/
def recomposePrimaryChunk (graph : Graph π) (primaryEids : List ElementId) :
    List (ElementId × δ) :=
  (graph.nodes.filter fun node => spec.primaryLabel ∈ node.labels ∧ node.id ∈ primaryEids).map
    fun node => (node.id, spec.compose graph node.id)

/-- Select the affected primaries chunk by chunk of the anchors, and compose them chunk by
    chunk. -/
def streamAffectedPrimaries (reads : Reads π) (anchorEids : List String) :
    List (ElementId × δ) :=
  let chunkSize := max cfg.recomposeChunk 1
  let capacity := max (chunkSize * max cfg.recomposeConcurrency 1 * 8) 1
  let selected := (chunks chunkSize anchorEids).zipIdx.flatMap fun anchors =>
    selectPrimaries spec (reads.selector anchors.2) anchors.1
  let fanOut := (selected.foldl (FanOut.accept chunkSize capacity) ⟨[], [], []⟩).submit
  fanOut.submitted.zipIdx.flatMap fun ids =>
    recomposePrimaryChunk spec (reads.projection ids.2) ids.1

/-- The elements that the events of a poll anchor its selection at. -/
abbrev anchorEids (evs : List ChangeEvent) : List String :=
  (affectedBy spec hot evs).recompose.sort (· ≤ ·)

/-- The events of a poll are stamped with its last transaction. -/
def batchTxId (evs : List (ChangeEvent × Nat)) : Nat := (evs.getLast?.map Prod.snd).getD 0

/-- One poll of one spec; the specs are handled in turn. The tombstones are sent first, and then
    the documents in the order in which the concurrent queries return them. -/
def handleTailEvents (evs : List (ChangeEvent × Nat)) (documents : List (ElementId × δ)) :
    List (Output δ) :=
  ((affectedBy spec hot (evs.map Prod.fst)).deletes.sort (· ≤ ·)).map
    (fun elementId => .delete elementId (batchTxId evs)) ++
  documents.map fun row => .document row.1 row.2 (some (batchTxId evs))

/-- The documents of a poll, with its queries one after another. -/
def tailDocuments (reads : Reads π) (evs : List (ChangeEvent × Nat)) : List (ElementId × δ) :=
  streamAffectedPrimaries spec cfg reads (anchorEids spec hot (evs.map Prod.fst))

/-- The scan of the primaries: one query for their ids, and one for each page of them. -/
def bootstrapOne (keys : Graph π) (bodies : Nat → Graph π) : List (Output δ) :=
  let primaries := (keys.nodes.filter fun node => spec.primaryLabel ∈ node.labels).map Node.id
  let pages := if cfg.batchSize ≤ 0 then [] else chunks cfg.batchSize.toNat primaries
  pages.zipIdx.flatMap fun page =>
    (recomposePrimaryChunk spec (bodies page.2) page.1).map fun row =>
      .document row.1 row.2 none

end

variable {id : ElementId}

theorem mem_chunksFrom {α : Type} {items chunk : List α} {item : α} :
    (∃ part ∈ chunksFrom size items chunk, item ∈ part) ↔ item ∈ chunk ∨ item ∈ items := by
  induction items generalizing chunk with
  | nil =>
    rw [chunksFrom]
    split
    · rename_i isEmpty
      simp [isEmpty_iff.mp isEmpty]
    · simp
  | cons head rest ih =>
    rw [chunksFrom]
    split
    · rw [exists_mem_cons_iff, ih]
      simp [or_assoc]
    · rw [ih]
      simp [or_assoc]

theorem mem_chunks {α : Type} (size : Nat) {items : List α} {item : α} :
    (∃ part ∈ chunks size items, item ∈ part) ↔ item ∈ items := by
  rw [chunks, mem_chunksFrom]
  simp

namespace FanOut

variable {chunkSize capacity : Nat} {fanOut : FanOut} {primaryEid : ElementId}

/-- What is admitted, whether submitted or not. -/
def Holds (fanOut : FanOut) (id : ElementId) : Prop :=
  id ∈ fanOut.projectionChunk ∨ id ∈ fanOut.submitted.flatten

theorem holds_submit : fanOut.submit.Holds id ↔ fanOut.Holds id := by
  rw [submit]
  split
  · rfl
  · simp [Holds, or_comm]

theorem mem_submitted_submit : id ∈ fanOut.submit.submitted.flatten ↔ fanOut.Holds id := by
  rw [submit]
  split
  · rename_i isEmpty
    simp [Holds, isEmpty_iff.mp isEmpty]
  · simp [Holds, or_comm]

theorem seen_submit : fanOut.submit.seen = fanOut.seen := by
  rw [submit]
  split <;> rfl

theorem seen_push : (fanOut.push chunkSize primaryEid).seen = fanOut.seen := by
  simp only [push]
  split
  · rw [seen_submit]
  · rfl

theorem holds_push : (fanOut.push chunkSize primaryEid).Holds id ↔
    fanOut.Holds id ∨ id = primaryEid := by
  have pushed : ({ fanOut with
      projectionChunk := fanOut.projectionChunk ++ [primaryEid] } : FanOut).Holds id ↔
      fanOut.Holds id ∨ id = primaryEid := by
    simp only [Holds, mem_append, mem_singleton]
    tauto
  simp only [push]
  split
  · rw [holds_submit, pushed]
  · exact pushed

theorem holds_admit (known : ∀ id ∈ fanOut.seen, fanOut.Holds id) (primaryEid : ElementId) :
    (∀ id, (fanOut.accept chunkSize capacity primaryEid).Holds id ↔
      fanOut.Holds id ∨ id = primaryEid) ∧
    ∀ id ∈ (fanOut.accept chunkSize capacity primaryEid).seen,
      (fanOut.accept chunkSize capacity primaryEid).Holds id := by
  rw [accept, classify]
  split_ifs with isSeen isFull
  · refine ⟨fun id => ⟨.inl, ?_⟩, known⟩
    rintro (isHeld | rfl)
    · exact isHeld
    · exact known _ isSeen
  · refine ⟨fun id => holds_push.trans (or_congr_left holds_submit), fun id isId => ?_⟩
    rw [seen_push, mem_singleton] at isId
    exact holds_push.mpr (.inr isId)
  · simp only
    refine ⟨fun id => holds_push, fun id isId => ?_⟩
    rw [seen_push, mem_cons] at isId
    rcases isId with rfl | isOld
    · exact holds_push.mpr (.inr rfl)
    · exact holds_push.mpr (.inl (known id isOld))

theorem holds_foldl_admit {selected : List ElementId}
    (known : ∀ id ∈ fanOut.seen, fanOut.Holds id) :
    (selected.foldl (accept chunkSize capacity) fanOut).Holds id ↔
      fanOut.Holds id ∨ id ∈ selected := by
  induction selected generalizing fanOut with
  | nil => simp
  | cons head rest ih =>
    obtain ⟨holds, knownNext⟩ := holds_admit known head
    rw [foldl_cons, ih knownNext, holds, mem_cons, or_assoc]

end FanOut

section

variable {cfg : Neo4jCdcConfig} {reads : Reads π} {anchorEids : List String}

def IsPrimary (spec : DenormalizeSpec π δ) (graph : Graph π) (id : ElementId) : Prop :=
  ∃ node ∈ graph.nodes, node.id = id ∧ spec.primaryLabel ∈ node.labels

theorem mem_recomposePrimaryChunk :
    (∃ doc, (id, doc) ∈ recomposePrimaryChunk spec graph primaryEids) ↔
      IsPrimary spec graph id ∧ id ∈ primaryEids := by
  simp only [recomposePrimaryChunk, mem_map, mem_filter, decide_eq_true_eq,
    Prod.mk.injEq, IsPrimary]
  constructor
  · rintro ⟨_, node, ⟨isNode, labelled, isId⟩, rfl, _⟩
    exact ⟨⟨node, isNode, rfl, labelled⟩, isId⟩
  · rintro ⟨⟨node, isNode, rfl, labelled⟩, isId⟩
    exact ⟨_, node, ⟨isNode, labelled, isId⟩, rfl, rfl⟩

theorem selected_of_mem (isPrimary : IsPrimary spec graph id)
    (isAnchor : id.val ∈ eids) : id ∈ selectPrimaries spec graph eids := by
  obtain ⟨node, isNode, rfl, labelled⟩ := isPrimary
  refine mem_map.mpr ⟨node, mem_filter.mpr ⟨isNode, ?_⟩, rfl⟩
  rw [decide_eq_true_eq]
  exact ⟨labelled, [], mem_cons_self, [], mem_trails_nil.mpr rfl, isAnchor⟩

theorem mem_flatMap_zipIdx {α β : Type} {parts : List α} {rows : α × Nat → List β} {row : β} :
    row ∈ parts.zipIdx.flatMap rows ↔ ∃ place part, parts[place]? = some part ∧
      row ∈ rows (part, place) := by
  simp only [mem_flatMap, Prod.exists, mk_mem_zipIdx_iff_getElem?]
  exact exists_comm

theorem FanOut.holds_selected {selected : List ElementId} (isSelected : id ∈ selected) :
    id ∈ (selected.foldl (FanOut.accept chunkSize capacity)
      ⟨[], [], []⟩).submit.submitted.flatten := by
  rw [FanOut.mem_submitted_submit, FanOut.holds_foldl_admit (by simp)]
  exact .inr isSelected

theorem streamed_of_anchor (isAnchor : id.val ∈ anchorEids)
    (selects : ∀ query, IsPrimary spec (reads.selector query) id)
    (projects : ∀ query, IsPrimary spec (reads.projection query) id) :
    ∃ doc, (id, doc) ∈ streamAffectedPrimaries spec cfg reads anchorEids := by
  simp only [streamAffectedPrimaries, mem_flatMap_zipIdx]
  obtain ⟨anchors, isChunk, isIn⟩ := (mem_chunks (max cfg.recomposeChunk 1)).mpr isAnchor
  obtain ⟨query, isQuery⟩ := getElem?_of_mem isChunk
  have isSelected : id ∈ (chunks (max cfg.recomposeChunk 1) anchorEids).zipIdx.flatMap
      fun anchors => selectPrimaries spec (reads.selector anchors.2) anchors.1 :=
    mem_flatMap_zipIdx.mpr ⟨query, anchors, isQuery, selected_of_mem (selects query) isIn⟩
  obtain ⟨part, isPart, isIn⟩ := mem_flatten.mp (FanOut.holds_selected isSelected)
  obtain ⟨place, isPlace⟩ := getElem?_of_mem isPart
  obtain ⟨doc, isRow⟩ := mem_recomposePrimaryChunk.mpr ⟨projects place, isIn⟩
  exact ⟨doc, place, part, isPlace, isRow⟩

theorem primary_of_streamed
    (isRow : (id, doc) ∈ streamAffectedPrimaries spec cfg reads anchorEids) :
    ∃ query, IsPrimary spec (reads.projection query) id := by
  simp only [streamAffectedPrimaries, mem_flatMap_zipIdx] at isRow
  obtain ⟨query, ids, _, isRow⟩ := isRow
  exact ⟨query, (mem_recomposePrimaryChunk.mp ⟨doc, isRow⟩).1⟩

end

end Ventstream.Neo4j
