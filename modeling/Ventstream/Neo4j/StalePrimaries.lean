import Ventstream.Neo4j.Recomposition

/-! # Documents of nodes that are no longer primaries

The tail removes a document when the node is deleted and at no other time. A node that
loses its primary label leaves its document behind. This says that nothing else
leaves a document behind or loses one, however the events are split into polls and
however late the graph is read.
-/

namespace Ventstream.Neo4j

open Library Library.PropertyGraph Function
open List hiding after count

variable {π δ : Type}

/-- The graph at the start of the scan and after each transaction. -/
structure History (π : Type) where
  state : Nat → Graph π
  count : Nat

/-- A change stream has the events of each transaction, with its number, in any order within
    the transaction. -/
structure History.IsStream [DecidableEq π] (history : History π)
    (stream : List (ChangeEvent × Nat)) : Prop where
  sound : ∀ ev txId, (ev, txId) ∈ stream → ∃ index < history.count, txId = index + 1 ∧
    ev ∈ changeEvents (history.state index) (history.state (index + 1))
  complete : ∀ index < history.count,
    ∀ ev ∈ changeEvents (history.state index) (history.state (index + 1)), (ev, index + 1) ∈ stream
  ordered : stream.Pairwise fun earlier later => earlier.2 ≤ later.2

/-- A graph that a query reads once a transaction has been committed. -/
def History.Shows (history : History π) (since : Nat) (graph : Graph π) : Prop :=
  ∃ index, since ≤ index ∧ index ≤ history.count ∧ graph = history.state index

/-- One poll: its events, the graphs that its queries read, and its documents in the order in
    which they are sent. -/
structure Poll (π δ : Type) where
  events : List (ChangeEvent × Nat)
  reads : Reads π
  documents : List (ElementId × δ)

/-- The scan and the polls after it. -/
structure Replay (π δ : Type) where
  keys : Graph π
  bodies : Nat → Graph π
  polls : List (Poll π δ)

/-- The scan reads the graph from its start on, and a poll reads it once its last transaction
    has been committed. -/
structure Replay.Legal [DecidableEq π] (replay : Replay π δ) (spec : DenormalizeSpec π δ)
    (hot : SpecHotEndpoints) (cfg : Neo4jCdcConfig) (history : History π) : Prop where
  keys : history.Shows 0 replay.keys
  bodies : ∀ query, history.Shows 0 (replay.bodies query)
  stream : history.IsStream (replay.polls.flatMap Poll.events)
  selector : ∀ poll ∈ replay.polls, ∀ query,
    history.Shows (batchTxId poll.events) (poll.reads.selector query)
  projection : ∀ poll ∈ replay.polls, ∀ query,
    history.Shows (batchTxId poll.events) (poll.reads.projection query)
  sent : ∀ poll ∈ replay.polls,
    poll.documents.Perm (tailDocuments spec hot cfg poll.reads poll.events)

def Replay.outputs (replay : Replay π δ) (spec : DenormalizeSpec π δ) (hot : SpecHotEndpoints)
    (cfg : Neo4jCdcConfig) : List (Output δ) :=
  bootstrapOne spec cfg replay.keys replay.bodies ++
    replay.polls.flatMap fun poll => handleTailEvents spec hot poll.events poll.documents

def store (spec : DenormalizeSpec π δ) (docs : String → Option δ) : Output δ → String → Option δ
  | .delete elementId _ => update docs (spec.docId elementId) none
  | .document elementId doc _ => update docs (spec.docId elementId) (some doc)

/-- The store holds a document for exactly the nodes with the primary label. -/
def Exact (spec : DenormalizeSpec π δ) (graph : Graph π) (docs : String → Option δ) : Prop :=
  ∀ docId, (docs docId).isSome ↔ ∃ id : ElementId, IsPrimary spec graph id ∧ docId = spec.docId id

/-- A node that stops being a primary for good does so by being deleted. -/
def LeavesByDeletion (spec : DenormalizeSpec π δ) (history : History π) : Prop :=
  ∀ id : ElementId, ∀ index < history.count, IsPrimary spec (history.state index) id →
    (∀ later, index < later → later ≤ history.count → ¬ IsPrimary spec (history.state later) id) →
    id ∉ (history.state (index + 1)).nodes.map Node.id

variable {spec : DenormalizeSpec π δ} {output : Output δ}

section

variable {docs : String → Option δ}

theorem docId_injective (spec : DenormalizeSpec π δ) : Function.Injective spec.docId := by
  intro first second same
  simpa [DenormalizeSpec.docId] using same

def Output.Removes (spec : DenormalizeSpec π δ) (docId : String) (output : Output δ) : Prop :=
  ∃ elementId txId, output = .delete elementId txId ∧ spec.docId elementId = docId

def Output.Writes (spec : DenormalizeSpec π δ) (docId : String) (output : Output δ) : Prop :=
  ∃ elementId doc txId, output = .document elementId doc txId ∧ spec.docId elementId = docId

variable {outputs : List (Output δ)}

theorem store_keeps {p : Option δ → Prop} (holds : p (docs docId))
    (removed : ∀ output ∈ outputs, output.Removes spec docId → p none)
    (written : ∀ output ∈ outputs, output.Writes spec docId → ∀ doc, p (some doc)) :
    p (outputs.foldl (store spec) docs docId) := by
  induction outputs generalizing docs with
  | nil => exact holds
  | cons output rest ih =>
    refine ih ?_ (fun later isLater => removed later (mem_cons_of_mem _ isLater))
      fun later isLater => written later (mem_cons_of_mem _ isLater)
    cases output with
    | delete elementId txId =>
      rw [store]
      by_cases same : docId = spec.docId elementId
      · rw [same, update_self]
        exact removed _ mem_cons_self ⟨elementId, txId, rfl, same.symm⟩
      · rwa [update_of_ne same]
    | document elementId doc txId =>
      rw [store]
      by_cases same : docId = spec.docId elementId
      · rw [same, update_self]
        exact written _ mem_cons_self ⟨elementId, doc, txId, rfl, same.symm⟩ doc
      · rwa [update_of_ne same]

theorem store_absent (absent : docs docId = none)
    (unwritten : ∀ output ∈ outputs, ¬ output.Writes spec docId) :
    outputs.foldl (store spec) docs docId = none :=
  store_keeps (p := (· = none)) absent (fun _ _ _ => rfl)
    fun output isOutput writes => absurd writes (unwritten output isOutput)

theorem store_written (writes : output.Writes spec docId)
    (kept : ∀ later ∈ back, ¬ later.Removes spec docId) :
    ((front ++ output :: back).foldl (store spec) docs docId).isSome := by
  obtain ⟨elementId, doc, txId, rfl, rfl⟩ := writes
  rw [foldl_append, foldl_cons]
  exact store_keeps (p := (·.isSome)) (by simp [store])
    (fun later isLater removes => absurd removes (kept later isLater)) fun _ _ _ _ => rfl

theorem store_removed (removes : output.Removes spec docId)
    (unwritten : ∀ later ∈ back, ¬ later.Writes spec docId) :
    (front ++ output :: back).foldl (store spec) docs docId = none := by
  obtain ⟨elementId, txId, rfl, rfl⟩ := removes
  rw [foldl_append, foldl_cons]
  exact store_absent (by simp [store]) unwritten

end

variable {hot : SpecHotEndpoints} {id : ElementId}

section

variable [DecidableEq π] {before after : Graph π}

theorem tombstone_of_deletion (isPrimary : IsPrimary spec before id)
    (gone : id ∉ after.nodes.map Node.id) :
    ∃ ev ∈ changeEvents before after, id.val ∈ (noted spec hot ev).deletes := by
  obtain ⟨node, isNode, rfl, labelled⟩ := isPrimary
  refine ⟨_, mem_append_left _ ((mem_differences after.distinctNodes).mpr
    (.inl ⟨node, isNode, gone, rfl⟩)), ?_⟩
  simp [deletes_note_deletion, labelled]

theorem deletion_of_tombstone (isEvent : ev ∈ changeEvents before after)
    (isTombstone : id.val ∈ (noted spec hot ev).deletes) :
    IsPrimary spec before id ∧ id ∉ after.nodes.map Node.id := by
  rcases mem_append.mp isEvent with isNode | isRel
  · rcases (mem_differences after.distinctNodes).mp isNode with
      ⟨node, wasNode, gone, rfl⟩ | ⟨node, _, later, _, _, _, rfl⟩ | ⟨node, _, _, rfl⟩
    · rw [deletes_note_deletion] at isTombstone
      split at isTombstone
      · rename_i labelled
        obtain rfl : id = node.id := Subtype.ext (Finset.mem_singleton.mp isTombstone)
        exact ⟨⟨node, wasNode, rfl, labelled⟩, gone⟩
      · cases Finset.notMem_empty _ isTombstone
    · rw [note_nodeEvent (by decide)] at isTombstone
      cases Finset.notMem_empty _ isTombstone
    · rw [note_nodeEvent (by decide)] at isTombstone
      cases Finset.notMem_empty _ isTombstone
  · rcases (mem_differences after.distinctRels).mp isRel with
      ⟨rel, _, _, rfl⟩ | ⟨rel, _, later, _, _, _, rfl⟩ | ⟨rel, _, _, rfl⟩
    all_goals
      rw [deletes_note_relationshipEvent] at isTombstone
      cases Finset.notMem_empty _ isTombstone

theorem anchor_of_gain (isPrimary : IsPrimary spec after id) (isNew : ¬ IsPrimary spec before id) :
    ∃ ev ∈ changeEvents before after, id.val ∈ (noted spec hot ev).recompose := by
  obtain ⟨node, isNode, rfl, labelled⟩ := isPrimary
  obtain ⟨ev, isEvent, isNamed⟩ : ∃ ev ∈ changeEvents before after,
      (noted spec hot ev).recompose = {node.id.val} :=
    event_of_node (List.Perm.refl _)
      (.inr ⟨isNode, fun wasNode => isNew ⟨node, wasNode, rfl, labelled⟩⟩)
      (mem_map_of_mem isNode)
  exact ⟨ev, isEvent, by rw [isNamed, Finset.mem_singleton]⟩

end

variable {cfg : Neo4jCdcConfig}

section

variable {keys : Graph π}

theorem bootstrap_writes (isOutput : output ∈ bootstrapOne spec cfg keys bodies) :
    ¬ output.Removes spec docId ∧ (output.Writes spec docId →
      ∃ id : ElementId, docId = spec.docId id ∧ ∃ query, IsPrimary spec (bodies query) id) := by
  simp only [bootstrapOne, mem_flatMap_zipIdx, mem_map] at isOutput
  obtain ⟨query, page, _, ⟨elementId, doc⟩, isRow, rfl⟩ := isOutput
  constructor
  · rintro ⟨_, _, impossible, _⟩
    cases impossible
  · rintro ⟨_, _, _, same, rfl⟩
    cases same
    exact ⟨elementId, rfl, query, (mem_recomposePrimaryChunk.mp ⟨doc, isRow⟩).1⟩

theorem bootstrapped (positive : 0 < cfg.batchSize) (isKey : IsPrimary spec keys id)
    (isBody : ∀ query, IsPrimary spec (bodies query) id) :
    ∃ doc, .document id doc none ∈ bootstrapOne spec cfg keys bodies := by
  have isPrimary : id ∈ (keys.nodes.filter fun node => spec.primaryLabel ∈ node.labels).map
      Node.id := by
    obtain ⟨node, isNode, rfl, labelled⟩ := isKey
    exact mem_map_of_mem (mem_filter.mpr ⟨isNode, by simpa using labelled⟩)
  obtain ⟨page, isPage, isIn⟩ := (mem_chunks cfg.batchSize.toNat).mpr isPrimary
  obtain ⟨query, isQuery⟩ := getElem?_of_mem isPage
  obtain ⟨doc, isRow⟩ := mem_recomposePrimaryChunk.mpr ⟨isBody query, isIn⟩
  refine ⟨doc, ?_⟩
  simp only [bootstrapOne, if_neg (Int.not_le.mpr positive), mem_flatMap_zipIdx, mem_map]
  exact ⟨query, page, isQuery, (id, doc), isRow, rfl⟩

theorem Replay.outputs_split {replay : Replay π δ} (isSplit : replay.polls = front ++ poll :: back)
    (isOutput : handleTailEvents spec hot poll.events poll.documents = before ++ output :: after) :
    replay.outputs spec hot cfg = (bootstrapOne spec cfg replay.keys replay.bodies ++
        front.flatMap (fun poll => handleTailEvents spec hot poll.events poll.documents) ++
        before) ++ output :: (after ++
        back.flatMap fun poll => handleTailEvents spec hot poll.events poll.documents) := by
  simp [Replay.outputs, isSplit, isOutput]

/-- A primary has been one without a break since the start or since a transaction. -/
theorem History.since {history : History π} (isPrimary : IsPrimary spec (history.state index) id) :
    ∃ since ≤ index, (∀ state, since ≤ state → state ≤ index →
      IsPrimary spec (history.state state) id) ∧
      ∀ earlier, since = earlier + 1 → ¬ IsPrimary spec (history.state earlier) id := by
  induction index with
  | zero =>
    refine ⟨0, Nat.le_refl 0, fun state _ isZero => ?_, fun earlier impossible => ?_⟩
    · rwa [Nat.le_zero.mp isZero]
    · cases impossible
  | succ index ih =>
    by_cases wasPrimary : IsPrimary spec (history.state index) id
    · obtain ⟨since, within, always, begins⟩ := ih wasPrimary
      refine ⟨since, Nat.le_succ_of_le within, fun state isAfter isBefore => ?_, begins⟩
      rcases Nat.le_succ_iff.mp isBefore with isEarlier | rfl
      · exact always state isAfter isEarlier
      · exact isPrimary
    · refine ⟨index + 1, le_rfl, fun state isAfter isBefore => ?_, ?_⟩
      · rwa [Nat.le_antisymm isBefore isAfter]
      · intro earlier same
        rwa [← Nat.succ.inj same]

/-- A node that was a primary has been one for the last time. -/
theorem History.last {history : History π} (within : index ≤ history.count)
    (isPrimary : IsPrimary spec (history.state index) id) :
    ∃ last ≤ history.count, IsPrimary spec (history.state last) id ∧
      ∀ later, last < later → later ≤ history.count →
        ¬ IsPrimary spec (history.state later) id := by
  classical
  let primary (index : Nat) : Prop := IsPrimary spec (history.state index) id
  exact ⟨Nat.findGreatest primary history.count, Nat.findGreatest_le _,
    Nat.findGreatest_spec (P := primary) within isPrimary,
    fun _ isLater isWithin => Nat.findGreatest_is_greatest isLater isWithin⟩

end

section

variable [DecidableEq π] {history : History π} {replay : Replay π δ}

theorem le_batchTxId (ordered : evs.Pairwise fun earlier later => earlier.2 ≤ later.2)
    (isEvent : ev ∈ evs) : ev.2 ≤ batchTxId evs := by
  rw [batchTxId]
  rcases eq_nil_or_concat evs with rfl | ⟨front, last, rfl⟩
  · cases isEvent
  · rw [concat_eq_append] at ordered isEvent ⊢
    rw [getLast?_concat, Option.map_some, Option.getD_some]
    rcases mem_append.mp isEvent with isEarlier | isLast
    · exact (pairwise_append.mp ordered).2.2 ev isEarlier last mem_cons_self
    · exact le_of_eq (congrArg Prod.snd (mem_singleton.mp isLast))

variable (legal : replay.Legal spec hot cfg history)
include legal

section

variable {poll : Poll π δ} (isPoll : poll ∈ replay.polls)
include isPoll

theorem Replay.Legal.ordered : poll.events.Pairwise fun earlier later => earlier.2 ≤ later.2 := by
  have ordered := legal.stream.ordered
  rw [flatMap_def] at ordered
  exact ordered.sublist (sublist_flatten_of_mem (mem_map_of_mem isPoll))

variable (isOutput : output ∈ handleTailEvents spec hot poll.events poll.documents)
include isOutput

theorem Replay.Legal.removes (removes : output.Removes spec (spec.docId id)) :
    ∃ index < history.count, (∃ ev, (ev, index + 1) ∈ poll.events) ∧
      IsPrimary spec (history.state index) id ∧
      id ∉ (history.state (index + 1)).nodes.map Node.id := by
  obtain ⟨elementId, txId, rfl, same⟩ := removes
  obtain rfl := docId_injective spec same
  rcases mem_append.mp isOutput with isDelete | isDocument
  · obtain ⟨_, isTombstone, isSame⟩ := mem_map.mp isDelete
    cases isSame
    rw [Finset.mem_sort, (mem_affectedBy spec hot _ _).2] at isTombstone
    obtain ⟨ev, isMapped, isTombstone⟩ := isTombstone
    obtain ⟨⟨_, number⟩, isEvent, rfl⟩ := mem_map.mp isMapped
    obtain ⟨index, within, rfl, isChange⟩ :=
      legal.stream.sound _ _ (mem_flatMap.mpr ⟨poll, isPoll, isEvent⟩)
    exact ⟨index, within, ⟨_, isEvent⟩, deletion_of_tombstone isChange isTombstone⟩
  · simp at isDocument

theorem Replay.Legal.writes (writes : output.Writes spec docId) :
    ∃ id : ElementId, docId = spec.docId id ∧ ∃ index ≤ history.count,
      IsPrimary spec (history.state index) id ∧ poll.events ≠ [] ∧
      ∀ ev ∈ poll.events, ev.2 ≤ index := by
  obtain ⟨elementId, doc, txId, rfl, rfl⟩ := writes
  rcases mem_append.mp isOutput with isDelete | isDocument
  · simp at isDelete
  · obtain ⟨⟨_, _⟩, isRow, isSame⟩ := mem_map.mp isDocument
    cases isSame
    rw [(legal.sent poll isPoll).mem_iff, tailDocuments] at isRow
    obtain ⟨query, isPrimary⟩ := primary_of_streamed isRow
    obtain ⟨index, since, within, isState⟩ := legal.projection poll isPoll query
    refine ⟨_, rfl, index, within, isState ▸ isPrimary, ?_, fun ev isEvent =>
      le_trans (le_batchTxId (legal.ordered isPoll) isEvent) since⟩
    intro isEmpty
    simp [isEmpty, anchorEids, affectedBy, streamAffectedPrimaries, chunks, chunksFrom,
      FanOut.submit] at isRow

end

theorem Replay.Legal.split (isEvent : (ev, txId) ∈ replay.polls.flatMap Poll.events) :
    ∃ front poll back, replay.polls = front ++ poll :: back ∧ (ev, txId) ∈ poll.events ∧
      ∀ later ∈ back, ∀ other ∈ later.events, txId ≤ other.2 := by
  obtain ⟨poll, isPoll, isIn⟩ := mem_flatMap.mp isEvent
  obtain ⟨front, back, isSplit⟩ := append_of_mem isPoll
  refine ⟨front, poll, back, isSplit, isIn, fun later isLater other isOther => ?_⟩
  have ordered := legal.stream.ordered
  rw [isSplit, flatMap_append, flatMap_cons, pairwise_append, pairwise_append] at ordered
  exact ordered.2.1.2.2 _ isIn _ (mem_flatMap.mpr ⟨later, isLater, isOther⟩)

/-- The document of a primary stays from when the queries see it on, as long as the node is not
    deleted. -/
theorem Replay.Legal.present (positive : 0 < cfg.batchSize) (within : since ≤ history.count)
    (isPrimary : IsPrimary spec (history.state since) id)
    (begins : ∀ earlier, since = earlier + 1 → ¬ IsPrimary spec (history.state earlier) id)
    (scanned : since = 0 → IsPrimary spec replay.keys id ∧
      ∀ query, IsPrimary spec (replay.bodies query) id)
    (polled : ∀ poll ∈ replay.polls, ∀ ev, (ev, since) ∈ poll.events → ∀ query,
      IsPrimary spec (poll.reads.selector query) id ∧
        IsPrimary spec (poll.reads.projection query) id)
    (survives : ∀ index < history.count, since ≤ index + 1 →
      IsPrimary spec (history.state index) id →
      id ∈ (history.state (index + 1)).nodes.map Node.id) :
    ((replay.outputs spec hot cfg).foldl (store spec) (fun _ => none)
      (spec.docId id)).isSome := by
  cases since with
  | zero =>
    obtain ⟨isKey, isBody⟩ := scanned rfl
    obtain ⟨doc, isOutput⟩ := bootstrapped positive isKey isBody
    obtain ⟨front, back, isSplit⟩ := append_of_mem isOutput
    rw [Replay.outputs, isSplit, append_assoc, cons_append]
    refine store_written ⟨id, doc, none, rfl, rfl⟩ fun output isLater removes => ?_
    rcases mem_append.mp isLater with isScan | isTail
    · have isScanned : output ∈ bootstrapOne spec cfg replay.keys replay.bodies := by
        rw [isSplit]
        exact mem_append_right _ (mem_cons_of_mem _ isScan)
      exact (bootstrap_writes isScanned).1 removes
    · obtain ⟨poll, isPoll, isOutput⟩ := mem_flatMap.mp isTail
      obtain ⟨index, isIndex, _, wasPrimary, gone⟩ := legal.removes isPoll isOutput removes
      exact gone (survives index isIndex (Nat.zero_le _) wasPrimary)
  | succ earlier =>
    obtain ⟨ev, isChange, isAnchor⟩ : ∃ ev ∈ changeEvents (history.state earlier)
        (history.state (earlier + 1)),
        id.val ∈ (noted spec hot ev).recompose :=
      anchor_of_gain isPrimary (begins earlier rfl)
    obtain ⟨front, poll, back, isSplit, isIn, later⟩ :=
      legal.split (legal.stream.complete earlier within ev isChange)
    have isPoll : poll ∈ replay.polls := by simp [isSplit]
    have seen := polled poll isPoll ev isIn
    have isRecomposed : id.val ∈
        (affectedBy spec hot (poll.events.map Prod.fst)).recompose.sort (· ≤ ·) := by
      rw [Finset.mem_sort, (mem_affectedBy spec hot _ _).1]
      exact ⟨ev, mem_map_of_mem (f := Prod.fst) isIn, isAnchor⟩
    obtain ⟨doc, isRow⟩ : ∃ doc, (id, doc) ∈ tailDocuments spec hot cfg poll.reads poll.events :=
      streamed_of_anchor isRecomposed (fun query => (seen query).1) fun query => (seen query).2
    obtain ⟨sentBefore, sentAfter, isSent⟩ :=
      append_of_mem ((legal.sent poll isPoll).mem_iff.mpr isRow)
    -- Within the poll the tombstones stand before the documents.
    have isOutput : handleTailEvents spec hot poll.events poll.documents =
        (((affectedBy spec hot (poll.events.map Prod.fst)).deletes.sort (· ≤ ·)).map
          (fun elementId => .delete elementId (batchTxId poll.events)) ++
          sentBefore.map fun row => .document row.1 row.2 (some (batchTxId poll.events))) ++
        .document id doc (some (batchTxId poll.events)) ::
          sentAfter.map fun row => .document row.1 row.2 (some (batchTxId poll.events)) := by
      simp [handleTailEvents, isSent]
    rw [Replay.outputs_split isSplit isOutput]
    refine store_written ⟨id, doc, _, rfl, rfl⟩ fun output isLater removes => ?_
    rcases mem_append.mp isLater with isDocument | isTail
    · obtain ⟨row, _, rfl⟩ := mem_map.mp isDocument
      obtain ⟨_, _, impossible, _⟩ := removes
      cases impossible
    · obtain ⟨next, isNext, isOutput⟩ := mem_flatMap.mp isTail
      have isPoll : next ∈ replay.polls := by simp [isSplit, isNext]
      obtain ⟨index, isIndex, ⟨_, isEvent⟩, wasPrimary, gone⟩ :=
        legal.removes isPoll isOutput removes
      exact gone (survives index isIndex (later next isNext _ isEvent) wasPrimary)

theorem Replay.Legal.absent (isIndex : index < history.count)
    (wasPrimary : IsPrimary spec (history.state index) id)
    (never : ∀ later, index < later → later ≤ history.count →
      ¬ IsPrimary spec (history.state later) id)
    (gone : id ∉ (history.state (index + 1)).nodes.map Node.id) :
    (replay.outputs spec hot cfg).foldl (store spec) (fun _ => none) (spec.docId id) = none := by
  obtain ⟨ev, isChange, isTombstone⟩ : ∃ ev ∈ changeEvents (history.state index)
      (history.state (index + 1)), id.val ∈ (noted spec hot ev).deletes :=
    tombstone_of_deletion wasPrimary gone
  obtain ⟨front, poll, back, isSplit, isIn, later⟩ :=
    legal.split (legal.stream.complete index isIndex ev isChange)
  have isPoll : poll ∈ replay.polls := by simp [isSplit]
  have isDeleted : id.val ∈
      (affectedBy spec hot (poll.events.map Prod.fst)).deletes.sort (· ≤ ·) := by
    rw [Finset.mem_sort, (mem_affectedBy spec hot _ _).2]
    exact ⟨ev, mem_map_of_mem (f := Prod.fst) isIn, isTombstone⟩
  obtain ⟨deletedBefore, deletedAfter, isDeletes⟩ := append_of_mem isDeleted
  have isOutput : handleTailEvents spec hot poll.events poll.documents =
      deletedBefore.map (fun elementId => .delete elementId (batchTxId poll.events)) ++
      .delete id (batchTxId poll.events) ::
        (deletedAfter.map (fun elementId => .delete elementId (batchTxId poll.events)) ++
          poll.documents.map fun row => .document row.1 row.2 (some (batchTxId poll.events))) := by
    simp [handleTailEvents, isDeletes]
  -- A document of this poll or a later one would show the node as a primary afterwards.
  have unwritten {next : Poll π δ} (isNext : next ∈ replay.polls)
      (since : ∀ other ∈ next.events, index + 1 ≤ other.2 ∨ next = poll) {output : Output δ}
      (isSent : output ∈ handleTailEvents spec hot next.events next.documents) :
      ¬ output.Writes spec (spec.docId id) := by
    intro writes
    obtain ⟨other, same, state, isState, isPrimary, someEvent, seen⟩ :=
      legal.writes isNext isSent writes
    obtain rfl : id = other := Subtype.ext (docId_injective spec same)
    refine never state ?_ isState isPrimary
    obtain ⟨first, isFirst⟩ := exists_mem_of_ne_nil _ someEvent
    rcases since first isFirst with isLater | rfl
    · exact lt_of_lt_of_le isLater (seen first isFirst)
    · exact seen _ isIn
  rw [Replay.outputs_split isSplit isOutput]
  refine store_removed ⟨id, _, rfl, rfl⟩ fun output isLater => ?_
  rcases mem_append.mp isLater with isSent | isTail
  · refine unwritten isPoll (fun _ _ => Or.inr rfl) ?_
    rw [isOutput]
    exact mem_append_right _ (mem_cons_of_mem _ isSent)
  · obtain ⟨next, isNext, isSent⟩ := mem_flatMap.mp isTail
    exact unwritten (by simp [isSplit, isNext])
      (fun other isOther => Or.inl (later next isNext other isOther)) isSent

theorem Replay.Legal.unwritten
    (never : ∀ id : ElementId, docId = spec.docId id → ∀ index ≤ history.count,
      ¬ IsPrimary spec (history.state index) id) :
    (replay.outputs spec hot cfg).foldl (store spec) (fun _ => none) docId = none := by
  refine store_absent rfl fun output isOutput writes => ?_
  rcases mem_append.mp isOutput with isScan | isTail
  · obtain ⟨id, isId, query, isPrimary⟩ := (bootstrap_writes isScan).2 writes
    obtain ⟨index, _, within, isState⟩ := legal.bodies query
    exact never id isId index within (isState ▸ isPrimary)
  · obtain ⟨poll, isPoll, isSent⟩ := mem_flatMap.mp isTail
    obtain ⟨id, isId, index, within, isPrimary, _⟩ := legal.writes isPoll isSent writes
    exact never id isId index within isPrimary

theorem Replay.Legal.exact (positive : 0 < cfg.batchSize) (leaves : LeavesByDeletion spec history) :
    Exact spec (history.state history.count)
      ((replay.outputs spec hot cfg).foldl (store spec) fun _ => none) := by
  intro docId
  constructor
  · intro present
    by_contra none
    -- The last transaction after which the node was a primary decides.
    have removed : (replay.outputs spec hot cfg).foldl (store spec) (fun _ => .none) docId =
        .none := by
      by_cases ever : ∃ id : ElementId, docId = spec.docId id ∧ ∃ index ≤ history.count,
          IsPrimary spec (history.state index) id
      · obtain ⟨id, rfl, index, within, wasPrimary⟩ := ever
        obtain ⟨last, bound, isLast, never⟩ := History.last within wasPrimary
        have early : last < history.count := by
          refine Nat.lt_of_le_of_ne bound fun isEnd => none ⟨id, ?_, rfl⟩
          rwa [isEnd] at isLast
        exact legal.absent early isLast never (leaves id _ early isLast never)
      · refine legal.unwritten fun id isId index within isPrimary => ever ?_
        exact ⟨id, isId, index, within, isPrimary⟩
    rw [removed] at present
    cases present
  · rintro ⟨id, isPrimary, rfl⟩
    obtain ⟨since, within, always, begins⟩ := History.since isPrimary
    have seen {read : Graph π} {after : Nat} (isAfter : since ≤ after)
        (shows_ : history.Shows after read) : IsPrimary spec read id := by
      obtain ⟨index, isLater, isWithin, rfl⟩ := shows_
      exact always index (le_trans isAfter isLater) isWithin
    refine legal.present positive within (always since le_rfl within) begins ?_ ?_ ?_
    · rintro rfl
      exact ⟨seen (Nat.le_refl 0) legal.keys, fun query => seen (Nat.le_refl 0) (legal.bodies query)⟩
    · intro poll isPoll ev isEvent query
      have isAfter := le_batchTxId (legal.ordered isPoll) isEvent
      exact ⟨seen isAfter (legal.selector poll isPoll query),
        seen isAfter (legal.projection poll isPoll query)⟩
    · intro index isIndex isAfter _
      obtain ⟨node, isNode, isId, _⟩ := always (index + 1) isAfter isIndex
      exact isId ▸ mem_map_of_mem isNode

end

section

variable [DecidableEq π] (spec : DenormalizeSpec π δ) (hot : SpecHotEndpoints)
  (cfg : Neo4jCdcConfig) (history : History π)

/-- The change stream, transaction by transaction. -/
def History.stream : List (ChangeEvent × Nat) :=
  (range history.count).flatMap fun index =>
    (changeEvents (history.state index) (history.state (index + 1))).map (·, index + 1)

theorem History.isStream_stream : history.IsStream history.stream where
  sound ev txId isEvent := by
    obtain ⟨index, isIndex, isEvent⟩ := mem_flatMap.mp isEvent
    obtain ⟨_, isChange, same⟩ := mem_map.mp isEvent
    cases same
    exact ⟨index, mem_range.mp isIndex, rfl, isChange⟩
  complete index isIndex ev isChange :=
    mem_flatMap.mpr ⟨index, mem_range.mpr isIndex, mem_map_of_mem isChange⟩
  ordered := by
    refine pairwise_flatMap.mpr ⟨fun index _ => ?_, ?_⟩
    · exact pairwise_map.mpr (pairwise_of_forall fun _ _ => le_rfl)
    · refine (pairwise_lt_range).imp fun {first second} isLess => ?_
      intro earlier isEarlier later isLater
      obtain ⟨_, _, rfl⟩ := mem_map.mp isEarlier
      obtain ⟨_, _, rfl⟩ := mem_map.mp isLater
      exact le_of_lt (Nat.succ_lt_succ isLess)

/-- Every event in a poll of its own, and every query right after its transaction. -/
def promptReplay : Replay π δ where
  keys := history.state 0
  bodies _ := history.state 0
  polls := history.stream.map fun ev =>
    { events := [ev]
      reads := ⟨fun _ => history.state ev.2, fun _ => history.state ev.2⟩
      documents := tailDocuments spec hot cfg
        ⟨fun _ => history.state ev.2, fun _ => history.state ev.2⟩ [ev] }

theorem legal_promptReplay : (promptReplay spec hot cfg history).Legal spec hot cfg history := by
  have isStream : (promptReplay spec hot cfg history).polls.flatMap Poll.events =
      history.stream := by
    simp [promptReplay, flatMap_map]
  have within {ev : ChangeEvent × Nat} (isEvent : ev ∈ history.stream) : ev.2 ≤ history.count := by
    obtain ⟨index, isIndex, isTx, _⟩ := history.isStream_stream.sound _ _ isEvent
    omega
  refine ⟨⟨0, Nat.le_refl 0, Nat.zero_le _, rfl⟩, fun _ => ⟨0, Nat.le_refl 0, Nat.zero_le _, rfl⟩,
    isStream ▸ history.isStream_stream, ?_, ?_, ?_⟩
  · intro poll isPoll query
    obtain ⟨ev, isEvent, rfl⟩ := mem_map.mp isPoll
    exact ⟨ev.2, le_rfl, within isEvent, rfl⟩
  · intro poll isPoll query
    obtain ⟨ev, isEvent, rfl⟩ := mem_map.mp isPoll
    exact ⟨ev.2, le_rfl, within isEvent, rfl⟩
  · intro poll isPoll
    obtain ⟨ev, isEvent, rfl⟩ := mem_map.mp isPoll
    exact List.Perm.refl _

/-- A node that stops being a primary and lives on keeps its document. -/
theorem promptReplay_stale {spec : DenormalizeSpec π δ} {hot : SpecHotEndpoints}
    {cfg : Neo4jCdcConfig} {history : History π} (positive : 0 < cfg.batchSize) {id : ElementId}
    {index : Nat} (isIndex : index < history.count)
    (wasPrimary : IsPrimary spec (history.state index) id)
    (never : ∀ later, index < later → later ≤ history.count →
      ¬ IsPrimary spec (history.state later) id)
    (lives : id ∈ (history.state (index + 1)).nodes.map Node.id) :
    ¬ Exact spec (history.state history.count)
      (((promptReplay spec hot cfg history).outputs spec hot cfg).foldl (store spec)
        fun _ => none) := by
  intro exact
  obtain ⟨since, within, always, begins⟩ := History.since wasPrimary
  have isStart := always since le_rfl within
  have present := (legal_promptReplay spec hot cfg history).present positive
    (le_trans within (le_of_lt isIndex)) isStart begins ?_ ?_ ?_
  · obtain ⟨other, isPrimary, same⟩ := (exact _).mp present
    obtain rfl : id = other := Subtype.ext (docId_injective spec same)
    exact never history.count isIndex le_rfl isPrimary
  · rintro rfl
    exact ⟨isStart, fun _ => isStart⟩
  · intro poll isPoll ev isEvent query
    obtain ⟨single, _, rfl⟩ := mem_map.mp isPoll
    obtain rfl := mem_singleton.mp isEvent
    exact ⟨isStart, isStart⟩
  -- The node is there after every transaction up to the one by which it stops being a primary.
  · intro state isState isAfter isPrimary
    have isBefore : state ≤ index := by
      by_contra isLater
      exact never state (by omega) (by omega) isPrimary
    rcases Nat.lt_or_eq_of_le isBefore with isEarlier | rfl
    · obtain ⟨node, isNode, isId, _⟩ := always (state + 1) isAfter isEarlier
      exact isId ▸ mem_map_of_mem isNode
    · exact lives

end

/-- Once all events are handled the store holds a document for exactly the primaries, whatever
    the polls and the reads, exactly if every node that stops being a primary for good is
    deleted. -/
theorem documents_exact_iff {π δ : Type} [DecidableEq π] (spec : DenormalizeSpec π δ)
    (hot : SpecHotEndpoints) (config : Neo4jCdcConfig) (positive : 0 < config.batchSize)
    (history : History π) :
    (∀ replay : Replay π δ, replay.Legal spec hot config history →
      Exact spec (history.state history.count)
        ((replay.outputs spec hot config).foldl (store spec) fun _ => none)) ↔
    LeavesByDeletion spec history := by
  constructor
  · intro exact id index isIndex wasPrimary never lives
    exact promptReplay_stale positive isIndex wasPrimary never lives
      (exact _ (legal_promptReplay spec hot config history))
  · intro leaves replay legal
    exact legal.exact positive leaves

def settings : Neo4jCdcConfig := ⟨1000, 4, 2000⟩

def single (labels : List String) : Graph Unit :=
  ⟨[⟨⟨"a", (by decide : ¬"a" = "")⟩, labels, ()⟩], [], nodup_singleton _, nodup_nil, by simp⟩

def nobody : Graph Unit := ⟨[], [], nodup_nil, nodup_nil, by simp⟩

def personThen (after : Graph Unit) : History Unit where
  state index := if index = 0 then single ["Person"] else after
  count := 1

/-- A deleted person leaves no document behind. -/
theorem documents_exact_iff_deleted : 0 < settings.batchSize ∧ ∀ replay : Replay Unit Unit,
      replay.Legal (people []) .none settings (personThen nobody) →
      Exact (people []) nobody
        ((replay.outputs (people []) .none settings).foldl (store (people [])) fun _ => none) := by
  refine ⟨by decide, (documents_exact_iff (people []) .none settings (by decide) _).mpr ?_⟩
  intro id index isIndex _ _
  obtain rfl : index = 0 := Nat.lt_one_iff.mp isIndex
  exact not_mem_nil

/-- The label is taken off: the node is recomposed, but no query finds it, and the document
    stays. -/
theorem removed_label_keeps_document :
    ∃ replay : Replay Unit Unit, replay.Legal (people []) .none settings (personThen (single [])) ∧
      ¬ Exact (people []) (single [])
        ((replay.outputs (people []) .none settings).foldl (store (people [])) fun _ => none) := by
  have wasPrimary : IsPrimary (people []) ((personThen (single [])).state 0) ⟨"a", by decide⟩ :=
    ⟨_, mem_cons_self, rfl, by decide⟩
  refine ⟨_, legal_promptReplay (people []) .none settings (personThen (single [])),
    promptReplay_stale (by decide) (by decide) wasPrimary ?_ (by decide)⟩
  intro later isLater isWithin isPrimary
  obtain rfl : later = 1 := Nat.le_antisymm isWithin isLater
  obtain ⟨node, isNode, _, labelled⟩ := isPrimary
  obtain rfl := mem_singleton.mp isNode
  cases labelled

end Ventstream.Neo4j
