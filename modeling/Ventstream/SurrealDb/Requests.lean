import Ventstream.SurrealDb.Statements

/-! # What the runs of a batch hold

An event is accepted as a request or rejected as a whole. The runs of a batch hold the
operations of the accepted events and no others: those on documents in the order of the
events, and after them those on the edges of each spec in the order of the events.
-/

namespace Ventstream.SurrealDb

open Core Library Library.Runs List
open Json (Value Fields)

section

variable (cfg : Config)

/-- What an accepted event asks for. -/
inductive Request where
  | truncate (table : String)
  | delete (table : String) (rid : Value)
  | upsert (table : String) (oldRid : Option Value) (rid : Value) (document : Fields)

def Request.table : Request → String
  | .truncate table | .delete table _ | .upsert table .. => table

/-- The document of an upsert and its old id, once nothing speaks against them. -/
def checkedUpsert (ev : SinkEvent) (table docId : String) :
    Except String (Fields × Option String) := do
  let document ← buildDocument ev docId (lookupPaths cfg table)
  if cfg.batching.maxBytes < documentBytes ev docId then
    .error (oversized cfg (documentBytes ev docId))
  else
    let oldId ← relocatedFrom ev
    .ok (document, oldId)

def requestOf (ev : SinkEvent) : Except String Request := do
  let table ← resolveTable cfg ev
  if ev.endsWith "truncate" then .ok (.truncate table)
  else
    let docId ← requiredDocId ev
    let rid := routedRecordId cfg docId
    if ev.endsWith "delete" then .ok (.delete table rid)
    else
      let (document, oldId) ← checkedUpsert cfg ev table docId
      .ok (.upsert table (oldId.map (routedRecordId cfg)) rid document)

def Request.operations : Request → List (Call × Operation)
  | .truncate table => [(documentCall table .truncate, .truncate)]
  | .delete table rid => [(documentCall table .delete, .delete rid)]
  | .upsert table oldRid rid document =>
    (oldRid.map fun old => (documentCall table .delete, Operation.delete old)).toList ++
      [(documentCall table .upsert, .upsert rid document)]

def Request.edgeOps (spec : EdgeSpec) (request : Request) : List EdgeOp :=
  if cfg.routedFrom spec = request.table then
    match request with
    | .truncate _ => [.truncate]
    | .delete _ rid => [.delete rid]
    | .upsert _ oldRid rid document => (oldRid.map .delete).toList ++ [edgeOpOf rid document spec]
  else []

/-- An operation on an edge as one of a run. -/
def edgeOperation (spec : EdgeSpec) : EdgeOp → Call × Operation
  | .truncate => (edgeCall cfg spec .truncate, .truncate)
  | .delete eid => (edgeCall cfg spec .delete, .delete eid)
  | .apply eid a b => (edgeCall cfg spec (endTables cfg spec), .edgeApply eid a b)

def place (offset : Nat) (operation : Call × Operation) : Placed Call Operation :=
  ⟨operation.1, offset, operation.2⟩

def documentsAt (entry : SinkEvent × Nat) : List (Placed Call Operation) :=
  match requestOf cfg entry.1 with
  | .ok request => request.operations.map (place entry.2)
  | .error _ => []

def edgesAt (spec : EdgeSpec) (entry : SinkEvent × Nat) : List (Nat × EdgeOp) :=
  match requestOf cfg entry.1 with
  | .ok request => (request.edgeOps cfg spec).map (entry.2, ·)
  | .error _ => []

def refusalAt (entry : SinkEvent × Nat) : List (Nat × String) :=
  match requestOf cfg entry.1 with
  | .ok _ => []
  | .error error => [(entry.2, error)]

end

section

variable {cfg : Config} {translated : Translated}

/-- All runs are of documents. -/
def Unlaned (translated : Translated) : Prop :=
  ∀ run ∈ translated.runs, run.kind.lane = none ∧ run.kind.kind.isEdgeApply = false

/-- What going through events adds to the runs, the rejects and the edges. -/
structure Collected (cfg : Config) (entries : List (SinkEvent × Nat))
    (before after : Translated) : Prop where
  unlaned : Unlaned after
  runs : placed after.runs = placed before.runs ++ entries.flatMap (documentsAt cfg)
  rejects : after.rejects = before.rejects ++ entries.flatMap (refusalAt cfg)
  edges : after.edges = before.edges.map fun ctx =>
    { ctx with ops := ctx.ops ++ entries.flatMap (edgesAt cfg ctx.spec) }

variable {kind : RunKind}

@[simp] theorem runs_relate : (translated.relate cfg table offset op).runs = translated.runs := rfl

variable {ev : SinkEvent} {offset bytes : Nat} {table : String} {rid : Value}

/-- An event that is taken for a request with one operation on the edges of its table. -/
theorem collected_relate {after : Translated} {request : Request} (op : EdgeSpec → EdgeOp)
    (isRequest : requestOf cfg ev = .ok request)
    (ops : ∀ spec, cfg.routedFrom spec = request.table → request.edgeOps cfg spec = [op spec])
    (unlaned : Unlaned after)
    (runs : placed after.runs = placed translated.runs ++ request.operations.map (place offset))
    (rejects : after.rejects = translated.rejects)
    (edges : after.edges = (translated.relate cfg request.table offset op).edges) :
    Collected cfg [(ev, offset)] translated after where
  unlaned := unlaned
  runs := by simpa [documentsAt, isRequest] using runs
  rejects := by simpa [refusalAt, isRequest] using rejects
  edges := by
    rw [edges]
    refine map_congr_left fun ctx _ => ?_
    by_cases isFrom : cfg.routedFrom ctx.spec = request.table
    · simp [edgesAt, isRequest, ops ctx.spec isFrom, isFrom]
    · simp [edgesAt, isRequest, Request.edgeOps, isFrom]

section

variable (unlaned : Unlaned translated)
include unlaned

theorem Unlaned.push (notEdge : kind.isEdgeApply = false) :
    Unlaned (translated.push ⟨documentCall table kind, offset, operation⟩ bytes) := by
  intro run mem
  rcases kind_of_mem_push mem with ⟨earlier, isEarlier, same⟩ | same
  · rw [same]
    exact unlaned earlier isEarlier
  · rw [same]
    exact ⟨rfl, notEdge⟩

theorem Unlaned.add (notEdge : kind.isEdgeApply = false) :
    Unlaned (translated.add cfg ⟨documentCall table kind, offset, operation⟩ bytes) := by
  intro run mem
  unfold Translated.add at mem
  dsimp only at mem
  rcases kind_of_mem_add mem with ⟨earlier, isEarlier, same⟩ | same
  · rw [same]
    exact unlaned earlier isEarlier
  · rw [same]
    exact ⟨rfl, notEdge⟩

theorem Unlaned.placed_add :
    placed (translated.add cfg ⟨documentCall table kind, offset, operation⟩ bytes).runs =
      placed translated.runs ++ [⟨documentCall table kind, offset, operation⟩] := by
  unfold Translated.add
  dsimp only
  apply Runs.placed_add
  intro run mem joins
  obtain ⟨isTable, isKind⟩ := (Bool.and_eq_true _ _).mp joins
  exact Call.ext (eq_of_beq isTable) (unlaned run mem).1 (eq_of_beq isKind)

theorem Unlaned.relate : Unlaned (translated.relate cfg table offset op) := unlaned

theorem collected_reject (isRequest : requestOf cfg ev = .error error) :
    Collected cfg [(ev, offset)] translated (translated.reject offset error) where
  unlaned := unlaned
  runs := by simp [documentsAt, isRequest, Translated.reject]
  rejects := by simp [refusalAt, isRequest, Translated.reject]
  edges := by simp [edgesAt, isRequest, Translated.reject]

theorem collected_truncate (isRequest : requestOf cfg ev = .ok (.truncate table)) :
    Collected cfg [(ev, offset)] translated
      ((translated.relate cfg table offset fun _ => .truncate).push
        ⟨documentCall table .truncate, offset, .truncate⟩ bytes) :=
  collected_relate (fun _ => .truncate) isRequest (fun _ isFrom => if_pos isFrom)
    (unlaned.relate.push rfl) placed_push rfl rfl

theorem collected_delete (isRequest : requestOf cfg ev = .ok (.delete table rid)) :
    Collected cfg [(ev, offset)] translated
      ((translated.relate cfg table offset fun _ => .delete rid).add cfg
        ⟨documentCall table .delete, offset, .delete rid⟩ bytes) :=
  collected_relate (fun _ => .delete rid) isRequest (fun _ isFrom => if_pos isFrom)
    (unlaned.relate.add rfl) unlaned.relate.placed_add rfl rfl

theorem collected_upsert (isRequest : requestOf cfg ev =
      .ok (.upsert table (oldId.map (routedRecordId cfg)) rid document)) :
    Collected cfg [(ev, offset)] translated
      (((relocate cfg translated offset table oldId).relate cfg table offset
        (edgeOpOf rid document)).add cfg
          ⟨documentCall table .upsert, offset, .upsert rid document⟩ bytes) := by
  cases oldId with
  | none =>
    refine collected_relate (edgeOpOf rid document) isRequest (fun spec isFrom => ?_)
      (unlaned.relate.add rfl) unlaned.relate.placed_add rfl rfl
    rw [Request.edgeOps, if_pos isFrom]
    rfl
  | some oldId =>
    have unlanedOld : Unlaned (relocate cfg translated offset table (some oldId)) :=
      unlaned.relate.push rfl
    exact {
      unlaned := unlanedOld.relate.add rfl
      runs := by
        rw [unlanedOld.relate.placed_add]
        simp [relocate, Translated.push, documentsAt, isRequest, Request.operations, place]
      rejects := by
        simp [relocate, refusalAt, isRequest, Translated.push, Translated.add, Translated.relate]
      edges := by
        simp only [relocate, Translated.push, Translated.add, Translated.relate, map_map]
        refine map_congr_left fun ctx _ => ?_
        by_cases isFrom : cfg.routedFrom ctx.spec = table <;>
          simp [edgesAt, isRequest, Request.edgeOps, Request.table, isFrom] }

theorem collected_translateUpsert {offset table docId}
    (isTable : resolveTable cfg ev = .ok table) (isId : requiredDocId ev = .ok docId)
    (notTruncate : ev.endsWith "truncate" = false) (notDelete : ev.endsWith "delete" = false) :
    Collected cfg [(ev, offset)] translated
      (translateUpsert cfg translated offset ev table docId) := by
  have isRequest : requestOf cfg ev = (do
      let (document, oldId) ← checkedUpsert cfg ev table docId
      .ok (.upsert table (oldId.map (routedRecordId cfg)) (routedRecordId cfg docId)
        document)) := by
    simp [requestOf, isTable, isId, notTruncate, notDelete, bind, Except.bind]
  unfold translateUpsert
  unfold checkedUpsert at isRequest
  cases isDocument : buildDocument ev docId (lookupPaths cfg table) with
  | error error =>
    rw [isDocument] at isRequest
    exact collected_reject unlaned isRequest
  | ok document =>
    rw [isDocument] at isRequest
    simp only [bind, Except.bind] at isRequest
    by_cases isLarge : cfg.batching.maxBytes < documentBytes ev docId
    · rw [if_pos isLarge] at isRequest
      simpa only [isLarge, if_true] using collected_reject unlaned isRequest
    · rw [if_neg isLarge] at isRequest
      simp only [isLarge, if_false]
      cases isOld : relocatedFrom ev with
      | error error =>
        rw [isOld] at isRequest
        exact collected_reject unlaned isRequest
      | ok oldId =>
        rw [isOld] at isRequest
        exact collected_upsert unlaned isRequest

theorem collected_translateEvent (entry : SinkEvent × Nat) :
    Collected cfg [entry] translated (translateEvent cfg translated entry) := by
  obtain ⟨ev, offset⟩ := entry
  unfold translateEvent
  dsimp only
  cases isTable : resolveTable cfg ev with
  | error error =>
    exact collected_reject unlaned (by simp [requestOf, isTable, bind, Except.bind])
  | ok table =>
    dsimp only
    split
    · rename_i isTruncate
      exact collected_truncate unlaned (by simp [requestOf, isTable, isTruncate, bind, Except.bind])
    · rename_i notTruncate
      rw [Bool.not_eq_true] at notTruncate
      cases isId : requiredDocId ev with
      | error error =>
        exact collected_reject unlaned
          (by simp [requestOf, isTable, notTruncate, isId, bind, Except.bind])
      | ok docId =>
        dsimp only
        split
        · rename_i isDelete
          exact collected_delete unlaned
            (by simp [requestOf, isTable, notTruncate, isId, isDelete, bind, Except.bind])
        · rename_i notDelete
          rw [Bool.not_eq_true] at notDelete
          exact collected_translateUpsert unlaned isTable isId notTruncate notDelete

end

theorem collected_foldl (unlaned : Unlaned translated) (entries : List (SinkEvent × Nat)) :
    Collected cfg entries translated (entries.foldl (translateEvent cfg) translated) := by
  induction entries generalizing translated with
  | nil => exact ⟨unlaned, by simp, by simp, by simp⟩
  | cons entry rest ih =>
    have first := @collected_translateEvent cfg translated unlaned entry
    have further := ih first.unlaned
    exact {
      unlaned := further.unlaned
      runs := by rw [foldl_cons, further.runs, first.runs]; simp
      rejects := by rw [foldl_cons, further.rejects, first.rejects]; simp
      edges := by rw [foldl_cons, further.edges, first.edges]; simp }

theorem collected_translateDocuments (evs : List SinkEvent) :
    Collected cfg evs.zipIdx ⟨[], [], cfg.graphEdges.map (⟨·, []⟩)⟩
      (translateDocuments cfg evs) :=
  collected_foldl (fun _ mem => absurd mem not_mem_nil) evs.zipIdx

end

section

variable {sink : Sink} {runs : List (Run Call Operation)} {spec : EdgeSpec}

/-- The calls of the runs: documents, and the edges of specs. -/
def Known (sink : Sink) (runs : List (Run Call Operation)) : Prop :=
  ∀ run ∈ runs, (run.kind.lane = none ∧ run.kind.kind.isEdgeApply = false) ∨
    ∃ spec ∈ sink.graphEdges, ∃ op, run.kind = (edgeOperation sink.toConfig spec op).1

theorem call_of_edgeTable (isSpec : spec ∈ sink.graphEdges)
    (known : ∃ spec ∈ sink.graphEdges, ∃ op, call = (edgeOperation sink.toConfig spec op).1)
    (isTable : call.table = sink.edgeTable spec) :
    ∃ op, call = (edgeOperation sink.toConfig spec op).1 := by
  obtain ⟨other, isOther, op, rfl⟩ := known
  have same : spec = other := Sink.edgeTable_inj isSpec isOther (by
    rw [← isTable]
    cases op <;> rfl)
  exact ⟨op, by rw [same]⟩

theorem placed_addEdgeOp (known : Known sink runs) (isSpec : spec ∈ sink.graphEdges)
    (entry : Nat × EdgeOp) :
    placed (addEdgeOp sink.toConfig spec runs entry) =
      placed runs ++ [place entry.1 (edgeOperation sink.toConfig spec entry.2)] := by
  obtain ⟨offset, op⟩ := entry
  cases op with
  | truncate => exact placed_push
  | delete eid =>
    unfold addEdgeOp
    apply placed_add
    intro run mem joins
    simp only [Bool.and_eq_true, beq_iff_eq] at joins
    obtain ⟨⟨isTable, hasLane⟩, isDelete⟩ := joins
    rcases known run mem with ⟨noLane, -⟩ | known
    · rw [noLane] at hasLane
      cases hasLane
    · obtain ⟨op, isCall⟩ := call_of_edgeTable isSpec known isTable
      refine Call.ext isTable ?_ isDelete
      rw [isCall]
      cases op <;> rfl
  | apply eid a b =>
    unfold addEdgeOp
    apply placed_add
    intro run mem joins
    simp only [Bool.and_eq_true, beq_iff_eq] at joins
    obtain ⟨isTable, isApply⟩ := joins
    rcases known run mem with ⟨-, notApply⟩ | known
    · rw [isApply] at notApply
      cases notApply
    · obtain ⟨op, isCall⟩ := call_of_edgeTable isSpec known isTable
      rw [isCall] at isApply ⊢
      cases op with
      | truncate | delete => cases isApply
      | apply => rfl

theorem Known.addEdgeOp (known : Known sink runs) (isSpec : spec ∈ sink.graphEdges)
    (entry : Nat × EdgeOp) : Known sink (addEdgeOp sink.toConfig spec runs entry) := by
  obtain ⟨offset, op⟩ := entry
  intro run mem
  have kinds : (∃ earlier ∈ runs, run.kind = earlier.kind) ∨
      run.kind = (edgeOperation sink.toConfig spec op).1 := by
    cases op with
    | truncate => exact kind_of_mem_push mem
    | delete | apply =>
      unfold SurrealDb.addEdgeOp at mem
      exact kind_of_mem_add mem
  rcases kinds with ⟨earlier, isEarlier, same⟩ | same
  · rw [same]
    exact known earlier isEarlier
  · exact .inr ⟨spec, isSpec, op, same⟩

theorem placed_addEdges (known : Known sink runs) (isSpec : ctx.spec ∈ sink.graphEdges) :
    Known sink (addEdges sink.toConfig runs ctx) ∧
    placed (addEdges sink.toConfig runs ctx) = placed runs ++
      ctx.ops.map fun entry => place entry.1 (edgeOperation sink.toConfig ctx.spec entry.2) := by
  obtain ⟨spec, ops⟩ := ctx
  unfold addEdges
  induction ops generalizing runs with
  | nil => exact ⟨known, by simp⟩
  | cons entry rest ih =>
    obtain ⟨knownLater, further⟩ := ih (known.addEdgeOp isSpec entry) isSpec
    refine ⟨knownLater, ?_⟩
    rw [foldl_cons, further, placed_addEdgeOp known isSpec, map_cons, append_assoc]
    rfl

theorem placed_foldl_addEdges (known : Known sink runs) {ctxs : List EdgeCtx}
    (areSpecs : ∀ ctx ∈ ctxs, ctx.spec ∈ sink.graphEdges) :
    Known sink (ctxs.foldl (addEdges sink.toConfig) runs) ∧
    placed (ctxs.foldl (addEdges sink.toConfig) runs) = placed runs ++ ctxs.flatMap fun ctx =>
      ctx.ops.map fun entry => place entry.1 (edgeOperation sink.toConfig ctx.spec entry.2) := by
  induction ctxs generalizing runs with
  | nil => exact ⟨known, by simp⟩
  | cons ctx rest ih =>
    obtain ⟨isSpec, areSpecs⟩ := forall_mem_cons.mp areSpecs
    obtain ⟨knownThen, first⟩ := placed_addEdges known isSpec
    obtain ⟨knownLater, further⟩ := ih knownThen areSpecs
    refine ⟨knownLater, ?_⟩
    rw [foldl_cons, further, first, flatMap_cons, append_assoc]

def edgesOf (cfg : Config) (spec : EdgeSpec) (evs : List SinkEvent) :
    List (Placed Call Operation) :=
  (evs.zipIdx.flatMap (edgesAt cfg spec)).map fun entry =>
    place entry.1 (edgeOperation cfg spec entry.2)

theorem specs_translateDocuments (sink : Sink) (evs : List SinkEvent) :
    ∀ ctx ∈ (translateDocuments sink.toConfig evs).edges, ctx.spec ∈ sink.graphEdges := by
  rw [(collected_translateDocuments evs).edges, map_map]
  intro ctx mem
  obtain ⟨spec, isSpec, rfl⟩ := mem_map.mp mem
  exact isSpec

theorem known_translateDocuments (sink : Sink) (evs : List SinkEvent) :
    Known sink (translateDocuments sink.toConfig evs).runs :=
  fun run mem => .inl ((collected_translateDocuments evs).unlaned run mem)

theorem known_translateBatch (sink : Sink) (evs : List SinkEvent) :
    Known sink (translateBatch sink.toConfig evs).runs :=
  (placed_foldl_addEdges (known_translateDocuments sink evs) (specs_translateDocuments sink evs)).1

/-- The runs of a batch hold the operations on documents in the order of the events, and after
    them those on the edges of each spec in the order of the events. -/
theorem placed_translateBatch (sink : Sink) (evs : List SinkEvent) :
    placed (translateBatch sink.toConfig evs).runs =
      evs.zipIdx.flatMap (documentsAt sink.toConfig) ++
        sink.graphEdges.flatMap fun spec => edgesOf sink.toConfig spec evs := by
  have collected := @collected_translateDocuments sink.toConfig evs
  rw [translateBatch, (placed_foldl_addEdges (known_translateDocuments sink evs)
    (specs_translateDocuments sink evs)).2, collected.runs, collected.edges, map_map]
  simp [edgesOf, flatMap_map]

theorem rejects_translateBatch (cfg : Config) (evs : List SinkEvent) :
    (translateBatch cfg evs).rejects = evs.zipIdx.flatMap (refusalAt cfg) := by
  rw [translateBatch, (collected_translateDocuments evs).rejects]
  rfl

end

end Ventstream.SurrealDb
