import Ventstream.Meilisearch.Documents
import Ventstream.SurrealDb.Requests

/-! # Rejected events and the runs of a batch

What a sink enqueues for an event that it then rejects. The SurrealDB sink validates an event
as a whole before it enqueues anything. The Meilisearch sink enqueues the delete of the old
key of a relocated document first, and then builds the document that is to replace it.
-/

namespace Ventstream.Sinks

open Core Library Library.Runs List

section

variable {κ α : Type}

/-- No operation is on behalf of a rejected event. -/
def Untouched (operations : List (Placed κ α)) (rejects : List (Nat × String)) : Prop :=
  ∀ operation ∈ operations, operation.offset ∉ rejects.map (·.1)

/-- The operations on behalf of events that are not rejected. -/
def kept (rejects : List (Nat × String)) (operations : List (Placed κ α)) : List (Placed κ α) :=
  operations.filter fun operation => operation.offset ∉ rejects.map (·.1)

theorem zipIdx_inj {evs : List SinkEvent} (mem : entry ∈ evs.zipIdx) (isOther : other ∈ evs.zipIdx)
    (same : entry.2 = other.2) : entry.1 = other.1 := by
  obtain ⟨-, -, found⟩ := mem_zipIdx mem
  obtain ⟨-, -, foundOther⟩ := mem_zipIdx isOther
  rw [found, foundOther]
  simp only [same]

end

variable {cfg : Config} {evs : List SinkEvent} {entry : SinkEvent × Nat}

section

open SurrealDb

theorem surreal_rejected_iff (mem : entry ∈ evs.zipIdx) :
    entry.2 ∈ (translateBatch cfg evs).rejects.map (·.1) ↔
      ∃ error, requestOf cfg entry.1 = .error error := by
  rw [rejects_translateBatch]
  constructor
  · intro isRejected
    obtain ⟨reject, isReject, sameOffset⟩ := mem_map.mp isRejected
    obtain ⟨other, isOther, isRefusal⟩ := mem_flatMap.mp isReject
    unfold refusalAt at isRefusal
    split at isRefusal
    · cases isRefusal
    · rename_i error isError
      rw [mem_singleton.mp isRefusal] at sameOffset
      exact ⟨error, by rw [zipIdx_inj mem isOther sameOffset.symm, isError]⟩
  · rintro ⟨error, isError⟩
    refine mem_map.mpr ⟨(entry.2, error), mem_flatMap.mpr ⟨entry, mem, ?_⟩, rfl⟩
    rw [refusalAt, isError]
    exact mem_singleton_self _

variable {operation : Placed Call Operation}

theorem mem_documentsAt (isOperation : operation ∈ documentsAt cfg entry) :
    operation.offset = entry.2 ∧ ∃ request, requestOf cfg entry.1 = .ok request := by
  unfold documentsAt at isOperation
  split at isOperation
  · rename_i request isRequest
    obtain ⟨_, -, rfl⟩ := mem_map.mp isOperation
    exact ⟨rfl, request, isRequest⟩
  · cases isOperation

theorem mem_edgesAt (isOp : op ∈ edgesAt cfg spec entry) :
    op.1 = entry.2 ∧ ∃ request, requestOf cfg entry.1 = .ok request := by
  unfold edgesAt at isOp
  split at isOp
  · rename_i request isRequest
    obtain ⟨_, -, rfl⟩ := mem_map.mp isOp
    exact ⟨rfl, request, isRequest⟩
  · cases isOp

theorem accepted_of_mem_placed {sink : Sink}
    (isOperation : operation ∈ placed (translateBatch sink.toConfig evs).runs) :
    ∃ entry ∈ evs.zipIdx, operation.offset = entry.2 ∧
      ∃ request, requestOf sink.toConfig entry.1 = .ok request := by
  rw [placed_translateBatch] at isOperation
  rcases mem_append.mp isOperation with isDocument | isEdge
  · obtain ⟨entry, mem, isAt⟩ := mem_flatMap.mp isDocument
    exact ⟨entry, mem, mem_documentsAt isAt⟩
  · obtain ⟨spec, -, isEdge⟩ := mem_flatMap.mp isEdge
    obtain ⟨op, isOp, rfl⟩ := mem_map.mp isEdge
    obtain ⟨entry, mem, isAt⟩ := mem_flatMap.mp isOp
    exact ⟨entry, mem, mem_edgesAt isAt⟩

theorem surreal_untouched (sink : Sink) (evs : List SinkEvent) :
    Untouched (placed (translateBatch sink.toConfig evs).runs)
      (translateBatch sink.toConfig evs).rejects := by
  intro operation isOperation isRejected
  obtain ⟨entry, mem, isOffset, request, isRequest⟩ := accepted_of_mem_placed isOperation
  rw [isOffset, surreal_rejected_iff mem] at isRejected
  obtain ⟨error, isError⟩ := isRejected
  rw [isRequest] at isError
  cases isError

end

section

open Meilisearch

theorem meili_rejected_iff (mem : entry ∈ evs.zipIdx) :
    entry.2 ∈ (translateBatch cfg evs).rejects.map (·.1) ↔
      (refusal cfg entry.1).isSome := by
  rw [rejects_translateBatch]
  constructor
  · intro isRejected
    obtain ⟨reject, isReject, sameOffset⟩ := mem_map.mp isRejected
    obtain ⟨other, isOther, isRefusal⟩ := mem_flatMap.mp isReject
    obtain ⟨error, isError, rfl⟩ := Option.map_eq_some_iff.mp (Option.mem_toList.mp isRefusal)
    rw [zipIdx_inj mem isOther sameOffset.symm, isError]
    rfl
  · intro isSome
    obtain ⟨error, isError⟩ := Option.isSome_iff_exists.mp isSome
    refine mem_map.mpr ⟨(entry.2, error), mem_flatMap.mpr ⟨entry, mem, ?_⟩, rfl⟩
    rw [isError]
    exact mem_singleton_self _

/-- An update that moved its document, is routed and has an id, and whose new document is not an
    object or too large. -/
def RefusedRelocation (cfg : Config) (ev : SinkEvent) : Prop :=
  ev.endsWith "truncate" = false ∧ ev.endsWith "delete" = false ∧
    (ev.headers["ventstream.doc.old_id"]?).isSome ∧
    (∃ indexUid, resolveIndex cfg ev = .ok indexUid) ∧
    ∃ docId error, requiredDocId ev = .ok docId ∧ checkedDocument cfg ev docId = .error error

theorem stray_ne_nil_iff : stray cfg ev ≠ [] ↔ RefusedRelocation cfg ev := by
  constructor
  · intro isLeft
    unfold stray at isLeft
    split at isLeft
    · rename_i indexUid docId isIndex isId
      split at isLeft
      · exact absurd rfl isLeft
      · rename_i isUpsert
        simp only [Bool.or_eq_true, not_or, Bool.not_eq_true] at isUpsert
        split at isLeft
        · exact absurd rfl isLeft
        · rename_i error isError
          refine ⟨isUpsert.1, isUpsert.2, ?_, ⟨indexUid, isIndex⟩, docId, error, isId, isError⟩
          unfold oldDelete at isLeft
          split at isLeft
          · exact absurd rfl isLeft
          · rename_i oldId isOld
            rw [isOld]
            rfl
    · exact absurd rfl isLeft
  · rintro ⟨notTruncate, notDelete, isOld, ⟨indexUid, isIndex⟩, docId, error, isId, isError⟩
    obtain ⟨oldId, isOld⟩ := Option.isSome_iff_exists.mp isOld
    simp [stray, isIndex, isId, notTruncate, notDelete, isError, oldDelete, isOld]

theorem mem_placedAt
    (mem : operation ∈ placedAt operations entry) : operation.offset = entry.2 := by
  obtain ⟨_, -, rfl⟩ := mem_map.mp mem
  rfl

theorem kept_placedAt (mem : entry ∈ evs.zipIdx) : kept (translateBatch cfg evs).rejects
      (placedAt (fun ev => asked cfg ev ++ stray cfg ev) entry) =
      placedAt (asked cfg) entry := by
  cases isOk : operationsOf cfg entry.1 with
  | ok operations =>
    have notRejected : ¬ entry.2 ∈ (translateBatch cfg evs).rejects.map (·.1) := by
      rw [meili_rejected_iff mem, refusal, isOk]
      exact Bool.false_ne_true
    have same : placedAt (fun ev => asked cfg ev ++ stray cfg ev) entry =
        placedAt (asked cfg) entry := by
      simp [placedAt, stray_of_accepted isOk]
    rw [same, kept, filter_eq_self]
    intro operation isOperation
    rw [mem_placedAt isOperation]
    exact decide_eq_true notRejected
  | error error =>
    have isRejected : entry.2 ∈ (translateBatch cfg evs).rejects.map (·.1) := by
      rw [meili_rejected_iff mem, refusal, isOk]
      rfl
    have nothing : placedAt (asked cfg) entry = [] := by simp [placedAt, asked, isOk]
    rw [nothing, kept, filter_eq_nil_iff]
    intro operation isOperation
    rw [mem_placedAt isOperation]
    simpa using isRejected

theorem meili_kept (cfg : Config) (evs : List SinkEvent) :
    kept (translateBatch cfg evs).rejects (placed (translateBatch cfg evs).runs) =
      evs.zipIdx.flatMap (placedAt (asked cfg)) := by
  rw [placed_translateBatch, kept, filter_flatMap]
  exact flatMap_congr fun entry mem => kept_placedAt mem

theorem meili_untouched_iff (cfg : Config) (evs : List SinkEvent) :
    Untouched (placed (translateBatch cfg evs).runs)
        (translateBatch cfg evs).rejects ↔
      ∀ ev ∈ evs, ¬ RefusedRelocation cfg ev := by
  constructor
  · intro untouched ev isEvent refused
    obtain ⟨offset, mem⟩ : ∃ offset, (ev, offset) ∈ evs.zipIdx := by
      obtain ⟨offset, inside, rfl⟩ := mem_iff_getElem.mp isEvent
      exact ⟨offset, mem_zipIdx_iff_getElem?.mpr (getElem?_eq_getElem inside)⟩
    obtain ⟨operation, isStray⟩ := exists_mem_of_ne_nil _ (stray_ne_nil_iff.mpr refused)
    refine untouched ⟨operation.1, offset, operation.2⟩ ?_ ?_
    · rw [placed_translateBatch]
      refine mem_flatMap.mpr ⟨(ev, offset), mem, mem_map.mpr ⟨operation, ?_, rfl⟩⟩
      exact mem_append_right _ isStray
    · refine (meili_rejected_iff mem).mpr ?_
      unfold refusal
      split
      · rename_i operations isOk
        rw [stray_of_accepted isOk] at isStray
        cases isStray
      · rfl
  · intro none operation isOperation isRejected
    rw [placed_translateBatch] at isOperation
    obtain ⟨entry, mem, isAt⟩ := mem_flatMap.mp isOperation
    have isEvent : entry.1 ∈ evs := fst_mem_of_mem_zipIdx mem
    have nothing : stray cfg entry.1 = [] := by
      by_contra isLeft
      exact none entry.1 isEvent (stray_ne_nil_iff.mp isLeft)
    have isKept : operation ∈ kept (translateBatch cfg evs).rejects
        (placedAt (fun ev => asked cfg ev ++ stray cfg ev) entry) := by
      rw [kept_placedAt mem]
      simpa [placedAt, nothing] using isAt
    have notRejected := (mem_filter.mp isKept).2
    exact (of_decide_eq_true notRejected) isRejected

end

/-- A rejected event changes nothing. With SurrealDB the runs hold the operations of the accepted
    events and no others. With Meilisearch they hold those as well, and something on behalf of a
    rejected event exactly when an update that moved its document is refused for its document. -/
theorem rejected_event_changes_nothing (sink : SurrealDb.Sink) (config : Meilisearch.Config)
    (events : List SinkEvent) :
    (Untouched (placed (SurrealDb.translateBatch sink.toConfig events).runs)
        (SurrealDb.translateBatch sink.toConfig events).rejects ∧
      placed (SurrealDb.translateBatch sink.toConfig events).runs =
        events.zipIdx.flatMap (SurrealDb.documentsAt sink.toConfig) ++
          sink.graphEdges.flatMap fun spec => SurrealDb.edgesOf sink.toConfig spec events) ∧
    kept (Meilisearch.translateBatch config events).rejects
      (placed (Meilisearch.translateBatch config events).runs) =
        events.zipIdx.flatMap (Meilisearch.placedAt (Meilisearch.asked config)) ∧
    (Untouched (placed (Meilisearch.translateBatch config events).runs)
        (Meilisearch.translateBatch config events).rejects ↔
      ∀ event ∈ events, ¬ RefusedRelocation config event) :=
  ⟨⟨surreal_untouched sink events, SurrealDb.placed_translateBatch sink events⟩,
    meili_kept config events, meili_untouched_iff config events⟩

section

open Meilisearch

def booksConfig : Config where
  indexRouting := .byOutputRelation
  indexPrefix := "vs_"
  primaryKeyField := "_vs_pk"
  batching := ⟨2000, 4096⟩
  sha256 := id

theorem books_isSegment : (segments "pg.public.books.update").all isSegment := by decide +kernel

/-- An update that moves a book from 1 to 2, with a payload that is no object. -/
def renumberedBook : SinkEvent where
  subject := ⟨"pg.public.books.update", books_isSegment⟩
  headers := .ofList [("ventstream.doc.id", "2"), ("ventstream.doc.old_id", "1"),
    ("ventstream.cdc.relation", "books")]
  payload := .ok .null
  id := "e1"
  bytes := "null"

/-- The delete of the old document is sent on behalf of an event that is rejected. -/
theorem rejected_event_deletes_document :
    (translateBatch booksConfig [renumberedBook]).rejects.map (·.1) = [0] ∧
    ∃ operation ∈ placed (translateBatch booksConfig [renumberedBook]).runs,
      operation.offset = 0 ∧ operation.kind = ⟨"vs_books", .delete⟩ ∧
        operation.item = .delete (booksConfig.primaryKey "1") :=
  ⟨by decide +kernel, _, mem_singleton_self _, rfl, by decide +kernel, rfl⟩

end

end Ventstream.Sinks
