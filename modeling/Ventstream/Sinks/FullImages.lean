import Ventstream.Joins.Frame
import Ventstream.OpenSearch.Bulk
import Ventstream.Redis.Prepare

/-! # Updates that carry a whole document

A flat update carries its row as `new` beside `old`. The sources of full images, the join
engine and the SQL mode publish the document itself under the same `update` subject. The two
sinks and the join engine tell the shapes apart by the field `new`, so a document that has a
field of that name is taken for an envelope.
-/

namespace Ventstream.Sinks

open Core Json

/-- An update whose payload is a document, not an envelope. -/
structure FullImage (ev : SinkEvent) (document : Value) : Prop where
  isUpdate : ev.endsWith "update" = true
  isObject : document.isObject = true
  isPayload : ev.payload = .ok document
  isText : ev.bytes = render document

variable {ev : SinkEvent} {document : Value}

theorem render_getD_iff (isField : ∀ row, field = some row → document.get? name = some row) :
    render (field.getD document) = render document ↔ field = none := by
  cases field with
  | none => simp
  | some row =>
    have found := isField row rfl
    cases document with
    | object fields =>
      have shorter := length_chars_lt found
      simp only [Option.getD_some, reduceCtorEq, iff_false]
      intro same
      rw [String.ofList_injective same] at shorter
      simp only [chars, List.length_cons, List.length_append] at shorter
      omega
    | _ => cases found

theorem subjectOp_update {ev : Event} (isUpdate : ev.endsWith "update") :
    Joins.subjectOp ev = .ok .update := by
  obtain ⟨front, isText⟩ := List.isSuffixOf_iff_suffix.mp isUpdate
  have split : ev.subject.text = String.ofList front ++ "." ++ "update" := by
    rw [← String.toList_inj, ← isText]
    simp
  have last : segments "update" = ["update"] := by decide +kernel
  simp [Joins.subjectOp, split, segments_append_dot, last]

/-- What the sinks take for the row of an envelope. -/
def envelopeRow (document : Value) : Option Value := (document.get? "new").filter (·.isObject)

theorem FullImage.newRow (full : FullImage ev document) :
    Redis.newRow ev = envelopeRow document := by
  rw [Redis.newRow, Event.updateRow, if_pos full.isUpdate, full.isPayload]
  rfl

theorem FullImage.documentOf (full : FullImage ev document) :
    OpenSearch.documentOf ev.toEvent = .ok ((envelopeRow document).getD document) := by
  have body : OpenSearch.updateRowBody ev.toEvent = envelopeRow document := full.newRow
  rw [OpenSearch.documentOf, body, full.isPayload]
  cases envelopeRow document <;> rfl

theorem FullImage.upsertPayload (full : FullImage ev document) :
    Redis.upsertPayload ev = render ((envelopeRow document).getD document) := by
  rw [Redis.upsertPayload, full.newRow, full.isText]
  cases envelopeRow document <;> rfl

theorem FullImage.eventRow (full : FullImage ev document) :
    Joins.eventRow ev.toEvent .update = some ((document.get? "new").getD document) := by
  rw [Joins.eventRow, Joins.parsePayload, full.isPayload]
  cases found : document.get? "new" <;>
    simp [Except.mapError, Joins.currentRow, found, full.isObject]

/-- The bulk planner and the Redis sink keep a document exactly if its `new` is not an object,
    and the join engine exactly if it has no `new`. -/
theorem full_image_kept_iff (full : FullImage ev document) :
    (OpenSearch.documentOf ev.toEvent = .ok document ↔
      ∀ row, document.get? "new" = some row → row.isObject = false) ∧
    (Redis.upsertPayload ev = render document ↔
      ∀ row, document.get? "new" = some row → row.isObject = false) ∧
    ((∃ op, Joins.subjectOp ev.toEvent = .ok op ∧
        Joins.eventRow ev.toEvent op = some document) ↔ document.get? "new" = none) := by
  have noRow : envelopeRow document = none ↔
      ∀ row, document.get? "new" = some row → row.isObject = false := by
    simp [envelopeRow, Option.filter_eq_none_iff]
  have isField : ∀ row, envelopeRow document = some row → document.get? "new" = some row :=
    fun row isRow => (Option.filter_eq_some_iff.mp isRow).1
  rw [full.documentOf, full.upsertPayload, subjectOp_update full.isUpdate, ← noRow]
  refine ⟨⟨?_, ?_⟩, render_getD_iff isField, ⟨?_, ?_⟩⟩
  · intro kept
    exact (render_getD_iff isField).mp (by rw [Except.ok.inj kept])
  · intro absent
    rw [absent, Option.getD_none]
  · rintro ⟨_, ⟨⟩, isRow⟩
    rw [full.eventRow, Option.some.injEq] at isRow
    exact (render_getD_iff fun _ => id).mp (congrArg render isRow)
  · intro absent
    exact ⟨_, rfl, by rw [full.eventRow, absent, Option.getD_none]⟩

/-- The update of an order, as the MongoDB source publishes it. -/
def orderUpdate (document : Value) : SinkEvent where
  subject := ⟨"mongo.shop.orders.update", by decide +kernel⟩
  headers := ∅
  payload := .ok document
  id := "1"
  bytes := render document

theorem full_image_kept_iff_order :
    Redis.upsertPayload (orderUpdate (.object [("id", .string "1"), ("new", .bool true)])) =
      render (.object [("id", .string "1"), ("new", .bool true)]) := by
  have full : FullImage (orderUpdate (.object [("id", .string "1"), ("new", .bool true)])) _ :=
    ⟨by decide +kernel, rfl, rfl, rfl⟩
  exact (full_image_kept_iff full).2.1.mpr (by rintro _ ⟨⟩; rfl)

/-- A document with an object under `new` is replaced by that object everywhere. -/
theorem full_image_taken_for_envelope : let row := Value.object [("total", .bool true)]
    let document := Value.object [("id", .string "1"), ("new", row)]
    FullImage (orderUpdate document) document ∧
    OpenSearch.documentOf (orderUpdate document).toEvent = .ok row ∧
    Redis.upsertPayload (orderUpdate document) = render row ∧
    Joins.eventRow (orderUpdate document).toEvent .update = some row :=
  ⟨⟨by decide +kernel, rfl, rfl, rfl⟩, rfl, rfl, rfl⟩

end Ventstream.Sinks
