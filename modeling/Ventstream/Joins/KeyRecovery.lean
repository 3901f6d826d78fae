import Ventstream.Joins.History

/-! # Keys out of document ids

A delete without a row is addressed by the key in its document id, which is taken from behind
the first colon. For scalar key values this is the key of the row, in the state and in the
sink, unless the name of the table has a colon of its own.
-/

namespace Ventstream.Joins

open Core
open Json (Value Fields IsReader)

variable {env : Env} {columns : List String} {row : Fields} {table : String}

theorem fromValues_strings (texts : List String) :
    PkValue.fromValues (texts.map .string) = ⟨Json.render (.array (texts.map .string))⟩ := by
  simp [PkValue.fromValues, Function.comp_def, normalizeComponent]

theorem docIdValue_scalars (scalars : HasScalars columns row) :
    docIdValue env ⟨table, keyOf columns row⟩ = docId table (keyTexts columns row) := by
  have notNull : (keyOf columns row).isNull = false := PkValue.fromValues_isNull _
  rw [docIdValue, PkValue.toJson, notNull, keyOf_scalars scalars]
  simp [env.fromStr_strings, componentsFromJson, Function.comp_def, componentText]

/-- What the first colon of a table's name leaves of the name stays in front of the key. -/
theorem afterColon_docId (texts : List String) :
    afterColon (docId table texts) = some (String.ofList
      (match table.toList.dropWhile (· != ':') with
        | [] => Json.chars (.array (texts.map .string))
        | _ :: rest => rest ++ ':' :: Json.chars (.array (texts.map .string)))) := by
  rw [afterColon, toList_docId, List.dropWhile_append]
  cases table.toList.dropWhile (· != ':') <;> simp

variable {ev : Event}

theorem pkFromDocId_of_colon (reader : IsReader env.fromStr)
    (stamped : ev.headers["ventstream.doc.id"]? = some (docId table texts))
    (colon : ':' ∈ table.toList) : pkFromDocId env ev count = none := by
  simp only [pkFromDocId, stamped, Option.bind_eq_bind, Option.bind_some, afterColon_docId]
  split
  · rename_i components isRead
    have closed := reader.closed _ _ isRead
    cases left : table.toList.dropWhile (· != ':') with
    | nil => exact absurd (List.dropWhile_eq_nil_iff.mp left ':' colon) (by simp)
    | cons char rest =>
      rw [left, String.toList_ofList] at closed
      exact absurd (Json.closed_strings texts) closed.not_behind_colon
  · rfl

theorem pkFromDocId_of_noColon {texts : List String}
    (stamped : ev.headers["ventstream.doc.id"]? = some (docId table texts))
    (noColon : ':' ∉ table.toList) : pkFromDocId env ev texts.length =
      some ⟨Json.render (.array (texts.map .string))⟩ := by
  have nothing : table.toList.dropWhile (· != ':') = [] := by
    refine List.dropWhile_eq_nil_iff.mpr fun char mem => ?_
    simpa using ne_of_mem_of_not_mem mem noColon
  simp only [pkFromDocId, stamped, Option.bind_eq_bind, Option.bind_some, afterColon_docId, nothing]
  rw [← Json.render, env.fromStr_strings]
  simp [fromValues_strings]

/-- A document id of the table stands for the key of the row it was made for exactly when the
    table's name has no colon. In any case rows with different keys have different ids. -/
theorem key_recovered_iff (reader : IsReader env.fromStr) {event : Event}
    (scalars : HasScalars columns row)
    (stamped : event.headers["ventstream.doc.id"]? = some (docId table (keyTexts columns row))) :
    (pkFromDocId env event columns.length = extractPk (.object row) columns ↔ ':' ∉ table.toList) ∧
    docIdValue env ⟨table, keyOf columns row⟩ = docId table (keyTexts columns row) ∧
    ∀ other, HasScalars columns other → keyOf columns row ≠ keyOf columns other →
      docIdValue env ⟨table, keyOf columns row⟩ ≠ docIdValue env ⟨table, keyOf columns other⟩ := by
  refine ⟨⟨fun recovered colon => ?_, fun noColon => ?_⟩, docIdValue_scalars scalars, ?_⟩
  · rw [pkFromDocId_of_colon reader stamped colon] at recovered
    cases recovered
  · have found := @pkFromDocId_of_noColon env table event _ stamped noColon
    rw [keyTexts, List.length_map] at found
    rw [found, extractPk_object, keyOf_scalars scalars, keyTexts]
  · intro other isOther different same
    rw [docIdValue_scalars scalars, docIdValue_scalars isOther] at same
    rw [keyOf_scalars scalars, keyOf_scalars isOther, (docId_inj same).2] at different
    exact different rfl

/-- A calm environment whose reader reads arrays of strings only. -/
def plainEnv : Env :=
  { Env.calm with
    fromStr := Json.readStrings, fromStr_strings := Json.isReader_readStrings.strings }

def soldOrder : Fields := [("id", .string "7")]

/-- The delete of an order of a table, without a row. -/
def orderDeleted (table : String) : Event where
  subject := ⟨"pg.public.orders.delete", by decide +kernel⟩
  headers := .ofList [("ventstream.doc.id", docId table ["7"])]
  payload := .ok (.object [])

theorem order_scalars : HasScalars ["id"] soldOrder := by
  simp [HasScalars, soldOrder, Fields.get?, isScalar]

theorem key_recovered_orders : IsReader plainEnv.fromStr ∧ HasScalars ["id"] soldOrder ∧
    pkFromDocId plainEnv (orderDeleted "public.orders") 1 = extractPk (.object soldOrder) ["id"] := by
  refine ⟨Json.isReader_readStrings, order_scalars, ?_⟩
  exact ((key_recovered_iff Json.isReader_readStrings order_scalars rfl).1).mpr (by decide)

/-- With a colon in the table's name the key is not found. -/
theorem key_lost_behind_colon : (orderDeleted "public.a:b").headers["ventstream.doc.id"]? =
      some (docId "public.a:b" (keyTexts ["id"] soldOrder)) ∧
    pkFromDocId plainEnv (orderDeleted "public.a:b") 1 = none ∧
    extractPk (.object soldOrder) ["id"] ≠ none := by
  refine ⟨by decide +kernel, by decide +kernel, nofun⟩

end Ventstream.Joins
