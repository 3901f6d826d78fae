import Ventstream.SurrealDb.Statements

/-! # Which record a document is kept in

A document id is a qualified table, a colon and a key. Under fixed routing the whole id is the
key of the record. Otherwise the record has the key alone, and the table that the headers name
has to say the rest; the relation header does not name the namespace, and definitions may share
a projection target.
-/

namespace Ventstream.SurrealDb

open Core
open Json (Value)

variable (cfg : Config)

/-- The table and the key that an upsert or a delete of the event goes to. -/
def recordOf (ev : SinkEvent) : Except String (String × Value) := do
  let table ← resolveTable cfg ev
  let docId ← requiredDocId ev
  .ok (table, routedRecordId cfg docId)

/-- What names the table of an event, before the prefix. -/
def routedBy (ev : SinkEvent) : Option String :=
  match cfg.tableRouting with
  | .byOutputRelation => ev.headers["ventstream.cdc.relation"]?
  | .byProjectionTarget => ev.headers["ventstream.target.index"]?
  | .fixed table => some table

/-- The key behind the table: a JSON array, or a text that counts as an array of one. -/
def keyArray (suffix : String) : List Value :=
  match cfg.fromStr suffix with
  | some (.array items) => items
  | _ => [.string suffix]

variable {cfg}

theorem recordIdComponent_joined (plain : ':' ∉ table.toList) :
    recordIdComponent cfg (table ++ ":" ++ suffix) = .array (keyArray cfg suffix) := by
  have colon : ":".toList = [':'] := rfl
  have split : (table ++ ":" ++ suffix).toList.dropWhile (· != ':') = ':' :: suffix.toList := by
    rw [String.toList_append, String.toList_append, colon, List.append_assoc,
      List.dropWhile_append_of_pos]
    · rfl
    · intro char mem
      simp [ne_of_mem_of_not_mem mem plain]
  simp only [recordIdComponent, keyArray, split, String.ofList_toList]
  cases cfg.fromStr suffix with
  | none => rfl
  | some value => cases value <;> rfl

theorem resolveTable_inv (isTable : resolveTable cfg ev = .ok table) :
    ∃ target, routedBy cfg ev = some target ∧ table = cfg.tablePrefix ++ target := by
  unfold resolveTable at isTable
  unfold routedBy
  cases routing : cfg.tableRouting
  all_goals
    rw [routing] at isTable
    obtain ⟨target, isTarget, named⟩ := Library.ok_of_bind isTable
    exact ⟨target, by grind [requireHeader, SinkEvent.routingHeader], by grind⟩

theorem recordOf_inv (isRecord : recordOf cfg ev = .ok record)
    (isId : ev.headers["ventstream.doc.id"]? = some name) :
    ∃ target, routedBy cfg ev = some target ∧
      record = (cfg.tablePrefix ++ target, routedRecordId cfg name) := by
  obtain ⟨table, isTable, rest⟩ := Library.ok_of_bind isRecord
  obtain ⟨known, isKnown, ends⟩ := Library.ok_of_bind rest
  obtain ⟨target, routed, rfl⟩ := resolveTable_inv isTable
  refine ⟨target, routed, ?_⟩
  unfold requiredDocId SinkEvent.stableId at isKnown
  grind

theorem keyArray_render (reads : ∀ texts : List String,
      cfg.fromStr (Json.render (.array (texts.map .string))) =
        some (.array (texts.map .string))) (components : List String) :
    keyArray cfg (Json.render (.array (components.map .string))) =
      components.map .string := by
  simp [keyArray, reads]

/-- Two documents share a record exactly if they are routed alike and, under fixed routing, have
    one id, otherwise one key; a key array is then read back as it was written, and the table
    before the colon plays no part. -/
theorem sameRecord_iff {left right : SinkEvent} {table another suffix rest : String}
    (reads : ∀ texts : List String, cfg.fromStr (Json.render (.array (texts.map .string))) =
      some (.array (texts.map .string))) (isRecord : recordOf cfg left = .ok record)
    (isOther : recordOf cfg right = .ok other)
    (isId : left.headers["ventstream.doc.id"]? = some (table ++ ":" ++ suffix))
    (otherId : right.headers["ventstream.doc.id"]? = some (another ++ ":" ++ rest))
    (plain : ':' ∉ table.toList) (otherPlain : ':' ∉ another.toList) :
    (record = other ↔ routedBy cfg left = routedBy cfg right ∧
      match cfg.tableRouting with
      | .fixed _ => table ++ ":" ++ suffix = another ++ ":" ++ rest
      | _ => keyArray cfg suffix = keyArray cfg rest) ∧
    ∀ components others : List String,
      keyArray cfg (Json.render (.array (components.map .string))) =
        keyArray cfg (Json.render (.array (others.map .string))) ↔ components = others := by
  constructor
  · obtain ⟨target, routed, rfl⟩ := recordOf_inv isRecord isId
    obtain ⟨otherTarget, otherRouted, rfl⟩ := recordOf_inv isOther otherId
    rw [routed, otherRouted, Prod.mk.injEq, String.append_right_inj, Option.some.injEq]
    refine and_congr_right fun _ => ?_
    unfold routedRecordId
    cases cfg.tableRouting <;>
      simp only [recordIdComponent_joined plain, recordIdComponent_joined otherPlain,
        Value.array.injEq, List.cons.injEq, Value.string.injEq, and_true]
  · intro components others
    rw [keyArray_render reads, keyArray_render reads]
    exact (List.map_injective_iff.mpr fun _ _ => Value.string.inj).eq_iff

/-- A sink without a prefix that reads the keys of canonical ids. -/
def reading (routing : TableRouting) : Config where
  tableRouting := routing
  tablePrefix := ""
  batching := ⟨100, 1000000⟩
  lookupFields := []
  graphEdges := []
  fromStr := Json.readStrings

/-- An order in the table `orders` of a namespace, projected with those of every namespace. -/
def order (space : String) : SinkEvent where
  subject := ⟨"pg.orders.insert", by decide⟩
  headers := .ofList [("ventstream.doc.id", docId (space ++ ".orders") ["1"]),
    ("ventstream.cdc.relation", "orders"), ("ventstream.target.index", "orders")]
  payload := .ok (.object [])
  id := "1"
  bytes := "\x7b\x7d"

theorem sameRecord_iff_order : routedBy (reading .byOutputRelation) (order "a") =
      routedBy (reading .byOutputRelation) (order "b") := by
  have isRecord : ∀ space ∈ ["a", "b"], recordOf (reading .byOutputRelation) (order space) =
      .ok ("orders", .array [.string "1"]) := by
    decide +kernel
  have same := @sameRecord_iff (reading .byOutputRelation) _ _ (order "a") (order "b")
    "a.orders" "b.orders" "[\"1\"]" "[\"1\"]" Json.isReader_readStrings.strings
    (isRecord "a" (by simp)) (isRecord "b" (by simp)) (by decide +kernel) (by decide +kernel)
    (by decide +kernel) (by decide +kernel)
  exact (same.1.mp rfl).1

theorem namespaces_share_record :
    (order "a").headers["ventstream.doc.id"]? ≠ (order "b").headers["ventstream.doc.id"]? ∧
    ∀ space ∈ ["a", "b"], recordOf (reading .byOutputRelation) (order space) =
        .ok ("orders", .array [.string "1"]) ∧
      recordOf (reading .byProjectionTarget) (order space) =
        .ok ("orders", .array [.string "1"]) := by
  decide +kernel

end Ventstream.SurrealDb
