import Ventstream.Core.Event
import Ventstream.Library.Program
import Ventstream.Library.Runs

/-! # From events to the runs of the Meilisearch sink

The translation of a batch in `documents.rs`: the index that an event is routed to, the
primary key and the document, and the grouping of consecutive operations on one index into
runs. An event that cannot be written is rejected with its position.
-/

namespace Ventstream.Meilisearch

open Core Library Library.Runs
open Json (Value Fields)

def utf8 (text : String) : List Nat :=
  text.toList.flatMap fun char => (String.utf8EncodeChar char).map UInt8.toNat

def base64Digit (digit : Nat) : Char :=
  ("ABCDEFGHIJKLMNOPQRSTUVWXYZabcdefghijklmnopqrstuvwxyz0123456789-_".toList[digit]?).getD 'A'

/-- Base64 in the alphabet for URLs, without padding. -/
def base64Url : List Nat → List Char
  | [] => []
  | [first] => [base64Digit (first / 4), base64Digit (first % 4 * 16)]
  | [first, second] =>
    [base64Digit (first / 4), base64Digit (first % 4 * 16 + second / 16),
      base64Digit (second % 16 * 4)]
  | first :: second :: third :: rest =>
    [base64Digit (first / 4), base64Digit (first % 4 * 16 + second / 16),
      base64Digit (second % 16 * 4 + third / 64), base64Digit (third % 64)] ++ base64Url rest

/-- The primary key of a document id; `sha256` is the digest in hex. -/
def encodePrimaryKey (sha256 : String → String) (docId : String) : String :=
  let encoded := base64Url (utf8 docId)
  if encoded.length ≤ 511 then String.ofList encoded else "h-" ++ sha256 docId

def hexDigit (digit : Nat) : Char := ("0123456789ABCDEF".toList[digit]?).getD '0'

def encodeIndexByte (byte : Nat) : List Char :=
  let char := Char.ofNat byte
  if char.isAlphanum || char == '-' then [char]
  else if char == '_' then ['_', '_']
  else ['_', hexDigit (byte / 16), hexDigit (byte % 16)]

def encodeIndexSegment (input : String) : String :=
  String.ofList ((utf8 input).flatMap encodeIndexByte)

example : encodePrimaryKey id "orders:[\"123\"]" = "b3JkZXJzOlsiMTIzIl0" := by decide +kernel

example : encodeIndexSegment "public.or_ders" = "public_2Eor__ders" := by decide +kernel

inductive IndexRouting where
  | byOutputRelation
  | byProjectionTarget
  | fixed (index : String)

structure Config where
  indexRouting : IndexRouting
  indexPrefix : String
  primaryKeyField : String
  batching : Limits
  /-- The SHA-256 digest of a text, in hex. -/
  sha256 : String → String

def Config.primaryKey (cfg : Config) (docId : String) : String :=
  encodePrimaryKey cfg.sha256 docId

section

variable (cfg : Config)

def requireHeader (ev : SinkEvent) (header : String) : Except String String :=
  ev.routingHeader "event" header "index routing"

def resolveIndex (ev : SinkEvent) : Except String String := do
  let target ← match cfg.indexRouting with
    | .byOutputRelation => requireHeader ev "ventstream.cdc.relation"
    | .byProjectionTarget => requireHeader ev "ventstream.target.index"
    | .fixed index => .ok index
  if target.isEmpty then .error ("event " ++ ev.id ++ " routed to an empty index name")
  else .ok (cfg.indexPrefix ++ encodeIndexSegment target)

def requiredDocId (ev : SinkEvent) : Except String String := ev.stableId "Meilisearch"

def buildDocument (ev : SinkEvent) (primaryKey docId : String) : Except String Fields := do
  let fields ← ev.objectPayload "Meilisearch"
  .ok ((fields.set cfg.primaryKeyField (.string primaryKey)).set "_vs_id" (.string docId))

inductive RunKind where
  | upsert | delete | truncate
  deriving DecidableEq

structure Call where
  indexUid : String
  kind : RunKind
  deriving DecidableEq

inductive Operation where
  | upsert (document : Fields)
  | delete (primaryKey : String)
  | truncate

structure Translated where
  runs : List (Run Call Operation)
  rejects : List (Nat × String)

def Translated.reject (translated : Translated) (offset : Nat) (error : String) : Translated :=
  { translated with rejects := translated.rejects ++ [(offset, error)] }

def Translated.push (translated : Translated) (operation : Placed Call Operation) (bytes : Nat) :
    Translated :=
  { translated with runs := Runs.push operation bytes translated.runs }

/-- Into the last run, if that is on the same index and of the same class. -/
def Translated.add (translated : Translated) (operation : Placed Call Operation) (bytes : Nat) :
    Translated :=
  { translated with
    runs := Runs.add cfg.batching (· == operation.kind) operation bytes translated.runs }

def documentBytes (document : Fields) : Nat := (Json.render (.object document)).utf8ByteSize + 2

def oversized (bytes : Nat) : String :=
  "document encodes to " ++ toString bytes ++ " bytes, exceeding max_bytes=" ++
    toString cfg.batching.maxBytes

def keyBytes (primaryKey : String) : Nat := primaryKey.utf8ByteSize + 4

/-- The delete of the previous key of a relocated document, a run of its own. -/
def relocate (translated : Translated) (offset : Nat) (ev : SinkEvent) (indexUid : String) :
    Translated :=
  match ev.headers["ventstream.doc.old_id"]? with
  | none => translated
  | some oldId =>
    let oldKey := cfg.primaryKey oldId
    translated.push ⟨⟨indexUid, .delete⟩, offset, .delete oldKey⟩ (keyBytes oldKey)

def translateUpsert (translated : Translated) (offset : Nat) (ev : SinkEvent)
    (indexUid docId : String) : Translated :=
  -- the delete of the old key is enqueued before the document is built
  let translated := relocate cfg translated offset ev indexUid
  match buildDocument cfg ev (cfg.primaryKey docId) docId with
  | .error error => translated.reject offset error
  | .ok document =>
    let bytes := documentBytes document
    if cfg.batching.maxBytes < bytes then
      translated.reject offset (oversized cfg bytes)
    else translated.add cfg ⟨⟨indexUid, .upsert⟩, offset, .upsert document⟩ bytes

def translateEvent (translated : Translated) (entry : SinkEvent × Nat) : Translated :=
  let (ev, offset) := entry
  match resolveIndex cfg ev with
  | .error error => translated.reject offset error
  | .ok indexUid =>
    if ev.endsWith "truncate" then
      translated.push ⟨⟨indexUid, .truncate⟩, offset, .truncate⟩ 0
    else
      match requiredDocId ev with
      | .error error => translated.reject offset error
      | .ok docId =>
        if ev.endsWith "delete" then
          let primaryKey := cfg.primaryKey docId
          translated.add cfg ⟨⟨indexUid, .delete⟩, offset, .delete primaryKey⟩
            (keyBytes primaryKey)
        else translateUpsert cfg translated offset ev indexUid docId

def translateBatch (evs : List SinkEvent) : Translated :=
  evs.zipIdx.foldl (translateEvent cfg) ⟨[], []⟩

end

section

variable (cfg : Config) (ev : SinkEvent)

/-- The delete of the previous key, if the event has one. -/
def oldDelete (indexUid : String) : List (Call × Operation) :=
  match ev.headers["ventstream.doc.old_id"]? with
  | none => []
  | some oldId => [(⟨indexUid, .delete⟩, .delete (cfg.primaryKey oldId))]

def checkedDocument (docId : String) : Except String Fields := do
  let document ← buildDocument cfg ev (cfg.primaryKey docId) docId
  if cfg.batching.maxBytes < documentBytes document then
    .error (oversized cfg (documentBytes document))
  else .ok document

/-- What an event asks for, in order, or why it is rejected. -/
def operationsOf : Except String (List (Call × Operation)) := do
  let indexUid ← resolveIndex cfg ev
  if ev.endsWith "truncate" then .ok [(⟨indexUid, .truncate⟩, .truncate)]
  else
    let docId ← requiredDocId ev
    if ev.endsWith "delete" then
      .ok [(⟨indexUid, .delete⟩, .delete (cfg.primaryKey docId))]
    else
      let document ← checkedDocument cfg ev docId
      .ok (oldDelete cfg ev indexUid ++ [(⟨indexUid, .upsert⟩, .upsert document)])

/-- What an accepted event asks for. -/
def asked : List (Call × Operation) :=
  match operationsOf cfg ev with
  | .ok operations => operations
  | .error _ => []

/-- What is enqueued for an event before it is rejected. -/
def stray : List (Call × Operation) :=
  match resolveIndex cfg ev, requiredDocId ev with
  | .ok indexUid, .ok docId =>
    if ev.endsWith "truncate" || ev.endsWith "delete" then []
    else
      match checkedDocument cfg ev docId with
      | .ok _ => []
      | .error _ => oldDelete cfg ev indexUid
  | _, _ => []

def refusal : Option String :=
  match operationsOf cfg ev with
  | .ok _ => none
  | .error error => some error

def placedAt (operations : SinkEvent → List (Call × Operation)) (entry : SinkEvent × Nat) :
    List (Placed Call Operation) :=
  (operations entry.1).map fun operation => ⟨operation.1, entry.2, operation.2⟩

variable {cfg ev} {translated : Translated} {offset : Nat}

theorem placed_translated_add :
    placed (translated.add cfg operation bytes).runs = placed translated.runs ++ [operation] ∧
      (translated.add cfg operation bytes).rejects = translated.rejects := by
  refine ⟨?_, rfl⟩
  unfold Translated.add
  dsimp only
  apply placed_add
  intro run _ same
  exact eq_of_beq same

theorem placed_relocate :
    placed (relocate cfg translated offset ev indexUid).runs = placed translated.runs ++
      (oldDelete cfg ev indexUid).map (fun operation => ⟨operation.1, offset, operation.2⟩) ∧
    (relocate cfg translated offset ev indexUid).rejects = translated.rejects := by
  unfold relocate oldDelete
  cases ev.headers["ventstream.doc.old_id"]? with
  | none => exact ⟨(List.append_nil _).symm, rfl⟩
  | some oldId => exact ⟨placed_push, rfl⟩

/-- An event adds its operations to the runs, or what is left over of it and a rejection. -/
theorem translateEvent_adds (entry : SinkEvent × Nat) :
    placed (translateEvent cfg translated entry).runs = placed translated.runs ++
      placedAt (fun ev => asked cfg ev ++ stray cfg ev) entry ∧
    (translateEvent cfg translated entry).rejects = translated.rejects ++
      ((refusal cfg entry.1).map fun error => (entry.2, error)).toList := by
  obtain ⟨ev, offset⟩ := entry
  unfold translateEvent placedAt asked stray refusal operationsOf
  dsimp only
  cases isIndex : resolveIndex cfg ev with
  | error error => simp [Translated.reject, bind, Except.bind]
  | ok indexUid =>
    by_cases isTruncate : ev.endsWith "truncate"
    · cases requiredDocId ev <;>
        simp [isTruncate, Translated.push, bind, Except.bind]
    · cases isId : requiredDocId ev with
      | error error => simp [isTruncate, Translated.reject, bind, Except.bind]
      | ok docId =>
        by_cases isDelete : ev.endsWith "delete"
        · simp [isTruncate, isDelete, placed_translated_add, bind, Except.bind]
        · have relocated := @placed_relocate cfg ev translated offset indexUid
          simp only [isTruncate, isDelete, bind, Except.bind, translateUpsert, checkedDocument]
          cases buildDocument cfg ev (cfg.primaryKey docId) docId with
          | error error => simp [Translated.reject, relocated]
          | ok document =>
            by_cases isLarge : cfg.batching.maxBytes < documentBytes document
            · simp [isLarge, Translated.reject, relocated]
            · simp [isLarge, placed_translated_add, relocated]

theorem stray_of_accepted (isOk : operationsOf cfg ev = .ok operations) : stray cfg ev = [] := by
  unfold stray
  split
  · rename_i indexUid docId isIndex isId
    split
    · rfl
    · rename_i isUpsert
      simp only [Bool.or_eq_true, not_or, Bool.not_eq_true] at isUpsert
      split
      · rfl
      · rename_i error isError
        simp [operationsOf, isIndex, isId, isUpsert, isError, bind, Except.bind] at isOk
  · rfl

/-- The runs hold what the events ask for and what is left over of rejected ones, in order. -/
theorem placed_translateBatch (evs : List SinkEvent) :
    placed (translateBatch cfg evs).runs = evs.zipIdx.flatMap
      (placedAt fun ev => asked cfg ev ++ stray cfg ev) := by
  apply foldl_collects (fun translated : Translated => placed translated.runs)
  intro translated entry
  exact (translateEvent_adds entry).1

theorem rejects_translateBatch (evs : List SinkEvent) :
    (translateBatch cfg evs).rejects = evs.zipIdx.flatMap fun entry =>
      ((refusal cfg entry.1).map fun error => (entry.2, error)).toList := by
  apply foldl_collects Translated.rejects
  intro translated entry
  exact (translateEvent_adds entry).2

end

end Ventstream.Meilisearch
