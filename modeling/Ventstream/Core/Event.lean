import Ventstream.Library.Json

/-! # Events

The parts of `event.rs` and `doc_id.rs` that the join engine reads and writes: a
subject of dot-separated segments, string headers, and a payload. A payload is
what reading its bytes as JSON gives, a value or the reader's complaint.
-/

namespace Ventstream.Core

open Json (Value Fields)

/-- The pieces of a text between dots; the empty text is one empty piece. -/
def segments (text : String) : List String :=
  (text.toList.splitOn '.').map String.ofList

def isSegment (segment : String) : Bool :=
  !segment.isEmpty && segment.toList.all fun char => char.isAlphanum || char == '_' || char == '-'

/-- A nonempty dotted text whose segments are ASCII identifiers. -/
structure Subject where
  text : String
  wellFormed : (segments text).all isSegment = true
  deriving DecidableEq

namespace Subject

def ofText (text : String) : Option Subject :=
  if wellFormed : (segments text).all isSegment = true then some ⟨text, wellFormed⟩ else none

/-- Everything before the last dot, or the whole text without one. -/
def base (text : String) : String :=
  match text.toList.reverse.dropWhile (· != '.') with
  | [] => text
  | _ :: front => String.ofList front.reverse

/-- The subject with `delete` as its operation. -/
def toDelete (subject : Subject) : Subject :=
  (ofText (base subject.text ++ ".delete")).getD subject

end Subject

theorem segments_append_dot (left right : String) :
    segments (left ++ "." ++ right) = segments left ++ segments right := by
  simp [segments, String.toList_append, List.splitOn_append_cons_self]

abbrev Headers := Std.ExtTreeMap String String

structure Event where
  subject : Subject
  headers : Headers
  payload : Except String Value

/-- An event of a batch. Besides what reading its payload as JSON gives there is the payload as it
    came. -/
structure SinkEvent extends Event where
  id : String
  bytes : String

/-- Whether the last segment of the subject, after a dot, is this operation. -/
def Event.endsWith (ev : Event) (operation : String) : Bool :=
  ("." ++ operation).toList.isSuffixOf ev.subject.text.toList

def isControl (char : Char) : Bool := char.toNat < 32 || (127 ≤ char.toNat && char.toNat < 160)

/-- The row of a flat update, out of its `new` and `old` envelope. -/
def Event.updateRow (ev : Event) : Option Value :=
  if ev.endsWith "update" then
    match ev.payload with
    | .ok payload => (payload.get? "new").filter (·.isObject)
    | .error _ => none
  else none

def isBadId (docId : String) : Bool := docId.isEmpty || docId.toList.any isControl

namespace SinkEvent

variable (ev : SinkEvent)

/-- A header that the event is routed by. -/
def routingHeader (what header purpose : String) : Except String String :=
  match ev.headers[header]? with
  | some value => .ok value
  | none => .error (what ++ " " ++ ev.id ++ " has no `" ++ header ++ "` for " ++ purpose)

/-- The id of the document in a sink. -/
def stableId (sink : String) : Except String String :=
  match ev.headers["ventstream.doc.id"]? with
  | none => .error ("event " ++ ev.id ++ " has no `ventstream.doc.id`; " ++ sink ++
      " materialization requires a stable document id")
  | some docId =>
    if isBadId docId then
      .error ("event " ++ ev.id ++ " has an empty or control-character `ventstream.doc.id`")
    else .ok docId

/-- The object that a sink makes a document of. -/
def objectPayload (sink : String) : Except String Fields :=
  match ev.payload with
  | .error complaint =>
    .error ("event " ++ ev.id ++ " payload is not valid JSON: " ++ complaint)
  | .ok parsed =>
    match (ev.updateRow.getD parsed).asObject with
    | none => .error ("event " ++ ev.id ++ " payload is not a JSON object; " ++ sink ++
        " documents must be objects")
    | some fields => .ok fields

end SinkEvent

/-- A decimal number below `2 ^ 64`, with or without a plus sign. -/
def parseU64 (text : String) : Option Nat :=
  let digits := match text.toList with
    | '+' :: rest => rest
    | chars => chars
  if digits.isEmpty || !digits.all Char.isDigit then none
  else
    let value := digits.foldl (fun value char => 10 * value + (char.toNat - '0'.toNat)) 0
    if value < 2 ^ 64 then some value else none

theorem parseU64_toString (bounded : value < 2 ^ 64) : parseU64 (toString value) = some value := by
  have digits : (toString value).toList = Nat.toDigits 10 value := by
    rw [Nat.toString_eq_ofList_toDigits, String.toList_ofList]
  have allDigits : ∀ char ∈ Nat.toDigits 10 value, char.isDigit :=
    fun char mem => Nat.isDigit_of_mem_toDigits (by decide) (by decide) mem
  have folded : (Nat.toDigits 10 value).foldl
      (fun value char => 10 * value + (char.toNat - '0'.toNat)) 0 = value :=
    Nat.ofDigitChars_ten_toDigits
  unfold parseU64
  rw [digits]
  split
  · rename_i rest isPlus
    have plus := allDigits '+' (by simp [isPlus])
    exact absurd plus (by decide)
  · simp only [folded]
    simp [Nat.toDigits_ne_nil, List.all_eq_true.mpr allDigits]
    omega

/-- The text form of one primary-key component: strings as they are, the rest as JSON. -/
def componentText : Value → String
  | .string text => text
  | other => Json.render other

/-- The canonical id of a document: the table and the JSON array of the components. -/
def docId (table : String) (components : List String) : String :=
  table ++ ":" ++ Json.render (.array (components.map .string))

theorem toList_docId (table : String) (components : List String) : (docId table components).toList =
    table.toList ++ ':' :: Json.chars (.array (components.map .string)) := by
  simp [docId, Json.render]

theorem docId_inj
    (same : docId table components = docId other others) : table = other ∧ components = others := by
  have texts := congrArg String.toList same
  rw [toList_docId, toList_docId] at texts
  obtain ⟨tables, arrays⟩ := (Json.closed_strings components).split_unique
    (Json.closed_strings others) texts
  refine ⟨String.toList_inj.mp tables, ?_⟩
  have read : Json.stringArray (Json.render (.array (components.map .string))) =
      Json.stringArray (Json.render (.array (others.map .string))) :=
    congrArg (fun text => Json.stringArray (String.ofList text)) arrays
  rw [Json.stringArray_render, Json.stringArray_render] at read
  exact Option.some.inj read

/-- The key that a document id and a row of the source are compared by. -/
def pkKey : List String → Option String
  | [] => none
  | [single] => some single
  | many => some (Json.render (.array (many.map .string)))

def componentsFromJson : Value → List String
  | .array items => items.map componentText
  | _ => []

example : Subject.base "postgres.public.users.insert" = "postgres.public.users" := by decide

end Ventstream.Core
