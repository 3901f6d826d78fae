import Mathlib

/-! # JSON values and their text

Objects keep their fields in insertion order: setting a field that is present
replaces its value in place, a new one goes to the end. A number is its text
together with the position of its value among the doubles, which is all that
comparing two numbers looks at.

The text of a list of strings can be read back: its parser is the one part of a
JSON reader that the text of a key depends on. Such a text closes all its quotes and
brackets, so that it can be told from what stands before it and a colon.
-/

namespace Ventstream.Json

open List

structure Number where
  text : String
  order : Int
  deriving DecidableEq, Repr

inductive Value where
  | null
  | bool (value : Bool)
  | number (value : Number)
  | string (value : String)
  | array (items : List Value)
  | object (fields : List (String × Value))

mutual

def Value.decEq : (left right : Value) → Decidable (left = right)
  | .null, .null => isTrue rfl
  | .bool left, .bool right => decidable_of_iff (left = right) (by simp)
  | .number left, .number right => decidable_of_iff (left = right) (by simp)
  | .string left, .string right => decidable_of_iff (left = right) (by simp)
  | .array left, .array right =>
    have := Value.decEqItems left right
    decidable_of_iff (left = right) (by simp)
  | .object left, .object right =>
    have := Value.decEqFields left right
    decidable_of_iff (left = right) (by simp)
  | .null, .bool _ | .null, .number _ | .null, .string _ | .null, .array _ | .null, .object _
  | .bool _, .null | .bool _, .number _ | .bool _, .string _ | .bool _, .array _
  | .bool _, .object _ | .number _, .null | .number _, .bool _ | .number _, .string _
  | .number _, .array _ | .number _, .object _ | .string _, .null | .string _, .bool _
  | .string _, .number _ | .string _, .array _ | .string _, .object _ | .array _, .null
  | .array _, .bool _ | .array _, .number _ | .array _, .string _ | .array _, .object _
  | .object _, .null | .object _, .bool _ | .object _, .number _ | .object _, .string _
  | .object _, .array _ => isFalse nofun

def Value.decEqItems : (left right : List Value) → Decidable (left = right)
  | [], [] => isTrue rfl
  | [], _ :: _ | _ :: _, [] => isFalse nofun
  | first :: left, second :: right =>
    have := Value.decEq first second
    have := Value.decEqItems left right
    decidable_of_iff (first = second ∧ left = right) (by simp)

def Value.decEqFields : (left right : List (String × Value)) → Decidable (left = right)
  | [], [] => isTrue rfl
  | [], _ :: _ | _ :: _, [] => isFalse nofun
  | (name, first) :: left, (other, second) :: right =>
    have := Value.decEq first second
    have := Value.decEqFields left right
    decidable_of_iff ((name = other ∧ first = second) ∧ left = right) (by simp)

end

instance : DecidableEq Value := Value.decEq

abbrev Fields := List (String × Value)

namespace Fields

def get? (name : String) : Fields → Option Value
  | [] => none
  | (key, value) :: rest => if key = name then some value else get? name rest

def set (name : String) (value : Value) : Fields → Fields
  | [] => [(name, value)]
  | (key, old) :: rest =>
    if key = name then (key, value) :: rest else (key, old) :: set name value rest

def remove (name : String) (fields : Fields) : Fields := fields.filter fun field => field.1 ≠ name

/-- Set every field of `new`, in order. -/
def merge (base new : Fields) : Fields :=
  new.foldl (fun fields field => set field.1 field.2 fields) base

theorem get?_set (name other : String) (value : Value) (fields : Fields) :
    get? other (set name value fields) =
      if name = other then some value else get? other fields := by
  induction fields with
  | nil => rfl
  | cons field rest ih =>
    obtain ⟨key, old⟩ := field
    by_cases same : key = name
    · subst same
      by_cases found : key = other <;> simp [set, get?, found]
    · by_cases found : key = other
      · subst found
        have different : ¬ name = key := fun equal => same equal.symm
        simp [set, get?, same, different]
      · simp [set, get?, same, found, ih]

section

/-- The value that the last field of this name has. -/
def last? (name : String) : Fields → Option Value
  | [] => none
  | (key, value) :: rest => (last? name rest).or (if key = name then some value else none)

variable {fields : Fields}

theorem last?_eq_none (absent : name ∉ fields.map (·.1)) : last? name fields = none := by
  induction fields with
  | nil => rfl
  | cons field rest ih =>
    simp only [map_cons, mem_cons, not_or] at absent
    rw [last?, ih absent.2, if_neg (Ne.symm absent.1)]
    rfl

/-- Merging goes through the base field by field; new fields go to the end. -/
theorem merge_cons (key : String) (value : Value) (rest new : Fields) :
    merge ((key, value) :: rest) new =
      (key, (last? key new).getD value) :: merge rest (new.filter fun field => field.1 ≠ key) := by
  induction new generalizing value rest with
  | nil => rfl
  | cons field more ih =>
    obtain ⟨name, fresh⟩ := field
    by_cases same : key = name
    · subst same
      have replaced : merge ((key, value) :: rest) ((key, fresh) :: more) =
          merge ((key, fresh) :: rest) more := by simp [merge, set]
      rw [replaced, ih]
      cases found : last? key more <;> simp [last?, found]
    · have passed : merge ((key, value) :: rest) ((name, fresh) :: more) =
          merge ((key, value) :: set name fresh rest) more := by simp [merge, set, same]
      have other : ¬ name = key := fun equal => same equal.symm
      rw [passed, ih]
      simp [last?, other, merge]

theorem merge_merge (base new : Fields) : merge (merge base new) new = merge base new := by
  induction base generalizing new with
  | cons field rest ih =>
    obtain ⟨key, value⟩ := field
    rw [merge_cons, merge_cons, ih]
    cases last? key new <;> rfl
  | nil =>
    induction size : new.length using Nat.strongRecOn generalizing new with
    | ind length ih =>
      cases new with
      | nil => rfl
      | cons field more =>
        obtain ⟨key, value⟩ := field
        have smaller : (more.filter fun field => field.1 ≠ key).length < length := by
          have bound := length_filter_le (fun field : String × Value => decide (field.1 ≠ key)) more
          simp only [length_cons] at size
          omega
        have once : merge [] ((key, value) :: more) = (key, (last? key more).getD value) ::
              merge [] (more.filter fun field => field.1 ≠ key) :=
          merge_cons key value [] more
        have others : (((key, value) :: more).filter fun field => field.1 ≠ key) =
            more.filter fun field => field.1 ≠ key := by simp
        rw [once, merge_cons, others, ih _ smaller _ rfl]
        cases found : last? key more <;> simp [last?, found]

theorem merge_self (distinct : (fields.map (·.1)).Nodup) : merge fields fields = fields := by
  induction fields with
  | nil => rfl
  | cons field rest ih =>
    obtain ⟨key, value⟩ := field
    obtain ⟨fresh, distinct⟩ := nodup_cons.mp distinct
    have others : ((key, value) :: rest).filter (fun field => field.1 ≠ key) = rest := by
      rw [filter_cons_of_neg (by simp), filter_eq_self]
      intro other mem
      simpa using ne_of_mem_of_not_mem (mem_map_of_mem mem) fresh
    rw [merge_cons, others, ih distinct]
    cases found : last? key rest with
    | none => simp [last?, found]
    | some other =>
      have nothing : last? key rest = none := last?_eq_none fresh
      simp [nothing] at found

end

end Fields

namespace Value

def asObject : Value → Option Fields
  | .object fields => some fields
  | _ => none

def isObject (value : Value) : Bool := value.asObject.isSome

def get? (value : Value) (name : String) : Option Value :=
  match value with
  | .object fields => Fields.get? name fields
  | _ => none

theorem isObject_iff : value.isObject ↔ ∃ fields, value = object fields := by
  cases value <;> simp [isObject, asObject]

end Value

/-- The hexadecimal digit of a number below sixteen. -/
def hexDigit (digit : Nat) : Char := ("0123456789abcdef".toList[digit]?).getD '0'

def hexValue (digit : Char) : Option Nat :=
  "0123456789abcdef".toList.findIdx? (· == digit)

/-- A character as it stands between the quotes of a JSON string. -/
def escape (char : Char) : List Char :=
  match char.toNat with
  | 34 => ['\\', '"']
  | 92 => ['\\', '\\']
  | 8 => ['\\', 'b']
  | 12 => ['\\', 'f']
  | 10 => ['\\', 'n']
  | 13 => ['\\', 'r']
  | 9 => ['\\', 't']
  | code =>
    if code < 32 then ['\\', 'u', '0', '0', hexDigit (code / 16), hexDigit (code % 16)]
    else [char]

def quote (text : List Char) : List Char :=
  '"' :: (text.flatMap escape ++ ['"'])

mutual

def chars : Value → List Char
  | .null => "null".toList
  | .bool true => "true".toList
  | .bool false => "false".toList
  | .number number => number.text.toList
  | .string text => quote text.toList
  | .array items => '[' :: (charsOfItems items ++ [']'])
  | .object fields => '\x7b' :: (charsOfFields fields ++ ['\x7d'])

def charsOfItems : List Value → List Char
  | [] => []
  | [item] => chars item
  | item :: rest => chars item ++ ',' :: charsOfItems rest

def charsOfFields : List (String × Value) → List Char
  | [] => []
  | [(name, value)] => quote name.toList ++ ':' :: chars value
  | (name, value) :: rest => quote name.toList ++ ':' :: (chars value ++ ',' :: charsOfFields rest)

end

def render (value : Value) : String := String.ofList (chars value)

/-- The character a one-letter escape stands for. -/
def unescape (letter : Char) : Option Char :=
  match letter with
  | '"' => some '"'
  | '\\' => some '\\'
  | '/' => some '/'
  | 'b' => some (Char.ofNat 8)
  | 'f' => some (Char.ofNat 12)
  | 'n' => some '\n'
  | 'r' => some '\r'
  | 't' => some '\t'
  | _ => none

def unescapeHex (first second third fourth : Char) : Option Char := do
  let a ← hexValue first
  let b ← hexValue second
  let c ← hexValue third
  let d ← hexValue fourth
  some (Char.ofNat (((a * 16 + b) * 16 + c) * 16 + d))

/-- The rest of a string after its opening quote, and what follows it. -/
def stringBody : List Char → Option (List Char × List Char)
  | [] => none
  | '"' :: rest => some ([], rest)
  | '\\' :: 'u' :: a :: b :: c :: d :: rest => do
      let char ← unescapeHex a b c d
      let (text, after) ← stringBody rest
      some (char :: text, after)
  | '\\' :: letter :: rest => do
      let char ← unescape letter
      let (text, after) ← stringBody rest
      some (char :: text, after)
  | char :: rest => do
      let (text, after) ← stringBody rest
      some (char :: text, after)

/-- The strings after a comma of an array, up to its closing bracket. Each string read takes
    at least the comma away, which is what `fuel` counts. -/
def stringItems : Nat → List Char → Option (List String)
  | _, [']'] => some []
  | fuel + 1, ',' :: '"' :: rest => do
      let (text, after) ← stringBody rest
      let texts ← stringItems fuel after
      some (String.ofList text :: texts)
  | _, _ => none

/-- The strings of an array of strings. -/
def stringArray (text : String) : Option (List String) :=
  match text.toList with
  | ['[', ']'] => some []
  | '[' :: rest => stringItems (rest.length + 1) (',' :: rest)
  | _ => none

/-- The three forms an escaped character has. -/
inductive Escaped (char : Char) : List Char → Prop where
  | plain : char ≠ '"' → char ≠ '\\' → Escaped char [char]
  | letter {letter : Char} :
      letter ≠ 'u' → unescape letter = some char → Escaped char ['\\', letter]
  | hex {a b c d : Char} : unescapeHex a b c d = some char → Escaped char ['\\', 'u', a, b, c, d]

theorem unescapeHex_control : ∀ code < 32,
    unescapeHex '0' '0' (hexDigit (code / 16)) (hexDigit (code % 16)) =
      some (Char.ofNat code) := by
  decide

theorem escape_escaped (char : Char) : Escaped char (escape char) := by
  have named : Char.ofNat char.toNat = char := Char.ofNat_toNat char
  unfold escape
  split
  case h_8 =>
    split
    case isTrue small =>
      apply Escaped.hex
      rw [unescapeHex_control char.toNat small, named]
    case isFalse =>
      apply Escaped.plain
      · rintro rfl
        contradiction
      · rintro rfl
        contradiction
  all_goals
    rename_i code
    rw [code] at named
    subst named
    exact Escaped.letter (by decide) (by decide)

theorem Escaped.stringBody (escaped : Escaped char text) (tail : List Char) :
    stringBody (text ++ tail) =
      (stringBody tail).map fun body => (char :: body.1, body.2) := by
  cases escaped
  case plain _ notSlash =>
    cases body : Json.stringBody tail <;> simp [Json.stringBody, notSlash, body]
  case letter notHex named =>
    cases body : Json.stringBody tail <;> simp [Json.stringBody, notHex, named, body]
  case hex named =>
    cases body : Json.stringBody tail <;> simp [Json.stringBody, named, body]

theorem stringBody_flatMap_escape (text tail : List Char) :
    stringBody (text.flatMap escape ++ '"' :: tail) = some (text, tail) := by
  induction text with
  | nil => simp [stringBody]
  | cons char rest ih =>
    simp [(escape_escaped char).stringBody, ih]

theorem stringItems_chars (texts : List String) : ∀ fuel, texts.length ≤ fuel →
      stringItems fuel ((texts.flatMap fun text => ',' :: quote text.toList) ++ [']']) =
        some texts := by
  induction texts with
  | nil => intro fuel _; simp [stringItems]
  | cons text rest ih =>
    intro fuel enough
    cases fuel with
    | zero => simp at enough
    | succ fuel =>
      have remaining := ih fuel (by simpa using enough)
      simp [quote, stringItems, stringBody_flatMap_escape] at remaining ⊢
      simp [remaining]

theorem charsOfItems_cons (item : Value) (rest : List Value) : ',' :: charsOfItems (item :: rest) =
      (item :: rest).flatMap fun item => ',' :: chars item := by
  induction rest generalizing item with
  | nil => simp [charsOfItems]
  | cons next rest ih =>
    have following := ih next
    simp only [charsOfItems]
    simp [following]

theorem length_chars_lt {fields : Fields} (found : fields.get? name = some value) :
    (chars value).length < (charsOfFields fields).length := by
  induction fields with
  | nil => cases found
  | cons field rest ih =>
    unfold Fields.get? at found
    split at found
    · cases found
      cases rest <;> simp [charsOfFields] <;> omega
    · have shorter := ih found
      cases rest with
      | nil => cases found
      | cons next others =>
        simp only [charsOfFields, length_append, length_cons]
        omega

theorem flatMap_strings (texts : List String) :
    (texts.map Value.string).flatMap (fun item => ',' :: chars item) =
      texts.flatMap fun text => ',' :: quote text.toList := by
  simp [flatMap_map, chars]

theorem length_le_items (texts : List String) :
    texts.length ≤ (texts.flatMap fun text => ',' :: quote text.toList).length := by
  induction texts with
  | nil => simp
  | cons text rest ih =>
    simp only [flatMap_cons, length_append, length_cons]
    omega

theorem stringArray_render (texts : List String) :
    stringArray (render (.array (texts.map .string))) = some texts := by
  cases texts with
  | nil => rfl
  | cons text rest =>
    have items := (charsOfItems_cons (.string text) (rest.map .string)).trans
      (flatMap_strings (text :: rest))
    have long := length_le_items (text :: rest)
    rw [← items] at long
    have read := stringItems_chars (text :: rest)
      ((charsOfItems (.string text :: rest.map .string) ++ [']']).length + 1)
      (by simp only [length_append, length_cons] at long ⊢; omega)
    rw [← items] at read
    cases shape : charsOfItems (.string text :: rest.map .string) with
    | nil =>
      rw [shape] at items
      simp [quote] at items
    | cons char tail =>
      rw [shape] at read
      simp only [stringArray, render, map_cons, chars, String.toList_ofList, shape]
      simpa using read

theorem stringArray_map_render (texts : List String) :
    ((stringArray (render (.array (texts.map .string)))).map fun texts =>
      Value.array (texts.map .string)) = some (.array (texts.map .string)) := by
  simp [stringArray_render]

section

/-- Where a reader of JSON text stands: behind a backslash, between quotes, in how many
    brackets. -/
structure Place where
  escaped : Bool
  quoted : Bool
  depth : Int

namespace Place

def outside : Place := ⟨false, false, 0⟩

def next (place : Place) (char : Char) : Place :=
  if place.escaped then { place with escaped := false }
  else if char = '\\' then { place with escaped := true }
  else if char = '"' then { place with quoted := !place.quoted }
  else if place.quoted then place
  else if char = '[' ∨ char = '\x7b' then { place with depth := place.depth + 1 }
  else if char = ']' ∨ char = '\x7d' then { place with depth := place.depth - 1 }
  else place

def after (place : Place) (text : List Char) : Place := text.foldl next place

/-- No colon of the text is outside of all quotes and brackets. -/
def ColonsInside : Place → List Char → Prop
  | _, [] => True
  | place, char :: rest =>
    (char = ':' → place.next char ≠ outside) ∧ (place.next char).ColonsInside rest

variable {place : Place} {front back : List Char}

@[simp] theorem after_nil : place.after [] = place := rfl

@[simp] theorem after_cons (char : Char) (rest : List Char) :
    place.after (char :: rest) = (place.next char).after rest := rfl

@[simp] theorem after_append : place.after (front ++ back) = (place.after front).after back :=
  foldl_append

theorem colonsInside_append : place.ColonsInside (front ++ back) ↔
    place.ColonsInside front ∧ (place.after front).ColonsInside back := by
  induction front generalizing place with
  | nil => simp [ColonsInside]
  | cons char rest ih => simp [ColonsInside, ih, and_assoc]

/-- The depth at the start is added to the depth at the end. -/
theorem after_deeper (depth : Int) (text : List Char) :
    after ⟨place.escaped, place.quoted, place.depth + depth⟩ text =
      ⟨(place.after text).escaped, (place.after text).quoted, (place.after text).depth + depth⟩ := by
  induction text generalizing place with
  | nil => rfl
  | cons char rest ih =>
    rw [after_cons, after_cons, ← ih]
    congr 1
    grind [next]

/-- Between quotes a text leaves the reader where it does not outside of them. -/
theorem after_flipped {other : Place} (text : List Char) (escaped : place.escaped = other.escaped)
    (quoted : place.quoted = !other.quoted) :
    (place.after text).escaped = (other.after text).escaped ∧
      (place.after text).quoted = !(other.after text).quoted := by
  induction text generalizing place other with
  | nil => exact ⟨escaped, quoted⟩
  | cons char rest ih =>
    refine ih ?_ ?_ <;> grind [next]

end Place

/-- A text with all its quotes and brackets closed and every colon in one of them, as every text
    that is JSON. -/
structure Closed (text : List Char) : Prop where
  ends : Place.outside.after text = .outside
  colons : Place.outside.ColonsInside text

variable {front back : List Char}

theorem Closed.not_behind_colon (closed : Closed (front ++ ':' :: back)) : ¬ Closed back := by
  intro ⟨ends, _⟩
  obtain ⟨escaped, inside⟩ : ((Place.outside.after front).next ':').escaped = false ∧
      (Place.outside.after front).next ':' ≠ .outside := by
    refine ⟨by grind [Place.next], ?_⟩
    exact (Place.colonsInside_append.mp closed.colons).2.1 rfl
  have whole := closed.ends
  rw [Place.after_append, Place.after_cons] at whole
  generalize (Place.outside.after front).next ':' = place at escaped inside whole
  cases quoted : place.quoted with
  | true =>
    have flipped := (@Place.after_flipped place .outside back escaped quoted).2
    rw [whole, ends] at flipped
    cases flipped
  | false =>
    have deeper := Place.outside.after_deeper place.depth back
    obtain ⟨_, _, depth⟩ := place
    cases escaped
    cases quoted
    simp only [Place.outside, Int.zero_add] at deeper ends whole inside
    simp_all

/-- The colon between a text and a closed one can be found again. -/
theorem Closed.split_unique (closed : Closed back) (otherClosed : Closed rest)
    (same : front ++ ':' :: back = other ++ ':' :: rest) : front = other ∧ back = rest := by
  rcases append_eq_append_iff.mp same with ⟨between, isOther, isBack⟩ | ⟨between, isFront, isRest⟩
  · cases between with
    | nil => simp_all
    | cons char between =>
      obtain ⟨-, rfl⟩ := cons.inj isBack
      exact absurd otherClosed closed.not_behind_colon
  · cases between with
    | nil => simp_all
    | cons char between =>
      obtain ⟨-, rfl⟩ := cons.inj isRest
      exact absurd closed otherClosed.not_behind_colon

theorem hexDigit_plain : ∀ digit < 16, hexDigit digit ≠ '"' ∧ hexDigit digit ≠ '\\' := by decide

theorem closed_escape (depth : Int) (char : Char) :
    Place.after ⟨false, true, depth⟩ (escape char) = ⟨false, true, depth⟩ ∧
      Place.ColonsInside ⟨false, true, depth⟩ (escape char) := by
  unfold escape
  split
  case h_8 code notQuote notSlash _ _ _ _ _ =>
    have plain : char ≠ '"' ∧ char ≠ '\\' := by
      constructor <;> rintro rfl
      · exact notQuote rfl
      · exact notSlash rfl
    split
    · obtain ⟨first, slash⟩ := hexDigit_plain (char.toNat / 16) (by omega)
      obtain ⟨second, otherSlash⟩ := hexDigit_plain (char.toNat % 16) (by omega)
      simp [Place.next, Place.ColonsInside, Place.outside, *]
    · simp [Place.next, Place.ColonsInside, Place.outside, plain]
  all_goals simp [Place.next, Place.ColonsInside, Place.outside]

theorem closed_quote (depth : Int) (text : List Char) :
    Place.after ⟨false, false, depth⟩ (quote text) = ⟨false, false, depth⟩ ∧
      Place.ColonsInside ⟨false, false, depth⟩ (quote text) := by
  have body : Place.after ⟨false, true, depth⟩ (text.flatMap escape) = ⟨false, true, depth⟩ ∧
      Place.ColonsInside ⟨false, true, depth⟩ (text.flatMap escape) := by
    induction text with
    | nil => exact ⟨rfl, trivial⟩
    | cons char rest ih =>
      obtain ⟨ends, colons⟩ := closed_escape depth char
      rw [flatMap_cons, Place.after_append, Place.colonsInside_append, ends]
      exact ⟨ih.1, colons, ih.2⟩
  have opened : Place.next ⟨false, false, depth⟩ '"' = ⟨false, true, depth⟩ := rfl
  rw [quote, Place.after_cons, Place.ColonsInside, opened, Place.after_append,
    Place.colonsInside_append, body.1]
  exact ⟨rfl, nofun, body.2, nofun, trivial⟩

theorem closed_strings (texts : List String) : Closed (chars (.array (texts.map .string))) := by
  have items : Place.after ⟨false, false, 1⟩ (charsOfItems (texts.map .string)) =
        ⟨false, false, 1⟩ ∧
      Place.ColonsInside ⟨false, false, 1⟩ (charsOfItems (texts.map .string)) := by
    induction texts with
    | nil => exact ⟨rfl, trivial⟩
    | cons text rest ih =>
      obtain ⟨ends, colons⟩ := closed_quote 1 text.toList
      cases rest with
      | nil => exact ⟨ends, colons⟩
      | cons other rest =>
        simp only [map_cons, charsOfItems, chars, Place.after_append,
          Place.colonsInside_append, ends]
        exact ⟨ih.1, colons, nofun, ih.2⟩
  have opened : Place.next .outside '[' = ⟨false, false, 1⟩ := rfl
  constructor
  · rw [chars, Place.after_cons, opened, Place.after_append, items.1]
    rfl
  · rw [chars, Place.ColonsInside, opened, Place.colonsInside_append, items.1]
    exact ⟨nofun, items.2, nofun, trivial⟩

/-- What the keys in document ids need of a JSON reader. -/
structure IsReader (fromStr : String → Option Value) : Prop where
  strings : ∀ texts : List String,
    fromStr (render (.array (texts.map .string))) = some (.array (texts.map .string))
  closed : ∀ text value, fromStr text = some value → Closed text.toList

/-- A reader of nothing but arrays of strings as they are rendered. -/
def readStrings (text : String) : Option Value :=
  (stringArray text).bind fun texts =>
    if render (.array (texts.map .string)) = text then some (.array (texts.map .string)) else none

theorem isReader_readStrings : IsReader readStrings where
  strings texts := by simp [readStrings, stringArray_render]
  closed text value isRead := by
    obtain ⟨texts, -, isText⟩ := Option.bind_eq_some_iff.mp isRead
    split at isText
    · rename_i isRendered
      rw [← isRendered, render, String.toList_ofList]
      exact closed_strings texts
    · cases isText

end

end Ventstream.Json
