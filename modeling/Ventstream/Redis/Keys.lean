import Mathlib

/-! # The names of Redis keys

The keys of `keyspace.rs`: a key prefix, what the key is for, the target between braces
and an id. Targets and ids are percent-encoded byte by byte, so that a name says what it
is the name of.
-/

namespace Ventstream.Redis

open List

/-- A byte that stays as it is in a key. -/
def isSafe (byte : UInt8) : Bool :=
  let char := Char.ofNat byte.toNat
  char.isAlphanum || char == '-' || char == '_' || char == '.'

def hexDigit (value : Nat) : Char := (Nat.digitChar value).toUpper

def encodeByte (byte : UInt8) : List Char :=
  if isSafe byte then [Char.ofNat byte.toNat]
  else ['%', hexDigit (byte.toNat / 16), hexDigit (byte.toNat % 16)]

/-- A text of safe bytes is left as it is, which is also what encoding each byte gives. -/
def encodeKeySegment (input : String) : String :=
  String.ofList (input.toUTF8.data.toList.flatMap encodeByte)

theorem toNat_ofNat_byte (byte : UInt8) : (Char.ofNat byte.toNat).toNat = byte.toNat := by
  have bounded := byte.toNat_lt
  have valid : byte.toNat.isValidChar := .inl (by omega)
  rw [Char.ofNat, dif_pos valid]
  rfl

theorem hexDigit_inj (small : value < 16) (otherSmall : other < 16)
    (same : hexDigit value = hexDigit other) : value = other := by
  have all : ∀ first < 16, ∀ second < 16, hexDigit first = hexDigit second → first = second := by
    decide
  exact all value small other otherSmall same

theorem ofNat_ne_percent (safe : isSafe byte) : Char.ofNat byte.toNat ≠ '%' := by
  intro same
  rw [isSafe, same] at safe
  exact absurd safe (by decide)

theorem encodeByte_append_inj (same : encodeByte byte ++ rest = encodeByte other ++ others) :
    byte = other ∧ rest = others := by
  unfold encodeByte at same
  by_cases safe : isSafe byte
  · by_cases otherSafe : isSafe other
    · simp only [safe, otherSafe, if_true, singleton_append, cons.injEq] at same
      have number := congrArg Char.toNat same.1
      rw [toNat_ofNat_byte, toNat_ofNat_byte] at number
      exact ⟨UInt8.toNat_inj.mp number, same.2⟩
    · simp only [safe, otherSafe, if_true, Bool.false_eq_true, if_false, cons_append,
        nil_append, cons.injEq] at same
      exact absurd same.1 (ofNat_ne_percent safe)
  · by_cases otherSafe : isSafe other
    · simp only [safe, otherSafe, if_true, Bool.false_eq_true, if_false, cons_append,
        nil_append, cons.injEq] at same
      exact absurd same.1.symm (ofNat_ne_percent otherSafe)
    · simp only [safe, otherSafe, Bool.false_eq_true, if_false, cons_append, nil_append,
        cons.injEq, true_and] at same
      obtain ⟨high, low, tail⟩ := same
      have bounded := byte.toNat_lt
      have otherBounded := other.toNat_lt
      have sameHigh := hexDigit_inj (by omega) (by omega) high
      have sameLow := hexDigit_inj (by omega) (by omega) low
      exact ⟨UInt8.toNat_inj.mp (by omega), tail⟩

theorem encodeByte_ne_nil (byte : UInt8) : encodeByte byte ≠ [] := by
  unfold encodeByte
  split <;> exact cons_ne_nil _ _

theorem flatMap_encodeByte_injective : Function.Injective (flatMap encodeByte) := by
  intro bytes others same
  induction bytes generalizing others with
  | nil =>
    cases others with
    | nil => rfl
    | cons other rest =>
      rw [flatMap_nil, flatMap_cons] at same
      exact absurd (append_eq_nil_iff.mp same.symm).1 (encodeByte_ne_nil other)
  | cons byte rest ih =>
    cases others with
    | nil =>
      rw [flatMap_nil, flatMap_cons] at same
      exact absurd (append_eq_nil_iff.mp same).1 (encodeByte_ne_nil byte)
    | cons other more =>
      obtain ⟨rfl, tail⟩ := encodeByte_append_inj same
      rw [ih tail]

theorem encodeKeySegment_injective : Function.Injective encodeKeySegment := by
  intro input other same
  have bytes := flatMap_encodeByte_injective (String.ofList_injective same)
  exact String.toByteArray_inj.mp (ByteArray.ext (Array.toList_inj.mp bytes))

section

def isPrefixChar (char : Char) : Bool :=
  char.isAlphanum || char == ':' || char == '_' || char == '-' || char == '.'

/-- What every key of a sink starts with. -/
structure KeyPrefix where
  text : String
  wellFormed : text.toList.all isPrefixChar = true

/-- What a key is for. -/
inductive Kind where
  | data | stage | version | owner | manifest | writer
  deriving DecidableEq

def Kind.infixText : Kind → String
  | data => ""
  | stage => ":__ventstream:stage"
  | version => ":__ventstream:version"
  | owner => ":__ventstream:owner"
  | manifest => ":__ventstream:manifest"
  | writer => ":__ventstream:writer"

variable (keys : KeyPrefix)

/-- A key of a target; the end is an encoded id, or one of the names of the writer's keys. -/
def key (kind : Kind) (target tail : String) : String :=
  keys.text ++ kind.infixText ++ ":\x7b" ++ encodeKeySegment target ++ "\x7d:" ++ tail

def keyFromParts (target docId : String) : String := key keys .data target (encodeKeySegment docId)

def stagingKey (target docId : String) : String := key keys .stage target (encodeKeySegment docId)

def versionKey (target docId : String) : String := key keys .version target (encodeKeySegment docId)

def ownerKey (target keyId : String) : String := key keys .owner target (encodeKeySegment keyId)

def manifestKey (target sourceId : String) : String :=
  key keys .manifest target (encodeKeySegment sourceId)

def writerFenceKey (target : String) : String := key keys .writer target "current"

def writerLineageKey (target : String) : String := key keys .writer target "lineage"

/-- The patterns of a clear, each up to the star that ends it. Encoded segments and the key prefix
    have no other character that is special in a pattern. -/
def clearPattern (kind : Kind) (target : String) : String := key keys kind target ""

def directClearPatterns (target : String) : List String :=
  [clearPattern keys .data target, clearPattern keys .stage target,
    clearPattern keys .version target]

def viewClearPatterns (target : String) : List String :=
  [clearPattern keys .data target, clearPattern keys .stage target,
    clearPattern keys .owner target, clearPattern keys .manifest target]

def matchesPattern (pattern name : String) : Bool := pattern.toList.isPrefixOf name.toList

variable {keys} {kind other : Kind} {target another tail rest : String}

theorem encodeByte_chars (byte : UInt8) :
    ∀ char ∈ encodeByte byte, (isPrefixChar char || char == '%') := by
  unfold encodeByte
  split
  · rename_i safe
    unfold isSafe at safe
    unfold isPrefixChar
    grind
  · have digits : ∀ value < 16, isPrefixChar (hexDigit value) := by decide
    have bounded := byte.toNat_lt
    simp [digits (byte.toNat / 16) (by omega), digits (byte.toNat % 16) (by omega)]

theorem encodeKeySegment_chars (input : String) : ∀ char ∈ (encodeKeySegment input).toList,
    (isPrefixChar char || char == '%') := by
  intro char mem
  rw [encodeKeySegment, String.toList_ofList, mem_flatMap] at mem
  obtain ⟨byte, -, mem⟩ := mem
  exact encodeByte_chars byte char mem

theorem head_chars (keys : KeyPrefix) (kind : Kind) :
    ∀ char ∈ (keys.text ++ kind.infixText ++ ":").toList, isPrefixChar char := by
  rw [← all_eq_true, String.toList_append, String.toList_append, all_append, all_append,
    keys.wellFormed]
  cases kind <;> decide

theorem append_cons_inj {α : Type} {entry : α} {front front' back back' : List α}
    (notMem : entry ∉ front) (notMem' : entry ∉ front')
    (same : front ++ entry :: back = front' ++ entry :: back') : front = front' ∧ back = back' := by
  rcases append_eq_append_iff.mp same with ⟨between, rfl, rest⟩ | ⟨between, rfl, rest⟩
  all_goals
    cases between with
    | nil => simp_all
    | cons first more => simp_all

theorem infixText_injective : Function.Injective Kind.infixText := by
  intro kind other same
  cases kind <;> cases other <;> first | rfl | exact absurd same (by decide)

theorem toList_key (keys : KeyPrefix) (kind : Kind) (target tail : String) :
    (key keys kind target tail).toList = (keys.text ++ kind.infixText ++ ":").toList ++ '\x7b' ::
        ((encodeKeySegment target).toList ++ '\x7d' :: (':' :: tail.toList)) := by
  simp [key]

theorem key_inj (same : key keys kind target tail = key keys other another rest) :
    kind = other ∧ target = another ∧ tail = rest := by
  have chars := congrArg String.toList same
  rw [toList_key, toList_key] at chars
  have noBrace (kind : Kind) : '\x7b' ∉ (keys.text ++ kind.infixText ++ ":").toList := fun mem =>
    absurd (head_chars keys kind _ mem) (by decide)
  have noEnd (input) : '\x7d' ∉ (encodeKeySegment input).toList := fun mem =>
    absurd (encodeKeySegment_chars input _ mem) (by decide)
  obtain ⟨heads, chars⟩ := append_cons_inj (noBrace kind) (noBrace other) chars
  obtain ⟨targets, chars⟩ := append_cons_inj (noEnd target) (noEnd another) chars
  refine ⟨?_, encodeKeySegment_injective (String.toList_inj.mp targets),
    String.toList_inj.mp (cons.inj chars).2⟩
  have kinds := String.toList_inj.mp heads
  rw [String.append_left_inj, String.append_right_inj] at kinds
  exact infixText_injective kinds

theorem of_matchesPattern
    (isMatch : matchesPattern (clearPattern keys kind target) (key keys other another rest)) :
    kind = other ∧ target = another := by
  obtain ⟨more, joined⟩ := isPrefixOf_iff_prefix.mp isMatch
  have same : key keys kind target (String.ofList more) = key keys other another rest := by
    refine String.toList_inj.mp (joined ▸ ?_)
    simp [clearPattern, key]
  exact ⟨(key_inj same).1, (key_inj same).2.1⟩

theorem matchesPattern_key : matchesPattern (clearPattern keys kind target)
    (key keys kind target tail) := by
  refine isPrefixOf_iff_prefix.mpr ⟨tail.toList, ?_⟩
  simp [clearPattern, key]

theorem keyFromParts_inj
    (same : keyFromParts keys target docId = keyFromParts keys another otherId) :
    target = another ∧ docId = otherId := by
  obtain ⟨-, targets, ids⟩ := key_inj same
  exact ⟨targets, encodeKeySegment_injective ids⟩

end

end Ventstream.Redis
