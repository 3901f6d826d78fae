import Ventstream.Redis.Keys

/-! # What the names of Redis keys keep apart

A name says what it is the name of, a clear matches the keys of its own target and no others,
and the lengths that are checked before a key is built are those of the keys.
-/

namespace Ventstream.Redis

open List

/-- Redis globs. What a pattern stands for at a `?`, a class or an escape is left open: the
    patterns of a clear have none. -/
inductive Glob (special : List Char → List Char → Prop) : List Char → List Char → Prop where
  | done : Glob special [] []
  | skip : Glob special pattern name → Glob special ('*' :: pattern) name
  | take : Glob special ('*' :: pattern) name → Glob special ('*' :: pattern) (char :: name)
  | plain (isPlain : char ∉ ['*', '?', '[', '\\']) :
      Glob special pattern name → Glob special (char :: pattern) (char :: name)
  | special (isSpecial : char ∈ ['?', '[', '\\']) :
      special (char :: pattern) name → Glob special (char :: pattern) name

theorem glob_star (plain : ∀ char ∈ front, char ∉ ['*', '?', '[', '\\']) :
    Glob special (front ++ ['*']) name ↔ front <+: name := by
  induction front generalizing name with
  | nil =>
    refine iff_of_true ?_ nil_prefix
    induction name with
    | nil => exact .skip .done
    | cons char rest ih => exact .take ih
  | cons char front ih =>
    obtain ⟨isPlain, plain⟩ := forall_mem_cons.mp plain
    constructor
    · intro isMatch
      cases isMatch with
      | skip => simp at isPlain
      | take => simp at isPlain
      | plain _ isMatch => exact cons_prefix_cons.mpr ⟨rfl, (ih plain).mp isMatch⟩
      | special isSpecial => exact absurd (mem_cons_of_mem _ isSpecial) isPlain
    · rintro ⟨rest, rfl⟩
      exact .plain isPlain ((ih plain).mpr (prefix_append front rest))

section

variable (keys : KeyPrefix)

/-- What a key is the key of. -/
inductive KeyName where
  | data (target docId : String)
  | stage (target keyId : String)
  | version (target docId : String)
  | owner (target keyId : String)
  | manifest (target sourceId : String)
  | writerFence (target : String)
  | writerLineage (target : String)

def KeyName.text : KeyName → String
  | data target docId => keyFromParts keys target docId
  | stage target keyId => stagingKey keys target keyId
  | version target docId => versionKey keys target docId
  | owner target keyId => ownerKey keys target keyId
  | manifest target sourceId => manifestKey keys target sourceId
  | writerFence target => writerFenceKey keys target
  | writerLineage target => writerLineageKey keys target

def KeyName.kind : KeyName → Kind
  | data .. => .data
  | stage .. => .stage
  | version .. => .version
  | owner .. => .owner
  | manifest .. => .manifest
  | writerFence _ | writerLineage _ => .writer

def KeyName.target : KeyName → String
  | data target _ | stage target _ | version target _ | owner target _ | manifest target _
  | writerFence target | writerLineage target => target

def KeyName.tail : KeyName → String
  | data _ id | stage _ id | version _ id | owner _ id | manifest _ id => encodeKeySegment id
  | writerFence _ => "current"
  | writerLineage _ => "lineage"

variable {keys}

theorem KeyName.text_eq (name : KeyName) :
    name.text keys = key keys name.kind name.target name.tail := by
  cases name <;> rfl

theorem KeyName.text_injective : Function.Injective (KeyName.text keys) := by
  intro name other same
  rw [text_eq, text_eq] at same
  obtain ⟨kinds, targets, tails⟩ := key_inj same
  cases name <;> cases other <;> try cases kinds
  all_goals
    simp_all [KeyName.target, KeyName.tail, encodeKeySegment_injective.eq_iff]

/-- The characters of keys: none has a meaning of its own in a glob. -/
theorem plain_key (keys : KeyPrefix) (kind : Kind) (target : String) :
    ∀ char ∈ (clearPattern keys kind target).toList, char ∉ ['*', '?', '[', '\\'] := by
  have plain : ['*', '?', '[', '\\'].all fun char => !(isPrefixChar char || char == '%') := rfl
  intro char mem isSpecial
  have unlike := all_eq_true.mp plain char isSpecial
  rw [clearPattern, toList_key, mem_append, mem_cons, mem_append] at mem
  rcases mem with inHead | rfl | inTarget | inEnd
  · simp [head_chars keys kind char inHead] at unlike
  · exact absurd isSpecial (by decide)
  · simp [encodeKeySegment_chars target char inTarget] at unlike
  · simp only [mem_cons, String.toList_empty, not_mem_nil, or_false] at inEnd
    rcases inEnd with rfl | rfl <;> exact absurd isSpecial (by decide)

theorem matches_clearPattern {name : KeyName} :
    Glob special ((clearPattern keys kind target).toList ++ ['*']) (name.text keys).toList ↔
      name.target = target ∧ name.kind = kind := by
  rw [glob_star (plain_key keys kind target), ← isPrefixOf_iff_prefix, KeyName.text_eq]
  constructor
  · intro isMatch
    obtain ⟨rfl, rfl⟩ := of_matchesPattern isMatch
    exact ⟨rfl, rfl⟩
  · rintro ⟨rfl, rfl⟩
    exact matchesPattern_key

end

section

def saturatingAdd (left right : Nat) : Nat := min (left + right) (2 ^ 64 - 1)

def encodedSegmentLen (input : String) : Nat :=
  input.toUTF8.data.toList.foldl
    (fun length byte => saturatingAdd length (if isSafe byte then 1 else 3)) 0

variable (lead kind target id : String)

def encodedKeyLen : Nat :=
  saturatingAdd (saturatingAdd (saturatingAdd lead.utf8ByteSize 4) (encodedSegmentLen target))
    (encodedSegmentLen id)

def stagingKeyLen : Nat :=
  saturatingAdd (saturatingAdd (saturatingAdd
    (saturatingAdd lead.utf8ByteSize ":__ventstream:stage:\x7b".utf8ByteSize)
    (encodedSegmentLen target)) 2) (encodedSegmentLen id)

def internalKeyLen : Nat :=
  saturatingAdd (saturatingAdd (saturatingAdd (saturatingAdd (saturatingAdd
    (saturatingAdd lead.utf8ByteSize ":__ventstream:".utf8ByteSize) kind.utf8ByteSize) 2)
    (encodedSegmentLen target)) 2) (encodedSegmentLen id)

def clearPatternLen : Nat :=
  saturatingAdd (saturatingAdd lead.utf8ByteSize 5) (encodedSegmentLen target)

variable {lead kind target id}

theorem saturated_add (left right : Nat) :
    min (min left most + right) most = min (left + right) most ∧
    min (left + min right most) most = min (left + right) most := by
  omega

theorem utf8ByteSize_encodeByte (byte : UInt8) :
    (String.ofList (encodeByte byte)).utf8ByteSize = if isSafe byte then 1 else 3 := by
  have all : ∀ value < 256, (String.ofList (encodeByte (UInt8.ofNat value))).utf8ByteSize =
      if isSafe (UInt8.ofNat value) then 1 else 3 := by decide +kernel
  simpa using all byte.toNat byte.toNat_lt

theorem foldl_saturatingAdd {bytes : List UInt8} (small : start ≤ 2 ^ 64 - 1) :
    bytes.foldl (fun length byte => saturatingAdd length (if isSafe byte then 1 else 3)) start =
      min (start + (String.ofList (bytes.flatMap encodeByte)).utf8ByteSize) (2 ^ 64 - 1) := by
  induction bytes generalizing start with
  | nil =>
    simp
    omega
  | cons byte rest ih =>
    have bounded : saturatingAdd start (if isSafe byte then 1 else 3) ≤ 2 ^ 64 - 1 :=
      Nat.min_le_right ..
    rw [foldl_cons, ih bounded, flatMap_cons, String.ofList_append,
      String.utf8ByteSize_append, utf8ByteSize_encodeByte]
    unfold saturatingAdd
    omega

theorem encodedSegmentLen_eq :
    encodedSegmentLen input = min (encodeKeySegment input).utf8ByteSize (2 ^ 64 - 1) := by
  rw [encodedSegmentLen, foldl_saturatingAdd (by decide), Nat.zero_add, encodeKeySegment]

theorem utf8ByteSize_key (keys : KeyPrefix) (kind : Kind) (target tail : String) :
    (key keys kind target tail).utf8ByteSize = keys.text.utf8ByteSize +
      kind.infixText.utf8ByteSize + 2 + (encodeKeySegment target).utf8ByteSize + 2 +
        tail.utf8ByteSize := by
  simp only [key, String.utf8ByteSize_append]
  rfl

theorem internalKeyLen_eq {keys : KeyPrefix} {kind : Kind}
    (named : kind.infixText = ":__ventstream:" ++ name) :
    internalKeyLen keys.text name target id =
      min (key keys kind target (encodeKeySegment id)).utf8ByteSize (2 ^ 64 - 1) := by
  simp only [internalKeyLen, utf8ByteSize_key, named, String.utf8ByteSize_append,
    encodedSegmentLen_eq, saturatingAdd, saturated_add, Nat.add_assoc]

end

theorem keys_kept_apart (keys : KeyPrefix) : Function.Injective (KeyName.text keys) ∧
    (∀ special target name, ((∃ pattern ∈ directClearPatterns keys target,
        Glob special (pattern.toList ++ ['*']) (KeyName.text keys name).toList) ↔
        name.target = target ∧ name.kind ∈ [.data, .stage, .version]) ∧
      ((∃ pattern ∈ viewClearPatterns keys target,
        Glob special (pattern.toList ++ ['*']) (KeyName.text keys name).toList) ↔
        name.target = target ∧ name.kind ∈ [.data, .stage, .owner, .manifest])) ∧
    ∀ target id, encodedKeyLen keys.text target id =
        min (keyFromParts keys target id).utf8ByteSize (2 ^ 64 - 1) ∧
      stagingKeyLen keys.text target id =
        min (stagingKey keys target id).utf8ByteSize (2 ^ 64 - 1) ∧
      internalKeyLen keys.text "version" target id =
        min (versionKey keys target id).utf8ByteSize (2 ^ 64 - 1) ∧
      internalKeyLen keys.text "owner" target id =
        min (ownerKey keys target id).utf8ByteSize (2 ^ 64 - 1) ∧
      internalKeyLen keys.text "manifest" target id =
        min (manifestKey keys target id).utf8ByteSize (2 ^ 64 - 1) ∧
      clearPatternLen keys.text target =
        min ((clearPattern keys .data target) ++ "*").utf8ByteSize (2 ^ 64 - 1) := by
  refine ⟨KeyName.text_injective, fun special target name => ⟨?_, ?_⟩, fun target id => ?_⟩
  · simp [directClearPatterns, matches_clearPattern, ← and_or_left]
  · simp [viewClearPatterns, matches_clearPattern, ← and_or_left]
  · refine ⟨?_, ?_, internalKeyLen_eq rfl, internalKeyLen_eq rfl, internalKeyLen_eq rfl, ?_⟩
    all_goals
      have sizes : "".utf8ByteSize = 0 ∧ "*".utf8ByteSize = 1 ∧
          ":__ventstream:stage".utf8ByteSize = 19 ∧
          ":__ventstream:stage:\x7b".utf8ByteSize = 21 := by decide
      simp only [encodedKeyLen, stagingKeyLen, clearPatternLen, keyFromParts, stagingKey,
        clearPattern, String.utf8ByteSize_append, utf8ByteSize_key, encodedSegmentLen_eq,
        saturatingAdd, saturated_add, Kind.infixText]
      omega

end Ventstream.Redis
