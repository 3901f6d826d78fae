import Ventstream.Library.Format
import Ventstream.Postgres.TransactionBuffer

/-! # The decoder of logical replication messages

A message is one tag byte and fields without padding: big-endian integers, strings ended by a
zero byte, and lists after their length. The cursor is what is left of the message.
`Encodes` is the format, stated apart from the decoder.
-/

namespace Ventstream.Postgres.Pgoutput

open List Library Library.Program Spool

inductive ReplicaIdentity where
  | default
  | nothing
  | full
  | index

structure Column where
  flags : UInt8
  name : String
  typeOid : BitVec 32
  typeModifier : BitVec 32

inductive TupleColumn where
  | null
  | unchangedToast
  | text (bytes : List UInt8)
  | binary (bytes : List UInt8)

structure Tuple where
  columns : List TupleColumn

inductive OldTupleKind where
  | key
  | full

structure OldTuple where
  kind : OldTupleKind
  tuple : Tuple

/-- Signed fields are kept as their bits. -/
inductive LogicalMessage where
  | begin (finalLsn commitTimeMicros : BitVec 64) (xid : BitVec 32)
  | commit (flags : UInt8) (commitLsn endLsn commitTimeMicros : BitVec 64)
  | relation (id : BitVec 32) (namespace_ name : String) (replicaIdentity : ReplicaIdentity)
      (columns : List Column)
  | insert (relationId : BitVec 32) (tuple : Tuple)
  | update (relationId : BitVec 32) (old : Option OldTuple) (new : Tuple)
  | delete (relationId : BitVec 32) (old : OldTuple)
  | truncate (cascade restartIdentity : Bool) (relationIds : List (BitVec 32))
  | type (oid : BitVec 32) (namespace_ name : String)
  | ignored (tag : UInt8)

/-- What the text of the source for a wrong value is made from. -/
inductive Detail where
  | unknown (what : String) (byte : UInt8)
  | expected (what : String) (got : UInt8)
  | negative (what : String) (number : Int)
  | invalidUtf8

inductive DecodeError where
  | empty
  | unknownTag (tag : UInt8)
  | truncated (field : String) (needed : Nat)
  | invalidValue (field : String) (detail : Detail)
  | trailingBytes (tag : UInt8) (trailing : Nat)

abbrev Decoder := Program DecodeError (List UInt8)

def ascii (char : Char) : UInt8 := UInt8.ofNat char.toNat

def readU8 (field : String) : Decoder UInt8 := fun cursor =>
  match cursor with
  | [] => (.error (.truncated field 1), cursor)
  | byte :: rest => (.ok byte, rest)

/-- The next `count` bytes, or an error that depends on how many are missing. -/
def takeExact (count : Nat) (short : Nat → DecodeError) : Decoder (List UInt8) := fun cursor =>
  if count ≤ cursor.length then (.ok (cursor.take count), cursor.drop count)
  else (.error (short (count - cursor.length)), cursor)

def readBigEndian (width : Nat) (field : String) : Decoder (BitVec (8 * width)) := do
  let bytes ← takeExact width fun _ => .truncated field width
  pure (.ofNat _ (fromLeBytes bytes.reverse))

def nonNegative (field what : String) (number : BitVec (8 * width)) : Decoder Nat :=
  if number.toInt < 0 then throw (.invalidValue field (.negative what number.toInt))
  else pure number.toNat

section

variable (field : String)

def readI16 : Decoder (BitVec 16) := readBigEndian 2 field

def readU32 : Decoder (BitVec 32) := readBigEndian 4 field

def readI32 : Decoder (BitVec 32) := readBigEndian 4 field

def readI64 : Decoder (BitVec 64) := readBigEndian 8 field

def readLsn : Decoder (BitVec 64) := readBigEndian 8 field

def readCstr : Decoder String := fun cursor =>
  match cursor.dropWhile (· ≠ 0) with
  | [] => (.error (.truncated field 1), cursor)
  | _ :: rest =>
    match String.fromUTF8? ⟨(cursor.takeWhile (· ≠ 0)).toArray⟩ with
    | none => (.error (.invalidValue field .invalidUtf8), cursor)
    | some text => (.ok text, rest)

-- A length below 2 ^ 31 after a position in a buffer is an address: the sum does not overflow.
def readBytes (length : BitVec 32) : Decoder (List UInt8) := do
  let count ← @nonNegative 4 field "negative length" length
  takeExact count (.truncated field)

/-- The number of the columns that follow. -/
def readCount : Decoder Nat := do
  let count ← readI16 field
  @nonNegative 2 field "negative" count

end

def ReplicaIdentity.fromByte (byte : UInt8) : Option ReplicaIdentity :=
  if byte = ascii 'd' then some .default
  else if byte = ascii 'n' then some .nothing
  else if byte = ascii 'f' then some .full
  else if byte = ascii 'i' then some .index
  else none

def decodeTupleColumn : Decoder TupleColumn := do
  let kind ← readU8 "tuple.column.kind"
  if kind = ascii 'n' then pure .null
  else if kind = ascii 'u' then pure .unchangedToast
  else if kind = ascii 't' then do
    let length ← readI32 "tuple.column.text.length"
    let bytes ← readBytes "tuple.column.text.bytes" length
    pure (.text bytes)
  else if kind = ascii 'b' then do
    let length ← readI32 "tuple.column.binary.length"
    let bytes ← readBytes "tuple.column.binary.bytes" length
    pure (.binary bytes)
  else throw (.invalidValue "tuple.column.kind" (.unknown "kind" kind))

def decodeTuple : Decoder Tuple := do
  let count ← readCount "tuple.column_count"
  let columns ← times decodeTupleColumn count
  pure ⟨columns⟩

def decodeBegin : Decoder LogicalMessage := do
  let finalLsn ← readLsn "final_lsn"
  let commitTimeMicros ← readI64 "commit_time_micros"
  let xid ← readU32 "xid"
  pure (.begin finalLsn commitTimeMicros xid)

def decodeCommit : Decoder LogicalMessage := do
  let flags ← readU8 "flags"
  let commitLsn ← readLsn "commit_lsn"
  let endLsn ← readLsn "end_lsn"
  let commitTimeMicros ← readI64 "commit_time_micros"
  pure (.commit flags commitLsn endLsn commitTimeMicros)

def decodeColumn : Decoder Column := do
  let flags ← readU8 "column.flags"
  let name ← readCstr "column.name"
  let typeOid ← readU32 "column.type_oid"
  let typeModifier ← readI32 "column.type_modifier"
  pure ⟨flags, name, typeOid, typeModifier⟩

def decodeRelation : Decoder LogicalMessage := do
  let id ← readU32 "id"
  let namespace_ ← readCstr "namespace"
  let name ← readCstr "name"
  let byte ← readU8 "replica_identity"
  (ReplicaIdentity.fromByte byte).elim
    (throw (.invalidValue "replica_identity" (.unknown "byte" byte)))
    fun replicaIdentity => do
      let count ← readCount "column_count"
      let columns ← times decodeColumn count
      pure (.relation id namespace_ name replicaIdentity columns)

def decodeInsert : Decoder LogicalMessage := do
  let relationId ← readU32 "relation_id"
  let marker ← readU8 "new_tuple_marker"
  if marker ≠ ascii 'N' then throw (.invalidValue "new_tuple_marker" (.expected "'N'" marker))
  else do
    let tuple ← decodeTuple
    pure (.insert relationId tuple)

def OldTupleKind.fromByte (byte : UInt8) : Option OldTupleKind :=
  if byte = ascii 'K' then some .key
  else if byte = ascii 'O' then some .full
  else none

/-- The old tuple of an update, and the marker that stands before the new one. -/
def decodeOld (marker : UInt8) : Decoder (Option OldTuple × UInt8) :=
  if marker = ascii 'N' then pure (none, ascii 'N')
  else
    (OldTupleKind.fromByte marker).elim
      (throw (.invalidValue "update.marker" (.expected "'K', 'O', or 'N'" marker)))
      fun kind => do
        let tuple ← decodeTuple
        let next ← readU8 "update.new_marker"
        pure (some ⟨kind, tuple⟩, next)

def decodeUpdate : Decoder LogicalMessage := do
  let relationId ← readU32 "relation_id"
  let marker ← readU8 "update.marker"
  let old ← decodeOld marker
  if old.2 ≠ ascii 'N' then throw (.invalidValue "update.new_marker" (.expected "'N'" old.2))
  else do
    let new ← decodeTuple
    pure (.update relationId old.1 new)

def decodeDelete : Decoder LogicalMessage := do
  let relationId ← readU32 "relation_id"
  let marker ← readU8 "delete.marker"
  (OldTupleKind.fromByte marker).elim
    (throw (.invalidValue "delete.marker" (.expected "'K' or 'O'" marker)))
    fun kind => do
      let tuple ← decodeTuple
      pure (.delete relationId ⟨kind, tuple⟩)

def decodeTruncate : Decoder LogicalMessage := do
  let relationCount ← readU32 "truncate.relation_count"
  let optionFlags ← readU8 "truncate.option_flags"
  let relationIds ← times (readU32 "truncate.relation_id") relationCount.toNat
  pure (.truncate (optionFlags &&& 1 != 0) (optionFlags &&& 2 != 0) relationIds)

def decodeType : Decoder LogicalMessage := do
  let oid ← readU32 "type.oid"
  let namespace_ ← readCstr "type.namespace"
  let name ← readCstr "type.name"
  pure (.type oid namespace_ name)

def ignoredTags : List UInt8 := ['O', 'M', 'S', 'E', 'c', 'A'].map ascii

def decodeBody (tag : UInt8) : Decoder LogicalMessage :=
  if tag = ascii 'B' then decodeBegin
  else if tag = ascii 'C' then decodeCommit
  else if tag = ascii 'R' then decodeRelation
  else if tag = ascii 'I' then decodeInsert
  else if tag = ascii 'U' then decodeUpdate
  else if tag = ascii 'D' then decodeDelete
  else if tag = ascii 'T' then decodeTruncate
  else if tag = ascii 'Y' then decodeType
  else if tag ∈ ignoredTags then update fun _ => (.ignored tag, [])
  else throw (.unknownTag tag)

def decode : List UInt8 → Except DecodeError LogicalMessage
  | [] => .error .empty
  | tag :: body =>
    match exec (decodeBody tag) body with
    | (.error error, _) => .error error
    | (.ok message, []) => .ok message
    | (.ok _, trailing) => .error (.trailingBytes tag trailing.length)

/-- The big-endian bytes of a field. -/
def toBeBytes (width : Nat) (number : BitVec (8 * width)) : List UInt8 :=
  (toLeBytes width number.toNat).reverse

def encodeLength (width length : Nat) : List UInt8 := toBeBytes width (.ofNat _ length)

/-- Lengths are signed numbers. -/
def IsLength (width length : Nat) : Prop := 2 * length < 2 ^ (8 * width)

def utf8 (name : String) : List UInt8 := name.toUTF8.data.toList

def IsName (name : String) : Prop := 0 ∉ utf8 name

def encodeName (name : String) : List UInt8 := utf8 name ++ [0]

def ReplicaIdentity.toByte : ReplicaIdentity → UInt8
  | .default => ascii 'd'
  | .nothing => ascii 'n'
  | .full => ascii 'f'
  | .index => ascii 'i'

def OldTupleKind.toByte : OldTupleKind → UInt8
  | .key => ascii 'K'
  | .full => ascii 'O'

def Column.encode (column : Column) : List UInt8 :=
  column.flags :: (encodeName column.name ++ toBeBytes 4 column.typeOid ++
    toBeBytes 4 column.typeModifier)

def TupleColumn.encode : TupleColumn → List UInt8
  | .null => [ascii 'n']
  | .unchangedToast => [ascii 'u']
  | .text bytes => ascii 't' :: (encodeLength 4 bytes.length ++ bytes)
  | .binary bytes => ascii 'b' :: (encodeLength 4 bytes.length ++ bytes)

def TupleColumn.Fits : TupleColumn → Prop
  | .text bytes | .binary bytes => IsLength 4 bytes.length
  | _ => True

def Tuple.encode (tuple : Tuple) : List UInt8 :=
  encodeLength 2 tuple.columns.length ++ tuple.columns.flatMap TupleColumn.encode

def Tuple.Fits (tuple : Tuple) : Prop :=
  IsLength 2 tuple.columns.length ∧ ∀ column ∈ tuple.columns, column.Fits

def OldTuple.encode (old : OldTuple) : List UInt8 := old.kind.toByte :: old.tuple.encode

namespace LogicalMessage

def tag : LogicalMessage → UInt8
  | .begin .. => ascii 'B'
  | .commit .. => ascii 'C'
  | .relation .. => ascii 'R'
  | .insert .. => ascii 'I'
  | .update .. => ascii 'U'
  | .delete .. => ascii 'D'
  | .truncate .. => ascii 'T'
  | .type .. => ascii 'Y'
  | .ignored tag => tag

/-- The bodies of a message in version 1 of the protocol. Six bits of the options of a truncate are
    not used, and what an ignored message says is not looked at. -/
def Body : LogicalMessage → List UInt8 → Prop
  | .begin finalLsn time xid, body =>
    body = toBeBytes 8 finalLsn ++ toBeBytes 8 time ++ toBeBytes 4 xid
  | .commit flags commitLsn endLsn time, body =>
    body = flags :: (toBeBytes 8 commitLsn ++ toBeBytes 8 endLsn ++ toBeBytes 8 time)
  | .relation id namespace_ name identity columns, body =>
    (IsName namespace_ ∧ IsName name ∧ IsLength 2 columns.length ∧
      ∀ column ∈ columns, IsName column.name) ∧
    body = toBeBytes 4 id ++ encodeName namespace_ ++ encodeName name ++ identity.toByte ::
      (encodeLength 2 columns.length ++ columns.flatMap Column.encode)
  | .insert id tuple, body => tuple.Fits ∧ body = toBeBytes 4 id ++ ascii 'N' :: tuple.encode
  | .update id old new, body => (∀ before, old = some before → before.tuple.Fits) ∧ new.Fits ∧
    body = toBeBytes 4 id ++ old.elim [] OldTuple.encode ++ ascii 'N' :: new.encode
  | .delete id old, body => old.tuple.Fits ∧ body = toBeBytes 4 id ++ old.encode
  | .truncate cascade restartIdentity ids, body => ids.length < 2 ^ 32 ∧ ∃ flags : UInt8,
    cascade = (flags &&& 1 != 0) ∧ restartIdentity = (flags &&& 2 != 0) ∧
    body = encodeLength 4 ids.length ++ flags :: ids.flatMap (toBeBytes 4)
  | .type oid namespace_ name, body => IsName namespace_ ∧ IsName name ∧
    body = toBeBytes 4 oid ++ encodeName namespace_ ++ encodeName name
  | .ignored tag, _ => tag ∈ ignoredTags

end LogicalMessage

theorem toLeBytes_fromLeBytes (bytes : List UInt8) :
    toLeBytes bytes.length (fromLeBytes bytes) = bytes := by
  induction bytes with
  | nil => rfl
  | cons byte rest ih =>
    have small := byte.toNat_lt
    rw [length_cons, toLeBytes, fromLeBytes, show (byte.toNat + 256 * fromLeBytes rest) / 256 =
      fromLeBytes rest by omega, ih, show (byte.toNat + 256 * fromLeBytes rest) % 256 = byte.toNat
      by omega, UInt8.ofNat_toNat]

theorem readU8_reads (field : String) : Reads (readU8 field) fun byte text => text = [byte] := by
  intro cursor byte rest
  cases cursor <;> simp [readU8, exec, ExceptT.run, StateT.run]

theorem takeExact_reads (count : Nat) (short : Nat → DecodeError) :
    Reads (takeExact count short) fun bytes text => bytes.length = count ∧ text = bytes := by
  intro cursor bytes rest
  simp only [takeExact, exec, ExceptT.run, StateT.run]
  constructor
  · intro ran
    split at ran
    · cases ran
      exact ⟨_, ⟨by simpa, rfl⟩, by simp⟩
    · cases ran
  · rintro ⟨_, ⟨rfl, rfl⟩, rfl⟩
    simp

theorem number_reads (width : Nat) (field : String) :
    Reads (readBigEndian width field) fun number text => text = toBeBytes width number := by
  refine ((takeExact_reads width _).bind fun bytes => .pure _).congr ?_
  intro number text
  have wide : 2 ^ (8 * width) = 256 ^ width := by rw [Nat.pow_mul]
  constructor
  · rintro ⟨_, bytes, ⟨rfl, rfl⟩, _, ⟨rfl, rfl⟩, rfl⟩
    have whole := toLeBytes_fromLeBytes bytes.reverse
    have small : fromLeBytes (toLeBytes bytes.length (fromLeBytes bytes.reverse)) = _ :=
      fromLeBytes_toLeBytes
    rw [length_reverse] at whole
    rw [whole] at small
    rw [toBeBytes, BitVec.toNat_ofNat, wide, ← small, whole]
    simp
  · rintro rfl
    refine ⟨toBeBytes width number, _, ⟨by simp [toBeBytes], rfl⟩, [], ⟨?_, rfl⟩, by simp⟩
    rw [toBeBytes, reverse_reverse, fromLeBytes_toLeBytes, ← wide,
      Nat.mod_eq_of_lt number.isLt, BitVec.ofNat_toNat, BitVec.setWidth_eq]

theorem nonNegative_reads (field what : String) (number : BitVec (8 * width)) :
    Reads (nonNegative field what number) fun found text =>
      (IsLength width found ∧ found = number.toNat) ∧ text = [] := by
  have sign : number.toInt < 0 ↔ ¬ IsLength width number.toNat := by
    have := number.isLt
    rw [BitVec.toInt, IsLength]
    split <;> omega
  unfold nonNegative
  split
  · exact (Reads.throw _).congr (by grind)
  · exact (Reads.pure _).congr (by grind)

theorem readLength_reads (width : Nat) (field other what : String) :
    Reads (readBigEndian width field >>= nonNegative other what)
      (Coded (IsLength width) (encodeLength width)) := by
  refine ((number_reads width field).bind (nonNegative_reads other what)).congr ?_
  intro length text
  constructor
  · rintro ⟨number, _, rfl, _, ⟨⟨short, rfl⟩, rfl⟩, rfl⟩
    exact ⟨short, by simp [encodeLength]⟩
  · rintro ⟨short, rfl⟩
    refine ⟨.ofNat _ length, _, rfl, [], ⟨⟨short, ?_⟩, rfl⟩, by simp [encodeLength]⟩
    rw [BitVec.toNat_ofNat, Nat.mod_eq_of_lt (by unfold IsLength at short; omega)]

theorem readCstr_reads (field : String) : Reads (readCstr field) (Coded IsName encodeName) := by
  intro cursor name rest
  have named : ∀ front : List UInt8, String.fromUTF8? ⟨front.toArray⟩ = some name ↔
      front = utf8 name := by
    intro front
    unfold String.fromUTF8? utf8 String.fromUTF8
    constructor
    · intro some
      split at some
      · cases some
        rfl
      · cases some
    · rintro rfl
      exact dif_pos name.isValidUTF8
  simp only [readCstr, exec, ExceptT.run, StateT.run]
  constructor
  · intro ran
    split at ran
    · cases ran
    · rename_i zero left isLeft
      split at ran
      · cases ran
      · rename_i isName
        cases ran
        have front := (named _).mp isName
        obtain rfl : zero = 0 := by
          have last := head?_dropWhile_not (fun byte : UInt8 => decide (byte ≠ 0)) cursor
          rw [isLeft] at last
          simpa using last
        refine ⟨_, ⟨?_, rfl⟩, ?_⟩
        · rw [IsName, ← front]
          intro mem
          simpa using mem_takeWhile_imp mem
        · rw [encodeName, ← front, append_assoc, singleton_append, ← isLeft,
            takeWhile_append_dropWhile]
  · rintro ⟨_, ⟨isName, rfl⟩, rfl⟩
    have before : ∀ byte ∈ utf8 name, decide (byte ≠ 0) = true := by
      intro byte mem
      exact decide_eq_true (ne_of_mem_of_not_mem mem isName)
    rw [encodeName, append_assoc, dropWhile_append_of_pos before,
      takeWhile_append_of_pos before]
    simp [(named _).mpr rfl]

theorem readField_reads (field other : String) : Reads (readI32 field >>= readBytes other)
    (Coded (IsLength 4 ·.length) fun bytes => encodeLength 4 bytes.length ++ bytes) := by
  have reads := (readLength_reads 4 field other "negative length").bind fun count =>
    takeExact_reads count (.truncated other)
  rw [bind_assoc] at reads
  refine reads.congr ?_
  intro bytes text
  simp [Coded, and_assoc]

theorem replicaIdentity_fromByte :
    ReplicaIdentity.fromByte byte = some identity ↔ byte = identity.toByte := by
  unfold ReplicaIdentity.fromByte
  cases identity <;> grind [ReplicaIdentity.toByte, ascii]

theorem oldTupleKind_fromByte : OldTupleKind.fromByte byte = some kind ↔ byte = kind.toByte := by
  unfold OldTupleKind.fromByte
  cases kind <;> grind [OldTupleKind.toByte, ascii]

theorem decodeTupleColumn_reads :
    Reads decodeTupleColumn (Coded TupleColumn.Fits TupleColumn.encode) := by
  have filled (make : List UInt8 → TupleColumn) (field other : String) := by
    have reads := (readField_reads field other).bind fun bytes => Reads.pure (make bytes)
    rw [bind_assoc] at reads
    exact reads
  refine ((readU8_reads _).bind fun kind => .ite (.pure _) (.ite (.pure _)
    (.ite (filled .text _ _) (.ite (filled .binary _ _) (.throw _))))).congr ?_
  intro column text
  cases column <;> simp [Coded, TupleColumn.Fits, TupleColumn.encode, ascii]

theorem decodeTuple_reads : Reads decodeTuple (Coded Tuple.Fits Tuple.encode) := by
  refine ((readLength_reads 2 _ _ _).bind fun count =>
    (decodeTupleColumn_reads.times count).bind fun columns => .pure _).congr ?_
  rintro ⟨columns⟩ text
  simp [Coded, Tuple.Fits, Tuple.encode, and_assoc]

/-- A decoder takes the bodies of the messages with a tag. -/
def Decodes (decoder : Decoder LogicalMessage) (tag : UInt8) : Prop :=
  Reads decoder fun message body => message.tag = tag ∧ message.Body body

open LogicalMessage

theorem begin_decodes : Decodes decodeBegin (ascii 'B') := by
  refine ((number_reads 8 _).bind fun finalLsn => (number_reads 8 _).bind fun time =>
    (number_reads 4 _).bind fun xid => .pure _).congr ?_
  intro message body
  cases message <;> simp +contextual [tag, Body, ignoredTags, ascii]

theorem commit_decodes : Decodes decodeCommit (ascii 'C') := by
  refine ((readU8_reads _).bind fun flags => (number_reads 8 _).bind fun commitLsn =>
    (number_reads 8 _).bind fun endLsn => (number_reads 8 _).bind fun time =>
    .pure _).congr ?_
  intro message body
  cases message <;> simp +contextual [tag, Body, ignoredTags, ascii]

theorem decodeColumn_reads : Reads decodeColumn (Coded (IsName ·.name) Column.encode) := by
  refine ((readU8_reads _).bind fun flags => (readCstr_reads _).bind fun name =>
    (number_reads 4 _).bind fun typeOid => (number_reads 4 _).bind fun modifier =>
    .pure _).congr ?_
  rintro ⟨flags, name, typeOid, modifier⟩ text
  simp [Coded, Column.encode]

theorem relation_decodes : Decodes decodeRelation (ascii 'R') := by
  refine ((number_reads 4 _).bind fun id => (readCstr_reads _).bind fun namespace_ =>
    (readCstr_reads _).bind fun name => (readU8_reads _).bind fun byte => .elim fun identity =>
    (readLength_reads 2 _ _ _).bind fun count => (decodeColumn_reads.times count).bind fun columns =>
    .pure _).congr ?_
  intro message body
  cases message <;> simp +contextual [tag, Body, ignoredTags, ascii, Coded, and_assoc,
    replicaIdentity_fromByte]

theorem insert_decodes : Decodes decodeInsert (ascii 'I') := by
  refine ((number_reads 4 _).bind fun id => (readU8_reads _).bind fun marker =>
    .ite (.throw _) (decodeTuple_reads.bind fun tuple => .pure _)).congr ?_
  intro message body
  cases message <;> simp +contextual [tag, Body, ignoredTags, ascii, Coded]

theorem decodeOld_reads (marker : UInt8) : Reads (decodeOld marker) fun found text =>
    (∀ before, found.1 = some before → before.tuple.Fits) ∧
      (found.1 = none → found.2 = ascii 'N') ∧
      marker :: text = found.1.elim [] OldTuple.encode ++ [found.2] := by
  refine (Reads.ite (.pure _) (.elim fun kind => decodeTuple_reads.bind fun tuple =>
    (readU8_reads _).bind fun next => .pure _)).congr ?_
  rintro ⟨_ | ⟨kind, tuple⟩, next⟩ text
  · grind [Coded]
  · have apart : kind.toByte ≠ ascii 'N' := by cases kind <;> decide
    simp [Coded, OldTuple.encode, oldTupleKind_fromByte]
    grind

theorem update_decodes : Decodes decodeUpdate (ascii 'U') := by
  refine ((number_reads 4 _).bind fun id => (readU8_reads _).bind fun marker =>
    (decodeOld_reads marker).bind fun old => .ite (.throw _)
    (decodeTuple_reads.bind fun tuple => .pure _)).congr ?_
  intro message body
  cases message <;> simp +contextual [tag, Body, ignoredTags, ascii, Coded]
  constructor
  · rintro ⟨first, rest, ⟨⟨old, isOld⟩, new⟩, rfl⟩
    refine ⟨old, new, ?_⟩
    rw [← cons_append, isOld]
    simp
  · rintro ⟨old, new, rfl⟩
    obtain ⟨first, rest, isOld⟩ := exists_cons_of_ne_nil (concat_ne_nil _ _)
    refine ⟨first, rest, ⟨⟨old, isOld.symm⟩, new⟩, ?_⟩
    rw [← cons_append, ← isOld]
    simp

theorem delete_decodes : Decodes decodeDelete (ascii 'D') := by
  refine ((number_reads 4 _).bind fun id => (readU8_reads _).bind fun marker =>
    .elim fun kind => decodeTuple_reads.bind fun tuple => .pure _).congr ?_
  intro message body
  cases message <;> simp +contextual [tag, Body, ignoredTags, ascii, Coded, oldTupleKind_fromByte]
  rename_i old
  cases old
  simp [OldTuple.encode, and_assoc]

theorem type_decodes : Decodes decodeType (ascii 'Y') := by
  refine ((number_reads 4 _).bind fun oid => (readCstr_reads _).bind fun namespace_ =>
    (readCstr_reads _).bind fun name => .pure _).congr ?_
  intro message body
  cases message <;> simp +contextual [tag, Body, ignoredTags, ascii, Coded, and_assoc]

theorem truncate_decodes : Decodes decodeTruncate (ascii 'T') := by
  have ids : Reads (readU32 "truncate.relation_id") (Coded (fun _ => True) (toBeBytes 4)) :=
    (number_reads 4 _).congr (by simp [Coded])
  refine ((number_reads 4 _).bind fun count => (readU8_reads _).bind fun flags =>
    (ids.times count.toNat).bind fun ids => .pure _).congr ?_
  intro message body
  cases message <;> simp +contextual [tag, Body, ignoredTags, ascii, Coded, and_assoc]
  constructor
  · rintro ⟨count, isCount, flags, rest⟩
    refine ⟨by have := count.isLt; omega, flags, ?_⟩
    simpa [encodeLength, isCount] using rest
  · rintro ⟨few, flags, rest⟩
    refine ⟨.ofNat _ _, ?_, flags, rest⟩
    rw [BitVec.toNat_ofNat, Nat.mod_eq_of_lt few]

/-- The encodings of a message. -/
def Encodes (message : LogicalMessage) (bytes : List UInt8) : Prop :=
  ∃ body, bytes = message.tag :: body ∧ message.Body body

theorem body_decodes {tag : UInt8} (read : tag ∉ ignoredTags) :
    Decodes (decodeBody tag) tag := by
  unfold decodeBody
  split_ifs with isBegin isCommit isRelation isInsert isUpdate isDelete isTruncate isType
  · exact isBegin ▸ begin_decodes
  · exact isCommit ▸ commit_decodes
  · exact isRelation ▸ relation_decodes
  · exact isInsert ▸ insert_decodes
  · exact isUpdate ▸ update_decodes
  · exact isDelete ▸ delete_decodes
  · exact isTruncate ▸ truncate_decodes
  · exact isType ▸ type_decodes
  · refine (Reads.throw _).congr ?_
    rintro (_ | _ | _ | _ | _ | _ | _ | _ | _) body <;> grind [LogicalMessage.tag, Body]

theorem decode_ok_iff {tag : UInt8} : decode (tag :: body) = .ok message ↔
    exec (decodeBody tag) body = (.ok message, []) := by
  rw [decode]
  split <;> simp_all

/-- `decode` answers with a message exactly on its encodings. -/
theorem decode_iff_encodes (bytes : List UInt8) (message : LogicalMessage) :
    decode bytes = .ok message ↔ Encodes message bytes := by
  cases bytes with
  | nil => simp [decode, Encodes]
  | cons tag body =>
    rw [decode_ok_iff]
    by_cases isIgnored : tag ∈ ignoredTags
    · have apart : ∀ tag ∈ ignoredTags,
          tag ∉ ['B', 'C', 'R', 'I', 'U', 'D', 'T', 'Y'].map ascii := by decide +kernel
      have others := apart tag isIgnored
      simp only [map_cons, map_nil, mem_cons, not_or] at others
      cases message <;> simp [decodeBody, Encodes, LogicalMessage.tag, Body, others, isIgnored]
      rintro rfl
      exact isIgnored
    · rw [body_decodes isIgnored]
      simp [Encodes, eq_comm]

/-- No bytes after a message that is read make another one of it: a strict prefix of a message is
    never taken for one. -/
theorem decode_append_ne {tag : UInt8} {body more : List UInt8} {message : LogicalMessage}
    (decoded : decode (tag :: body) = .ok message) (read : tag ∉ ignoredTags) (goesOn : more ≠ [])
    (other : LogicalMessage) : decode (tag :: (body ++ more)) ≠ .ok other := by
  have decodes := body_decodes read
  rw [decode_ok_iff, decodes] at decoded
  obtain ⟨text, isText, rfl⟩ := decoded
  rw [append_nil, ne_eq, decode_ok_iff, (decodes _ message more).mpr ⟨text, isText, rfl⟩]
  exact fun same => goesOn (Prod.mk.inj same).2

theorem decode_append_ne_begin :
    decode (ascii 'B' :: (.replicate 20 0 ++ [0])) ≠ .ok (.begin 0 0 0) :=
  @decode_append_ne _ _ [0] (.begin 0 0 0) rfl (by decide) (by decide) _

end Ventstream.Postgres.Pgoutput
