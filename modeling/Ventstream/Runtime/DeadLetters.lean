import Mathlib

/-! # Dead letters and torn writes

Records are appended to one file, a line each. A write that fails and a crash may leave a part
of a line at the end of the file, and the next record goes on right behind it.
-/

namespace Ventstream.Runtime.DeadLetters

open List Relation

/-- How `serde_json` writes and reads records. A text that begins with a record or a part of one
    and goes on with a record cannot be read. -/
structure Codec (ρ : Type) where
  encode : ρ → List Char
  decode : List Char → Option ρ
  decode_encode : ∀ record, decode (encode record) = some record
  encode_ne_nil : ∀ record, encode record ≠ []
  oneLine : ∀ record, '\n' ∉ encode record
  decode_torn : ∀ record next, ∀ torn ∈ (encode record).inits, torn ≠ [] →
    decode (torn ++ encode next) = none

structure Dlq (ρ : Type) where
  file : List Char
  synced : Nat
  /-- The records since the last `sync` for which `record` returned `Ok`. -/
  recorded : List ρ
  /-- The records that a `sync` followed on, as in a `quarantine` that returns `true`. -/
  confirmed : List ρ

def AtStart (file : List Char) : Prop := ∀ last ∈ file.getLast?, last = '\n'

variable {ρ : Type} (codec : Codec ρ)

def Codec.line (record : ρ) : List Char := codec.encode record ++ ['\n']

/-- The bytes of a failed `record` that get into the file, and those that a crash keeps, are any
    first ones; in a `clean` run they end with a line. To open the file, and a `sync` that fails,
    change nothing. -/
inductive Step (clean : Prop) : Dlq ρ → Dlq ρ → Prop
  | record (dlq : Dlq ρ) (record : ρ) : Step clean dlq { dlq with
      file := dlq.file ++ codec.line record
      recorded := dlq.recorded ++ [record] }
  | recordFails (dlq : Dlq ρ) (record : ρ) (torn : List Char) (isTorn : torn <+: codec.line record)
      (whole : clean → AtStart (dlq.file ++ torn)) :
      Step clean dlq { dlq with file := dlq.file ++ torn }
  | sync (dlq : Dlq ρ) :
      Step clean dlq ⟨dlq.file, dlq.file.length, [], dlq.confirmed ++ dlq.recorded⟩
  | crash (dlq : Dlq ρ) (kept : Nat) (durable : dlq.synced ≤ kept)
      (whole : clean → AtStart (dlq.file.take kept)) :
      Step clean dlq ⟨dlq.file.take kept, dlq.synced, [], dlq.confirmed⟩

def Reachable (clean : Prop) : Dlq ρ → Prop := ReflTransGen (Step codec clean) ⟨[], 0, [], []⟩

/-- One whole line of the file is read as the record. -/
def IsLine (file : List Char) (record : ρ) : Prop :=
  ∃ front text back, file = front ++ text ++ '\n' :: back ∧ AtStart front ∧ '\n' ∉ text ∧
    codec.decode text = some record

def Written (file : List Char) (record : ρ) : Prop :=
  ∃ front, AtStart front ∧ front ++ codec.line record <+: file

structure Sound (dlq : Dlq ρ) : Prop where
  atStart : AtStart dlq.file
  recorded : ∀ record ∈ dlq.recorded, Written codec dlq.file record
  confirmed : ∀ record ∈ dlq.confirmed, Written codec (dlq.file.take dlq.synced) record

variable {codec}

theorem Written.mono (written : Written codec file record) (grows : file <+: later) :
    Written codec later record := by
  obtain ⟨front, atStart, isPrefix⟩ := written
  exact ⟨front, atStart, isPrefix.trans grows⟩

theorem Written.isLine (written : Written codec file record) : IsLine codec file record := by
  obtain ⟨front, atStart, back, rfl⟩ := written
  exact ⟨front, codec.encode record, back, by simp [Codec.line], atStart, codec.oneLine record,
    codec.decode_encode record⟩

theorem Sound.append (sound : Sound codec dlq) (atStart : AtStart (dlq.file ++ text)) :
    Sound codec { dlq with file := dlq.file ++ text } where
  atStart := atStart
  recorded record mem := (sound.recorded record mem).mono (prefix_append _ _)
  confirmed record mem := (sound.confirmed record mem).mono ((prefix_append _ _).take _)

theorem Step.sound (step : Step codec clean dlq later) (isClean : clean) (sound : Sound codec dlq) :
    Sound codec later := by
  cases step with
  | record record =>
    have appended : Sound codec { dlq with file := dlq.file ++ codec.line record } :=
      sound.append (by simp [AtStart, Codec.line])
    refine ⟨appended.atStart, ?_, appended.confirmed⟩
    simpa [or_imp, forall_and] using ⟨appended.recorded, dlq.file, sound.atStart, prefix_rfl⟩
  | recordFails record torn isTorn whole => exact sound.append (whole isClean)
  | sync =>
    refine ⟨sound.atStart, by simp, fun record mem => ?_⟩
    rw [take_length]
    rcases mem_append.mp mem with old | new
    · exact (sound.confirmed record old).mono ( take_prefix _ _)
    · exact sound.recorded record new
  | crash kept durable whole =>
    refine ⟨whole isClean, by simp, ?_⟩
    simpa [take_take, durable] using sound.confirmed

/-- A file with one line is read as that line. -/
theorem decode_of_isLine (free : '\n' ∉ whole) (isLine : IsLine codec (whole ++ ['\n']) record) :
    codec.decode whole = some record := by
  obtain ⟨front, text, back, isFile, atStart, oneLine, reads⟩ := isLine
  have counts := congrArg (count '\n') isFile
  simp only [count_append, count_cons_self, count_nil, count_eq_zero_of_not_mem free] at counts
  have noFront : '\n' ∉ front := count_eq_zero.mp (by omega)
  rcases eq_nil_or_concat front with rfl | ⟨init, last, rfl⟩
  · have texts := congrArg (takeWhile (· ≠ '\n')) isFile
    rw [nil_append, takeWhile_append_of_pos (by grind), takeWhile_append_of_pos (by grind)] at texts
    simp_all
  · simp_all [AtStart]

theorem swallowed (codec : Codec ρ) (record next : ρ) :
    ∃ dlq, Reachable codec False dlq ∧ next ∈ dlq.confirmed ∧ ¬ IsLine codec dlq.file next := by
  obtain ⟨first, rest, isRecord⟩ := exists_cons_of_ne_nil (codec.encode_ne_nil record)
  have isTorn : [first] <+: codec.line record := by simp [Codec.line, isRecord]
  refine ⟨_, .head (.recordFails _ record [first] isTorn False.elim) <| .head (.record _ next) <|
    .single (.sync _), by simp, fun isLine => ?_⟩
  have free : '\n' ∉ [first] ++ codec.encode next := by
    have notFirst := codec.oneLine record
    have notNext := codec.oneLine next
    simp_all
  have reads := decode_of_isLine free (by simpa [Codec.line] using isLine)
  rw [codec.decode_torn record next [first] (by simp [isRecord]) (by simp)] at reads
  cases reads

/-- The records that a `sync` followed on are whole lines of the file, in every run, if and only
    if faults leave none but whole lines. -/
theorem confirmed_is_line_iff (codec : Codec ρ) (sample : ρ) (clean : Prop) :
    (∀ dlq, Reachable codec clean dlq → ∀ record ∈ dlq.confirmed, IsLine codec dlq.file record) ↔
      clean := by
  constructor
  · intro always
    by_contra torn
    obtain rfl := eq_false torn
    obtain ⟨dlq, reachable, confirmed, lost⟩ := swallowed codec sample sample
    exact lost (always dlq reachable sample confirmed)
  · intro isClean dlq reachable
    have sound : Sound codec dlq := by
      induction reachable with
      | refl => exact ⟨by simp [AtStart], by simp, by simp⟩
      | tail _ step ih => exact step.sound isClean ih
    exact fun record mem => ((sound.confirmed record mem).mono ( take_prefix _ _)).isLine

/-- Two records, without their times. -/
def sampleCodec : Codec Bool where
  encode record := (if record then "\x7b\"reason\":\"a\",\"event\":1\x7d"
    else "\x7b\"reason\":\"b\",\"event\":2\x7d").toList
  decode text := if text = "\x7b\"reason\":\"a\",\"event\":1\x7d".toList then some true
    else if text = "\x7b\"reason\":\"b\",\"event\":2\x7d".toList then some false else none
  decode_encode := by decide +kernel
  encode_ne_nil := by decide +kernel
  oneLine := by decide +kernel
  decode_torn := by decide +kernel

theorem torn_write_swallows_record : ∃ dlq, Reachable sampleCodec False dlq ∧
    true ∈ dlq.confirmed ∧ ¬ IsLine sampleCodec dlq.file true :=
  swallowed sampleCodec false true

end Ventstream.Runtime.DeadLetters
