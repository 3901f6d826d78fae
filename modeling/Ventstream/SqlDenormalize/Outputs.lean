import Ventstream.SqlDenormalize.Gathering

/-! # What a batch does to the documents

Whatever a batch does to a document shows the state that one of its queries has seen:
an upsert the document of a row, a tombstone or a clear that there was none. A row that
is there in all these states is written if its key is recomposed, or if the batch
rebuilds the whole projection.
-/

namespace Ventstream.SqlDenormalize

open Library List
open Core (Event docId docId_inj)
open Joins (JoinDefinition RelatedDefinition)
open Json (Value)

variable {id : String} {output : Output} {outputs : List Output}

section

variable (defn : JoinDefinition)

def applyOutput (docs : String → Option Value) : Output → String → Option Value
  | .upsert key doc => Function.update docs (docId defn.primary.table key) (some doc)
  | .tombstone key => Function.update docs (docId defn.primary.table key) none
  | .clear => fun _ => none

/-- The output says what becomes of the document with this id. -/
def Output.Concerns (id : String) : Output → Prop
  | .upsert key _ => docId defn.primary.table key = id
  | .tombstone key => docId defn.primary.table key = id
  | .clear => True

def Output.doc : Output → Option Value
  | .upsert _ doc => some doc
  | _ => none

variable {defn} {docs : String → Option Value}

theorem applyOutput_of_concerns (concerns : output.Concerns defn id) :
    applyOutput defn docs output id = output.doc := by
  cases output with
  | upsert | tombstone =>
    cases concerns
    simp [applyOutput, Output.doc]
  | clear => rfl

theorem applyOutput_of_not_concerns (apart : ¬ output.Concerns defn id) :
    applyOutput defn docs output id = docs id := by
  cases output with
  | upsert | tombstone => exact Function.update_of_ne (Ne.symm apart) _ _
  | clear => exact absurd trivial apart

theorem foldl_applyOutput_of_not_concerns (apart : ∀ output ∈ outputs, ¬ output.Concerns defn id) :
    outputs.foldl (applyOutput defn) docs id = docs id := by
  induction outputs generalizing docs with
  | nil => rfl
  | cons output rest ih =>
    rw [foldl_cons, ih fun other mem => apart other (mem_cons_of_mem output mem)]
    exact applyOutput_of_not_concerns (apart output mem_cons_self)

theorem foldl_applyOutput_of_concerns (mem : output ∈ outputs) (concerns : output.Concerns defn id)
    (docs : String → Option Value) : ∃ last ∈ outputs, last.Concerns defn id ∧
      outputs.foldl (applyOutput defn) docs id = last.doc := by
  induction outputs using reverseRecOn with
  | nil => cases mem
  | append_singleton before final ih =>
    rw [foldl_append, foldl_cons, foldl_nil]
    by_cases atEnd : final.Concerns defn id
    · exact ⟨final, by simp, atEnd, applyOutput_of_concerns atEnd⟩
    · have earlier : output ∈ before := by
        cases mem_append.mp mem with
        | inl earlier => exact earlier
        | inr isFinal =>
          rw [mem_singleton.mp isFinal] at concerns
          exact absurd concerns atEnd
      obtain ⟨last, isOutput, isLast, decided⟩ := ih earlier
      refine ⟨last, mem_append_left _ isOutput, isLast, ?_⟩
      rw [applyOutput_of_not_concerns atEnd, decided]

end

section

variable {V : Type} [LinearOrder V] {catalog : Catalog V} {defn : JoinDefinition}
  {settings : Settings} {see : Query → Database} {fuel : Nat} {batch : List Parsed}

/-- The document is what some query of the batch has seen. -/
def Shown (catalog : Catalog V) (defn : JoinDefinition) (see : Query → Database) (id : String)
    (doc : Option Value) : Prop :=
  ∃ query, content catalog defn (see query) id = doc

theorem mem_upserts : output ∈ upserts rows ↔ ∃ entry ∈ rows, output = .upsert entry.1 entry.2 := by
  simp only [upserts, mem_map, eq_comm]

variable {gathered : Gathered}

/-- The query that a join key is looked up by. -/
def lookupQuery (rel : RelatedDefinition) (index : Nat) (key : Key) : Query :=
  .lookup index (if rel.joinOn.source.columns.length = 1 then none else some key)

theorem mem_lookupPrimaryByBatch :
    name ∈ lookupPrimaryByBatch catalog defn see index rel.joinOn.source.columns tuples ↔
      ∃ key ∈ tuples, ∃ row ∈ primaryRows defn (see (lookupQuery rel index key)),
        refersTo catalog rel.joinOn.source.columns key row ∧
          keyText catalog defn row = some name := by
  unfold lookupPrimaryByBatch lookupQuery
  split
  · simp only [mem_filterMap, mem_filter, any_eq_true]
    constructor
    · rintro ⟨row, ⟨isRow, key, isKey, refers⟩, isName⟩
      exact ⟨key, isKey, row, isRow, refers, isName⟩
    · rintro ⟨key, isKey, row, isRow, refers, isName⟩
      exact ⟨row, ⟨isRow, key, isKey, refers⟩, isName⟩
  · simp only [mem_flatMap, mem_filterMap, mem_filter, and_assoc]

/-- The deleted children to be looked up by these fields. -/
def childrenOf (lookups : List (List String × Key)) (fields : List String) : List Key :=
  ((lookups.filter fun entry => entry.1 = fields).map (·.2)).dedup

/-- The keys of the primaries that a hint leads to. -/
def Hint.Reaches (catalog : Catalog V) (defn : JoinDefinition) (see : Query → Database)
    (name : Key) : Hint → Prop
  | .affected key => name = key
  | .deleted key => name = key
  | .joinKey index key => ∃ rel, (rel, index) ∈ defn.related.zipIdx ∧
      ∃ row ∈ primaryRows defn (see (lookupQuery rel index key)),
        refersTo catalog rel.joinOn.source.columns key row ∧ keyText catalog defn row = some name

theorem mem_affectedKeys : name ∈ affectedKeys catalog defn settings see gathered ↔
    (∃ hint, gathered.Has hint ∧ hint.Reaches catalog defn see name) ∨
    ∃ fields ∈ gathered.lookups.map (·.1),
      name ∈ settings.reverseLookup fields (childrenOf gathered.lookups fields) := by
  have found : ∀ rel index, name ∈
      (if ((gathered.many1.filter fun entry => entry.1 = index).map (·.2)).isEmpty then []
        else lookupPrimaryByBatch catalog defn see index rel.joinOn.source.columns
          ((gathered.many1.filter fun entry => entry.1 = index).map (·.2)).dedup) ↔
      ∃ key, (index, key) ∈ gathered.many1 ∧
        ∃ row ∈ primaryRows defn (see (lookupQuery rel index key)),
          refersTo catalog rel.joinOn.source.columns key row ∧
            keyText catalog defn row = some name := by
    intro rel index
    have isTuple : ∀ key, (index, key) ∈ gathered.many1 ↔
        key ∈ (gathered.many1.filter fun entry => entry.1 = index).map (·.2) := by
      simp
    simp only [isTuple]
    cases (gathered.many1.filter fun entry => entry.1 = index).map (·.2) with
    | nil => simp
    | cons first rest =>
      rw [isEmpty_cons, if_neg Bool.false_ne_true, mem_lookupPrimaryByBatch]
      simp only [mem_dedup]
  simp only [affectedKeys, mem_dedup, mem_append, mem_flatMap, found, Prod.exists]
  constructor
  · rintro (((affected | ⟨rel, index, numbered, key, noted, there⟩) | answered) | deleted)
    · exact .inl ⟨.affected name, affected, rfl⟩
    · exact .inl ⟨.joinKey index key, noted, rel, numbered, there⟩
    · exact .inr answered
    · exact .inl ⟨.deleted name, deleted, rfl⟩
  · rintro (⟨hint, noted, reaches⟩ | answered)
    · cases hint with
      | affected key => exact .inl (.inl (.inl (reaches ▸ noted)))
      | deleted key => exact .inr (reaches ▸ noted)
      | joinKey index key =>
        obtain ⟨rel, numbered, there⟩ := reaches
        exact .inl (.inl (.inr ⟨rel, index, numbered, key, noted, there⟩))
    · exact .inl (.inr answered)

theorem mem_affectedKeys_of_has (hint : Hint) (noted : gathered.Has hint)
    (reaches : hint.Reaches catalog defn see name) :
    name ∈ affectedKeys catalog defn settings see gathered :=
  mem_affectedKeys.mpr (.inl ⟨hint, noted, reaches⟩)

/-- The two ways of a batch: rebuild the projection, or recompose what was noted after a
    projection for a truncated related table. -/
theorem batchOutputs_cases
    (ran : batchOutputs catalog defn settings see fuel batch = some outputs) :
    (truncates batch defn.primary.table ∧
      ∃ rows, emitAll catalog defn settings.chunkSize see fuel 0 none = some rows ∧
        outputs = (if settings.emitTargetClears then [.clear] else []) ++ upserts rows) ∨
    (truncates batch defn.primary.table = false ∧ ∃ rows, outputs = upserts rows ++
          recomposed catalog defn settings see (gather defn batch) ∧
        ((defn.related.any fun rel => truncates batch rel.table) ∧
          emitAll catalog defn settings.chunkSize see fuel 0 none = some rows ∨
        (defn.related.any fun rel => truncates batch rel.table) = false ∧ rows = [])) := by
  unfold batchOutputs at ran
  cases truncated : truncates batch defn.primary.table with
  | true =>
    simp only [truncated, if_true, Option.bind_eq_bind, Option.bind_eq_some_iff] at ran
    obtain ⟨rows, emitted, isOutputs⟩ := ran
    exact .inl ⟨rfl, rows, emitted, (Option.some.inj isOutputs).symm⟩
  | false =>
    refine .inr ⟨rfl, ?_⟩
    cases related : defn.related.any fun rel => truncates batch rel.table with
    | true =>
      simp only [truncated, related, Bool.false_eq_true, if_false, if_true,
        Option.bind_eq_bind, Option.bind_eq_some_iff] at ran
      obtain ⟨rows, emitted, isOutputs⟩ := ran
      exact ⟨rows, (Option.some.inj isOutputs).symm, .inl ⟨rfl, emitted⟩⟩
    | false =>
      simp only [truncated, related, Bool.false_eq_true, if_false] at ran
      exact ⟨[], (Option.some.inj ran).symm, .inr ⟨rfl, rfl⟩⟩

/-- The batch says what becomes of the document. -/
def Settles (defn : JoinDefinition) (id : String) (outputs : List Output) : Prop :=
  ∃ output ∈ outputs, output.Concerns defn id

/-- A row with this id is there in every state that the batch sees. -/
def Remains (catalog : Catalog V) (defn : JoinDefinition) (see : Query → Database)
    (id : String) : Prop :=
  ∀ query, ∃ row ∈ primaryRows defn (see query), idOf catalog defn row = some id

/-- A document whose row is there all the time is composed again if its key is an affected one,
    and only then. -/
theorem settles_recomposed_iff (remains : Remains catalog defn see id)
    (isId : idOf catalog defn row = some id) :
    Settles defn id (recomposed catalog defn settings see gathered) ↔
      ∃ key ∈ affectedKeys catalog defn settings see gathered, hasKey catalog defn key row := by
  obtain ⟨name, isName, rfl⟩ := Option.map_eq_some_iff.mp isId
  constructor
  · rintro ⟨output, mem, concerns⟩
    rcases mem_append.mp mem with upserted | buried
    · obtain ⟨entry, isEntry, rfl⟩ := mem_upserts.mp upserted
      obtain ⟨key, affected, now, -, has, isNow, -⟩ := mem_recompose.mp isEntry
      rw [(docId_inj concerns).2] at isNow
      exact ⟨key, affected, (hasKey_iff isName).mpr ((hasKey_iff isNow).mp has)⟩
    · obtain ⟨key, isKey, rfl⟩ := mem_map.mp buried
      rw [← (docId_inj concerns).2] at isName
      exact ⟨key, mem_affectedKeys_of_has (.deleted key) (mem_filter.mp isKey).1 rfl,
        hasKey_of_keyText isName⟩
  · rintro ⟨key, affected, has⟩
    obtain ⟨now, there, isIdNow⟩ := remains (recomposeQuery defn key)
    have isNameNow := idOf_docId.mp isIdNow
    have emitted : (name, docExpr catalog defn (see (recomposeQuery defn key)) now) ∈
        recompose catalog defn see (affectedKeys catalog defn settings see gathered) :=
      mem_recompose.mpr ⟨key, affected, now, there,
        (hasKey_iff isNameNow).mpr ((hasKey_iff isName).mp has), isNameNow, rfl⟩
    exact ⟨_, mem_append_left _ (mem_upserts.mpr ⟨_, emitted, rfl⟩), rfl⟩

theorem settles_of_deletes (deleted : key ∈ gathered.deletes)
    (isId : docId defn.primary.table key = id) :
    Settles defn id (recomposed catalog defn settings see gathered) := by
  by_cases emitted : key ∈ (recompose catalog defn see
      (affectedKeys catalog defn settings see gathered)).map (·.1)
  · obtain ⟨entry, isEntry, rfl⟩ := mem_map.mp emitted
    exact ⟨_, mem_append_left _ (mem_upserts.mpr ⟨entry, isEntry, rfl⟩), isId⟩
  · refine ⟨.tombstone key, mem_append_right _ (mem_map.mpr ⟨key, ?_, rfl⟩), isId⟩
    exact mem_filter.mpr ⟨deleted, by simpa using emitted⟩

theorem Settles.mono (settles : Settles defn id part) (kept : part ⊆ outputs) :
    Settles defn id outputs := by
  obtain ⟨output, mem, concerns⟩ := settles
  exact ⟨output, kept mem, concerns⟩

/-- A deleted row's document is written, and so is every document when the primary table is
    truncated, if truncating clears the target. -/
theorem batch_settles_deleted
    (ran : batchOutputs catalog defn settings see fuel batch = some outputs)
    (clears : truncates batch defn.primary.table → settings.emitTargetClears)
    (noted : truncates batch defn.primary.table ∨
      ∃ key ∈ (gather defn batch).deletes, docId defn.primary.table key = id) :
    Settles defn id outputs := by
  cases batchOutputs_cases ran with
  | inl rebuilt =>
    obtain ⟨truncated, rows, -, rfl⟩ := rebuilt
    rw [if_pos (clears truncated)]
    exact ⟨.clear, by simp, trivial⟩
  | inr recomposes =>
    obtain ⟨intact, rows, rfl, -⟩ := recomposes
    cases noted with
    | inl truncated => simp [intact] at truncated
    | inr deleted =>
      obtain ⟨key, isKey, isId⟩ := deleted
      exact (settles_of_deletes isKey isId).mono (subset_append_right _ _)

section

variable (keyed : ∀ query, Keyed catalog defn (see query))
include keyed

omit [LinearOrder V] in
theorem shown_of_upsert (seen : ∀ entry ∈ rows, ∃ query, Seen catalog defn (see query) entry)
    (mem : output ∈ upserts rows) (concerns : output.Concerns defn id) :
    Shown catalog defn see id output.doc := by
  obtain ⟨entry, isEntry, rfl⟩ := mem_upserts.mp mem
  obtain ⟨query, isSeen⟩ := seen entry isEntry
  cases concerns
  exact ⟨query, isSeen.content (keyed query)⟩

theorem shown_of_recomposed (mem : output ∈ recomposed catalog defn settings see gathered)
    (concerns : output.Concerns defn id) : Shown catalog defn see id output.doc := by
  cases mem_append.mp mem with
  | inl upserted =>
    exact shown_of_upsert keyed (fun _ => seen_of_mem_recompose) upserted concerns
  | inr buried =>
    obtain ⟨key, isKey, rfl⟩ := mem_map.mp buried
    obtain ⟨deleted, missing⟩ := mem_filter.mp isKey
    cases concerns
    exact content_of_not_recomposed (mem_affectedKeys_of_has (.deleted key) deleted rfl)
      (by simpa using missing)

theorem batchOutputs_isSome {keys : List (List V)}
    (listed : ∀ query, ∀ row ∈ primaryRows defn (see query),
      keyValues catalog defn row ∈ keys) (enough : keys.length < fuel) :
    ∃ outputs, batchOutputs catalog defn settings see fuel batch = some outputs := by
  have isSome : (emitAll catalog defn settings.chunkSize see fuel 0 none).isSome := by
    refine emitAll_isSome keyed listed (lt_of_le_of_lt ?_ enough)
    exact length_filter_le _ _
  obtain ⟨rows, emitted⟩ := Option.isSome_iff_exists.mp isSome
  unfold batchOutputs
  rw [emitted]
  split
  · exact ⟨_, rfl⟩
  · split
    · exact ⟨_, rfl⟩
    · exact ⟨_, rfl⟩

variable (positive : 0 < settings.chunkSize)
include positive

theorem settles_of_emitAll (remains : Remains catalog defn see id)
    (emitted : emitAll catalog defn settings.chunkSize see fuel 0 none = some rows) :
    Settles defn id (upserts rows) := by
  obtain ⟨first, _, isFirst⟩ := remains (.page 0)
  have sameKey : ∀ query, ∃ row ∈ primaryRows defn (see query), idOf catalog defn row = some id ∧
        keyValues catalog defn row = keyValues catalog defn first := by
    intro query
    obtain ⟨row, mem, isId⟩ := remains query
    exact ⟨row, mem, isId, keyValues_eq_of_idOf isId isFirst⟩
  have past : Past ((none : Option Key).map (values catalog (pkColumns defn)))
      (keyValues catalog defn first) := past_none _
  obtain ⟨entry, mem, isEntry⟩ := mem_emitAll positive keyed sameKey past emitted
  exact ⟨_, mem_upserts.mpr ⟨entry, mem, rfl⟩, isEntry⟩

theorem shown_of_not_emitted
    (emitted : emitAll catalog defn settings.chunkSize see fuel 0 none = some rows)
    (missing : ∀ output ∈ upserts rows, ¬ output.Concerns defn id) :
    Shown catalog defn see id none := by
  by_contra never
  have remains : Remains catalog defn see id := by
    intro query
    by_contra absent
    push Not at absent
    exact never ⟨query, content_eq_none absent⟩
  obtain ⟨output, mem, concerns⟩ := settles_of_emitAll keyed positive remains emitted
  exact missing output mem concerns

theorem batch_shows (ran : batchOutputs catalog defn settings see fuel batch = some outputs)
    (mem : output ∈ outputs) (concerns : output.Concerns defn id) (docs : String → Option Value) :
    Shown catalog defn see id (outputs.foldl (applyOutput defn) docs id) := by
  cases batchOutputs_cases ran with
  | inl rebuilt =>
    obtain ⟨-, rows, emitted, rfl⟩ := rebuilt
    rw [foldl_append]
    by_cases upserted : ∃ output ∈ upserts rows, output.Concerns defn id
    · obtain ⟨output, isOutput, concernsIt⟩ := upserted
      obtain ⟨last, isLast, lastConcerns, decided⟩ :=
        foldl_applyOutput_of_concerns isOutput concernsIt _
      rw [decided]
      exact shown_of_upsert keyed (fun _ => seen_of_mem_emitAll emitted) isLast lastConcerns
    · -- What is left is the clear, and the projection has seen no such row.
      have missing : ∀ output ∈ upserts rows, ¬ output.Concerns defn id :=
        fun output isOutput concernsIt => upserted ⟨output, isOutput, concernsIt⟩
      rw [foldl_applyOutput_of_not_concerns missing]
      cases mem_append.mp mem with
      | inr isUpsert => exact absurd concerns (missing output isUpsert)
      | inl isClear =>
        split at isClear
        · rename_i clears
          rw [if_pos clears]
          exact shown_of_not_emitted keyed positive emitted missing
        · cases isClear
  | inr recomposes =>
    obtain ⟨-, rows, rfl, source⟩ := recomposes
    obtain ⟨last, isLast, lastConcerns, decided⟩ := foldl_applyOutput_of_concerns mem concerns docs
    rw [decided]
    cases mem_append.mp isLast with
    | inr isRecomposed => exact shown_of_recomposed keyed isRecomposed lastConcerns
    | inl isUpsert =>
      refine shown_of_upsert keyed (fun entry isEntry => ?_) isUpsert lastConcerns
      cases source with
      | inl projected => exact seen_of_mem_emitAll projected.2 isEntry
      | inr nothing =>
        rw [nothing.2] at isEntry
        cases isEntry

/-- A document that is there all the time is written if the batch truncates a table or notes its
    key, and only then. -/
theorem batch_settles_iff (ran : batchOutputs catalog defn settings see fuel batch = some outputs)
    (remains : Remains catalog defn see id) (isId : idOf catalog defn row = some id) :
    Settles defn id outputs ↔ truncates batch defn.primary.table ∨
      (defn.related.any fun rel => truncates batch rel.table) ∨
      ∃ key ∈ affectedKeys catalog defn settings see (gather defn batch),
        hasKey catalog defn key row := by
  rcases batchOutputs_cases ran with ⟨truncated, rows, emitted, rfl⟩ |
    ⟨intact, rows, rfl, ⟨truncated, emitted⟩ | ⟨untouched, rfl⟩⟩
  · exact iff_of_true ((settles_of_emitAll keyed positive remains emitted).mono
      (subset_append_right _ _)) (.inl truncated)
  · exact iff_of_true ((settles_of_emitAll keyed positive remains emitted).mono
      (subset_append_left _ _)) (.inr (.inl truncated))
  · rw [← settles_recomposed_iff remains isId]
    simp [intact, untouched, upserts]

end

end

end Ventstream.SqlDenormalize
