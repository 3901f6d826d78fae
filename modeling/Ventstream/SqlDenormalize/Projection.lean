import Ventstream.SqlDenormalize.Tail

/-! # What the projection queries return

The document of a row is found under the row's key cast to text. Recomposing a set of
keys returns the documents of the rows that have one of them, in the state that the
query sees. The whole projection comes in chunks, each in a state of its own: a
document that is there in all of them is returned.
-/

namespace Ventstream.SqlDenormalize

open Library List
open Core (docId docId_inj)
open Joins (JoinDefinition RelatedDefinition)
open Json (Value)

variable {V : Type} {catalog : Catalog V} {defn : JoinDefinition}

variable {database : Database}

section

/-- Every row of the primary table has a key, and no two have the same. -/
structure Keyed (catalog : Catalog V) (defn : JoinDefinition) (database : Database) : Prop where
  present : ∀ row ∈ primaryRows defn database, (keyOf defn row).isSome
  distinct : (primaryRows defn database).Pairwise
    (keyValues catalog defn · ≠ keyValues catalog defn ·)

/-- The id of the row's document. -/
def idOf (catalog : Catalog V) (defn : JoinDefinition) (row : Row) : Option String :=
  (keyText catalog defn row).map (docId defn.primary.table)

/-- The document that the compose query yields under an id. -/
def content (catalog : Catalog V) (defn : JoinDefinition) (database : Database)
    (id : String) : Option Value :=
  ((primaryRows defn database).find? fun row => idOf catalog defn row = some id).map
    (docExpr catalog defn database)

theorem zipWith_value_text (catalog : Catalog V) (columns : List String) (key : Key) :
    zipWith catalog.value columns (zipWith catalog.text columns key) =
      zipWith catalog.value columns key := by
  induction columns generalizing key with
  | nil => rfl
  | cons column rest ih =>
    cases key with
    | nil => rfl
    | cons text others => simp [catalog.value_text, ih]

theorem keyValues_of_keyText (isKey : keyText catalog defn row = some key) :
    keyValues catalog defn row = values catalog (pkColumns defn) key := by
  obtain ⟨written, isWritten, rfl⟩ := Option.map_eq_some_iff.mp isKey
  rw [keyValues, isWritten, values, zipWith_value_text]
  rfl

theorem hasKey_iff [LinearOrder V] (isKey : keyText catalog defn row = some name) :
    hasKey catalog defn key row ↔ values catalog (pkColumns defn) name =
      values catalog (pkColumns defn) key := by
  obtain ⟨written, isWritten, rfl⟩ := Option.map_eq_some_iff.mp isKey
  simp [hasKey, isWritten, values, zipWith_value_text]

theorem hasKey_of_keyText [LinearOrder V] (isKey : keyText catalog defn row = some key) :
    hasKey catalog defn key row = true := (hasKey_iff isKey).mpr rfl

theorem idOf_docId : idOf catalog defn row = some (docId defn.primary.table key) ↔
      keyText catalog defn row = some key := by
  constructor
  · intro isId
    obtain ⟨other, isOther, same⟩ := Option.map_eq_some_iff.mp isId
    rw [isOther, (docId_inj same).2]
  · intro isKey
    rw [idOf, isKey, Option.map_some]

theorem keyValues_eq_of_idOf {id} (isId : idOf catalog defn row = some id)
    (isIdToo : idOf catalog defn other = some id) :
    keyValues catalog defn row = keyValues catalog defn other := by
  obtain ⟨key, isKey, rfl⟩ := Option.map_eq_some_iff.mp isId
  rw [keyValues_of_keyText isKey, keyValues_of_keyText (idOf_docId.mp isIdToo)]

namespace Keyed

variable (keyed : Keyed catalog defn database)

include keyed

theorem eq_of_keyValues (mem : row ∈ primaryRows defn database)
    (memberToo : other ∈ primaryRows defn database)
    (same : keyValues catalog defn row = keyValues catalog defn other) : row = other := by
  have distinct := keyed.distinct
  rw [← pairwise_map, ← nodup_iff_pairwise_ne] at distinct
  exact inj_on_of_nodup_map distinct mem memberToo same

theorem idOf_isSome (mem : row ∈ primaryRows defn database) : (idOf catalog defn row).isSome := by
  simpa [idOf, keyText] using keyed.present row mem

theorem content_of_row {id} (mem : row ∈ primaryRows defn database)
    (isId : idOf catalog defn row = some id) :
    content catalog defn database id = some (docExpr catalog defn database row) := by
  unfold content
  cases found : (primaryRows defn database).find?
      fun row => idOf catalog defn row = some id with
  | none => exact absurd isId (by simpa using find?_eq_none.mp found row mem)
  | some other =>
    have isIdToo : idOf catalog defn other = some id := by
      simpa using find?_some found
    rw [keyed.eq_of_keyValues (mem_of_find?_eq_some found) mem
      (keyValues_eq_of_idOf isIdToo isId), Option.map_some]

end Keyed

theorem content_eq_none {id}
    (absent : ∀ row ∈ primaryRows defn database, idOf catalog defn row ≠ some id) :
    content catalog defn database id = none := by
  rw [content, find?_eq_none.mpr (by simpa using absent), Option.map_none]

end

variable {see : Query → Database}

section

theorem mem_project : (key, doc) ∈ project catalog defn database rows ↔ ∃ row ∈ rows,
      keyText catalog defn row = some key ∧ docExpr catalog defn database row = doc := by
  simp only [project, mem_filterMap, Option.map_eq_some_iff, Prod.mk.injEq]
  constructor
  · rintro ⟨row, mem, _, isKey, rfl, isDoc⟩
    exact ⟨row, mem, isKey, isDoc⟩
  · rintro ⟨row, mem, isKey, isDoc⟩
    exact ⟨row, mem, key, isKey, rfl, isDoc⟩

/-- What a query returns is the document of a row in the state it sees. -/
def Seen (catalog : Catalog V) (defn : JoinDefinition) (database : Database)
    (entry : Key × Value) : Prop :=
  ∃ row ∈ primaryRows defn database, keyText catalog defn row = some entry.1 ∧
    docExpr catalog defn database row = entry.2

theorem Seen.content (seen : Seen catalog defn database entry)
    (keyed : Keyed catalog defn database) :
    content catalog defn database (docId defn.primary.table entry.1) =
      some entry.2 := by
  obtain ⟨row, mem, isKey, isDoc⟩ := seen
  rw [keyed.content_of_row mem (idOf_docId.mpr isKey), isDoc]

/-- The query that a key is recomposed by. -/
def recomposeQuery (defn : JoinDefinition) (key : Key) : Query :=
  .recompose (if (pkColumns defn).length = 1 then none else some key)

variable [LinearOrder V] {keys : List Key}

theorem mem_recompose : entry ∈ recompose catalog defn see keys ↔ ∃ key ∈ keys,
      ∃ row ∈ primaryRows defn (see (recomposeQuery defn key)), hasKey catalog defn key row ∧
        keyText catalog defn row = some entry.1 ∧
        docExpr catalog defn (see (recomposeQuery defn key)) row = entry.2 := by
  obtain ⟨name, doc⟩ := entry
  by_cases single : (pkColumns defn).length = 1
  · simp only [recompose, recomposeQuery, if_pos single, mem_project, mem_filter, any_eq_true]
    constructor
    · rintro ⟨row, ⟨mem, key, isKey, has⟩, isName, isDoc⟩
      exact ⟨key, isKey, row, mem, has, isName, isDoc⟩
    · rintro ⟨key, isKey, row, mem, has, isName, isDoc⟩
      exact ⟨row, ⟨mem, key, isKey, has⟩, isName, isDoc⟩
  · simp only [recompose, recomposeQuery, if_neg single, mem_flatMap, mem_project, mem_filter]
    constructor
    · rintro ⟨key, isKey, row, ⟨mem, has⟩, isName, isDoc⟩
      exact ⟨key, isKey, row, mem, has, isName, isDoc⟩
    · rintro ⟨key, isKey, row, mem, has, isName, isDoc⟩
      exact ⟨key, isKey, row, ⟨mem, has⟩, isName, isDoc⟩

theorem seen_of_mem_recompose (mem : entry ∈ recompose catalog defn see keys) :
    ∃ query, Seen catalog defn (see query) entry := by
  obtain ⟨key, _, row, isRow, _, isName, isDoc⟩ := mem_recompose.mp mem
  exact ⟨_, row, isRow, isName, isDoc⟩

theorem content_of_not_recomposed (mem : key ∈ keys)
    (missing : key ∉ (recompose catalog defn see keys).map (·.1)) :
    ∃ query, content catalog defn (see query)
    (docId defn.primary.table key) = none := by
  refine ⟨recomposeQuery defn key, content_eq_none fun row isRow isId => missing ?_⟩
  have isKey := idOf_docId.mp isId
  refine mem_map.mpr ⟨(key, _), mem_recompose.mpr ⟨key, mem, row, isRow,
    hasKey_of_keyText isKey, isKey, rfl⟩, rfl⟩

end

section

variable [LinearOrder V] {chunkSize : Nat} {last : Option Key}

theorem mem_of_mem_fetchChunk (mem : row ∈ fetchChunk catalog defn chunkSize database last) :
    row ∈ primaryRows defn database ∧ Past (last.map (values catalog (pkColumns defn)))
    (keyValues catalog defn row) := by
  obtain ⟨isRow, past⟩ := mem_of_mem_page mem
  exact ⟨(mem_insertionSort _).mp isRow, past⟩

theorem Keyed.mem_fetchChunk_or_past (keyed : Keyed catalog defn database)
    (mem : row ∈ primaryRows defn database)
    (past : Past (last.map (values catalog (pkColumns defn))) (keyValues catalog defn row)) :
    row ∈ fetchChunk catalog defn chunkSize database last ∨
      (fetchChunk catalog defn chunkSize database last).length = chunkSize ∧
      ∀ other ∈ fetchChunk catalog defn chunkSize database last,
        keyValues catalog defn other < keyValues catalog defn row := by
  refine mem_page_or_past chunkSize ?_ ((mem_insertionSort _).mpr mem) past
  have sorted := pairwise_insertionSort (fun left right => keyValues catalog defn left ≤
    keyValues catalog defn right) (primaryRows defn database)
  have distinct := ((perm_insertionSort (fun left right =>
    keyValues catalog defn left ≤ keyValues catalog defn right)
    (primaryRows defn database)).pairwise_iff (fun differ => differ.symm)).mpr keyed.distinct
  exact (sorted.and distinct).imp fun both => lt_of_le_of_ne both.1 both.2

/-- The cases of a chunk: nothing is left, the last chunk, or a full one with more to come. -/
theorem emitAll_succ : emitAll catalog defn chunkSize see (fuel + 1) number last =
      match (fetchChunk catalog defn chunkSize (see (.page number)) last).getLast? with
      | none => some []
      | some lastRow =>
        if (fetchChunk catalog defn chunkSize (see (.page number)) last).length ≥
            chunkSize then
          (emitAll catalog defn chunkSize see fuel (number + 1) (keyText catalog defn lastRow)).map
            (project catalog defn (see (.page number))
              (fetchChunk catalog defn chunkSize (see (.page number)) last) ++ ·)
        else some (project catalog defn (see (.page number))
          (fetchChunk catalog defn chunkSize (see (.page number)) last)) :=
  rfl

theorem seen_of_mem_fetchChunk (mem : entry ∈ project catalog defn database
      (fetchChunk catalog defn chunkSize database last)) : Seen catalog defn database entry := by
  obtain ⟨row, isRow, isKey, isDoc⟩ := mem_project.mp mem
  exact ⟨row, (mem_of_mem_fetchChunk isRow).1, isKey, isDoc⟩

variable {fuel number : Nat} {rows : List (Key × Value)}

theorem seen_of_mem_emitAll
    (emitted : emitAll catalog defn chunkSize see fuel number last = some rows)
    (mem : entry ∈ rows) : ∃ query, Seen catalog defn (see query) entry := by
  induction fuel generalizing number last rows with
  | zero => cases emitted
  | succ fuel ih =>
    rw [emitAll_succ] at emitted
    split at emitted
    · cases emitted
      cases mem
    · split at emitted
      · obtain ⟨others, rest, rfl⟩ := Option.map_eq_some_iff.mp emitted
        cases mem_append.mp mem with
        | inl here => exact ⟨_, seen_of_mem_fetchChunk here⟩
        | inr there => exact ih rest there
      · cases emitted
        exact ⟨_, seen_of_mem_fetchChunk mem⟩

theorem mem_emitAll (positive : 0 < chunkSize) (keyed : ∀ query, Keyed catalog defn (see query))
    {id} (there : ∀ query, ∃ row ∈ primaryRows defn (see query),
      idOf catalog defn row = some id ∧ keyValues catalog defn row = key)
    (past : Past (last.map (values catalog (pkColumns defn))) key)
    (emitted : emitAll catalog defn chunkSize see fuel number last = some rows) :
    ∃ entry ∈ rows, docId defn.primary.table entry.1 = id := by
  induction fuel generalizing number last rows with
  | zero => cases emitted
  | succ fuel ih =>
    obtain ⟨row, isRow, isId, rfl⟩ := there (.page number)
    obtain ⟨name, isName, rfl⟩ := Option.map_eq_some_iff.mp isId
    have found : row ∈ fetchChunk catalog defn chunkSize (see (.page number)) last ∨ _ :=
      (keyed (.page number)).mem_fetchChunk_or_past isRow past
    have returned : row ∈ fetchChunk catalog defn chunkSize (see (.page number)) last →
        (name, docExpr catalog defn (see (.page number)) row) ∈
          project catalog defn (see (.page number))
            (fetchChunk catalog defn chunkSize (see (.page number)) last) :=
      fun onPage => mem_project.mpr ⟨row, onPage, isName, rfl⟩
    rw [emitAll_succ] at emitted
    split at emitted
    case h_1 empty =>
      rw [getLast?_eq_none_iff] at empty
      cases found with
      | inl onPage =>
        rw [empty] at onPage
        cases onPage
      | inr beyond =>
        rw [empty] at beyond
        exact absurd beyond.1.symm positive.ne'
    case h_2 lastRow atEnd =>
      have onPage := mem_of_getLast? atEnd
      split at emitted
      case isTrue full =>
        obtain ⟨others, rest, rfl⟩ := Option.map_eq_some_iff.mp emitted
        cases found with
        | inl here => exact ⟨_, mem_append_left _ (returned here), rfl⟩
        | inr beyond =>
          obtain ⟨lastKey, isLast⟩ : ∃ lastKey, keyText catalog defn lastRow =
              some lastKey := by
            have isSome := (keyed (.page number)).idOf_isSome (mem_of_mem_fetchChunk onPage).1
            exact Option.isSome_iff_exists.mp (by simpa [idOf] using isSome)
          have pastLast : Past ((keyText catalog defn lastRow).map
              (values catalog (pkColumns defn))) (keyValues catalog defn row) := by
            rw [isLast, Option.map_some, past_some, ← keyValues_of_keyText isLast]
            exact beyond.2 lastRow onPage
          obtain ⟨entry, mem, isEntry⟩ := ih pastLast rest
          exact ⟨entry, mem_append_right _ mem, isEntry⟩
      case isFalse short =>
        cases emitted
        cases found with
        | inl here => exact ⟨_, returned here, rfl⟩
        | inr beyond => exact absurd beyond.1.ge short

/-- Each chunk ends at a later key, so that chunks run out when the keys do. -/
theorem emitAll_isSome (keyed : ∀ query, Keyed catalog defn (see query)) {keys : List (List V)}
    (listed : ∀ query, ∀ row ∈ primaryRows defn (see query),
      keyValues catalog defn row ∈ keys) (enough : (keys.filter fun key =>
      Past (last.map (values catalog (pkColumns defn))) key).length < fuel) :
    (emitAll catalog defn chunkSize see fuel number last).isSome := by
  induction fuel generalizing number last with
  | zero => omega
  | succ fuel ih =>
    rw [emitAll_succ]
    split
    · rfl
    · rename_i lastRow atEnd
      split
      · rw [Option.isSome_map]
        apply ih
        obtain ⟨isRow, past⟩ := mem_of_mem_fetchChunk (mem_of_getLast? atEnd)
        obtain ⟨lastKey, isLast⟩ : ∃ lastKey, keyText catalog defn lastRow =
            some lastKey := by
          have isSome := (keyed (.page number)).idOf_isSome isRow
          exact Option.isSome_iff_exists.mp (by simpa [idOf] using isSome)
        rw [isLast, Option.map_some, ← keyValues_of_keyText isLast]
        have fewer := length_filter_past_lt past (listed _ lastRow isRow)
        omega
      · rfl

end

end Ventstream.SqlDenormalize
