import Ventstream.Core.Event

/-! # The reconciliation pass

`reconcile_orphans` of `reconcile.rs` scrolls through an index, takes out the ids that
belong to a definition and deletes those whose key the source does not list any more. It
refuses to delete everything, or more than half. What the cluster answers is a list of
answers, one for each request; a pass that still waits for an answer has no outcome.
-/

namespace Ventstream.OpenSearch

open Core
open List hiding format
open Json (Value)

inductive ScrollError where
  | transport (message : String)
  | badStatus (status : Nat) (body : String)
  | decode (message : String)

inductive Refusal where
  /-- The source listed no key at all. -/
  | noKeys
  | noKeysFor (examinedMatching : Nat)
  | overCap (wouldDelete examinedMatching : Nat)

inductive ReconcileError where
  | client (message : String)
  | transport (message : String)
  | badStatus (status : Nat) (body : String)
  | decode (message : String)
  | refused (reason : Refusal)

def reconcileError : ScrollError → ReconcileError
  | .transport message => .transport message
  | .badStatus status body => .badStatus status body
  | .decode message => .decode message

/-- More than half of the documents, `MAX_DELETE_FRACTION`, are not deleted in one pass. -/
def checkDeleteGuard (validPksLen examinedMatching wouldDelete : Nat) (allowFullPurge : Bool) :
    Except Refusal Unit :=
  if allowFullPurge then .ok ()
  else if validPksLen = 0 then .error (.noKeysFor examinedMatching)
  else if 0 < examinedMatching ∧ examinedMatching < 2 * wouldDelete then
    .error (.overCap wouldDelete examinedMatching)
  else .ok ()

inductive DocIdFormat where
  /-- Postgres: a JSON array of the components. -/
  | jsonArray
  /-- Neo4j: the element id as it is. -/
  | rawSuffix
  deriving DecidableEq

def stripLead (lead text : String) : Option String :=
  if lead.toList.isPrefixOf text.toList then some (String.ofList (text.toList.drop lead.length))
  else none

/-- The key in a document id; none for a document of another definition. -/
def extractPkFromDocId (fromStr : String → Option Value) (docId lead : String)
    (format : DocIdFormat) : Option String := do
  let rest ← stripLead lead docId
  match format with
  | .jsonArray =>
    match fromStr rest with
    | some (.array items) => pkKey (items.map componentText)
    | _ => none
  | .rawSuffix => if rest.isEmpty then none else some rest

structure ScrollBatch where
  scrollId : Option String
  ids : List String

structure FailedDelete where
  id : String
  status : Nat
  reason : Option String

/-- What the cluster answers in the course of a pass. -/
structure Answers where
  /-- The client could not be built. -/
  client : Option String
  pages : List (Except ScrollError ScrollBatch)
  deletes : List (Except ScrollError (List FailedDelete))

/-- The ids of all pages up to an empty one. -/
def scrollIds : List (Except ScrollError ScrollBatch) → Option (Except ScrollError (List String))
  | [] => none
  | .error error :: _ => some (.error error)
  | .ok batch :: rest =>
    if batch.ids.isEmpty then some (.ok [])
    else (scrollIds rest).map fun further => further.map (batch.ids ++ ·)

structure Request where
  ids : List String
  answer : Except ScrollError (List FailedDelete)

/-- What a pass returns and the bulk requests that it made. -/
structure Outcome where
  result : Except ReconcileError Nat
  requests : List Request

def bulkDeleteBatch : Nat := 1000

/-- Delete chunk by chunk. An item that the cluster does not delete is only logged. -/
def deleteAll (toDelete : List String) : List (Except ScrollError (List FailedDelete)) →
    Option Outcome
  | [] => if toDelete.isEmpty then some ⟨.ok 0, []⟩ else none
  | answer :: further =>
    if toDelete.isEmpty then some ⟨.ok 0, []⟩
    else
      let chunk := toDelete.take bulkDeleteBatch
      match answer with
      | .error error => some ⟨.error (reconcileError error), [⟨chunk, answer⟩]⟩
      | .ok _ => (deleteAll (toDelete.drop bulkDeleteBatch) further).map fun outcome =>
        ⟨outcome.result.map (chunk.length + ·), ⟨chunk, answer⟩ :: outcome.requests⟩

variable (fromStr : String → Option Value) (allowFullPurge : Bool)

/-- The ids among some that belong to a definition, with their keys. -/
def matchingIds (lead : String) (format : DocIdFormat) (ids : List String) :
    List (String × String) :=
  ids.filterMap fun id => (extractPkFromDocId fromStr id lead format).map fun pk => (id, pk)

def orphanIds (validPks : List String) (matching : List (String × String)) : List String :=
  (matching.filter fun entry => entry.2 ∉ validPks).map (·.1)

def reconcileOrphans (lead : String) (validPks : List String) (format : DocIdFormat)
    (answers : Answers) : Option Outcome :=
  if validPks.isEmpty && !allowFullPurge then some ⟨.error (.refused .noKeys), []⟩
  else
    match answers.client with
    | some message => some ⟨.error (.client message), []⟩
    | none =>
      match scrollIds answers.pages with
      | none => none
      | some (.error error) => some ⟨.error (reconcileError error), []⟩
      | some (.ok ids) =>
        let matching := matchingIds fromStr lead format ids
        let toDelete := orphanIds validPks matching
        match checkDeleteGuard validPks.length matching.length toDelete.length
          allowFullPurge with
        | .error reason => some ⟨.error (.refused reason), []⟩
        | .ok _ => deleteAll toDelete answers.deletes

section

variable {fromStr allowFullPurge} {lead : String} {validPks : List String} {format : DocIdFormat}
  {answers : Answers}

variable {outcome : Outcome}

theorem requested_of_deleteAll (clean : ∀ answer ∈ deletes, answer = .ok [])
    (ran : deleteAll toDelete deletes = some outcome) {id} (mem : id ∈ toDelete) :
    ∃ request ∈ outcome.requests, id ∈ request.ids ∧ request.answer = .ok [] := by
  have notEmpty : ¬ toDelete.isEmpty := by
    rw [List.isEmpty_iff]
    exact ne_nil_of_mem mem
  induction deletes generalizing toDelete outcome with
  | nil =>
    rw [deleteAll, if_neg notEmpty] at ran
    cases ran
  | cons answer further ih =>
    rw [deleteAll, if_neg notEmpty, clean answer mem_cons_self] at ran
    obtain ⟨rest, isRest, rfl⟩ := Option.map_eq_some_iff.mp ran
    rw [← take_append_drop bulkDeleteBatch toDelete] at mem
    rcases mem_append.mp mem with now | later
    · exact ⟨_, mem_cons_self, now, rfl⟩
    · have stillSome : ¬ (toDelete.drop bulkDeleteBatch).isEmpty := by
        rw [List.isEmpty_iff]
        exact ne_nil_of_mem later
      obtain ⟨request, isRequest, isId, isAnswer⟩ :=
        ih (fun answer isAnswer => clean answer (mem_cons_of_mem _ isAnswer)) isRest later
          stillSome
      exact ⟨request, mem_cons_of_mem _ isRequest, isId, isAnswer⟩

/-- Answers under which nothing gets in the way of a pass: no request fails, the scroll lists the
    documents in question, the guard has nothing to refuse and no deletion is turned down. -/
structure Clean (fromStr : String → Option Value) (allowFullPurge : Bool) (lead : String)
    (validPks : List String) (format : DocIdFormat) (answers : Answers) (wanted : List String) :
    Prop where
  client : answers.client = none
  scrolls : ∃ ids, scrollIds answers.pages = some (.ok ids) ∧ wanted ⊆ ids ∧
    (allowFullPurge = true ∨ validPks ≠ [] ∧
      2 * (orphanIds validPks (matchingIds fromStr lead format ids)).length ≤
        (matchingIds fromStr lead format ids).length)
  deletes : ∀ answer ∈ answers.deletes, answer = .ok []

theorem checkDeleteGuard_of_allowed
    (allowed : allowFullPurge ∨ validPks ≠ [] ∧ 2 * wouldDelete ≤ matching) :
    checkDeleteGuard validPks.length matching wouldDelete allowFullPurge = .ok () := by
  unfold checkDeleteGuard
  rcases allowed with full | ⟨some, atMostHalf⟩
  · rw [if_pos full]
  · have notZero : validPks.length ≠ 0 := by simpa using some
    have notOver : ¬ (0 < matching ∧ matching < 2 * wouldDelete) := by omega
    rw [if_neg notZero, if_neg notOver, ite_self]

theorem Clean.deletes_orphan
    (clean : Clean fromStr allowFullPurge lead validPks format answers wanted)
    (ran : reconcileOrphans fromStr allowFullPurge lead validPks format answers = some outcome) {id}
    (isWanted : id ∈ wanted) (isKey : extractPkFromDocId fromStr id lead format = some pk)
    (gone : pk ∉ validPks) :
    ∃ request ∈ outcome.requests, id ∈ request.ids ∧ request.answer = .ok [] := by
  obtain ⟨ids, scrolled, listed, allowed⟩ := clean.scrolls
  have notRefused : (validPks.isEmpty && !allowFullPurge) = false := by
    rcases allowed with full | ⟨some, -⟩
    · simp [full]
    · simp [some]
  rw [reconcileOrphans, notRefused, clean.client, scrolled] at ran
  simp only [Bool.false_eq_true, if_false, checkDeleteGuard_of_allowed allowed] at ran
  refine requested_of_deleteAll clean.deletes ran ?_
  refine mem_map.mpr ⟨(id, pk), mem_filter.mpr ⟨?_, by simpa using gone⟩, rfl⟩
  exact mem_filterMap.mpr ⟨id, listed isWanted, by rw [isKey]; rfl⟩

end

section

/-- A definition whose documents are reconciled: the table or label of its primaries, what its
    document ids begin with, their format and the number of key columns. -/
structure Definition where
  relation : String
  output : String
  format : DocIdFormat
  columns : Nat
  columns_pos : 0 < columns
  single_raw : format = .rawSuffix → columns = 1
  deriving DecidableEq

namespace Definition

def lead (defn : Definition) : String := defn.output ++ ":"

/-- A primary of the definition, by the texts of its key columns. Element ids are not empty. -/
def IsKey (defn : Definition) (primary : List String) : Prop :=
  primary.length = defn.columns ∧ (defn.format = .rawSuffix → primary ≠ [""])

def docId (defn : Definition) (primary : List String) : String :=
  match defn.format with
  | .jsonArray => Core.docId defn.output primary
  | .rawSuffix => defn.lead ++ primary.headD ""

def keyOf (defn : Definition) (primary : List String) : Option String :=
  match defn.format with
  | .jsonArray => pkKey primary
  | .rawSuffix => primary.head?

end Definition

theorem stripLead_append (lead rest : String) : stripLead lead (lead ++ rest) = some rest := by
  have leads : lead.toList.isPrefixOf (lead ++ rest).toList := by
    simp [String.toList_append]
  rw [stripLead, if_pos leads, String.toList_append, ← String.length_toList, drop_left,
    String.ofList_toList]

theorem extractPk_own {fromStr} (fromStr_strings : ∀ texts : List String,
      fromStr (Json.render (.array (texts.map .string))) = some (.array (texts.map .string)))
    (table : String) (components : List String) :
    extractPkFromDocId fromStr (docId table components) (table ++ ":") .jsonArray =
      pkKey components := by
  have texts : (components.map Value.string).map componentText = components := by
    simp [Function.comp_def, componentText]
  simp [extractPkFromDocId, docId, stripLead_append, fromStr_strings, texts]

variable {defn : Definition}

theorem extractPkFromDocId_docId {fromStr} (fromStr_strings : ∀ texts : List String,
      fromStr (Json.render (.array (texts.map .string))) = some (.array (texts.map .string)))
    {primary} (isKey : defn.IsKey primary) :
    extractPkFromDocId fromStr (defn.docId primary) defn.lead defn.format =
      defn.keyOf primary := by
  unfold Definition.docId Definition.keyOf
  cases isFormat : defn.format with
  | jsonArray => exact extractPk_own fromStr_strings defn.output primary
  | rawSuffix =>
    obtain ⟨eid, rfl⟩ := length_eq_one_iff.mp (isKey.1.trans (defn.single_raw isFormat))
    have notEmpty : eid ≠ "" := by
      rintro rfl
      exact isKey.2 isFormat rfl
    simp [extractPkFromDocId, stripLead_append, notEmpty]

theorem pkKey_inj (sameLength : left.length = right.length)
    (same : pkKey left = pkKey right) : left = right := by
  match left, right with
  | [], [] => rfl
  | [_], [_] => exact congrArg (fun text => [text]) (Option.some.inj same)
  | _ :: _ :: _, _ :: _ :: _ =>
    have texts := congrArg Json.stringArray (Option.some.inj same)
    rw [Json.stringArray_render, Json.stringArray_render] at texts
    exact Option.some.inj texts

theorem keyOf_inj (isKey : defn.IsKey primary) (otherKey : defn.IsKey other)
    (same : defn.keyOf primary = defn.keyOf other) : primary = other := by
  unfold Definition.keyOf at same
  cases isFormat : defn.format with
  | jsonArray =>
    rw [isFormat] at same
    exact pkKey_inj (isKey.1.trans otherKey.1.symm) same
  | rawSuffix =>
    obtain ⟨eid, rfl⟩ := length_eq_one_iff.mp (isKey.1.trans (defn.single_raw isFormat))
    obtain ⟨another, rfl⟩ := length_eq_one_iff.mp (otherKey.1.trans (defn.single_raw isFormat))
    rw [isFormat] at same
    exact congrArg (fun text => [text]) (Option.some.inj same)

theorem keyOf_isSome (isKey : defn.IsKey primary) : (defn.keyOf primary).isSome := by
  have notEmpty : primary ≠ [] := by
    rintro rfl
    have := defn.columns_pos
    exact absurd isKey.1 (by simp only [length_nil]; omega)
  unfold Definition.keyOf
  cases primary with
  | nil => exact absurd rfl notEmpty
  | cons first rest =>
    cases defn.format with
    | jsonArray => cases rest <;> rfl
    | rawSuffix => rfl

end

section

variable {fromStr : String → Option Value}

theorem eq_of_stripLead (isRest : stripLead lead text = some rest) : text = lead ++ rest := by
  unfold stripLead at isRest
  split at isRest
  · rename_i leads
    obtain ⟨back, isBack⟩ := isPrefixOf_iff_prefix.mp leads
    cases isRest
    apply String.toList_inj.mp
    rw [← isBack, ← String.length_toList, drop_left]
    simp
  · cases isRest

theorem extractPk_other (reader : Json.IsReader fromStr) {table other components}
    (different : other ≠ table) :
    extractPkFromDocId fromStr (docId other components) (table ++ ":") .jsonArray = none := by
  unfold extractPkFromDocId
  cases isRest : stripLead (table ++ ":") (docId other components) with
  | none => rfl
  | some rest =>
    simp only [Option.bind_eq_bind, Option.bind_some]
    split
    · rename_i items isRead
      have texts := congrArg String.toList (eq_of_stripLead isRest)
      rw [toList_docId, String.toList_append, String.toList_append, append_assoc] at texts
      have tables := (Json.closed_strings components).split_unique (reader.closed _ _ isRead) texts
      exact absurd (String.toList_inj.mp tables.1) different
    · rfl

/-- Document ids tell tables and keys apart, and the key that the pass reads out of an id is that
    of the row it was made for. -/
theorem doc_id_codec (reader : Json.IsReader fromStr) :
    (∀ table other components others, docId table components = docId other others →
      table = other ∧ components = others) ∧
    (∀ table components,
      extractPkFromDocId fromStr (docId table components) (table ++ ":") .jsonArray =
        pkKey components) ∧
    (∀ table other components, other ≠ table →
      extractPkFromDocId fromStr (docId other components) (table ++ ":") .jsonArray = none) ∧
    ∀ table components validPks ids, (∀ key, pkKey components = some key → key ∈ validPks) →
      docId table components ∉
        orphanIds validPks (matchingIds fromStr (table ++ ":") .jsonArray ids) := by
  refine ⟨fun _ _ _ _ => docId_inj, extractPk_own reader.strings,
    fun _ _ _ => extractPk_other reader, ?_⟩
  intro table components validPks ids live orphan
  obtain ⟨entry, isOrphan, isId⟩ := mem_map.mp orphan
  obtain ⟨isMatching, gone⟩ := mem_filter.mp isOrphan
  obtain ⟨id, -, isEntry⟩ := mem_filterMap.mp isMatching
  obtain ⟨key, isKey, rfl⟩ := Option.map_eq_some_iff.mp isEntry
  dsimp only at isId gone
  rw [isId, extractPk_own reader.strings] at isKey
  exact of_decide_eq_true gone (live key isKey)

theorem doc_id_codec_strings : Json.IsReader Json.readStrings ∧
    extractPkFromDocId Json.readStrings (docId "s.t" ["5"]) "s.t:" .jsonArray = some "5" :=
  ⟨Json.isReader_readStrings, (doc_id_codec Json.isReader_readStrings).2.1 "s.t" ["5"]⟩

end

end Ventstream.OpenSearch
