import Ventstream.Joins.Publishing
import Ventstream.Library.Convergence
import Ventstream.SqlDenormalize.History

/-! # SQL mode converges

After the last batch the documents are those of the final database, however the changes
are split into batches and however far the queries of a batch are ahead of it. A change
of a document is noticed by the batch that has it, or by that of a later change which
takes the document's row away from where the first batch would have found it.

The code relies on four things about its tables: their names have one dot, a related
table that loses rows is not named like the primary table, the log writes the keys of
deleted rows as the database casts them to text, and truncating clears the target.
-/

namespace Ventstream.SqlDenormalize

open Library List
open Core (Event docId segments)
open Joins (JoinDefinition RelatedDefinition)
open Json (Value)

variable {V : Type} [LinearOrder V] {catalog : Catalog V} {defn : JoinDefinition}

/-- What the code relies on. -/
structure Reliable (settings : Settings) (history : History catalog defn) : Prop where
  chunks : 0 < settings.chunkSize
  primaryName : relationOf defn.primary.table = (qualified defn.primary.table).2
  relatedName : ∀ rel ∈ defn.related, relationOf rel.table = (qualified rel.table).2
  paired : ∀ rel ∈ defn.related, rel.joinOn.source.columns.length = rel.joinOn.target.columns.length
  comparable : ∀ rel ∈ defn.related, Comparable catalog (qualified rel.table)
    (zip rel.joinOn.source.columns rel.joinOn.target.columns)
  subjects : ∀ op ∈ ["upsert", "delete", "truncate"], (subjectFor defn op).isSome
  clears : ∀ table, Change.truncate table ∈ history.changes →
    relationOf defn.primary.table = table.2 → settings.emitTargetClears = true
  apart : ∀ table row, Change.delete table row ∈ history.changes →
    (∃ rel ∈ defn.related, qualified rel.table = table) → relationOf defn.primary.table ≠ table.2
  castText : ∀ row, Change.delete (qualified defn.primary.table) row ∈ history.changes →
    keyText catalog defn row = keyOf defn row

variable {settings : Settings} {history : History catalog defn} {fuel index : Nat}

section

variable {see : Query → Database} {batch : List Event} {outputs : List Output} {id : String}
  {change : Change} {ev : Event}

/-- Every query of a batch sees a state past the given change. -/
def SeesPast (history : History catalog defn) (see : Query → Database) (index : Nat) : Prop :=
  ∀ query, ∃ count, index < count ∧ see query = history.state count

omit [LinearOrder V] in
theorem SeesPast.keyed (sees : SeesPast history see index) (query : Query) :
    Keyed catalog defn (see query) := by
  obtain ⟨count, -, isState⟩ := sees query
  rw [isState]
  exact history.keyed_state count

omit [LinearOrder V] in
theorem SeesPast.there (sees : SeesPast history see index) (quiet : history.Quiet id (index + 1))
    (holds : Holds catalog defn (history.state (index + 1)) id row) (query : Query) :
    row ∈ primaryRows defn (see query) := by
  obtain ⟨count, past, isState⟩ := sees query
  rw [isState]
  exact ((quiet.holds_iff past).mpr holds).1

omit [LinearOrder V] in
theorem Reliable.clears_of_truncates (reliable : Reliable settings history)
    (described : ∀ ev ∈ batch, ∃ change ∈ history.changes, Describes change ev)
    (truncated : truncates (batch.map parse) defn.primary.table) : settings.emitTargetClears := by
  obtain ⟨parsed, isParsed, matches_⟩ := any_eq_true.mp truncated
  obtain ⟨ev, mem, rfl⟩ := mem_map.mp isParsed
  obtain ⟨change, isChange, describes⟩ := described ev mem
  obtain ⟨isTruncate, named⟩ := of_decide_eq_true matches_
  rw [describes.parse_op] at isTruncate
  rw [describes.parse_relation] at named
  cases change with
  | truncate table => exact reliable.clears table isChange named
  | insert | update | delete => cases isTruncate

/-- A noted join key finds the rows that refer to it. -/
theorem affected_of_refers (numbered : (rel, number) ∈ defn.related.zipIdx)
    (refers : refersTo catalog rel.joinOn.source.columns key row)
    (there : row ∈ primaryRows defn (see (lookupQuery rel number key)))
    (isId : idOf catalog defn row = some id)
    (noted : gathered.Has (joinHint defn rel number key)) :
    ∃ key ∈ affectedKeys catalog defn settings see gathered, hasKey catalog defn key row := by
  unfold joinHint at noted
  split at noted
  · rename_i oneToMany
    have columns : rel.joinOn.source.columns = pkColumns defn := by
      simpa [isOneToMany] using oneToMany
    refine ⟨key, mem_affectedKeys_of_has _ noted rfl, ?_⟩
    rwa [columns] at refers
  · obtain ⟨text, isText, -⟩ := Option.map_eq_some_iff.mp isId
    exact ⟨text, mem_affectedKeys_of_has _ noted ⟨rel, numbered, row, there, refers, isText⟩,
      hasKey_of_keyText isText⟩

section

variable (reliable : Reliable settings history) (sees : SeesPast history see index)
  (ran : batchOutputs catalog defn settings see fuel (batch.map parse) = some outputs)
  (isChange : history.changes[index]? = some change) (describes : Describes change ev)
  (mem : ev ∈ batch)
include reliable sees ran isChange describes mem

theorem settles_of_own
    (described : ∀ ev ∈ batch, ∃ change ∈ history.changes, Describes change ev)
    (own : change.Own catalog defn id)
    (quiet : history.Quiet id (index + 1)) : Settles defn id outputs := by
  have named : relationOf defn.primary.table = change.table.2 := by
    rw [reliable.primaryName, own.1]
  rcases History.own_cases own isChange with ⟨row, isAfter, holds⟩ | isTruncate | ⟨row, rfl, holds⟩
  · have isSome := (history.keyed_state (index + 1)).present row holds.1
    obtain ⟨key, isKey⟩ := Option.isSome_iff_exists.mp isSome
    have noted := mem_affected_of_primary describes mem named isAfter isKey
    exact (batch_settles_iff sees.keyed reliable.chunks ran
      (fun query => ⟨row, sees.there quiet holds query, holds.2⟩) holds.2).mpr (.inr (.inr
        ⟨key, mem_affectedKeys_of_has _ noted rfl, by simp [hasKey, isKey]⟩))
  · cases change with
    | truncate table =>
      exact batch_settles_deleted ran (reliable.clears_of_truncates described)
        (.inl (truncates_of_mem describes mem named))
    | insert | update | delete => cases isTruncate
  · obtain ⟨name, isName, isId⟩ := Option.map_eq_some_iff.mp holds.2
    have isKey := (reliable.castText row (mem_of_getElem? isChange)).symm.trans isName
    exact batch_settles_deleted ran (reliable.clears_of_truncates described)
      (.inr ⟨name, mem_deletes_of_primary describes named isKey mem, isId⟩)

/-- The batch with a change of a related row settles a document which it alters, if the
    document's row stays as it is. -/
theorem settles_of_related (quiet : history.Quiet id index)
    (alters : content catalog defn (history.state index) id ≠
      content catalog defn (history.state (index + 1)) id) : Settles defn id outputs := by
  have quietAfter : history.Quiet id (index + 1) :=
    fun later change after => quiet later change (by omega)
  by_cases present : ∃ row, Holds catalog defn (history.state index) id row
  · obtain ⟨row, holds⟩ := present
    have holdsAfter := (quiet.holds_iff (Nat.le_succ index)).mpr holds
    have there := sees.there quietAfter holdsAfter
    rw [(history.keyed_state index).content_of_row holds.1 holds.2,
      (history.keyed_state (index + 1)).content_of_row holdsAfter.1 holdsAfter.2] at alters
    obtain ⟨rel, isRelated, differs⟩ : ∃ rel ∈ defn.related,
        matching catalog (history.state (index + 1)) rel row ≠
          matching catalog (history.state index) rel row := by
      by_contra never
      push Not at never
      exact alters (congrArg some (docExpr_congr fun rel isRelated => (never rel isRelated).symm))
    rw [History.state_succ isChange] at differs
    obtain ⟨ofRelated, touches⟩ := matching_apply differs
    have named : relationOf rel.table = change.table.2 := by
      rw [reliable.relatedName rel isRelated, ofRelated]
    refine (batch_settles_iff sees.keyed reliable.chunks ran
      (fun query => ⟨row, there query, holds.2⟩) holds.2).mpr (.inr ?_)
    cases touches with
    | inl isTruncate =>
      cases change with
      | truncate table =>
        refine .inl (any_eq_true.mpr ⟨rel, isRelated, ?_⟩)
        exact truncates_of_mem describes mem named
      | insert | update | delete => cases isTruncate
    | inr touches =>
      obtain ⟨touched, isTouched, joined⟩ := touches
      obtain ⟨number, isNumber⟩ := mem_iff_getElem?.mp isRelated
      have numbered : (rel, number) ∈ defn.related.zipIdx := mem_zipIdx_iff_getElem?.mpr isNumber
      obtain ⟨key, name, isKey, isName, same⟩ := joined_cells (reliable.paired rel isRelated)
        (reliable.comparable rel isRelated) joined
      have refers : refersTo catalog rel.joinOn.source.columns key row := by
        simp [refersTo, isName, same]
      refine .inr (affected_of_refers numbered refers (there _) holds.2 ?_)
      refine has_joinHint describes named isTouched isKey mem numbered ?_
      intro isDelete
      cases change with
      | delete table row =>
        exact reliable.apart table row (mem_of_getElem? isChange) ⟨rel, isRelated, ofRelated.symm⟩
      | insert | update | truncate => cases isDelete
  · -- Without a row there is no document, before or after the change.
    have absent : ∀ count, index ≤ count →
        content catalog defn (history.state count) id = none := by
      intro count after
      refine content_eq_none fun row isRow isId => present ⟨row, ?_⟩
      exact (quiet.holds_iff after).mp ⟨isRow, isId⟩
    rw [absent index (Nat.le_refl index), absent (index + 1) (Nat.le_succ index)] at alters
    exact absurd rfl alters

end

/-- A change that alters a document is noticed: by its own batch, or by the batch with the last
    change about the document's row. -/
theorem exists_settles (history : History catalog defn)
    (alters : content catalog defn (history.state step) id ≠
      content catalog defn (history.state (step + 1)) id) :
    ∃ later change, step ≤ later ∧ history.changes[later]? = some change ∧
      ∀ {settings see fuel} {batch : List Event} {outputs ev}, Reliable settings history →
        (∀ ev ∈ batch, ∃ change ∈ history.changes, Describes change ev) →
        SeesPast history see later →
        batchOutputs catalog defn settings see fuel (batch.map parse) = some outputs →
        Describes change ev → ev ∈ batch → Settles defn id outputs := by
  by_cases touched : ∃ later, step ≤ later ∧
      ∃ change, history.changes[later]? = some change ∧ change.Own catalog defn id
  · obtain ⟨first, afterStep, touches⟩ := touched
    have bounded : ∀ later, (∃ change, history.changes[later]? = some change ∧
        change.Own catalog defn id) → later ≤ history.changes.length := by
      rintro later ⟨change, isChange, -⟩
      exact le_of_lt (List.getElem?_eq_some_iff.mp isChange).1
    obtain ⟨last, afterFirst, ⟨change, isChange, own⟩, isLast⟩ := exists_last bounded touches
    refine ⟨last, change, afterStep.trans afterFirst, isChange, ?_⟩
    intro settings see fuel batch outputs ev reliable described sees ran describes mem
    refine settles_of_own reliable sees ran isChange describes mem described own ?_
    exact fun later other after isOther ownToo => isLast later after ⟨other, isOther, ownToo⟩
  · have quiet : history.Quiet id step :=
      fun later change after isChange own => touched ⟨later, after, change, isChange, own⟩
    cases isChange : history.changes[step]? with
    | none =>
      rw [History.state_succ_of_none isChange] at alters
      exact absurd rfl alters
    | some change =>
      refine ⟨step, change, Nat.le_refl step, isChange, ?_⟩
      intro settings see fuel batch outputs ev reliable _ sees ran describes mem
      exact settles_of_related reliable sees ran isChange describes mem quiet alters

end

section

/-- The documents after an event: a clear removes all of them, a delete one, anything else
    replaces one. -/
def applyEvent (docs : String → Option Value) (ev : Event) : String → Option Value :=
  if ev.headers["ventstream.target.clear"]? = some "true" then fun _ => none
  else
    match ev.headers["ventstream.doc.id"]? with
    | none => docs
    | some id => Function.update docs id
        (if (segments ev.subject.text).getLast? = some "delete" then none
        else ev.payload.toOption)

variable {lsn : Option String}

theorem targetHeaders_other (other : name ∉ ["ventstream.cdc.relation",
    "ventstream.cdc.namespace", "ventstream.target.index", "ventstream.cdc.lsn"]) :
    (targetHeaders defn lsn)[name]? = none := by
  simp only [mem_cons, not_mem_nil, or_false, not_or] at other
  obtain ⟨notRelation, notNamespace, notTarget, notLsn⟩ := other
  have optional : ∀ (headers : Core.Headers) (value : Option String) (header : String),
      name ≠ header → (value.elim headers (headers.insert header ·))[name]? = headers[name]? := by
    intro headers value header differ
    cases value with
    | none => rfl
    | some text => exact Joins.getElem?_insert_of_ne text differ
  unfold targetHeaders
  rw [optional _ _ _ notLsn, optional _ _ _ notTarget, Joins.getElem?_insert_of_ne _ notNamespace,
    Joins.getElem?_insert_of_ne _ notRelation]
  exact Std.ExtTreeMap.getElem?_empty

theorem getLast?_subjectFor (isSubject : subjectFor defn op = some subject)
    (isWord : segments op = [op]) : (segments subject.text).getLast? = some op := by
  unfold subjectFor Core.Subject.ofText at isSubject
  split at isSubject
  · cases isSubject
    rw [Core.segments_append_dot, isWord, getLast?_concat]
  · cases isSubject

theorem applyEvent_document {id} (kept : ev.headers["ventstream.target.clear"]? = none)
    (isId : ev.headers["ventstream.doc.id"]? = some id)
    (isDoc : (if (segments ev.subject.text).getLast? = some "delete" then none
      else ev.payload.toOption) = doc) : applyEvent docs ev = Function.update docs id doc := by
  unfold applyEvent
  rw [kept, if_neg (by decide), isId, ← isDoc]

theorem applyEvent_buildEvent (built : buildEvent defn lsn output = some ev) :
    applyEvent docs ev = applyOutput defn docs output := by
  cases output with
  | upsert key doc =>
    rw [buildEvent, Option.map_eq_some_iff] at built
    obtain ⟨subject, isSubject, rfl⟩ := built
    have op := getLast?_subjectFor isSubject (by decide)
    apply applyEvent_document
    · exact (Joins.getElem?_insert_of_ne _ (by decide)).trans (targetHeaders_other (by decide))
    · exact Std.ExtTreeMap.getElem?_insert_self
    · simp only [op]
      rfl
  | tombstone key =>
    rw [buildEvent, Option.map_eq_some_iff] at built
    obtain ⟨subject, isSubject, rfl⟩ := built
    have op := getLast?_subjectFor isSubject (by decide)
    apply applyEvent_document
    · exact ((Joins.getElem?_insert_of_ne _ (by decide)).trans
        (Joins.getElem?_insert_of_ne _ (by decide))).trans (targetHeaders_other (by decide))
    · exact (Joins.getElem?_insert_of_ne _ (by decide)).trans Std.ExtTreeMap.getElem?_insert_self
    · rw [if_pos op]
  | clear =>
    rw [buildEvent, Option.map_eq_some_iff] at built
    obtain ⟨subject, -, rfl⟩ := built
    unfold applyEvent
    rw [if_pos Std.ExtTreeMap.getElem?_insert_self]
    rfl

theorem foldl_applyEvent {outputs : List Output}
    (built : outputs.mapM (buildEvent defn lsn) = some evs) (docs : String → Option Value) :
    evs.foldl applyEvent docs = outputs.foldl (applyOutput defn) docs := by
  induction outputs generalizing evs docs with
  | nil =>
    cases built
    rfl
  | cons output rest ih =>
    simp only [mapM_cons, Option.bind_eq_bind, Option.bind_eq_some_iff, Option.pure_def,
      Option.some.injEq] at built
    obtain ⟨ev, isEvent, more, isMore, rfl⟩ := built
    rw [foldl_cons, foldl_cons, applyEvent_buildEvent isEvent]
    exact ih isMore _

end

section

/-- A batch of the tail, and what its queries see. -/
structure TailBatch where
  events : List Event
  see : Query → Database

/-- The events of some batches, one after the other. -/
def delivered (batches : List TailBatch) : List Event := batches.flatMap (·.events)

section

variable (catalog defn settings fuel)

/-- The documents after some batches; none when the fuel does not suffice for their pages. -/
def documents : List TailBatch → (String → Option Value) → Option (String → Option Value)
  | [], docs => some docs
  | batch :: rest, docs => do
      let evs ← handleTailBatch catalog defn settings batch.see fuel batch.events
      documents rest (evs.foldl applyEvent docs)

/-- What a batch sends, if its pages come to an end. -/
def outputsOf (batch : TailBatch) : List Output :=
  if batch.events.isEmpty then []
  else (batchOutputs catalog defn settings batch.see fuel (batch.events.map parse)).getD []

def applyBatch (docs : String → Option Value) (batch : TailBatch) : String → Option Value :=
  (outputsOf catalog defn settings fuel batch).foldl (applyOutput defn) docs

/-- The pages of the batch come to an end. -/
def Ends (batch : TailBatch) : Prop :=
  (batchOutputs catalog defn settings batch.see fuel (batch.events.map parse)).isSome

end

/-- The batches deliver the events of the history, and every query sees a state at or after
    the last change of its batch. -/
structure Delivers (history : History catalog defn) (batches : List TailBatch) : Prop where
  described : List.Forall₂ Describes history.changes (delivered batches)
  sees : ∀ (index : Nat) (batch : TailBatch), batches[index]? = some batch → ∀ query,
    ∃ count, (delivered (batches.take (index + 1))).length ≤ count ∧
      count ≤ history.changes.length ∧ batch.see query = history.state count

variable {batches : List TailBatch} {batch : TailBatch}

section

variable (reliable : Reliable settings history)

include reliable

omit [LinearOrder V] in
theorem mapM_buildEvent (lsn : Option String) (outputs : List Output) :
    ∃ evs, outputs.mapM (buildEvent defn lsn) = some evs := by
  have built : ∀ output, ∃ ev, buildEvent defn lsn output = some ev := by
    intro output
    rw [← Option.isSome_iff_exists]
    cases output <;> rw [buildEvent, Option.isSome_map]
    · exact reliable.subjects "upsert" (by simp)
    · exact reliable.subjects "delete" (by simp)
    · exact reliable.subjects "truncate" (by simp)
  induction outputs with
  | nil => exact ⟨[], rfl⟩
  | cons output rest ih =>
    obtain ⟨ev, isEvent⟩ := built output
    obtain ⟨evs, isEvents⟩ := ih
    exact ⟨ev :: evs, by simp [mapM_cons, isEvent, isEvents]⟩

theorem handleTailBatch_applied (ends : Ends catalog defn settings fuel batch)
    (docs : String → Option Value) :
    ∃ evs, handleTailBatch catalog defn settings batch.see fuel batch.events = some evs ∧
      evs.foldl applyEvent docs = applyBatch catalog defn settings fuel docs batch := by
  obtain ⟨outputs, isOutputs⟩ := Option.isSome_iff_exists.mp ends
  unfold handleTailBatch applyBatch outputsOf
  split
  · exact ⟨[], rfl, rfl⟩
  · obtain ⟨evs, built⟩ := mapM_buildEvent reliable ((maxLsn batch.events).map (·.2)) outputs
    refine ⟨evs, by simp [isOutputs, built], ?_⟩
    rw [foldl_applyEvent built, isOutputs, Option.getD_some]

theorem documents_eq (ends : ∀ batch ∈ batches, Ends catalog defn settings fuel batch)
    (docs : String → Option Value) :
    documents catalog defn settings fuel batches docs =
      some (batches.foldl (applyBatch catalog defn settings fuel) docs) := by
  induction batches generalizing docs with
  | nil => rfl
  | cons batch rest ih =>
    obtain ⟨evs, handled, applied⟩ :=
      handleTailBatch_applied reliable (ends batch mem_cons_self) docs
    have others := ih fun other mem => ends other (mem_cons_of_mem batch mem)
    rw [documents, handled, foldl_cons, ← others, ← applied]
    rfl

end

theorem exists_batch (isEvent : (delivered batches)[place]? = some ev) :
    ∃ index batch, batches[index]? = some batch ∧ ev ∈ batch.events ∧
      place < (delivered (batches.take (index + 1))).length := by
  induction batches generalizing place with
  | nil => cases isEvent
  | cons first rest ih =>
    have split : delivered (first :: rest) = first.events ++ delivered rest := rfl
    rw [split] at isEvent
    by_cases here : place < first.events.length
    · rw [getElem?_append_left here] at isEvent
      exact ⟨0, first, rfl, mem_of_getElem? isEvent, by simpa [delivered] using here⟩
    · rw [getElem?_append_right (Nat.le_of_not_lt here)] at isEvent
      obtain ⟨index, batch, isBatch, mem, within⟩ := ih isEvent
      refine ⟨index + 1, batch, isBatch, mem, ?_⟩
      simp only [delivered, take_succ_cons, flatMap_cons, length_append]
        at within ⊢
      omega

variable (delivers : Delivers history batches)

section

variable (isBatch : batches[index]? = some batch)

include isBatch

theorem foldl_take_succ (docs : String → Option Value) :
    (batches.take (index + 1)).foldl (applyBatch catalog defn settings fuel) docs =
      applyBatch catalog defn settings fuel
        ((batches.take index).foldl (applyBatch catalog defn settings fuel) docs) batch := by
  rw [take_add_one, isBatch, foldl_append]
  rfl

include delivers

omit [LinearOrder V] in
theorem Delivers.keyed (query : Query) :
    Keyed catalog defn (batch.see query) := by
  obtain ⟨count, -, -, isState⟩ := delivers.sees index batch isBatch query
  rw [isState]
  exact history.keyed_state count

omit [LinearOrder V] in
theorem Delivers.describes (mem : ev ∈ batch.events) :
    ∃ change ∈ history.changes, Describes change ev := by
  have isDelivered : ev ∈ delivered batches := mem_flatMap.mpr ⟨batch, mem_of_getElem? isBatch, mem⟩
  obtain ⟨change, isChange, describes⟩ := Joins.forall₂_exists delivers.described.flip isDelivered
  exact ⟨change, isChange, describes⟩

omit [LinearOrder V] in
theorem Delivers.fresh {id} (shown : Shown catalog defn batch.see id doc) :
    Fresh (fun step => content catalog defn (history.state step) id)
      (delivered (batches.take (index + 1))).length history.changes.length doc := by
  obtain ⟨query, rfl⟩ := shown
  obtain ⟨count, after, within, isState⟩ := delivers.sees index batch isBatch query
  exact ⟨count, after, within, by rw [isState]⟩

theorem Delivers.refreshes {id} (reliable : Reliable settings history)
    (ends : Ends catalog defn settings fuel batch)
    (settles : Settles defn id (outputsOf catalog defn settings fuel batch))
    (docs : String → Option Value) :
    Fresh (fun step => content catalog defn (history.state step) id)
      (delivered (batches.take (index + 1))).length history.changes.length
      ((batches.take (index + 1)).foldl (applyBatch catalog defn settings fuel) docs id) := by
  obtain ⟨output, mem, concerns⟩ := settles
  rw [foldl_take_succ isBatch]
  obtain ⟨outputs, isOutputs⟩ := Option.isSome_iff_exists.mp ends
  unfold applyBatch
  unfold outputsOf at mem ⊢
  split at mem
  · cases mem
  · rename_i notEmpty
    rw [if_neg notEmpty, isOutputs, Option.getD_some]
    rw [isOutputs, Option.getD_some] at mem
    exact delivers.fresh isBatch
      (batch_shows (delivers.keyed isBatch) reliable.chunks isOutputs mem concerns _)

end

include delivers

theorem Delivers.ends : ∃ enough, ∀ fuel, enough ≤ fuel → ∀ batch ∈ batches,
    Ends catalog defn settings fuel batch := by
  let keys := (range (history.changes.length + 1)).flatMap fun count =>
    (primaryRows defn (history.state count)).map (keyValues catalog defn)
  refine ⟨keys.length + 1, fun fuel enough batch mem => ?_⟩
  obtain ⟨index, isBatch⟩ := mem_iff_getElem?.mp mem
  refine Option.isSome_iff_exists.mpr (batchOutputs_isSome (delivers.keyed isBatch) ?_ enough)
  intro query row isRow
  obtain ⟨count, -, within, isState⟩ := delivers.sees index batch isBatch query
  rw [isState] at isRow
  exact mem_flatMap.mpr ⟨count, mem_range.mpr (by omega), mem_map_of_mem isRow⟩

theorem Delivers.refreshed (reliable : Reliable settings history)
    (ends : ∀ batch ∈ batches, Ends catalog defn settings fuel batch) (id : String) :
    Refreshed (fun step => content catalog defn (history.state step) id)
      (fun count => (delivered (batches.take count)).length) history.changes.length batches.length
      (fun count => (batches.take count).foldl (applyBatch catalog defn settings fuel)
        (content catalog defn history.initial) id) where
  start := rfl
  monotone := by
    intro early late before
    obtain ⟨rest, split⟩ : batches.take early <+: batches.take late := take_prefix_take_left before
    simp [← split, delivered]
  round := by
    intro index within
    have isBatch : batches[index]? = some batches[index] := getElem?_eq_getElem within
    by_cases settles : Settles defn id (outputsOf catalog defn settings fuel batches[index])
    · exact .inr (delivers.refreshes isBatch reliable (ends _ (getElem_mem within)) settles _)
    · refine .inl ?_
      rw [foldl_take_succ isBatch]
      exact foldl_applyOutput_of_not_concerns fun output mem concerns =>
        settles ⟨output, mem, concerns⟩
  noticed := by
    intro step within alters
    obtain ⟨later, change, afterStep, isChange, settling⟩ := exists_settles history alters
    obtain ⟨ev, isEvent, describes⟩ := forall₂_getElem? delivers.described isChange
    obtain ⟨index, batch, isBatch, mem, covered⟩ := exists_batch isEvent
    have isEnd := ends batch (mem_of_getElem? isBatch)
    obtain ⟨outputs, isOutputs⟩ := Option.isSome_iff_exists.mp isEnd
    have sees : SeesPast history batch.see later := by
      intro query
      obtain ⟨count, after, -, isState⟩ := delivers.sees index batch isBatch query
      exact ⟨count, by omega, isState⟩
    have settles := settling reliable (fun ev => delivers.describes isBatch) sees isOutputs
      describes mem
    have notEmpty : ¬ batch.events.isEmpty := by
      simpa using ne_nil_of_mem mem
    refine ⟨later, afterStep, index, (List.getElem?_eq_some_iff.mp isBatch).1, covered,
      delivers.refreshes isBatch reliable isEnd ?_ _⟩
    rwa [outputsOf, if_neg notEmpty, isOutputs, Option.getD_some]

end

def plainCatalog : Catalog String where
  value _ text := text
  text _ text := text
  value_text _ _ := rfl
  equates _ _ _ left right := left = right
  toJsonb _ row := row.map fun (column, text) => (column, text.elim .null .string)
  orderBy _ _ rows := rows

theorem column_ne_nil (name : String) : [name] ≠ [] := by simp

def column (name : String) : Joins.PkSpec := ⟨[name], column_ne_nil name⟩

def ordersWithLines (linesTable : String) : JoinDefinition where
  name := none
  primary := ⟨"public.orders", column "id"⟩
  related := [{
    id := "line"
    table := linesTable
    pk := column "id"
    joinOn := ⟨column "id", column "order_id"⟩
    select := []
    embedAs := "lines"
    cardinality := .many
    onMissing := .null
    sortBy := none }]
  targetIndex := none
  backfill := .none

def orderRow : Row := [("id", some "1")]

def lineRow : Row := [("id", some "5"), ("order_id", some "1")]

def oneLine (linesTable : Table) : Database := fun table =>
  if table = ("public", "orders") then [orderRow]
  else if table = linesTable then [lineRow]
  else []

theorem keyed_oneLine (linesTable : String) :
    Keyed plainCatalog (ordersWithLines linesTable) (oneLine (qualified linesTable)) := by
  have rows : primaryRows (ordersWithLines linesTable) (oneLine (qualified linesTable)) =
      [orderRow] := by
    have isPrimary : qualified (ordersWithLines linesTable).primary.table =
        ("public", "orders") := by
      have split : qualified "public.orders" = ("public", "orders") := by decide +kernel
      exact split
    unfold primaryRows oneLine
    rw [if_pos isPrimary]
  refine ⟨?_, ?_⟩
  · rw [rows]
    intro row mem
    rw [mem_singleton.mp mem]
    rfl
  · rw [rows]
    exact pairwise_singleton _ _

def lineEvent (linesTable : String) : Event where
  subject := ⟨"postgres.public.lines.delete", by decide⟩
  headers := (∅ : Core.Headers).insert "ventstream.cdc.relation" (qualified linesTable).2
  payload := .ok (.object [("old", rowValue lineRow)])

section

variable (linesTable : String)

theorem describes_lineEvent :
    Describes (.delete (qualified linesTable) lineRow) (lineEvent linesTable) where
  relation := Std.ExtTreeMap.getElem?_insert_self
  op := by
    have last : (segments "postgres.public.lines.delete").getLastD "" = "delete" := by
      decide +kernel
    unfold tailOp lineEvent
    rw [last]
    rfl
  payload := rfl

variable (there : lineRow ∈ oneLine (qualified linesTable) (qualified linesTable))

def lineDeleted : History plainCatalog (ordersWithLines linesTable) where
  initial := oneLine (qualified linesTable)
  changes := [.delete (qualified linesTable) lineRow]
  keyed := keyed_oneLine linesTable
  legal index change isChange := by
    cases index with
    | zero =>
      cases isChange
      exact there
    | succ index => cases isChange

def lineBatches : List TailBatch :=
  [⟨[lineEvent linesTable], fun _ => (lineDeleted linesTable there).final⟩]

theorem delivers_lineBatches :
    Delivers (lineDeleted linesTable there) (lineBatches linesTable there) where
  described := .cons (describes_lineEvent linesTable) .nil
  sees index batch isBatch query := by
    cases index with
    | zero =>
      cases isBatch
      exact ⟨1, Nat.le_refl 1, Nat.le_refl 1, rfl⟩
    | succ index => cases isBatch

end

def lineSettings : Settings := ⟨100, true, fun _ _ => []⟩

theorem reliable_lines : Reliable lineSettings (lineDeleted "public.lines" (by decide +kernel)) where
  chunks := by decide
  primaryName := by decide +kernel
  relatedName rel member := by
    obtain rfl := mem_singleton.mp member
    decide +kernel
  paired rel member := by
    obtain rfl := mem_singleton.mp member
    rfl
  comparable _ _ _ _ _ _ _ same := by simpa [plainCatalog] using same
  subjects := by decide +kernel
  clears table member := by
    cases mem_singleton.mp member
  apart table row member _ := by
    cases mem_singleton.mp member
    decide +kernel
  castText row member := by
    have other : qualified "public.orders" = qualified "public.lines" :=
      congrArg Change.table (mem_singleton.mp member)
    exact absurd other (by decide +kernel)

theorem lineRow_mem_archive :
    lineRow ∈ oneLine (qualified "archive.orders") (qualified "archive.orders") := by
  decide +kernel

end Ventstream.SqlDenormalize
