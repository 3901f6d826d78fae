import Ventstream.Joins.Emission

/-! # What an event makes the engine publish

Everything the engine publishes while it handles an event carries the headers of
that event, but for the few it stamps itself. Which documents it publishes depends
on the side of the join: an event on the primary table reaches the document of its
row, or of every row when it truncates the table; an event on a related table
reaches whatever documents embed that table; any other event is passed on as it is.
-/

namespace Ventstream.Joins

open Core Library Library.Program List

variable {start : Engine} {env : Env}

section

def SentOnly (allowed : Event → Prop) (start engine : Engine) : Prop :=
  ∃ fresh, engine.sent = start.sent ++ fresh ∧ ∀ ev ∈ fresh, allowed ev

variable {allowed : Event → Prop}

instance : Std.Refl (SentOnly allowed) := ⟨fun _ => ⟨[], by simp, nofun⟩⟩

theorem send_sentOnly (isAllowed : allowed ev) :
    Keeps (SentOnly allowed start) (fun _ => SentOnly allowed start) (send env ev) := by
  rintro engine ⟨fresh, sent, all⟩
  rw [exec_send]
  cases env.refusal engine.sent.length with
  | some detail => exact ⟨fresh, sent, all⟩
  | none =>
    exact ⟨fresh ++ [ev], by simp [sent],
      forall_mem_append.mpr ⟨all, forall_mem_singleton.mpr isAllowed⟩⟩

theorem looking_sentOnly : Looking (SentOnly allowed start) fun _ => SentOnly allowed start where
  backfill _ _ _ := onState_triple fun _ sent => sent
  fetcher _ _ _ sent := sent
  embeddable := Or.inr fun _ _ sent => sent

end

variable {defn : JoinDefinition}

section

/-- The headers that the engine stamps on what it publishes. -/
def stampedHeaders : List String :=
  ["ventstream.join.name", "ventstream.join.primary_pk", "ventstream.doc.id",
    "ventstream.target.index", "ventstream.join.reason", "ventstream.cdc.relation",
    "ventstream.cdc.namespace"]

variable {row : RowKey} {headers : Headers}

theorem getElem?_insert_of_ne (value : String) (differ : other ≠ name) :
    (headers.insert name value)[other]? = headers[other]? := by
  rw [Std.ExtTreeMap.getElem?_insert, if_neg]
  simpa using Ne.symm differ

theorem stampTargetIndex_of_ne (differ : name ≠ "ventstream.target.index") :
    (stampTargetIndex defn headers)[name]? = headers[name]? := by
  unfold stampTargetIndex
  split
  · exact getElem?_insert_of_ne _ differ
  · rfl

theorem stampDocument_docId : (stampDocument env defn row headers)["ventstream.doc.id"]? =
      some (docIdValue env row) := by
  unfold stampDocument
  rw [stampTargetIndex_of_ne (by decide), Std.ExtTreeMap.getElem?_insert_self]

theorem stampDocument_other (other : name ∉ stampedHeaders) :
    (stampDocument env defn row headers)[name]? = headers[name]? := by
  simp only [stampedHeaders, mem_cons, not_mem_nil, or_false, not_or] at other
  unfold stampDocument
  rw [stampTargetIndex_of_ne other.2.2.2.1, getElem?_insert_of_ne _ other.2.2.1,
    getElem?_insert_of_ne _ other.2.1, getElem?_insert_of_ne _ other.1]

theorem buildReEmit_other (other : name ∉ stampedHeaders) :
    (buildReEmit env triggering defn row document).headers[name]? =
      triggering.headers[name]? := by
  unfold buildReEmit
  rw [stampDocument_other other]
  simp only [stampedHeaders, mem_cons, not_mem_nil, or_false, not_or] at other
  rw [getElem?_insert_of_ne _ other.2.2.2.2.2.2, getElem?_insert_of_ne _ other.2.2.2.2.2.1,
    getElem?_insert_of_ne _ other.2.2.2.2.1]

end

section

/-- The event is about a table that the definition embeds. -/
def onRelated (defn : JoinDefinition) (ev : Event) : Bool :=
  match sourceTable ev with
  | .ok table => defn.related.any fun rel => rel.table = table
  | .error _ => false

def PrimaryChange.pk : PrimaryChange → PkValue
  | .store pk _ => pk
  | .remove pk => pk

/-- The ids of the documents whose own row the event changes: the one in its header, that of
    the primary row it carries, or any of a truncated primary table. -/
inductive Changes (env : Env) (defn : JoinDefinition) (ev : Event) (id : String) : Prop
  | named : ev.headers["ventstream.doc.id"]? = some id → Changes env defn ev id
  | row {op : Op} {change : PrimaryChange} :
      sourceTable ev = .ok defn.primary.table → subjectOp ev = .ok op →
      decodePrimary env defn defn.primary.table op ev = .ok change →
      docIdValue env ⟨defn.primary.table, change.pk⟩ = id → Changes env defn ev id
  | truncated {pk : PkValue} :
      sourceTable ev = .ok defn.primary.table → subjectOp ev = .ok .truncate →
      docIdValue env ⟨defn.primary.table, pk⟩ = id → Changes env defn ev id

variable {other : Env}

theorem docIdValue_congr (same : env.fromStr = other.fromStr) (row : RowKey) :
    docIdValue env row = docIdValue other row := by
  rw [docIdValue, docIdValue, same]

theorem decodePrimary_congr (same : env.fromStr = other.fromStr) (defn : JoinDefinition)
    (table : String) (op : Op) (ev : Event) :
    decodePrimary env defn table op ev = decodePrimary other defn table op ev := by
  unfold decodePrimary resolvePk pkFromDocId
  rw [same]

/-- Of the environment only the JSON reader matters. -/
theorem Changes.congr {id} (same : env.fromStr = other.fromStr)
    (changes : Changes env defn ev id) : Changes other defn ev id := by
  cases changes with
  | named isId => exact .named isId
  | row ofTable named decoded isId =>
    rw [decodePrimary_congr same] at decoded
    exact .row ofTable named decoded ((docIdValue_congr same _).symm.trans isId)
  | truncated ofTable named isId =>
    exact .truncated ofTable named ((docIdValue_congr same _).symm.trans isId)

/-- What an event makes the engine publish: headers of its own, for a document it reaches. -/
structure Follows (env : Env) (defn : JoinDefinition) (ev published : Event) : Prop where
  headers : ∀ name ∉ stampedHeaders, published.headers[name]? = ev.headers[name]?
  document : ∀ id, published.headers["ventstream.doc.id"]? = some id →
    onRelated defn ev = true ∨ Changes env defn ev id

variable {ev : Event}

theorem Follows.congr (same : env.fromStr = other.fromStr)
    (follows : Follows env defn ev published) : Follows other defn ev published where
  headers := follows.headers
  document id isId := (follows.document id isId).imp_right (Changes.congr same)

theorem follows_stamped (changes : Changes env defn ev (docIdValue env row))
    (stamped : published.headers = stampDocument env defn row ev.headers) :
    Follows env defn ev published where
  headers _ other := by rw [stamped, stampDocument_other other]
  document id isId := by
    rw [stamped, stampDocument_docId] at isId
    cases isId
    exact .inr changes

/-- The engine with what it has sent since, all of it because of the event. -/
abbrev Followed (env : Env) (defn : JoinDefinition) (ev : Event) : Engine → Engine → Prop :=
  SentOnly (Follows env defn ev)

theorem handleRoute_followed (ofTable : sourceTable ev = .ok table) (named : subjectOp ev = .ok op)
    (mem : route ∈ routes [defn] table) :
    Keeps (Followed env defn ev start)
      (fun _ => Followed env defn ev start) (handleRoute env table op ev route) := by
  obtain ⟨other, isDefinition, side⟩ := mem_routes.mp mem
  obtain rfl := mem_singleton.mp isDefinition
  cases side with
  | inl primary =>
    obtain ⟨rfl, rfl⟩ := primary
    refine looking_sentOnly.handlePrimary ?_ ?_ ⟨?_, ?_, ?_, ?_⟩
    · intro pk fields decoded document
      exact send_sentOnly (follows_stamped (.row ofTable named decoded rfl) rfl)
    · intro pk decoded
      exact send_sentOnly (follows_stamped (.row ofTable named decoded rfl) rfl)
    · exact fun _ _ _ _ sent => sent
    · exact fun _ _ _ _ sent => sent
    · exact fun _ _ _ sent => sent
    · exact fun _ _ sent => sent
  | inr related =>
    obtain ⟨rel, isRelated, rfl, rfl⟩ := related
    have embeds : onRelated other ev := by
      simp only [onRelated, ofTable, any_eq_true, decide_eq_true_eq]
      exact ⟨rel, isRelated, rfl⟩
    refine looking_sentOnly.handleRelated ?_ ⟨?_, ?_, ?_, ?_⟩
    · exact fun row document => send_sentOnly ⟨fun _ => buildReEmit_other, fun _ _ => .inl embeds⟩
    · exact fun _ _ _ _ sent => sent
    · exact fun _ _ _ _ _ sent => sent
    · exact fun _ _ _ _ sent => sent
    · exact fun _ sent => sent

theorem handleRow_followed (ofTable : sourceTable ev = .ok table) (named : subjectOp ev = .ok op) :
    Keeps (Followed env defn ev start)
      (fun _ => Followed env defn ev start) (handleRow env [defn] table op ev) := by
  apply Looking.handleRow
  · rintro rfl ⟨other, isDefinition, rfl⟩ definition' isDefinition' pk
    obtain rfl := mem_singleton.mp isDefinition
    obtain rfl := mem_singleton.mp isDefinition'
    exact send_sentOnly (follows_stamped (.truncated ofTable named rfl) rfl)
  · exact fun _ _ sent => sent
  · exact fun route mem => handleRoute_followed ofTable named mem

theorem handle_followed : Ensures (Followed env defn ev) (handle env [defn] ev) := by
  refine Ensures.of_triple fun start => ?_
  have inner : Keeps (Followed env defn ev start)
      (fun _ => Followed env defn ev start) (handleInner env [defn] ev) :=
    Composing.handleInner (fun _ sent => sent) (fun _ _ sent => sent)
      fun table op ofTable named => handleRow_followed ofTable named
  refine Triple.bind inner fun matched => ?_
  split
  · exact Triple.done _
  · exact send_sentOnly ⟨fun _ _ => rfl, fun _ isId => .inr (.named isId)⟩

end

end Ventstream.Joins
