import Ventstream.Joins.Engine

/-! # What the engine's programs can change

Composing documents does two things to the engine, however deep the program:
it publishes, and it keeps fetched rows. It stops when one of the two sides
fails, or when a stored row is not an object. What these steps keep, and the
reasons they stop for, carry over to every composing program.
-/

namespace Ventstream.Joins

open Core Library Library.Program
open Std (ExtTreeMap)
open Json (Value Fields)
open List hiding after lookup

/-- Every stored primary row is an object, so that related rows can be embedded in it. -/
def RawObjects (tables : Tables) : Prop :=
  ∀ (row : RowKey) (stored : PrimaryRowState), tables.primaryRows[row]? = some stored →
    stored.raw.isObject = true

variable {rel : RelatedDefinition}

section

variable {outcomes : List (PkValue × FetchOutcome)}

/-- Embedding changes the document of a primary and leaves objects objects. -/
def SameRow (before after : Materialized) : Prop :=
  after.row = before.row ∧ after.fkValues = before.fkValues ∧
    (before.document.isObject = true → after.document.isObject = true)

theorem SameRow.refl (primary : Materialized) : SameRow primary primary := ⟨rfl, rfl, id⟩

theorem SameRow.trans (left : SameRow first second)
    (right : SameRow second third) : SameRow first third :=
  ⟨right.1.trans left.1, right.2.1.trans left.2.1, right.2.2 ∘ left.2.2⟩

theorem embedOutcome_ok
    (done : embedOutcome rel outcomes primary = .ok embedded) : SameRow primary embedded := by
  unfold embedOutcome at done
  split at done
  · cases done
    exact SameRow.refl primary
  · split at done
    · cases done
    · cases done
      exact ⟨rfl, rfl, fun _ => rfl⟩

theorem embedOutcome_error (failed : embedOutcome rel outcomes primary = .error error) :
    primary.document.isObject = false ∧ error = notAnObject primary.row.table := by
  unfold embedOutcome at failed
  split at failed
  · cases failed
  · split at failed
    · rename_i missing
      cases failed
      exact ⟨by simp [Value.isObject, missing], rfl⟩
    · cases failed

theorem embedOutcomes_ok (done : embedOutcomes rel outcomes primaries = .ok embedded) :
    List.Forall₂ SameRow primaries embedded := by
  induction primaries generalizing embedded with
  | nil =>
    cases done
    exact .nil
  | cons primary rest ih =>
    obtain ⟨one, first, done⟩ := ok_of_bind done
    obtain ⟨more, others, done⟩ := ok_of_bind done
    cases done
    exact .cons (embedOutcome_ok first) (ih others)

theorem embedOutcomes_error (failed : embedOutcomes rel outcomes primaries = .error error) :
    ∃ primary ∈ primaries, primary.document.isObject = false ∧
      error = notAnObject primary.row.table := by
  induction primaries with
  | nil => cases failed
  | cons primary rest ih =>
    unfold embedOutcomes at failed
    cases first : embedOutcome rel outcomes primary with
    | error reason =>
      rw [first] at failed
      cases failed
      exact ⟨primary, mem_cons_self, embedOutcome_error first⟩
    | ok one =>
      rw [first] at failed
      cases others : embedOutcomes rel outcomes rest with
      | error reason =>
        rw [others] at failed
        cases failed
        obtain ⟨broken, mem, reason⟩ := ih others
        exact ⟨broken, mem_cons_of_mem _ mem, reason⟩
      | ok more =>
        rw [others] at failed
        cases failed

theorem sameRows_trans (left : List.Forall₂ SameRow first second)
    (right : List.Forall₂ SameRow second third) : List.Forall₂ SameRow first third := by
  induction left generalizing third with
  | nil =>
    cases right
    exact .nil
  | cons same _ ih =>
    cases right with
    | cons again rest => exact .cons (same.trans again) (ih rest)

theorem sameRows_objects (same : List.Forall₂ SameRow before after)
    (objects : ∀ primary ∈ before, primary.document.isObject) :
    ∀ primary ∈ after, primary.document.isObject := by
  induction same with
  | nil => simp
  | cons one _ ih => simp_all [SameRow]

theorem materialize_objects (objects : RawObjects tables) :
    ∀ primary ∈ materialize defn tables affected, primary.document.isObject := by
  intro primary mem
  obtain ⟨row, _, found⟩ := mem_filterMap.mp mem
  obtain ⟨stored, isStored, rfl⟩ := Option.map_eq_some_iff.mp found
  exact objects row stored isStored

end

/-- The steps of looking up related rows keep the invariant, and what stops them is accepted. -/
structure Looking (inv : Engine → Prop) (stop : JoinError → Engine → Prop) : Prop where
  backfill : ∀ rel key rows, Keeps inv stop (backfill rel key rows)
  fetcher : ∀ relatedId source engine, inv engine → stop (.fetcher relatedId source) engine
  embeddable : (∀ engine, inv engine → RawObjects engine.tables) ∨
    ∀ table engine, inv engine → stop (notAnObject table) engine

/-- So do the steps of composing, whatever is sent. -/
structure Composing (inv : Engine → Prop) (stop : JoinError → Engine → Prop) : Prop
    extends Looking inv stop where
  send : ∀ env ev, Keeps inv stop (send env ev)

variable {inv : Engine → Prop} {stop : JoinError → Engine → Prop}

namespace Looking

variable (looking : Looking inv stop) (env : Env) (defn : JoinDefinition)

include looking

theorem fetched {α : Type} (relatedId : String) (answer : Except FetchError α) :
    Keeps inv stop (check (answer.mapError (.fetcher relatedId))) := by
  refine Triple.check (fun _ _ _ holds => holds) ?_
  intro error failed engine holds
  cases answer with
  | ok rows => cases failed
  | error source =>
    cases failed
    exact looking.fetcher relatedId source engine holds

theorem lookupRelated (rel : RelatedDefinition) (key : PkValue) :
    Keeps inv stop (lookupRelated env defn rel key) := by
  unfold Joins.lookupRelated
  refine Triple.bind (Triple.look _) fun found => ?_
  cases found with
  | some outcome => exact Triple.done _
  | none =>
    exact Triple.bind (looking.fetched rel.id _) fun rows => looking.backfill rel key rows

theorem backfillBatch (rel : RelatedDefinition) (fetched : List (PkValue × List Value))
    (keys : List PkValue) : Keeps inv stop (backfillBatch rel fetched keys) := by
  induction keys with
  | nil => exact Triple.done _
  | cons key rest ih =>
    unfold Joins.backfillBatch
    refine Triple.bind (looking.backfill rel key _) fun outcome => ?_
    exact Triple.bind ih fun outcomes => Triple.done _

theorem lookupRelatedBatch (rel : RelatedDefinition) (keys : List PkValue) :
    Keeps inv stop (lookupRelatedBatch env defn rel keys) := by
  unfold Joins.lookupRelatedBatch
  refine Triple.bind (Triple.look _) fun resolved => ?_
  dsimp only
  split
  · exact Triple.done _
  · refine Triple.bind (looking.fetched rel.id _) fun fetched => ?_
    exact Triple.bind (looking.backfillBatch rel fetched _) fun outcomes => Triple.done _

theorem embedRelated (fkValues : ExtTreeMap String PkValue) (relations : List RelatedDefinition)
    (composed : Fields) : Keeps inv stop (embedRelated env defn fkValues relations composed) := by
  induction relations generalizing composed with
  | nil => exact Triple.done _
  | cons rel rest ih =>
    unfold Joins.embedRelated
    split
    · exact ih composed
    · exact Triple.bind (looking.lookupRelated env defn rel _) fun outcome => ih _

theorem composePrimary {row : Value} (isObject : row.isObject)
    (fkValues : ExtTreeMap String PkValue) :
    Keeps inv stop (composePrimary env defn row fkValues) := by
  obtain ⟨fields, rfl⟩ := Value.isObject_iff.mp isObject
  exact Triple.bind (looking.embedRelated env defn fkValues _ fields) fun composed =>
    Triple.done _

theorem embedBatch (relations : List RelatedDefinition)
    (embeddable : (∀ primary ∈ primaries, primary.document.isObject) ∨
      ∀ table engine, inv engine → stop (notAnObject table) engine) :
    Triple inv (embedBatch env defn relations primaries)
      (fun documents engine => List.Forall₂ SameRow primaries documents ∧ inv engine)
      stop := by
  induction relations generalizing primaries with
  | nil =>
    exact Triple.pure fun _ holds => ⟨forall₂_same.mpr fun primary _ => .refl primary, holds⟩
  | cons rel rest ih =>
    unfold Joins.embedBatch
    refine Triple.bind (looking.lookupRelatedBatch env defn rel _) fun outcomes => ?_
    have embedding : Triple inv (check (embedOutcomes rel outcomes primaries))
        (fun embedded engine => List.Forall₂ SameRow primaries embedded ∧ inv engine)
        stop := by
      apply Triple.check
      · intro embedded done engine holds
        exact ⟨embedOutcomes_ok done, holds⟩
      · intro error failed engine holds
        obtain ⟨broken, mem, notObject, rfl⟩ := embedOutcomes_error failed
        cases embeddable with
        | inl objects => simp [objects broken mem] at notObject
        | inr accepted => exact accepted _ engine holds
    refine Triple.bind embedding fun embedded => Triple.assuming fun same => ?_
    have stillEmbeddable := embeddable.imp_left fun objects =>
      sameRows_objects same objects
    refine (ih stillEmbeddable).weaken (fun _ holds => holds) ?_ fun _ _ stopped => stopped
    exact fun documents engine reached => ⟨sameRows_trans same reached.1, reached.2⟩

section

variable {triggering : Event}
  (sends : ∀ row document,
    Keeps inv stop (Joins.send env (buildReEmit env triggering defn row document)))

include sends

theorem reEmitPrimaryChunk (affected : List RowKey) :
    Keeps inv stop (reEmitPrimaryChunk env defn triggering affected) := by
  unfold Joins.reEmitPrimaryChunk
  have reading : Triple inv
      (read fun engine => materialize defn engine.tables affected)
      (fun primaries engine => ((∀ primary ∈ primaries, primary.document.isObject) ∨
        ∀ table engine, inv engine → stop (notAnObject table) engine) ∧ inv engine)
      stop := by
    apply Triple.read
    intro engine holds
    exact ⟨looking.embeddable.imp_left fun objects => materialize_objects (objects engine holds),
      holds⟩
  refine Triple.bind reading fun primaries => Triple.assuming fun embeddable => ?_
  split
  · exact Triple.done _
  · refine Triple.bind (looking.embedBatch env defn _ embeddable) fun documents => ?_
    have sending : Keeps inv stop (each (fun primary : Materialized => Joins.send env
        (buildReEmit env triggering defn primary.row primary.document)) documents) :=
      Triple.each fun primary _ => sends primary.row primary.document
    exact sending.weaken (fun _ reached => reached.2) (fun _ _ kept => kept)
      fun _ _ stopped => stopped

theorem reEmitPrimariesForKeys (relatedId : String) (key : PkValue) (secondary : Option PkValue) :
    Keeps inv stop (reEmitPrimariesForKeys env defn relatedId key secondary triggering) :=
  Triple.bind (Triple.look _) fun _ =>
    Triple.walk (looking.reEmitPrimaryChunk env defn sends)

theorem reEmitPrimariesForRelation (relatedId : String) :
    Keeps inv stop (reEmitPrimariesForRelation env defn relatedId triggering) :=
  Triple.bind (Triple.look _) fun _ =>
    Triple.walk (looking.reEmitPrimaryChunk env defn sends)

end

end Looking

theorem Composing.reEmitPrimaryChunk (composing : Composing inv stop) (env : Env)
    (defn : JoinDefinition) (triggering : Event) (affected : List RowKey) :
    Keeps inv stop (reEmitPrimaryChunk env defn triggering affected) :=
  composing.toLooking.reEmitPrimaryChunk env defn (fun _ _ => composing.send env _) affected

theorem onState_triple {α : Type} {step : JoinState → α × JoinState} {post : α → Engine → Prop}
    (holds : ∀ engine, pre engine →
      post (step engine.state).1 { engine with state := (step engine.state).2 }) :
    Triple pre (onState step) post stop :=
  holds

theorem exec_onState_bind {α β : Type} (step : JoinState → α × JoinState)
    (next : α → Program JoinError Engine β) (engine : Engine) :
    exec (onState step >>= next) engine =
      exec (next (step engine.state).1) { engine with state := (step engine.state).2 } :=
  exec_bind_ok rfl

theorem sourceTable_error
    (failed : sourceTable ev = .error error) : ∃ subject, error = .malformedSubject subject := by
  unfold sourceTable at failed
  split at failed
  · cases failed
  · split at failed
    · cases failed
    · cases failed
      exact ⟨_, rfl⟩

theorem subjectOp_error
    (failed : subjectOp ev = .error error) : ∃ subject, error = .malformedSubject subject := by
  unfold subjectOp at failed
  split at failed <;> cases failed
  exact ⟨_, rfl⟩

theorem mergeOver_isObject (prior : Option Value) (fields : Fields) :
    (mergeOver prior (.object fields)).isObject := by
  unfold mergeOver
  split <;> rfl

theorem mem_routesOf : route ∈ routesOf table defn ↔
      route = .primary defn ∧ defn.primary.table = table ∨
        ∃ rel ∈ defn.related, rel.table = table ∧ route = .related defn rel := by
  unfold routesOf
  simp only [mem_append, mem_map, mem_filter, decide_eq_true_eq]
  constructor
  · rintro (primary | ⟨rel, ⟨mem, ofTable⟩, rfl⟩)
    · split at primary
      · rename_i ofTable
        exact .inl ⟨mem_singleton.mp primary, ofTable⟩
      · cases primary
    · exact .inr ⟨rel, mem, ofTable, rfl⟩
  · rintro (⟨rfl, ofTable⟩ | ⟨rel, mem, ofTable, rfl⟩)
    · simp [ofTable]
    · exact .inr ⟨rel, ⟨mem, ofTable⟩, rfl⟩

theorem mem_routes : route ∈ routes joins table ↔ ∃ defn ∈ joins,
      route = .primary defn ∧ defn.primary.table = table ∨
        ∃ rel ∈ defn.related, rel.table = table ∧ route = .related defn rel := by
  simp only [routes, mem_flatMap, mem_routesOf]

theorem handleRow_writes (notTruncate : op ≠ .truncate) : handleRow env joins table op ev =
      each (handleRoute env table op ev) (routes joins table) := by
  unfold handleRow
  simp [notTruncate]

/-- What is to be checked of a primary row's handler besides its sends: rejecting the event,
    storing the row, removing it. -/
structure KeepsPrimary (env : Env) (defn : JoinDefinition) (table : String) (op : Op)
    (ev : Event) (pre inv : Engine → Prop) (stop : JoinError → Engine → Prop) : Prop where
  rejects : op ≠ .truncate → ∀ error, decodePrimary env defn table op ev = .error error →
    ∀ engine, pre engine → stop error engine
  stores : ∀ pk fields, decodePrimary env defn table op ev = .ok (.store pk fields) →
    ∀ engine, pre engine → inv { engine with
      state := (storePrimaryRow defn ⟨table, pk⟩ op fields engine.state).2 }
  removes : ∀ pk, decodePrimary env defn table op ev = .ok (.remove pk) →
    ∀ engine, pre engine → inv { engine with
      state := (removePrimaryRow ⟨table, pk⟩ engine.state).2 }
  truncates : op = .truncate → ∀ engine, pre engine → inv engine

/-- The same for a related row. -/
structure KeepsRelated (env : Env) (rel : RelatedDefinition) (op : Op) (ev : Event)
    (inv : Engine → Prop) (stop : JoinError → Engine → Prop) : Prop where
  rejects : op ≠ .truncate → ∀ error, decodeRelated env rel op ev = .error error →
    ∀ engine, inv engine → stop error engine
  stores : ∀ pk row lookup, decodeRelated env rel op ev = .ok (.store pk row lookup) →
    ∀ engine, inv engine → inv { engine with
      state := (storeRelatedRow rel op pk row lookup engine.state).2 }
  removes : ∀ pk lookup, decodeRelated env rel op ev = .ok (.remove pk lookup) →
    ∀ engine, inv engine → inv { engine with
      state := (removeRelatedRow rel pk lookup engine.state).2 }
  purges : ∀ engine, inv engine → inv { engine with
    state := (purgeRelated rel engine.state).2 }

/-- Taking pages of the rows of a primary table keeps the invariant. -/
def TakesPages (env : Env) (table : String) (inv : Engine → Prop) : Prop :=
  ∀ engine, inv engine → inv { engine with
    state := (engine.state.takePrimaryTablePage env.primaryOrder table reEmitPrimaryChunkSize).2 }

variable {env : Env} {defn : JoinDefinition} {table : String} {op : Op} {ev : Event}

namespace Looking

variable (looking : Looking inv stop)

include looking

theorem handlePrimary {pre : Engine → Prop}
    (sendsComposed : ∀ pk fields, decodePrimary env defn table op ev =
      .ok (.store pk fields) → ∀ document, Keeps inv stop
        (send env (buildComposed env ev defn ⟨table, pk⟩ document)))
    (sendsTombstone : ∀ pk, decodePrimary env defn table op ev = .ok (.remove pk) →
      Keeps inv stop (send env (buildTombstone env ev defn ⟨table, pk⟩)))
    (keeps : KeepsPrimary env defn table op ev pre inv stop) :
    Triple pre (handlePrimary env defn table op ev) (fun _ => inv) stop := by
  unfold Joins.handlePrimary
  split
  · rename_i isTruncate
    exact Triple.pure (keeps.truncates isTruncate)
  · rename_i notTruncate
    refine Triple.check_bind (fun change decoded => ?_) (keeps.rejects notTruncate)
    cases change with
    | store pk fields =>
      have storing : Triple pre (onState (storePrimaryRow defn ⟨table, pk⟩ op fields))
          (fun value engine => value.isObject ∧ inv engine) stop :=
        onState_triple fun engine holds =>
          ⟨mergeOver_isObject _ _, keeps.stores pk fields decoded engine holds⟩
      refine Triple.bind storing fun value => Triple.assuming fun isObject => ?_
      refine Triple.bind (looking.composePrimary env defn isObject _) fun composed => ?_
      exact sendsComposed pk fields decoded composed
    | remove pk =>
      have removing : Triple pre (onState (removePrimaryRow ⟨table, pk⟩)) (fun _ => inv) stop :=
        onState_triple (keeps.removes pk decoded)
      exact Triple.bind removing fun _ => sendsTombstone pk decoded

theorem handleRelated {rel : RelatedDefinition} (sends : ∀ row document, Keeps inv stop
      (send env (buildReEmit env ev defn row document)))
    (keeps : KeepsRelated env rel op ev inv stop) :
    Keeps inv stop (handleRelated env defn rel op ev) := by
  unfold Joins.handleRelated
  split
  · exact Triple.bind (onState_triple keeps.purges) fun _ =>
      looking.reEmitPrimariesForRelation env defn sends rel.id
  · rename_i notTruncate
    refine Triple.check_bind (fun change decoded => ?_) (keeps.rejects notTruncate)
    cases change with
    | store pk row lookup =>
      have storing : Keeps inv stop (onState (storeRelatedRow rel op pk row lookup)) :=
        onState_triple (keeps.stores pk row lookup decoded)
      exact Triple.bind storing fun keys =>
        looking.reEmitPrimariesForKeys env defn sends rel.id keys.1 keys.2
    | remove pk lookup =>
      have removing : Keeps inv stop (onState (removeRelatedRow rel pk lookup)) :=
        onState_triple (keeps.removes pk lookup decoded)
      exact Triple.bind removing fun key =>
        looking.reEmitPrimariesForKeys env defn sends rel.id key none

omit looking in
theorem truncatePages {joins : List JoinDefinition} (sends : ∀ defn ∈ joins, ∀ pk, Keeps inv stop
      (send env (buildTombstone env ev defn ⟨table, pk⟩))) (takes : TakesPages env table inv)
    (fuel : Nat) : Keeps inv stop (truncatePages env joins table ev fuel) := by
  induction fuel with
  | zero => exact Triple.done _
  | succ fuel ih =>
    unfold Joins.truncatePages
    have taking : Keeps inv stop (onState (JoinState.takePrimaryTablePage env.primaryOrder table
        reEmitPrimaryChunkSize)) :=
      onState_triple takes
    refine Triple.bind taking fun removed => ?_
    split
    · exact Triple.done _
    · refine Triple.bind (Triple.each fun defn mem => Triple.each fun pk _ =>
        sends defn (mem_of_mem_filter mem) pk) ?_
      exact fun _ => ih

omit looking in
theorem handleRow (sends : op = .truncate → (∃ defn ∈ joins, defn.primary.table = table) →
      ∀ defn ∈ joins, ∀ pk, Keeps inv stop (send env (buildTombstone env ev defn ⟨table, pk⟩)))
    (takes : op = .truncate → TakesPages env table inv) (kept : ∀ route ∈ routes joins table,
      Keeps inv stop (handleRoute env table op ev route)) :
    Keeps inv stop (handleRow env joins table op ev) := by
  unfold Joins.handleRow
  refine Triple.bind ?_ fun _ => Triple.each kept
  split
  · rename_i truncates
    refine Triple.bind (Triple.look _) fun fuel => ?_
    exact truncatePages (sends truncates.1 (by simpa using truncates.2)) (takes truncates.1) fuel
  · exact Triple.done _

end Looking

namespace Composing

variable (composing : Composing inv stop)

include composing

theorem handlePrimary (keeps : KeepsPrimary env defn table op ev pre inv stop) :
    Triple pre (handlePrimary env defn table op ev) (fun _ => inv) stop :=
  composing.toLooking.handlePrimary (fun _ _ _ _ => composing.send env _)
    (fun _ _ => composing.send env _) keeps

theorem handleRelated (keeps : KeepsRelated env rel op ev inv stop) :
    Keeps inv stop (handleRelated env defn rel op ev) :=
  composing.toLooking.handleRelated (fun _ _ => composing.send env _) keeps

theorem truncatePages (takes : TakesPages env table inv) (fuel : Nat) :
    Keeps inv stop (truncatePages env joins table ev fuel) :=
  Looking.truncatePages (fun _ _ _ => composing.send env _) takes fuel

theorem handleRow (takes : op = .truncate → TakesPages env table inv)
    (kept : ∀ route ∈ routes joins table, Keeps inv stop (handleRoute env table op ev route)) :
    Keeps inv stop (handleRow env joins table op ev) :=
  Looking.handleRow (fun _ _ _ _ _ => composing.send env _) takes kept

omit composing in
theorem handleInner {joins : List JoinDefinition} (suspends : ∀ engine, inv engine →
      inv { engine with state := { engine.state with persistEnabled := false } })
    (malformed : ∀ subject engine, inv engine → stop (.malformedSubject subject) engine)
    (rows : ∀ table op, sourceTable ev = .ok table → subjectOp ev = .ok op →
      Keeps inv stop (Joins.handleRow env joins table op ev)) :
    Keeps inv stop (handleInner env joins ev) := by
  unfold Joins.handleInner
  split
  · exact Triple.done _
  · split
    · exact Triple.done _
    · have suspending : Keeps inv stop (suspendPersistence ev) := by
        apply onState_triple
        intro engine holds
        split
        · exact suspends engine holds
        · exact holds
      refine Triple.bind suspending fun _ => ?_
      refine Triple.check_bind (fun table found => Triple.check_bind (fun op named => ?_) ?_) ?_
      · exact Triple.bind (rows table op found named) fun _ => Triple.done _
      · intro error failed engine holds
        obtain ⟨subject, rfl⟩ := subjectOp_error failed
        exact malformed subject engine holds
      · intro error failed engine holds
        obtain ⟨subject, rfl⟩ := sourceTable_error failed
        exact malformed subject engine holds

theorem handle (inner : Keeps inv stop (Joins.handleInner env joins ev)) :
    Keeps inv stop (handle env joins ev) := by
  unfold Joins.handle
  refine Triple.bind inner fun matched => ?_
  split
  · exact Triple.done _
  · exact composing.send env ev

end Composing

/-- The two tables of primary rows are the same. -/
def SamePrimaries (before after : Engine) : Prop :=
  after.tables.primaryRows = before.tables.primaryRows ∧
    after.tables.primaryReverse = before.tables.primaryReverse

instance : Std.Refl SamePrimaries := ⟨fun _ => ⟨rfl, rfl⟩⟩

instance : IsTrans Engine SamePrimaries :=
  ⟨fun _ _ _ first second => ⟨second.1.trans first.1, second.2.trans first.2⟩⟩

theorem RawObjects.of_same (same : SamePrimaries before after)
    (objects : RawObjects before.tables) : RawObjects after.tables := by
  intro row stored isStored
  rw [same.1] at isStored
  exact objects row stored isStored

theorem samePrimaries_mutateAll (foreign : ∀ mutation ∈ mutations, mutation.isForeign) :
    SamePrimaries engine { engine with state := engine.state.mutateAll scope mutations } := by
  simp only [SamePrimaries, Engine.tables, JoinState.tables_mutateAll]
  exact Tables.applyAll_foreign _ foreign

theorem backfillRows_foreign (rel : RelatedDefinition) (key : PkValue) (rows : List Value) :
    ∀ mutation ∈ backfillRows rel key rows, mutation.isForeign := by
  intro mutation mem
  obtain ⟨row, _, written⟩ := mem_flatMap.mp mem
  split at written
  · simp only [mem_cons, not_mem_nil, or_false] at written
    cases written with
    | inl written => rw [written]; rfl
    | inr written => rw [written]; rfl
  · cases written

theorem storeRelated_foreign (rel : RelatedDefinition) (pk : PkValue) (value : Value)
    (key : PkValue) (moved : Option PkValue) :
    ∀ mutation ∈ storeRelated rel pk value key moved, mutation.isForeign := by
  cases moved <;> simp [storeRelated, Mutation.isForeign]

theorem purgeRelatedTable_foreign (tables : Tables) (relatedId table : String) :
    ∀ mutation ∈ tables.purgeRelatedTable relatedId table, mutation.isForeign := by
  intro mutation mem
  simp only [Tables.purgeRelatedTable, mem_append, mem_map] at mem
  cases mem with
  | inl dropped =>
    obtain ⟨row, _, rfl⟩ := dropped
    rfl
  | inr dropped =>
    obtain ⟨link, _, rfl⟩ := dropped
    rfl

/-- What depends on the primary tables alone survives composing, which then stops for
    transient reasons only. -/
theorem composing_of_samePrimaries
    (kept : ∀ before after, SamePrimaries before after → inv before → inv after)
    (objects : ∀ engine, inv engine → RawObjects engine.tables) :
    Composing inv fun error engine => error.isPermanent = false ∧ inv engine where
  send env event := by
    intro engine holds
    unfold exec ExceptT.run StateT.run Joins.send
    cases env.refusal engine.sent.length with
    | some detail => exact ⟨rfl, holds⟩
    | none => exact kept engine _ ⟨rfl, rfl⟩ holds
  backfill rel key rows := by
    intro engine holds
    exact kept engine _ (samePrimaries_mutateAll (backfillRows_foreign rel key rows)) holds
  fetcher relatedId source engine holds := ⟨rfl, holds⟩
  embeddable := Or.inl objects

theorem Composing.mono (composing : Composing inv strict)
    (accepts : ∀ error engine, strict error engine → stop error engine) : Composing inv stop where
  send env ev := (composing.send env ev).weaken (fun _ holds => holds)
    (fun _ _ holds => holds)
    accepts
  backfill rel key rows := (composing.backfill rel key rows).weaken (fun _ holds => holds)
    (fun _ _ holds => holds) accepts
  fetcher relatedId source engine holds := accepts _ _
    (composing.fetcher relatedId source engine holds)
  embeddable := composing.embeddable.imp_right fun broken table engine holds =>
    accepts _ _ (broken table engine holds)

theorem Composing.handleRelated_of_same (composing : Composing inv stop)
    (kept : ∀ engine (state : JoinState), SamePrimaries engine { engine with state := state } →
      inv engine → inv { engine with state := state }) {env : Env} {defn : JoinDefinition}
    {rel : RelatedDefinition} {op : Op} {ev : Event}
    (rejects : op ≠ .truncate → ∀ error, decodeRelated env rel op ev = .error error →
      ∀ engine, inv engine → stop error engine) :
    Keeps inv stop (Joins.handleRelated env defn rel op ev) := by
  refine composing.handleRelated ⟨rejects, ?_, ?_, ?_⟩
  · intro pk row lookup _ engine
    exact kept engine _ (samePrimaries_mutateAll (storeRelated_foreign rel pk _ _ _))
  · intro pk lookup _ engine
    refine kept engine _ (samePrimaries_mutateAll ?_)
    simp [Mutation.isForeign]
  · intro engine
    exact kept engine _ (samePrimaries_mutateAll (purgeRelatedTable_foreign _ rel.id rel.table))

section

/-- The event carries a row, and is not a marker between rows. -/
def IsRow (ev : Event) : Prop :=
  ev.headers[ackBarrierHeader]? ≠ some "true" ∧
    ev.headers[bootstrapHeader]? ≠ some "snapshot-complete"

instance (ev : Event) : Decidable (IsRow ev) := inferInstanceAs (Decidable (_ ∧ _))

/-- The engine when an event has been looked at: a row of a snapshot suspends persistence. -/
def suspended (ev : Event) (engine : Engine) : Engine :=
  { engine with state :=
      if ev.headers[bootstrapHeader]? = some "snapshot" then
        { engine.state with persistEnabled := false }
      else engine.state }

@[simp] theorem suspended_tables (ev : Event) (engine : Engine) :
    (suspended ev engine).tables = engine.tables := by
  unfold suspended Engine.tables
  split <;> rfl

@[simp] theorem suspended_sent (ev : Event) (engine : Engine) :
    (suspended ev engine).sent = engine.sent := rfl

theorem exec_suspendPersistence (ev : Event) (engine : Engine) :
    exec (suspendPersistence ev) engine = (.ok ⟨⟩, suspended ev engine) := by
  unfold suspendPersistence onState suspended
  split <;> rfl

variable {joins : List JoinDefinition}

theorem exec_handleInner_row (isRow : IsRow ev) (engine : Engine) :
    exec (handleInner env joins ev) engine =
      exec (do
        let table ← check (sourceTable ev)
        let op ← check (subjectOp ev)
        handleRow env joins table op ev
        pure !(routes joins table).isEmpty) (suspended ev engine) := by
  unfold handleInner
  rw [if_neg isRow.1, if_neg isRow.2, exec_bind_ok (exec_suspendPersistence ev engine)]

theorem exec_handle_row (isRow : IsRow ev) (located : sourceTable ev = .ok table)
    (named : subjectOp ev = .ok op) (concerned : routes joins table ≠ []) (engine : Engine) :
    exec (handle env joins ev) engine =
      exec (handleRow env joins table op ev) (suspended ev engine) := by
  unfold handle
  rw [exec_bind, exec_handleInner_row isRow, located, named, exec_bind, exec_check]
  simp only
  rw [exec_bind, exec_check]
  simp only
  rw [exec_bind]
  cases exec (handleRow env joins table op ev) (suspended ev engine) with
  | mk result later =>
    cases result with
    | ok done => simp [concerned]
    | error error => rfl

end

/-- The row an event carries for an operation, if its payload can be read. -/
def eventRow (ev : Event) (op : Op) : Option Value :=
  match parsePayload ev with
  | .ok payload => currentRow payload op
  | .error _ => none

def Op.writes : Op → Bool
  | .insert | .update => true
  | .delete | .truncate => false

theorem decodePrimary_object {fields} (writes : op.writes)
    (carries : eventRow ev op = some (.object fields)) :
    decodePrimary env defn table op ev =
      .ok (.store (keyOf defn.primary.pk.columns fields) fields) := by
  unfold eventRow at carries
  cases parsed : parsePayload ev with
  | error error => simp [parsed] at carries
  | ok payload =>
    cases op <;> simp_all [Op.writes, decodePrimary, resolvePk, bind, Except.bind]

theorem decodePrimary_writes (writes : op.writes)
    (accepted : decodePrimary env defn table op ev = .ok change) :
    ∃ fields, eventRow ev op = some (.object fields) ∧
      change = .store (keyOf defn.primary.pk.columns fields) fields := by
  have carried : ∃ fields, eventRow ev op = some (.object fields) := by
    obtain ⟨payload, parsed, accepted⟩ := ok_of_bind accepted
    obtain ⟨pk, resolved, accepted⟩ := ok_of_bind accepted
    rw [eventRow, parsed]
    cases row : currentRow payload op with
    | none => cases op <;> simp_all [Op.writes]
    | some value => cases value <;> cases op <;> simp_all [Op.writes]
  obtain ⟨fields, carries⟩ := carried
  rw [decodePrimary_object writes carries] at accepted
  cases accepted
  exact ⟨fields, carries, rfl⟩

theorem decodePrimary_removes (removes : op.writes = false)
    (accepted : decodePrimary env defn table op ev = .ok change) : ∃ pk, change = .remove pk := by
  obtain ⟨payload, parsed, accepted⟩ := ok_of_bind accepted
  obtain ⟨pk, resolved, accepted⟩ := ok_of_bind accepted
  cases op <;> simp [Op.writes] at removes
  all_goals
    cases accepted
    exact ⟨pk, rfl⟩

theorem decodeRelated_stores (writes : op.writes) (pk lookup : PkValue) :
    decodeRelated env rel op ev ≠ .ok (.remove pk lookup) := by
  intro accepted
  obtain ⟨payload, parsed, accepted⟩ := ok_of_bind accepted
  obtain ⟨key, resolved, accepted⟩ := ok_of_bind accepted
  cases row : currentRow payload op <;> cases op <;> simp_all [Op.writes]

theorem decodeRelated_removes (removes : op.writes = false) :
    decodeRelated env rel op ev ≠ .ok (.store pk row lookup) := by
  intro accepted
  obtain ⟨payload, parsed, accepted⟩ := ok_of_bind accepted
  obtain ⟨key, resolved, accepted⟩ := ok_of_bind accepted
  cases op <;> simp_all [Op.writes]

theorem decodeRelated_row (accepted : decodeRelated env rel op ev = .ok (.store pk row lookup)) :
    op.writes ∧ eventRow ev op = some row := by
  have writes : op.writes := by
    by_contra removes
    exact decodeRelated_removes (by simpa using removes) accepted
  refine ⟨writes, ?_⟩
  obtain ⟨payload, parsed, accepted⟩ := ok_of_bind accepted
  obtain ⟨key, resolved, accepted⟩ := ok_of_bind accepted
  rw [eventRow, parsed]
  cases carried : currentRow payload op with
  | none => cases op <;> simp_all
  | some value => cases op <;> simp_all [Op.writes]

theorem decodeRelated_store_update
    (decoded : decodeRelated env rel op ev = .ok (.store pk row lookup))
    (notInsert : op ≠ .insert) : op = .update := by
  cases op with
  | insert => exact absurd rfl notInsert
  | update => rfl
  | delete | truncate => exact absurd decoded (decodeRelated_removes rfl)

theorem decodeRelated_object {fields} (writes : op.writes)
    (carries : eventRow ev op = some (.object fields)) :
    decodeRelated env rel op ev = .ok (.store (keyOf rel.pk.columns fields) (.object fields)
        (keyOf rel.joinOn.target.columns fields)) := by
  unfold eventRow at carries
  cases parsed : parsePayload ev with
  | error error => simp [parsed] at carries
  | ok payload =>
    cases op <;> simp_all [Op.writes, decodeRelated, resolvePk, bind, Except.bind]

end Ventstream.Joins
