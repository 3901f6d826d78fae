import Ventstream.Joins.Frame

/-! # Documents composed from state

A definition without a backfill fetches nothing. Its lookups, and so its
documents, are a function of the tables, and composing leaves the engine as it
is. The batch path gives each primary the document it would get on its own.
-/

namespace Ventstream.Joins

open Core Library Library.Program List
open Std (ExtTreeMap)
open Json (Value Fields)

section

variable (env : Env) (tables : Tables)

/-- The related rows that are in state. -/
def outcomeOf (rel : RelatedDefinition) (key : PkValue) : FetchOutcome :=
  if key.isNull then .emptyFor rel.cardinality
  else (fromState env tables rel key).getD (.emptyFor rel.cardinality)

/-- A primary row with every relation embedded from state. -/
def embedAll (fkValues : ExtTreeMap String PkValue) : List RelatedDefinition → Fields → Fields
  | [], fields => fields
  | rel :: rest, fields =>
    match fkValues[rel.id]? with
    | none => embedAll fkValues rest fields
    | some key => embedAll fkValues rest
        (Fields.set rel.embedAs (applySelectAndShape rel (outcomeOf env tables rel key)) fields)

end

variable {env : Env} {defn : JoinDefinition}

section

variable (noFetch : defn.backfill = .none)

include noFetch

theorem resolve_of_noFetch (tables : Tables) (rel : RelatedDefinition) (key : PkValue) :
    resolve env defn tables rel key = some (outcomeOf env tables rel key) := by
  unfold resolve outcomeOf
  split
  · rfl
  · simp only [shouldReconcileFromSource, noFetch, ne_eq, not_true_eq_false, and_false,
      decide_false, Bool.false_eq_true, if_false]
    cases fromState env tables rel key with
    | none => rfl
    | some outcome => rfl

theorem exec_lookupRelated (rel : RelatedDefinition) (key : PkValue) (engine : Engine) :
    exec (lookupRelated env defn rel key) engine =
      (.ok (outcomeOf env engine.tables rel key), engine) := by
  unfold lookupRelated
  simp only [resolve_of_noFetch noFetch]
  rfl

theorem exec_embedRelated (fkValues : ExtTreeMap String PkValue)
    (relations : List RelatedDefinition) (fields : Fields) (engine : Engine) :
    exec (embedRelated env defn fkValues relations fields) engine =
      (.ok (embedAll env engine.tables fkValues relations fields), engine) := by
  induction relations generalizing fields with
  | nil => rfl
  | cons rel rest ih =>
    unfold embedRelated embedAll
    cases fkValues[rel.id]? with
    | none => exact ih fields
    | some key =>
      rw [exec_bind_ok (exec_lookupRelated noFetch rel key engine), ih]

theorem exec_composePrimary (fkValues : ExtTreeMap String PkValue) (fields : Fields)
    (engine : Engine) :
    exec (composePrimary env defn (.object fields) fkValues) engine =
      (.ok (.object (embedAll env engine.tables fkValues defn.related fields)), engine) :=
  exec_bind_ok (exec_embedRelated noFetch fkValues defn.related fields engine)

theorem exec_lookupRelatedBatch (rel : RelatedDefinition) (keys : List PkValue) (engine : Engine) :
    exec (lookupRelatedBatch env defn rel keys) engine =
      (.ok (keys.eraseDups.map fun key => (key, outcomeOf env engine.tables rel key)), engine) := by
  unfold lookupRelatedBatch
  rw [exec_bind, exec_read]
  simp [resolve_of_noFetch noFetch, filterMap_map]

end

section

/-- Only the bus may have changed. -/
def SameTables (before after : Engine) : Prop := after.tables = before.tables

instance : Std.Refl SameTables := ⟨fun _ => rfl⟩

instance : IsTrans Engine SameTables := ⟨fun _ _ _ first second => Eq.trans second first⟩

theorem send_same {env ev relation} [Std.Refl relation]
    (sends : ∀ engine : Engine, relation engine { engine with sent := engine.sent ++ [ev] }) :
    Ensures relation (send env ev) := by
  intro engine
  unfold exec ExceptT.run StateT.run Joins.send
  cases env.refusal engine.sent.length with
  | some detail => exact refl_of relation engine
  | none => exact sends engine

variable (noFetch : defn.backfill = .none)

include noFetch

theorem embedBatch_sameTables (relations : List RelatedDefinition) (primaries : List Materialized) :
    Ensures SameTables (embedBatch env defn relations primaries) := by
  induction relations generalizing primaries with
  | nil => exact Ensures.pure _
  | cons rel rest ih =>
    refine Ensures.bind (fun engine => ?_) fun outcomes => ?_
    · rw [exec_lookupRelatedBatch noFetch]
      exact refl_of SameTables engine
    · exact Ensures.bind (Ensures.check _) fun embedded => ih embedded

theorem reEmitPrimaryChunk_sameTables (triggering : Event) (affected : List RowKey) :
    Ensures SameTables (reEmitPrimaryChunk env defn triggering affected) := by
  refine Ensures.bind (Ensures.read _) fun primaries => ?_
  split
  · exact Ensures.pure _
  · refine Ensures.bind (embedBatch_sameTables noFetch _ _) fun documents => ?_
    exact Ensures.each fun _ _ => send_same fun _ => rfl

theorem reEmitPrimariesForKeys_sameTables (relatedId : String) (key : PkValue)
    (secondary : Option PkValue) (triggering : Event) :
    Ensures SameTables
      (reEmitPrimariesForKeys env defn relatedId key secondary triggering) :=
  Ensures.of_triple fun start => Triple.bind (Triple.look _) fun _ =>
    Triple.walk fun chunk => (reEmitPrimaryChunk_sameTables noFetch triggering chunk).triple start

theorem reEmitPrimariesForRelation_sameTables (relatedId : String) (triggering : Event) :
    Ensures SameTables (reEmitPrimariesForRelation env defn relatedId triggering) :=
  Ensures.of_triple fun start => Triple.bind (Triple.look _) fun _ =>
    Triple.walk fun chunk => (reEmitPrimaryChunk_sameTables noFetch triggering chunk).triple start

end

section

/-- The two tables of related rows are the same. -/
def SameForeign (before after : Engine) : Prop :=
  after.tables.foreignRows = before.tables.foreignRows ∧
    after.tables.foreignByFk = before.tables.foreignByFk

instance : Std.Refl SameForeign := ⟨fun _ => ⟨rfl, rfl⟩⟩

instance : IsTrans Engine SameForeign :=
  ⟨fun _ _ _ first second => ⟨second.1.trans first.1, second.2.trans first.2⟩⟩

theorem sameForeign_mutateAll (primary : ∀ mutation ∈ mutations, mutation.isForeign = false) :
    SameForeign engine { engine with state := engine.state.mutateAll scope mutations } := by
  simp only [SameForeign, Engine.tables, JoinState.tables_mutateAll]
  exact Tables.applyAll_primary _ primary

theorem clearPrimaryReverse_primary (tables : Tables) (row : RowKey) :
    ∀ mutation ∈ clearPrimaryReverse tables row, mutation.isForeign = false := by
  intro mutation mem
  obtain ⟨link, _, rfl⟩ := mem_map.mp mem
  rfl

theorem storePrimary_primary (tables : Tables) (defn : JoinDefinition) (row : RowKey)
    (value : Value) :
    ∀ mutation ∈ storePrimary tables defn row value, mutation.isForeign = false := by
  intro mutation mem
  simp only [storePrimary, updatePrimaryIndexes, mem_append, mem_singleton] at mem
  rcases mem with (cleared | added) | stored
  · exact clearPrimaryReverse_primary tables row mutation cleared
  · obtain ⟨link, _, rfl⟩ := mem_map.mp added
    rfl
  · rw [stored]
    rfl

variable {table : String} {op : Op} {ev : Event}

theorem handlePrimary_sameForeign (noFetch : defn.backfill = .none) :
    Ensures SameForeign (handlePrimary env defn table op ev) := by
  have sending : ∀ sent : Event, Ensures SameForeign (send env sent) := fun sent =>
    send_same fun _ => ⟨rfl, rfl⟩
  unfold handlePrimary
  split
  · exact Ensures.pure _
  · refine Ensures.bind (Ensures.check _) fun change => ?_
    cases change with
    | store pk fields =>
      refine Ensures.bind (Ensures.update fun engine => ?_) fun value => ?_
      · exact sameForeign_mutateAll (storePrimary_primary _ _ _ _)
      · refine Ensures.bind (fun engine => ?_) fun composed => sending _
        cases value with
        | object fields => rw [exec_composePrimary noFetch]
                           exact refl_of SameForeign engine
        | _ => exact refl_of SameForeign engine
    | remove pk =>
      refine Ensures.bind (Ensures.update fun engine => ?_) fun _ => sending _
      refine sameForeign_mutateAll ?_
      simpa [Mutation.isForeign] using clearPrimaryReverse_primary engine.tables ⟨table, pk⟩

end

end Ventstream.Joins
