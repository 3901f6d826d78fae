import Ventstream.Joins.ReEmission

/-! # Events that are set aside

An event that a route rejects is recorded elsewhere and passed over. Each route
rejects before it changes anything, but an event goes through several routes, and
those before the rejecting one have been through. Nothing is left behind exactly
when each of them found its work done: a primary's route always sends something,
and no later route undoes what an earlier one did to the related tables.
-/

namespace Ventstream.Joins

open Core Library Library.Program
open List hiding after lookup
open Std (ExtTreeMap ExtTreeSet)
open Json (Value Fields)

variable {env : Env} {joins : List JoinDefinition} {table : String} {op : Op} {ev : Event}
  {engine later : Engine}

section

def Rejects (env : Env) (table : String) (op : Op) (ev : Event) (route : Route) : Bool :=
  op ≠ .truncate && match route with
    | .primary defn => !(decodePrimary env defn table op ev).isOk
    | .related _ rel => !(decodeRelated env rel op ev).isOk

theorem handleRoute_rejects (rejects : Rejects env table op ev route) (engine : Engine) :
    ∃ error, exec (handleRoute env table op ev route) engine = (.error error, engine) := by
  simp only [Rejects, ne_eq, decide_not, Bool.and_eq_true, Bool.not_eq_true',
    decide_eq_false_iff_not] at rejects
  cases route with
  | primary defn =>
    cases decoded : decodePrimary env defn table op ev with
    | ok change => simp [decoded, Except.isOk, Except.toBool] at rejects
    | error error =>
      refine ⟨error, ?_⟩
      simp only [handleRoute, handlePrimary, if_neg rejects.1]
      rw [exec_bind, exec_check, decoded]
  | related defn rel =>
    cases decoded : decodeRelated env rel op ev with
    | ok change => simp [decoded, Except.isOk, Except.toBool] at rejects
    | error error => exact ⟨error, exec_handleRelated_reject rejects.1 decoded engine⟩

theorem handleRoute_rawObjects (composing : Composing (fun engine => RawObjects engine.tables) stop)
    (rejected : Rejects env table op ev route →
      ∀ error engine, RawObjects engine.tables → stop error engine) :
    Keeps (fun engine => RawObjects engine.tables) stop (handleRoute env table op ev route) := by
  cases route with
  | primary defn =>
    refine composing.handlePrimary ⟨?_, ?_, ?_, ?_⟩
    · intro notTruncate error decoded engine objects
      refine rejected ?_ error engine objects
      simp [Rejects, notTruncate, decoded, Except.isOk, Except.toBool]
    · exact fun pk fields _ engine objects =>
        objects.storePrimaryRow defn ⟨table, pk⟩ op fields
    · exact fun pk _ engine objects => objects.of_fewer fun _ _ => fewer_of_remove
    · exact fun _ _ objects => objects
  | related defn rel =>
    apply composing.handleRelated_of_same
    · exact fun _ _ same objects => objects.of_same same
    · intro notTruncate error decoded engine objects
      refine rejected ?_ error engine objects
      simp [Rejects, notTruncate, decoded, Except.isOk, Except.toBool]

theorem composing_rawObjects : Composing (fun engine => RawObjects engine.tables)
    fun error engine => error.isPermanent = false ∧ RawObjects engine.tables :=
  composing_of_samePrimaries (fun _ _ => RawObjects.of_same) fun _ objects => objects

theorem handleRow_rawObjects (composing : Composing (fun engine => RawObjects engine.tables) stop)
    (rejected : ∀ route ∈ routes joins table, Rejects env table op ev route →
      ∀ error engine, RawObjects engine.tables → stop error engine) :
    Keeps (fun engine => RawObjects engine.tables) stop (handleRow env joins table op ev) := by
  apply composing.handleRow
  · exact fun _ engine objects => objects.of_fewer fun _ _ => fewer_of_takePage
  · exact fun route mem => handleRoute_rawObjects composing (rejected route mem)

variable {error : JoinError}

theorem Reachable.rawObjects
    (reached : Reachable joins Meets engine) : RawObjects engine.tables := by
  have composing : Composing (fun engine => RawObjects engine.tables)
      fun error engine => error.isPermanent → RawObjects engine.tables :=
    composing_rawObjects.mono fun _ _ stopped _ => stopped.2
  apply reached.invariant
  · intro start isEmpty row stored isStored
    simp [isEmpty, Tables.empty] at isStored
  · intro before env ev _
    have inner := @Composing.handleInner _ _ env ev joins
      (fun _ objects => objects) (fun _ _ objects _ => objects)
      fun table op _ _ => @handleRow_rawObjects env joins table op ev _ composing
        fun _ _ _ _ _ objects _ => objects
    exact (composing.handle inner).weaken (fun _ holds => holds.2) (fun _ _ kept => kept)
      fun _ _ kept => kept

/-- A permanent failure is a rejection: the routes before it have finished, none of them has
    rejected the event, and the rejecting one has changed nothing. -/
theorem exec_routes_permanent (objects : RawObjects engine.tables)
    (failed : exec (each (handleRoute env table op ev) list) engine = (.error error, later))
    (permanent : error.isPermanent) :
    exec (each (handleRoute env table op ev)
      (list.takeWhile fun route => !Rejects env table op ev route)) engine =
        (.ok ⟨⟩, later) := by
  induction list generalizing engine with
  | nil => cases failed
  | cons route rest ih =>
    rw [exec_each_cons] at failed
    cases rejects : Rejects env table op ev route with
    | true =>
      obtain ⟨reason, stopped⟩ := handleRoute_rejects rejects engine
      rw [stopped] at failed
      cases failed
      simp [rejects]
    | false =>
      have accepts := @handleRoute_rawObjects env table op ev _ route composing_rawObjects
        (fun rejected => by simp [rejects] at rejected) engine objects
      cases ran : exec (handleRoute env table op ev route) engine with
      | mk result mid =>
        rw [ran] at failed accepts
        cases result with
        | error reason =>
          cases failed
          simp [accepts.1] at permanent
        | ok done =>
          rw [takeWhile_cons_of_pos (by simp [rejects]), exec_each_cons, ran]
          exact ih accepts failed

theorem exec_handleRow_permanent (objects : RawObjects engine.tables)
    (failed : exec (handleRow env joins table op ev) engine = (.error error, later))
    (permanent : error.isPermanent) :
    op ≠ .truncate ∧ exec (each (handleRoute env table op ev)
      ((routes joins table).takeWhile fun route => !Rejects env table op ev route)) engine =
        (.ok ⟨⟩, later) := by
  by_cases isTruncate : op = .truncate
  · have transient := @handleRow_rawObjects env joins table op ev _ composing_rawObjects
      (fun route _ rejects => by simp [Rejects, isTruncate] at rejects) engine objects
    rw [failed] at transient
    simp [transient.1] at permanent
  · rw [handleRow_writes isTruncate] at failed
    exact ⟨isTruncate, exec_routes_permanent objects failed permanent⟩

end

section

theorem silent_parts (first : Grown before mid) (second : Grown mid after)
    (silent : after.sent = before.sent) : mid.sent = before.sent ∧ after.sent = mid.sent := by
  have shorter : mid.sent.length ≤ before.sent.length := by
    rw [← silent]
    exact second.length_le
  have same := first.eq_of_length_le shorter
  exact ⟨same.symm, silent.trans same⟩

/-- No stored primary of the definition is listed under a key that the event touches. -/
def Unjoined (env : Env) (tables : Tables) (defn : JoinDefinition) (rel : RelatedDefinition)
    (op : Op) (ev : Event) : Prop :=
  ∀ key row, Touches env tables rel op ev key → row ∈ tables.primariesFor rel.id key →
    row.table = defn.primary.table → tables.primaryRows[row]? = none

theorem handleRelated_idle (notTruncate : op ≠ .truncate)
    (decoded : decodeRelated env rel op ev = .ok change)
    (unjoined : Unjoined env engine.tables defn rel op ev) :
    exec (handleRelated env defn rel op ev) engine =
      (.ok ⟨⟩, changedEngine rel op change engine) := by
  rw [exec_handleRelated notTruncate decoded]
  have same := @samePrimaries_changedEngine rel op change engine
  apply reEmitPrimariesForKeys_idle
  rw [same.primariesFor]
  intro row linked ofTable
  rw [same.stored]
  rcases linked with listed | ⟨old, moved, listed⟩
  · exact unjoined _ row (.inr ⟨change, decoded, .inl rfl⟩) listed ofTable
  · exact unjoined old row (touches_movedFrom decoded moved) listed ofTable

variable (notTruncate : op ≠ .truncate)
include notTruncate

theorem handleRoute_silent (ran : exec (handleRoute env table op ev route) engine = (.ok ⟨⟩, later))
    (silent : later.sent = engine.sent) :
    ∃ defn rel change, route = .related defn rel ∧ decodeRelated env rel op ev = .ok change ∧
      Unjoined env engine.tables defn rel op ev ∧
      later = changedEngine rel op change engine := by
  cases route with
  | primary defn =>
    exact absurd silent (handlePrimary_sends notTruncate ran)
  | related defn rel =>
    cases decoded : decodeRelated env rel op ev with
    | error error =>
      have stopped := @exec_handleRelated_reject env defn rel op ev error notTruncate decoded engine
      rw [handleRoute, stopped] at ran
      cases ran
    | ok change =>
      have unjoined : Unjoined env engine.tables defn rel op ev := by
        intro key row touches linked ofTable
        by_contra stored
        obtain ⟨value, isStored⟩ := Option.ne_none_iff_exists'.mp stored
        obtain ⟨fresh, document, sent, mem⟩ :=
          handleRelated_sends ran touches linked ofTable isStored
        have nothing : fresh = [] := by simpa [silent] using sent
        simp [nothing] at mem
      rw [handleRoute, handleRelated_idle notTruncate decoded unjoined] at ran
      cases ran
      exact ⟨defn, rel, change, rfl, decoded, unjoined, rfl⟩

theorem exec_routes_silent (kept : Tables → Prop)
    (ran : exec (each (handleRoute env table op ev) list) engine = (.ok ⟨⟩, later))
    (silent : later.sent = engine.sent) (step : ∀ defn rel change tables, .related defn rel ∈ list →
      decodeRelated env rel op ev = .ok change → kept tables →
        kept (changed tables rel op change)) (holds : kept engine.tables) : kept later.tables := by
  induction list generalizing engine with
  | nil =>
    cases ran
    exact holds
  | cons route rest ih =>
    obtain ⟨_, mid, ranRoute, ranRest⟩ := exec_bind_inv ran
    obtain ⟨quietly, silently⟩ := silent_parts ((handleRoute_grown route).ran ranRoute)
      ((Ensures.each fun other _ => handleRoute_grown other).ran ranRest) silent
    obtain ⟨defn, rel, change, rfl, decoded, _, rfl⟩ :=
      handleRoute_silent notTruncate ranRoute quietly
    refine ih ranRest silently (fun defn rel change tables mem =>
      step defn rel change tables (mem_cons_of_mem _ mem)) ?_
    rw [tables_changedEngine]
    exact step defn rel change _ mem_cons_self decoded holds

end

section

variable {rel : RelatedDefinition} {tables : Tables}

/-- The change finds its work done: the row is stored as it would be, and listed under its key;
    or it is neither stored nor listed. -/
def AlreadyDone (tables : Tables) (rel : RelatedDefinition) (op : Op) : RelatedChange → Prop
  | .store pk row lookup =>
    tables.getForeign rel.table pk =
        some (mergeOver (priorOf op (tables.getForeign rel.table pk)) row) ∧
      (⟨rel.id, joinKey rel (mergeOver (priorOf op (tables.getForeign rel.table pk)) row) lookup,
        pk⟩ : ForeignLink) ∈ tables.foreignByFk
  | .remove pk lookup =>
    tables.getForeign rel.table pk = none ∧
      (⟨rel.id, lookup, pk⟩ : ForeignLink) ∉ tables.foreignByFk

theorem changed_ext (row : rowAfter tables rel op change = tables.getForeign rel.table change.pk)
    (links : ∀ link, link ∈ (changed tables rel op change).foreignByFk ↔
      link ∈ tables.foreignByFk) : changed tables rel op change = tables := by
  have rows : (changed tables rel op change).foreignRows = tables.foreignRows := by
    apply ExtTreeMap.ext_getElem?
    intro key
    have here := @getForeign_changed tables rel op change key.table key.pk
    split at here
    · rename_i same
      rw [row, same.1, same.2] at here
      exact here
    · exact here
  apply Tables.ext rows (changed_primary change).1 (changed_primary change).2
  exact ExtTreeSet.ext_mem links

theorem reparentedFrom_of_stored (stored : found = some (mergeOver (priorOf op found) row)) :
    reparentedFrom rel (priorOf op found) (joinKey rel (mergeOver (priorOf op found) row) lookup) =
      none := by
  by_cases isUpdate : op = .update
  · rw [priorOf, if_pos isUpdate] at stored ⊢
    cases found with
    | none => cases stored
    | some value =>
      rw [← Option.some.inj stored]
      unfold reparentedFrom joinKey
      cases extracted : extractPk value rel.joinOn.target.columns <;> simp [extracted]
  · simp [priorOf, isUpdate, reparentedFrom]

theorem changed_of_alreadyDone (done : AlreadyDone tables rel op change) :
    changed tables rel op change = tables := by
  cases change with
  | store pk row lookup =>
    obtain ⟨stored, listed⟩ := done
    have unmoved : movedFrom tables rel op (.store pk row lookup) = none :=
      reparentedFrom_of_stored stored
    have sameRow : rowAfter tables rel op (.store pk row lookup) =
        tables.getForeign rel.table pk := stored.symm
    apply changed_ext sameRow
    intro link
    simp only [mem_changed_store, unmoved, Option.not_mem_none, false_implies, implies_true,
      and_true, or_iff_right_iff_imp]
    rintro rfl
    exact listed
  | remove pk lookup =>
    obtain ⟨absent, unlisted⟩ := done
    have sameRow : rowAfter tables rel op (.remove pk lookup) =
        tables.getForeign rel.table pk := absent.symm
    apply changed_ext sameRow
    intro link
    have under : listedUnder tables rel op (.remove pk lookup) = lookup := by
      simp [listedUnder, absent]
    simp only [mem_changed_remove, under, and_iff_right_iff_imp]
    rintro listed rfl
    exact unlisted listed

section

variable {rest : List Route} {change : RelatedChange} (notTruncate : op ≠ .truncate)
  (ran : exec (each (handleRoute env table op ev) rest) (changedEngine rel op change engine) =
    (.ok ⟨⟩, later))
  (silent : later.sent = engine.sent)

include notTruncate ran silent

theorem listings_kept (others : ∀ defn other, .related defn other ∈ rest → other.id ≠ rel.id)
    (own : link.relatedId = rel.id) :
    link ∈ later.tables.foreignByFk ↔
      link ∈ (changed engine.tables rel op change).foreignByFk := by
  refine exec_routes_silent notTruncate
    (fun tables => link ∈ tables.foreignByFk ↔
      link ∈ (changed engine.tables rel op change).foreignByFk) ran silent ?_ ?_
  · intro defn other change tables mem _ kept
    rw [mem_changed_of_other]
    · exact kept
    · rw [own]
      exact (others defn other mem).symm
  · rw [tables_changedEngine]

theorem stored_kept {pk lookup : PkValue} {row : Value} {good : Value → Prop}
    (isStore : change = .store pk row lookup) (decoded : decodeRelated env rel op ev = .ok change)
    (merges : ∀ value, good value → good (mergeOver (priorOf op (some value)) row))
    (holds : good (mergeOver (priorOf op (engine.tables.getForeign rel.table pk)) row)) :
    ∃ value, later.tables.getForeign rel.table pk = some value ∧ good value := by
  subst isStore
  obtain ⟨writes, carried⟩ := decodeRelated_row decoded
  refine exec_routes_silent notTruncate
    (fun tables => ∃ value, tables.getForeign rel.table pk = some value ∧ good value) ran silent
    ?_ ?_
  · rintro defn other change tables _ accepted ⟨value, stored, fine⟩
    cases change with
    | remove pk lookup => exact absurd accepted (decodeRelated_stores writes pk lookup)
    | store otherPk otherRow otherLookup =>
      have sameRow : otherRow = row := by
        have again := (decodeRelated_row accepted).2
        rw [carried] at again
        exact (Option.some.inj again).symm
      rw [getForeign_changed]
      split
      · rename_i same
        refine ⟨mergeOver (priorOf op (some value)) row, ?_, merges value fine⟩
        simp only [rowAfter, sameRow, same.1]
        rw [← stored, same.2.symm]
        rfl
      · exact ⟨value, stored, fine⟩
  · refine ⟨_, ?_, holds⟩
    rw [tables_changedEngine, getForeign_changed, if_pos ⟨rfl, rfl⟩]
    rfl

theorem removed_kept (isRemove : change = .remove pk lookup)
    (decoded : decodeRelated env rel op ev = .ok change) :
    later.tables.getForeign rel.table pk = none := by
  subst isRemove
  have removes : op.writes = false := by
    by_contra writes
    exact decodeRelated_stores (by simpa using writes) pk lookup decoded
  refine exec_routes_silent notTruncate (fun tables => tables.getForeign rel.table pk = none) ran
    silent ?_ ?_
  · intro defn other change tables _ accepted absent
    cases change with
    | store pk row lookup => exact absurd accepted (decodeRelated_removes removes)
    | remove otherPk otherLookup =>
      rw [getForeign_changed]
      split
      · rfl
      · exact absent
  · rw [tables_changedEngine, getForeign_changed, if_pos ⟨rfl, rfl⟩]
    rfl

/-- If the tables end up as they were, the change found its work done. -/
theorem alreadyDone_of_restored (decoded : decodeRelated env rel op ev = .ok change)
    (others : ∀ defn other, .related defn other ∈ rest → other.id ≠ rel.id)
    (restored : later.tables = engine.tables) : AlreadyDone engine.tables rel op change := by
  have listings := fun (link : ForeignLink) (own : link.relatedId = rel.id) =>
    listings_kept notTruncate ran silent others own
  rw [restored] at listings
  cases change with
  | remove pk lookup =>
    have absent := removed_kept notTruncate ran silent rfl decoded
    rw [restored] at absent
    have under : listedUnder engine.tables rel op (.remove pk lookup) = lookup := by
      simp [listedUnder, absent]
    refine ⟨absent, fun listed => ?_⟩
    have still := (listings _ rfl).mp listed
    rw [mem_changed_remove, under] at still
    exact still.1 rfl
  | store pk row lookup =>
    have listed := (listings ⟨rel.id, listedUnder engine.tables rel op (.store pk row lookup),
      pk⟩ rfl).mpr (mem_changed_store.mpr (.inl rfl))
    refine ⟨?_, listed⟩
    have kept := fun good => @stored_kept env table op ev engine later rel rest _ notTruncate
      ran silent pk lookup row good rfl decoded
    rw [restored] at kept
    rcases mergeOver_settles op (engine.tables.getForeign rel.table pk) row with settled | fresh
    · obtain ⟨value, stored, same⟩ := kept (fun value => value = mergeOver
        (priorOf op (engine.tables.getForeign rel.table pk)) row)
        (fun value same => by rw [same]; exact settled) rfl
      exact stored.trans (congrArg some same)
    · obtain ⟨fields, rfl⟩ := Value.isObject_iff.mp fresh.1
      obtain ⟨value, stored, isObject⟩ := kept (fun value => value.isObject)
        (fun value _ => mergeOver_isObject _ fields) (mergeOver_isObject _ fields)
      simp [fresh.2 value stored] at isObject

end

end

/-- The route would leave nothing behind: it is a relation's, finds its work done, and no
    stored primary of its definition is listed under the keys it touches. -/
def Quiet (env : Env) (tables : Tables) (op : Op) (ev : Event) : Route → Prop
  | .primary _ => False
  | .related defn rel => ∃ change, decodeRelated env rel op ev = .ok change ∧
      AlreadyDone tables rel op change ∧ Unjoined env tables defn rel op ev

theorem exec_routes_quiet (notTruncate : op ≠ .truncate)
    (quiet : ∀ route ∈ list, Quiet env engine.tables op ev route)
    (ran : exec (each (handleRoute env table op ev) list) engine = (.ok ⟨⟩, later)) :
    later.tables = engine.tables ∧ later.sent = engine.sent := by
  induction list generalizing engine with
  | nil =>
    cases ran
    exact ⟨rfl, rfl⟩
  | cons route rest ih =>
    rw [forall_mem_cons] at quiet
    cases route with
    | primary defn => exact quiet.1.elim
    | related defn rel =>
      obtain ⟨change, decoded, done, unjoined⟩ := quiet.1
      rw [exec_each_cons, handleRoute, handleRelated_idle notTruncate decoded unjoined] at ran
      have same : (changedEngine rel op change engine).tables = engine.tables := by
        rw [tables_changedEngine, changed_of_alreadyDone done]
      have later := ih (same ▸ quiet.2) ran
      exact ⟨later.1.trans same, later.2⟩

def Route.relationId : Route → Option String
  | .primary _ => none
  | .related _ rel => some rel.id

theorem quiet_of_restored (notTruncate : op ≠ .truncate)
    (distinct : (list.filterMap Route.relationId).Nodup)
    (ran : exec (each (handleRoute env table op ev) list) engine = (.ok ⟨⟩, later))
    (restored : later.tables = engine.tables) (silent : later.sent = engine.sent) :
    ∀ route ∈ list, Quiet env engine.tables op ev route := by
  induction list generalizing engine with
  | nil => simp
  | cons route rest ih =>
    obtain ⟨_, mid, ranRoute, ranRest⟩ := exec_bind_inv ran
    obtain ⟨quietly, silently⟩ := silent_parts ((handleRoute_grown route).ran ranRoute)
      ((Ensures.each fun other _ => handleRoute_grown other).ran ranRest) silent
    obtain ⟨defn, rel, change, rfl, decoded, unjoined, rfl⟩ :=
      handleRoute_silent notTruncate ranRoute quietly
    simp only [filterMap_cons, Route.relationId, nodup_cons] at distinct
    have done := alreadyDone_of_restored notTruncate ranRest silent decoded
      (fun other otherRel mem same =>
        distinct.1 (mem_filterMap.mpr ⟨_, mem, congrArg some same⟩)) restored
    have same : (changedEngine rel op change engine).tables = engine.tables := by
      rw [tables_changedEngine, changed_of_alreadyDone done]
    rw [forall_mem_cons]
    refine ⟨⟨change, decoded, done, unjoined⟩, ?_⟩
    have others := ih distinct.2 ranRest (restored.trans same.symm) silently
    rwa [same] at others

/-- The relations of an accepted spec have distinct ids, along the routes of a table too. -/
theorem relationIds_nodup (accepted : validateSpec isAlphanumeric joins = .ok ())
    (table : String) : ((routes joins table).filterMap Route.relationId).Nodup := by
  have ofDefinition : ∀ defn, (routesOf table defn).filterMap Route.relationId =
      (defn.related.filter fun rel => rel.table = table).map (·.id) := by
    intro defn
    unfold routesOf
    split <;> simp [Route.relationId, filterMap_cons, filterMap_map, Function.comp_def]
  have ids : (routes joins table).filterMap Route.relationId =
      ((allRelated joins).filter fun rel => rel.table = table).map (·.id) := by
    simp only [routes, allRelated, filterMap_flatMap, ofDefinition, filter_flatMap, map_flatMap]
  rw [ids]
  exact (related_ids_nodup accepted).sublist (filter_sublist.map _)

theorem isRow_of_failed
    (failed : exec (handleInner env joins ev) engine = (.error error, later)) : IsRow ev := by
  unfold handleInner at failed
  split at failed
  · cases failed
  · split at failed
    · cases failed
    · rename_i notBarrier notComplete
      exact ⟨notBarrier, notComplete⟩

/-- An event that is rejected leaves tables and bus as they were exactly when every route
    before the first rejecting one is quiet in the state before the event. -/
theorem rejected_leaves_nothing_iff {isAlphanumeric : Char → Bool} {engine later : Engine}
    {error : JoinError} (accepted : validateSpec isAlphanumeric joins = .ok ())
    (reached : Reachable joins (fun _ _ _ => True) engine)
    (failed : exec (handleInner env joins event) engine = (.error error, later))
    (permanent : error.isPermanent = true) :
    (later.tables = engine.tables ∧ later.sent = engine.sent) ↔
      ∀ table op, sourceTable event = .ok table → subjectOp event = .ok op →
        ∀ route ∈ (routes joins table).takeWhile fun route => !Rejects env table op event route,
          Quiet env engine.tables op event route := by
  rw [exec_handleInner_row (isRow_of_failed failed), exec_bind, exec_check] at failed
  cases located : sourceTable event with
  | error reason =>
    rw [located] at failed
    cases failed
    simp
  | ok table =>
    rw [located] at failed
    simp only at failed
    rw [exec_bind, exec_check] at failed
    cases named : subjectOp event with
    | error reason =>
      rw [named] at failed
      cases failed
      simp
    | ok op =>
      rw [named] at failed
      obtain ⟨notTruncate, ran⟩ := exec_handleRow_permanent
        (by simpa using reached.rawObjects) (exec_bind_error_inv failed) permanent
      simp only [Except.ok.injEq]
      constructor
      · rintro ⟨restored, silent⟩
        have quiet := quiet_of_restored notTruncate ((relationIds_nodup accepted table).sublist
          ((takeWhile_sublist _).filterMap _)) ran (by simpa using restored) silent
        simpa using quiet
      · intro quiet
        have same := exec_routes_quiet notTruncate (by simpa using quiet) ran
        simpa using same

def failsPermanently {α : Type} : Except JoinError α → Bool
  | .ok _ => false
  | .error error => error.isPermanent

theorem exists_of_failsPermanently {α : Type} {outcome : Except JoinError α × Engine}
    (fails : failsPermanently outcome.1) :
    ∃ error, outcome = (.error error, outcome.2) ∧ error.isPermanent := by
  obtain ⟨result, later⟩ := outcome
  cases result with
  | ok value => cases fails
  | error error => exact ⟨error, rfl, fails⟩

/-- Customers with nothing embedded in them. -/
def customersAlone : JoinDefinition where
  name := some "customers"
  primary := ⟨"public.customers", column "id"⟩
  related := []
  targetIndex := none
  backfill := .none

/-- An update of a customer whose row is not an object, with the key in the document id. -/
def customerGarbled : Event where
  subject := ⟨"postgres.public.customers.update", by decide⟩
  headers := (∅ : Headers).insert "ventstream.doc.id" "public.customers:[\"7\"]"
  payload := .ok (.object [("new", number 5)])

/-- The customers' own definition comes first and rejects the row before anything happens. -/
theorem rejected_leaves_nothing_first :
    (exec (handleInner .calm [customersAlone, ordersWith "orders" [customerOf]] customerGarbled)
        .new).2.tables = Engine.new.tables ∧
      (exec (handleInner .calm [customersAlone, ordersWith "orders" [customerOf]] customerGarbled)
        .new).2.sent = Engine.new.sent := by
  obtain ⟨error, failed, permanent⟩ := exists_of_failsPermanently
    (show failsPermanently (exec (handleInner .calm
      [customersAlone, ordersWith "orders" [customerOf]] customerGarbled) .new).1 = true by
        decide +kernel)
  refine (rejected_leaves_nothing_iff
    (show validateSpec Char.isAlphanum [customersAlone, ordersWith "orders" [customerOf]] =
      .ok () by decide +kernel) reachable_new failed permanent).mpr ?_
  intro table op located named route member
  have isTable : table = "public.customers" := by
    have known : sourceTable customerGarbled = .ok "public.customers" := by decide +kernel
    rw [located] at known
    exact Except.ok.inj known
  have isOp : op = .update := by
    have known : subjectOp customerGarbled = .ok .update := by decide +kernel
    rw [named] at known
    exact Except.ok.inj known
  subst isTable isOp
  have none : ((routes [customersAlone, ordersWith "orders" [customerOf]]
      "public.customers").takeWhile fun route =>
        !Rejects .calm "public.customers" .update customerGarbled route) = [] := by
    decide +kernel
  rw [none] at member
  cases member

/-- The relation to the customers comes first and stores the row that the customers' own
    definition then rejects. -/
theorem rejected_row_stays_behind :
    ∃ joins event later error, validateSpec Char.isAlphanum joins = .ok () ∧
      Reachable joins (fun _ _ _ => True) .new ∧
      exec (handleInner .calm joins event) .new = (.error error, later) ∧
      error.isPermanent = true ∧ later.tables ≠ Engine.new.tables := by
  obtain ⟨error, failed, permanent⟩ := exists_of_failsPermanently
    (show failsPermanently (exec (handleInner .calm
      [ordersWith "orders" [customerOf], customersAlone] customerGarbled) .new).1 = true by
        decide +kernel)
  refine ⟨[ordersWith "orders" [customerOf], customersAlone], customerGarbled, _, error,
    by decide +kernel, reachable_new, failed, permanent, fun same => ?_⟩
  have stored : ((exec (handleInner .calm [ordersWith "orders" [customerOf], customersAlone]
      customerGarbled) .new).2.tables.getForeign "public.customers" ⟨"[\"7\"]"⟩).isSome = true := by
    decide +kernel
  rw [same] at stored
  exact absurd stored (by decide)

end Ventstream.Joins
