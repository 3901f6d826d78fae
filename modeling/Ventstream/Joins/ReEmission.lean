import Ventstream.Joins.Documents
import Ventstream.Joins.Emission
import Ventstream.Joins.History
import Ventstream.Joins.ReverseIndex

/-! # Re-emission by a whole event

An event goes through several routes. A primary that the event does not itself
store or remove keeps its row and its links through all of them, so the route of
a relation finds it listed where it was listed before the event, and sends its
document again. Together with the exactness of the reverse index this is every
primary that joins the changed row.
-/

namespace Ventstream.Joins

open Core Library Library.Program
open Std (ExtTreeMap ExtTreeSet)
open Json (Value Fields)

variable {row : RowKey}

/-- A primary row and its links are as they were, and what was sent is still there. -/
structure KeepsRow (row : RowKey) (before after : Engine) : Prop where
  stored : after.tables.primaryRows[row]? = before.tables.primaryRows[row]?
  links : ∀ relatedId key, row ∈ after.tables.primariesFor relatedId key ↔
    row ∈ before.tables.primariesFor relatedId key
  grown : ∃ fresh, after.sent = before.sent ++ fresh

instance : Std.Refl (KeepsRow row) := ⟨fun _ => ⟨rfl, fun _ _ => Iff.rfl, [], by simp⟩⟩

instance : IsTrans Engine (KeepsRow row) where
  trans first second third early late := by
    obtain ⟨fresh, sent⟩ := early.grown
    obtain ⟨more, grown⟩ := late.grown
    refine ⟨late.stored.trans early.stored, fun relatedId key => ?_, fresh ++ more, ?_⟩
    · exact (late.links relatedId key).trans (early.links relatedId key)
    · simp [sent, grown]

theorem Composed.keepsRow (composed : Composed before after) : KeepsRow row before after where
  stored := composed.same.stored row
  links relatedId key := by rw [composed.same.primariesFor]
  grown := composed.grown

theorem composing_keepsRow (row : RowKey) (start : Engine) :
    Composing (KeepsRow row start) fun _ => KeepsRow row start :=
  composing_of_composed fun _ _ step kept => trans_of (KeepsRow row) kept step.keepsRow

theorem keepsRow_storePrimaryRow (different : other ≠ row) (engine : Engine) :
    KeepsRow row engine { engine with
      state := (storePrimaryRow defn other op fields engine.state).2 } where
  stored := by rw [getElem?_storePrimaryRow, if_neg different]
  links relatedId key := by
    simp only [Engine.tables, Tables.mem_primariesFor, tables_storePrimaryRow, applyAll_storePrimary,
      Ordered.mem_insertAll, Ordered.mem_eraseAll, mem_storedLinks, mem_linksOf]
    simp [Ne.symm different]
  grown := ⟨[], by simp⟩

theorem keepsRow_removePrimaryRow (different : other ≠ row) (engine : Engine) :
    KeepsRow row engine { engine with state := (removePrimaryRow other engine.state).2 } where
  stored := by
    simp only [Engine.tables, removePrimaryRow, JoinState.tables_mutateAll, applyAll_removePrimary,
      Ordered.getElem?_drop, if_neg different]
  links relatedId key := by
    simp only [Engine.tables, Tables.mem_primariesFor, removePrimaryRow, JoinState.tables_mutateAll,
      applyAll_removePrimary, Ordered.mem_eraseAll, mem_storedLinks]
    simp [Ne.symm different]
  grown := ⟨[], by simp⟩

theorem keepsRow_takePage (permutes : ∀ rows, (order rows).Perm rows)
    (elsewhere : row.table ≠ table) (engine : Engine) :
    KeepsRow row engine { engine with
      state := (engine.state.takePrimaryTablePage order table limit).2 } where
  stored := by
    have untaken : row ∉ engine.tables.primaryPage order table limit := fun taken =>
      elsewhere (Tables.mem_primaryPage permutes taken).1
    simp only [Engine.tables, JoinState.tables_takePrimaryTablePage,
      Ordered.getElem?_dropAll, if_neg untaken]
  links relatedId key := by
    simp only [Engine.tables, Tables.mem_primariesFor, JoinState.tables_takePrimaryTablePage,
      Ordered.mem_eraseAll, List.mem_filter, decide_eq_true_eq, elsewhere, false_and, and_false,
      not_false_eq_true, true_and]
  grown := ⟨[], by simp⟩

variable {joins : List JoinDefinition}

section

variable {env : Env} {table : String} {op : Op} {ev : Event}

/-- The event neither stores nor removes this primary row itself. -/
def Spares (env : Env) (joins : List JoinDefinition) (table : String) (op : Op) (ev : Event)
    (row : RowKey) : Prop :=
  row.table = table → op ≠ .truncate ∧ ∀ defn ∈ joins, defn.primary.table = table →
      (∀ fields, decodePrimary env defn table op ev ≠ .ok (.store row.pk fields)) ∧
        decodePrimary env defn table op ev ≠ .ok (.remove row.pk)

theorem handleRoute_keepsRow (spares : Spares env joins table op ev row)
    (mem : route ∈ routes joins table) :
    Ensures (KeepsRow row) (handleRoute env table op ev route) := by
  refine Ensures.of_triple fun start => ?_
  cases route with
  | related defn rel =>
    exact (handleRelated_composed.mono fun _ _ => Composed.keepsRow).triple start
  | primary defn =>
    obtain ⟨_, isDefinition, isPrimary | ⟨_, _, _, isRelated⟩⟩ := mem_routes.mp mem
    · cases isPrimary.1
      have apart : ∀ pk, (⟨table, pk⟩ : RowKey) = row → row.table = table ∧ pk = row.pk := by
        rintro pk rfl
        exact ⟨rfl, rfl⟩
      refine (composing_keepsRow row start).handlePrimary ⟨?_, ?_, ?_, ?_⟩
      · exact fun _ _ _ _ kept => kept
      · intro pk fields decoded engine kept
        refine trans_of (KeepsRow row) kept (keepsRow_storePrimaryRow (fun same => ?_) engine)
        obtain ⟨ofTable, rfl⟩ := apart pk same
        exact ((spares ofTable).2 defn isDefinition isPrimary.2).1 fields decoded
      · intro pk decoded engine kept
        refine trans_of (KeepsRow row) kept (keepsRow_removePrimaryRow (fun same => ?_) engine)
        obtain ⟨ofTable, rfl⟩ := apart pk same
        exact ((spares ofTable).2 defn isDefinition isPrimary.2).2 decoded
      · exact fun _ _ kept => kept
    · cases isRelated

theorem handlePrimaryTruncate_keepsRow (elsewhere : row.table ≠ table) :
    Ensures (KeepsRow row) (handlePrimaryTruncate env joins table ev) := by
  refine Ensures.of_triple fun start => ?_
  refine Triple.bind (Triple.look _) fun fuel => (composing_keepsRow row start).truncatePages ?_ fuel
  intro engine kept
  exact trans_of (KeepsRow row) kept (keepsRow_takePage env.primaryOrder_perm elsewhere engine)

theorem handleRow_reEmits (ran : exec (handleRow env joins table op ev) before = (.ok ⟨⟩, after))
    (split : routes joins table = front ++ .related defn rel :: back)
    (spares : Spares env joins table op ev row) (touches : op = .truncate ∨ ∀ early,
      exec (each (handleRoute env table op ev) front) before = (.ok ⟨⟩, early) →
        Touches env early.tables rel op ev key)
    (linked : row ∈ before.tables.primariesFor rel.id key)
    (ofTable : row.table = defn.primary.table)
    (isStored : before.tables.primaryRows[row]? = some stored) :
    ReEmits env ev defn row before after := by
  have eachKeeps : ∀ part, part ⊆ routes joins table →
      Ensures (KeepsRow row) (each (handleRoute env table op ev) part) := fun part isPart =>
    Ensures.each fun route mem => handleRoute_keepsRow spares (isPart mem)
  obtain ⟨_, mid, ranFirst, ranRoutes⟩ := exec_bind_inv ran
  have toMid : KeepsRow row before mid ∧ (op ≠ .truncate → mid = before) := by
    split at ranFirst
    · rename_i truncates
      have elsewhere : row.table ≠ table := fun inTable => (spares inTable).1 truncates.1
      exact ⟨(handlePrimaryTruncate_keepsRow elsewhere).ran ranFirst,
        fun notTruncate => absurd truncates.1 notTruncate⟩
    · cases ranFirst
      exact ⟨refl_of (KeepsRow row) before, fun _ => rfl⟩
  rw [split] at ranRoutes
  obtain ⟨early, late, ranFront, ranRelated, ranBack⟩ := exec_each_split ranRoutes
  have toEarly := trans_of (KeepsRow row) toMid.1 ((eachKeeps front (by simp [split])).ran ranFront)
  have fromLate := (eachKeeps back (by
    rw [split]
    exact fun route mem => List.mem_append_right _ (List.mem_cons_of_mem _ mem))).ran ranBack
  have touched : Touches env early.tables rel op ev key := by
    rcases touches with isTruncate | touches
    · exact .inl isTruncate
    · by_cases isTruncate : op = .truncate
      · exact .inl isTruncate
      · exact touches early (toMid.2 isTruncate ▸ ranFront)
  exact (handleRelated_sends ranRelated touched ((toEarly.links rel.id key).mpr linked) ofTable
    (toEarly.stored.trans isStored)).between toEarly.grown fromLate.grown

/-- The tables after a truncation has been through one relation. -/
def purged (tables : Tables) (rel : RelatedDefinition) : Tables :=
  tables.applyAll (tables.purgeRelatedTable rel.id rel.table)

theorem purged_eq (tables : Tables) (rel : RelatedDefinition) :
    purged tables rel = { tables with
      foreignRows := Ordered.dropAll tables.foreignRows
        (tables.foreignRows.keys.filter fun row => row.table = rel.table)
      foreignByFk := Ordered.eraseAll tables.foreignByFk
        (tables.foreignByFk.toList.filter fun link => link.relatedId = rel.id) } := by
  simp only [purged, Tables.purgeRelatedTable, Tables.applyAll_append,
    Tables.applyAll_deleteForeign, Tables.applyAll_removeForeignByFk]

theorem getForeign_purged (tables : Tables) (rel : RelatedDefinition) (table : String)
    (pk : PkValue) :
    (purged tables rel).getForeign table pk =
      if table = rel.table then none else tables.getForeign table pk := by
  simp only [Tables.getForeign, purged_eq, Ordered.getElem?_dropAll, List.mem_filter,
    Ordered.mem_keys, decide_eq_true_eq]
  by_cases same : table = rel.table
  · cases found : tables.foreignRows[(⟨table, pk⟩ : RowKey)]? <;> simp [same]
  · simp [same]

theorem mem_purged : link ∈ (purged tables rel).foreignByFk ↔
      link.relatedId ≠ rel.id ∧ link ∈ tables.foreignByFk := by
  simp only [purged_eq, Ordered.mem_eraseAll, List.mem_filter, ExtTreeSet.mem_toList,
    decide_eq_true_eq]
  tauto

/-- What a route does to the related tables when nothing is fetched. -/
def effect (env : Env) (op : Op) (ev : Event) (tables : Tables) : Route → Tables
  | .primary _ => tables
  | .related _ rel =>
    if op = .truncate then purged tables rel
    else
      match decodeRelated env rel op ev with
      | .ok change => changed tables rel op change
      | .error _ => tables

def SameRelated (left right : Tables) : Prop :=
  right.foreignRows = left.foreignRows ∧ right.foreignByFk = left.foreignByFk

def Route.owner : Route → JoinDefinition
  | .primary defn => defn
  | .related defn _ => defn

theorem handleRoute_effect {route : Route} (noFetch : route.owner.backfill = .none)
    (engine : Engine) :
    SameRelated (effect env op ev engine.tables route)
      (exec (handleRoute env table op ev route) engine).2.tables := by
  cases route with
  | primary defn => exact handlePrimary_sameForeign noFetch engine
  | related defn rel =>
    replace noFetch : defn.backfill = .none := noFetch
    by_cases isTruncate : op = .truncate
    · have same : (exec (reEmitPrimariesForRelation env defn rel.id ev)
          { engine with state := (purgeRelated rel engine.state).2 }).2.tables =
            purged engine.tables rel := by
        rw [show _ = _ from reEmitPrimariesForRelation_sameTables noFetch rel.id ev _]
        simp [Engine.tables, purged, purgeRelated]
      simp only [handleRoute, handleRelated, if_pos isTruncate, exec_onState_bind, effect]
      rw [same]
      exact ⟨rfl, rfl⟩
    · cases decoded : decodeRelated env rel op ev with
      | error error =>
        rw [handleRoute, exec_handleRelated_reject isTruncate decoded]
        simp [effect, isTruncate, decoded, SameRelated]
      | ok change =>
        have same : (exec (handleRelated env defn rel op ev) engine).2.tables =
            changed engine.tables rel op change := by
          rw [exec_handleRelated isTruncate decoded,
            show _ = _ from reEmitPrimariesForKeys_sameTables noFetch rel.id _ _ ev _,
            tables_changedEngine]
        rw [handleRoute, same]
        simp [effect, isTruncate, decoded, SameRelated]

theorem routes_effect {list : List Route} {kept : Tables → Prop}
    (noFetch : ∀ route ∈ list, route.owner.backfill = .none)
    (related : ∀ left right, SameRelated left right → kept left → kept right)
    (step : ∀ route ∈ list, ∀ tables, kept tables → kept (effect env op ev tables route)) :
    Triple (fun engine => kept engine.tables) (each (handleRoute env table op ev) list)
      (fun _ engine => kept engine.tables) fun _ engine => kept engine.tables := by
  apply Triple.each
  intro route mem engine holds
  have after := related _ _ (@handleRoute_effect env table op ev route (noFetch route mem)
    engine) (step route mem engine.tables holds)
  cases ran : exec (handleRoute env table op ev route) engine with
  | mk result later =>
    rw [ran] at after
    cases result <;> exact after

/-- Whichever relation stores the row of the event first, the others find it merged already, and
    merging it again changes nothing. -/
theorem routes_settle (noFetch : ∀ route ∈ front, route.owner.backfill = .none)
    (writes : op.writes) (carries : eventRow ev op = some (.object fields))
    (distinct : DistinctNames fields)
    (ran : exec (each (handleRoute env table op ev) front) before = (.ok ⟨⟩, after))
    (pk : PkValue) :
    mergeOver (priorOf op (after.tables.getForeign table pk)) (.object fields) =
      mergeOver (priorOf op (before.tables.getForeign table pk)) (.object fields) := by
  have run := @routes_effect env table op ev front (fun tables =>
    mergeOver (priorOf op (tables.getForeign table pk)) (.object fields) =
      mergeOver (priorOf op (before.tables.getForeign table pk)) (.object fields)) noFetch
    (fun left right same holds => by simpa only [Tables.getForeign, same.1] using holds) (by
      intro route mem tables holds
      cases route with
      | primary owner => exact holds
      | related owner rel =>
        have notTruncate : op ≠ .truncate := by
          rintro rfl
          cases writes
        simp only [effect, if_neg notTruncate, decodeRelated_object writes carries]
        rw [getForeign_changed, RelatedChange.pk_store]
        by_cases here : rel.table = table ∧ keyOf rel.pk.columns fields = pk
        · obtain ⟨rfl, rfl⟩ := here
          rw [if_pos ⟨rfl, rfl⟩, rowAfter, holds]
          exact mergeOver_twice op _ distinct
        · rwa [if_neg here]) before rfl
  rwa [ran] at run

/-- Whether a key is touched depends on the related rows alone, and for an insert not even on
    them. -/
theorem Touches.congr (touches : Touches env before rel op ev key)
    (same : op = .insert ∨ after.foreignRows = before.foreignRows) :
    Touches env after rel op ev key := by
  refine touches.imp_right fun ⟨change, decoded, touched⟩ => ⟨change, decoded, ?_⟩
  rcases same with isInsert | sameRows
  · subst isInsert
    cases change with
    | store pk row lookup => simpa [listedUnder, priorOf] using touched
    | remove pk lookup => exact absurd decoded (decodeRelated_stores (by rfl) pk lookup)
  · have sameForeign : after.getForeign = before.getForeign := by
      unfold Tables.getForeign
      rw [sameRows]
    cases change with
    | store pk row lookup => simpa [listedUnder, sameForeign] using touched
    | remove pk lookup => simpa [listedUnder, sameForeign] using touched

/-- Before this point of the routes no related row changes. -/
def ActsFirst (front : List Route) : Prop :=
  ∀ route ∈ front, ∃ owner : JoinDefinition, route = .primary owner ∧ owner.backfill = .none

theorem ActsFirst.sameForeign (first : ActsFirst front) :
    Ensures SameForeign (each (handleRoute env table op ev) front) := by
  refine Ensures.each fun route mem => ?_
  obtain ⟨owner, rfl, noFetch⟩ := first route mem
  exact handlePrimary_sameForeign noFetch

/-- The key is the one that the row of an update has for the relation once it is merged, and no
    route before the relation fetches rows. -/
def AtNewKey (tables : Tables) (rel : RelatedDefinition) (front : List Route) (ev : Event)
    (key : PkValue) : Prop :=
  (∀ route ∈ front, route.owner.backfill = .none) ∧ ∃ fields,
    eventRow ev .update = some (.object fields) ∧ DistinctNames fields ∧
      listedUnder tables rel .update (.store (keyOf rel.pk.columns fields) (.object fields)
        (keyOf rel.joinOn.target.columns fields)) = key

theorem AtNewKey.touches (atNewKey : AtNewKey before.tables rel front ev key)
    (split : routes joins table = front ++ .related defn rel :: back)
    (ran : exec (each (handleRoute env table .update ev) front) before = (.ok ⟨⟩, early)) :
    Touches env early.tables rel .update ev key := by
  obtain ⟨noFetch, fields, carries, distinct, isKey⟩ := atNewKey
  have ofTable : rel.table = table := by
    obtain ⟨_, _, ⟨isPrimary, _⟩ | ⟨_, _, ofTable, same⟩⟩ :=
      mem_routes.mp (split ▸ List.mem_append_right front List.mem_cons_self)
    · cases isPrimary
    · cases same
      exact ofTable
  refine .inr ⟨_, decodeRelated_object rfl carries, .inl ?_⟩
  have settled := routes_settle noFetch rfl carries distinct ran (keyOf rel.pk.columns fields)
  rw [← isKey]
  simp only [listedUnder, ofTable, settled]

end

section

variable {engine : Engine}

theorem inOrder_empty : InOrder joins .empty where
  objects row stored isStored := by simp [Tables.empty] at isStored
  linked link := by simp [Tables.empty]
  keyed row stored isStored := by simp [Tables.empty] at isStored

theorem related_nodup (accepted : validateSpec isAlphanumeric joins = .ok ()) :
    ∀ defn ∈ joins, (defn.related.map (·.id)).Nodup := by
  intro defn mem
  have distinct := related_ids_nodup accepted
  unfold allRelated at distinct
  rw [List.map_flatMap] at distinct
  exact (List.nodup_flatMap.mp distinct).1 defn mem

theorem Reachable.inOrder (accepted : validateSpec isAlphanumeric joins = .ok ())
    (reached : Reachable joins (fun _ _ ev => RowsAgree joins ev) engine) :
    InOrder joins engine.tables := by
  apply reached.invariant
  · intro start isEmpty
    rw [isEmpty]
    exact inOrder_empty
  · intro before env ev agree
    exact (handle_inOrder (related_nodup accepted) agree).weaken (fun _ holds => holds.2)
      (fun _ _ kept => kept) fun _ _ kept => kept

theorem InOrder.mem_primariesFor_iff (inOrder : InOrder joins tables) (isDefinition : defn ∈ joins)
    (isRelation : rel ∈ defn.related) (ofTable : row.table = defn.primary.table) :
    row ∈ tables.primariesFor rel.id key ↔
      ∃ stored : PrimaryRowState, tables.primaryRows[row]? = some stored ∧
        sourceKey rel stored.raw = key := by
  rw [Tables.mem_primariesFor, inOrder.linked]
  constructor
  · rintro ⟨stored, isStored, listed⟩
    have keyed := inOrder.keyed row stored isStored defn isDefinition ofTable.symm rel isRelation
    rw [keyed] at listed
    exact ⟨stored, isStored, Option.some.inj listed⟩
  · rintro ⟨stored, isStored, rfl⟩
    exact ⟨stored, isStored,
      inOrder.keyed row stored isStored defn isDefinition ofTable.symm rel isRelation⟩

/-- Runs in which every row suits the definitions over its primary table: the reverse index is
    exact, and a related row that changes has every primary sent again that joins it, by an
    insert and a truncation for every relation, by an update and a delete for the relation that
    is the first to see it, and by an update for the later ones at the row's new key. -/
theorem reverse_index_exact {isAlphanumeric : Char → Bool}
    (accepted : validateSpec isAlphanumeric joins = .ok ())
    (reached : Reachable joins (fun _ _ event => RowsAgree joins event) engine) :
    (∀ definition ∈ joins, ∀ rel ∈ definition.related, ∀ row : RowKey, ∀ key,
      row.table = definition.primary.table → (row ∈ engine.tables.primariesFor rel.id key ↔
          ∃ stored : PrimaryRowState, engine.tables.primaryRows[row]? = some stored ∧
            sourceKey rel stored.raw = key)) ∧
    ∀ env event table op later, IsRow event → sourceTable event = .ok table →
      subjectOp event = .ok op → exec (handle env joins event) engine = (.ok ⟨⟩, later) →
      ∀ definition ∈ joins, ∀ rel ∈ definition.related, ∀ front back,
        routes joins table = front ++ .related definition rel :: back →
        ∀ key, Touches env engine.tables rel op event key →
        op = .insert ∨ op = .truncate ∨ ActsFirst front ∨
          (op = .update ∧ AtNewKey engine.tables rel front event key) →
        ∀ row stored, row.table = definition.primary.table →
          engine.tables.primaryRows[row]? = some stored → sourceKey rel stored.raw = key →
          Spares env joins table op event row →
          ∃ fresh document, later.sent = engine.sent ++ fresh ∧
            buildReEmit env event definition row document ∈ fresh := by
  have inOrder := reached.inOrder accepted
  refine ⟨fun definition isDefinition rel isRelation row key ofTable =>
    inOrder.mem_primariesFor_iff isDefinition isRelation ofTable, ?_⟩
  intro env event table op later isRow located named ran definition isDefinition rel isRelation
    front back split key touches first row stored ofTable isStored isKey spares
  rw [exec_handle_row isRow located named (by simp [split])] at ran
  have linked := (inOrder.mem_primariesFor_iff isDefinition isRelation ofTable).mpr
    ⟨stored, isStored, isKey⟩
  rw [← suspended_tables event engine] at linked isStored touches first
  have touched : op = .truncate ∨ ∀ early,
      exec (each (handleRoute env table op event) front) (suspended event engine) =
        (.ok ⟨⟩, early) → Touches env early.tables rel op event key := by
    rcases first with isInsert | isTruncate | first | ⟨rfl, atNewKey⟩
    · exact Or.inr fun early _ => touches.congr (Or.inl isInsert)
    · exact Or.inl isTruncate
    · exact Or.inr fun early ranFront =>
        touches.congr (Or.inr (first.sameForeign.ran ranFront).1)
    · exact Or.inr fun early ranFront => atNewKey.touches split ranFront
  have emitted := handleRow_reEmits ran split spares touched linked ofTable isStored
  exact emitted

def column (name : String) : PkSpec := ⟨[name], by simp⟩

/-- Orders embed their customer. -/
def customerOf : RelatedDefinition where
  id := "customer"
  table := "public.customers"
  pk := column "id"
  joinOn := ⟨column "customer_id", column "id"⟩
  select := []
  embedAs := "customer"
  cardinality := .one
  onMissing := .null
  sortBy := none

/-- Orders embed their items. -/
def itemsOf : RelatedDefinition where
  id := "item"
  table := "public.items"
  pk := column "id"
  joinOn := ⟨column "id", column "order_id"⟩
  select := []
  embedAs := "items"
  cardinality := .many
  onMissing := .null
  sortBy := none

def ordersWith (name : String) (related : List RelatedDefinition) : JoinDefinition where
  name := some name
  primary := ⟨"public.orders", column "id"⟩
  related := related
  targetIndex := none
  backfill := .none

def number (value : Nat) : Value := .number ⟨toString value, value⟩

def orderInserted : Event where
  subject := ⟨"postgres.public.orders.insert", by decide⟩
  headers := ∅
  payload := .ok (.object [("id", number 1), ("customer_id", number 7)])

def customerInserted : Event where
  subject := ⟨"postgres.public.customers.insert", by decide⟩
  headers := ∅
  payload := .ok (.object [("id", number 7)])

def ordersSpec : List JoinDefinition := [ordersWith "orders" [customerOf]]

def orderRow : RowKey := ⟨"public.orders", ⟨"[\"1\"]"⟩⟩

theorem reverse_index_exact_shows :
    orderRow ∈ (feed ordersSpec orderInserted .new).tables.primariesFor "customer"
        ⟨"[\"7\"]"⟩ ∧
      ∃ fresh document,
        (feed ordersSpec customerInserted (feed ordersSpec orderInserted .new)).sent =
          (feed ordersSpec orderInserted .new).sent ++ fresh ∧
        buildReEmit .calm customerInserted (ordersWith "orders" [customerOf]) orderRow document ∈
          fresh := by
  have accepted : validateSpec Char.isAlphanum ordersSpec = .ok () := by decide +kernel
  have reached : Reachable ordersSpec (fun _ _ ev => RowsAgree ordersSpec ev)
      (feed ordersSpec orderInserted .new) :=
    reachable_new.feed (rowsAgree_singleton _ _) (by decide +kernel)
  obtain ⟨stored, isStored, isKey⟩ : ∃ stored : PrimaryRowState,
      (feed ordersSpec orderInserted .new).tables.primaryRows[orderRow]? = some stored ∧
        sourceKey customerOf stored.raw = ⟨"[\"7\"]"⟩ :=
    Option.map_eq_some_iff.mp (by decide +kernel)
  obtain ⟨listed, emits⟩ := reverse_index_exact accepted reached
  have member : ordersWith "orders" [customerOf] ∈ ordersSpec := List.mem_singleton_self _
  have relates : customerOf ∈ (ordersWith "orders" [customerOf]).related :=
    List.mem_singleton_self _
  refine ⟨(listed _ member _ relates _ _ (by decide)).mpr ⟨stored, isStored, isKey⟩, ?_⟩
  have decoded := @decodeRelated_object customerOf .calm .insert customerInserted
    [("id", number 7)] (by decide) rfl
  refine emits .calm customerInserted "public.customers" .insert
    (feed ordersSpec customerInserted (feed ordersSpec orderInserted .new)) (by decide)
    (by decide +kernel) (by decide +kernel) (ok_feed (by decide +kernel)) _ member _ relates [] []
    (by decide +kernel) ⟨"[\"7\"]"⟩ ?_ (Or.inl rfl) orderRow stored (by decide) isStored isKey ?_
  · exact Or.inr ⟨_, decoded, Or.inl (by decide +kernel)⟩
  · exact fun same => absurd same (by decide)

/-- Two definitions over the orders: the second one stores its own keys over those of the
    first, whose link is dropped with them, so that the order no longer follows its
    customer. -/
theorem second_definition_drops_link : ∃ joins engine, validateSpec Char.isAlphanum joins = .ok () ∧
      Reachable joins (fun _ _ _ => True) engine ∧
      (∃ definition ∈ joins, ∃ rel ∈ definition.related, ∃ row stored,
        row.table = definition.primary.table ∧
        engine.tables.primaryRows[row]? = some stored ∧
        row ∉ engine.tables.primariesFor rel.id (sourceKey rel stored.raw)) ∧
      (exec (handle .calm joins customerInserted) engine).1.isOk = true ∧
      (feed joins customerInserted engine).sent.length = engine.sent.length := by
  refine ⟨[ordersWith "a" [customerOf], ordersWith "b" [itemsOf]],
    feed [ordersWith "a" [customerOf], ordersWith "b" [itemsOf]] orderInserted .new,
    by decide +kernel, reachable_new.feed trivial (by decide +kernel),
    ⟨ordersWith "a" [customerOf], by decide, customerOf, by decide, orderRow, ?_⟩,
    by decide +kernel, by decide +kernel⟩
  obtain ⟨stored, isStored, isKey⟩ : ∃ stored : PrimaryRowState,
      (feed [ordersWith "a" [customerOf], ordersWith "b" [itemsOf]] orderInserted
        .new).tables.primaryRows[orderRow]? = some stored ∧
        sourceKey customerOf stored.raw = ⟨"[\"7\"]"⟩ :=
    Option.map_eq_some_iff.mp (by decide +kernel)
  exact ⟨stored, by decide, isStored, by rw [isKey]; decide +kernel⟩

end

end Ventstream.Joins
