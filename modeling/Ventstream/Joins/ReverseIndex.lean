import Ventstream.Joins.Frame

/-! # The reverse index

`primary_reverse` lists a primary under a key of a relation. The lists always
agree with the keys stored beside each primary row: storing a row drops the links
of its stored version and adds those of the new one. Whether the stored keys are
those of the relations is another matter, since every definition over a primary
table stores its own keys in the same place.
-/

namespace Ventstream.Joins

open Core Library Library.Program List
open Std (ExtTreeMap ExtTreeSet)
open Json (Value Fields)

section

variable {defn : JoinDefinition} {row : Value}

theorem sourceKey_isNull (rel : RelatedDefinition) (row : Value) :
    (sourceKey rel row).isNull = false := by
  unfold sourceKey extractPk
  cases row.asObject with
  | none => exact PkValue.fromValues_isNull _
  | some fields => exact PkValue.fromValues_isNull _

variable {relations : List RelatedDefinition} {rel : RelatedDefinition}

theorem foldl_sourceKey_of_not_mem {id} (absent : id ∉ relations.map (·.id))
    (values : ExtTreeMap String PkValue) :
    (relations.foldl (fun values rel => values.insert rel.id (sourceKey rel row)) values)[id]? =
      values[id]? := by
  induction relations generalizing values with
  | nil => rfl
  | cons rel rest ih =>
    simp only [map_cons, mem_cons, not_or] at absent
    rw [foldl_cons, ih absent.2, Ordered.getElem?_set, if_neg (Ne.symm absent.1)]

theorem foldl_sourceKey_of_mem (distinct : (relations.map (·.id)).Nodup) (mem : rel ∈ relations)
    (values : ExtTreeMap String PkValue) :
    (relations.foldl (fun values rel => values.insert rel.id (sourceKey rel row)) values)[rel.id]? =
      some (sourceKey rel row) := by
  induction relations generalizing values with
  | nil => cases mem
  | cons first rest ih =>
    simp only [map_cons, nodup_cons] at distinct
    rw [foldl_cons]
    cases mem with
    | head => rw [foldl_sourceKey_of_not_mem distinct.1, Ordered.getElem?_set, if_pos rfl]
    | tail _ later => exact ih distinct.2 later _

theorem foldl_sourceKey_some {id} {values : ExtTreeMap String PkValue}
    (found : (relations.foldl (fun values rel => values.insert rel.id (sourceKey rel row))
      values)[id]? = some key) :
    (∃ rel ∈ relations, rel.id = id ∧ key = sourceKey rel row) ∨ values[id]? = some key := by
  induction relations generalizing values with
  | nil => exact .inr found
  | cons first rest ih =>
    rcases ih found with ⟨rel, mem, named⟩ | before
    · exact .inl ⟨rel, mem_cons_of_mem _ mem, named⟩
    · rw [Ordered.getElem?_set] at before
      split at before
      · rename_i same
        cases before
        exact .inl ⟨first, mem_cons_self, same, rfl⟩
      · exact .inr before

theorem fkValuesOf_some {id} (found : (fkValuesOf defn row)[id]? = some key) :
    ∃ rel ∈ defn.related, rel.id = id ∧ key = sourceKey rel row := by
  rcases foldl_sourceKey_some found with relation | nothing
  · exact relation
  · simp at nothing

end

section

/-- The reverse index lists a primary exactly under the keys stored with it. -/
def Linked (tables : Tables) : Prop :=
  ∀ link : PrimaryLink, link ∈ tables.primaryReverse ↔
    ∃ stored : PrimaryRowState, tables.primaryRows[link.primary]? = some stored ∧
      stored.fkValues[link.relatedId]? = some link.fkValue

variable {tables : Tables} {link : PrimaryLink}

theorem mem_storedLinks : link ∈ storedLinks tables row ↔ link.primary = row ∧
      ∃ stored : PrimaryRowState, tables.primaryRows[row]? = some stored ∧
        stored.fkValues[link.relatedId]? = some link.fkValue := by
  unfold storedLinks Tables.getPrimary
  cases tables.primaryRows[row]? with
  | none => simp
  | some prior =>
    simp only [mem_map, Option.some.injEq, exists_eq_left', Prod.exists,
      ExtTreeMap.mem_toList_iff_getElem?_eq_some]
    constructor
    · rintro ⟨id, key, found, rfl⟩
      exact ⟨rfl, found⟩
    · rintro ⟨rfl, found⟩
      exact ⟨_, _, found, rfl⟩

theorem mem_linksOf : link ∈ linksOf defn row (fkValuesOf defn value) ↔ link.primary = row ∧
        (fkValuesOf defn value)[link.relatedId]? = some link.fkValue := by
  unfold linksOf
  simp only [mem_filterMap, Option.map_eq_some_iff, Option.filter_eq_some_iff]
  constructor
  · rintro ⟨rel, _, key, ⟨found, _⟩, rfl⟩
    exact ⟨rfl, found⟩
  · rintro ⟨rfl, found⟩
    obtain ⟨rel, mem, named, isKey⟩ := fkValuesOf_some found
    refine ⟨rel, mem, link.fkValue, ⟨by rw [named, found], ?_⟩, by rw [named]⟩
    simp [isKey, sourceKey_isNull]

theorem applyAll_storePrimary (tables : Tables) (defn : JoinDefinition) (row : RowKey)
    (value : Value) :
    tables.applyAll (storePrimary tables defn row value) =
      { tables with
        primaryReverse := Ordered.insertAll
          (Ordered.eraseAll tables.primaryReverse (storedLinks tables row))
          (linksOf defn row (fkValuesOf defn value))
        primaryRows := tables.primaryRows.insert row ⟨value, fkValuesOf defn value⟩ } := by
  simp only [storePrimary, updatePrimaryIndexes, clearPrimaryReverse, Tables.applyAll_append,
    Tables.applyAll_removePrimaryReverse, Tables.applyAll_addPrimaryReverse]
  rfl

theorem applyAll_removePrimary (tables : Tables) (row : RowKey) :
    tables.applyAll (.takePrimary row :: clearPrimaryReverse tables row) =
      { tables with
        primaryReverse := Ordered.eraseAll tables.primaryReverse (storedLinks tables row)
        primaryRows := tables.primaryRows.erase row } := by
  simp only [clearPrimaryReverse, Tables.applyAll_cons, Tables.applyAll_removePrimaryReverse]
  rfl

theorem Linked.storePrimary (linked : Linked tables) (defn : JoinDefinition) (row : RowKey)
    (value : Value) : Linked (tables.applyAll (storePrimary tables defn row value)) := by
  intro link
  simp only [applyAll_storePrimary, Ordered.mem_insertAll, Ordered.mem_eraseAll, mem_storedLinks,
    mem_linksOf, linked link, Ordered.getElem?_set]
  by_cases own : link.primary = row
  · subst own
    simp
  · have other : ¬ row = link.primary := fun same => own same.symm
    simp [own, other]

theorem Linked.removePrimary (linked : Linked tables) (row : RowKey) :
    Linked (tables.applyAll (.takePrimary row :: clearPrimaryReverse tables row)) := by
  intro link
  simp only [applyAll_removePrimary, Ordered.mem_eraseAll, mem_storedLinks, linked link,
    Ordered.getElem?_drop]
  by_cases own : link.primary = row
  · subst own
    simp
  · have other : ¬ row = link.primary := fun same => own same.symm
    simp [own, other]

theorem Linked.takePage {state : JoinState} (linked : Linked state.tables)
    (permutes : ∀ rows, (order rows).Perm rows) (table : String) (limit : Nat) :
    Linked (state.takePrimaryTablePage order table limit).2.tables := by
  intro link
  simp only [JoinState.tables_takePrimaryTablePage, Ordered.mem_eraseAll, mem_filter,
    ExtTreeSet.mem_toList, decide_eq_true_eq, Ordered.getElem?_dropAll, mem_map]
  by_cases taken : link.primary ∈ state.tables.primaryPage order table limit
  · have ofTable := (Tables.mem_primaryPage permutes taken).1
    have listed : ∃ row ∈ state.tables.primaryPage order table limit, row.pk = link.primary.pk :=
      ⟨_, taken, rfl⟩
    simp only [taken, if_true, listed, ofTable, and_true]
    simp
  · have kept : ¬ (link.primary.table = table ∧
        ∃ row ∈ state.tables.primaryPage order table limit, row.pk = link.primary.pk) := by
      rintro ⟨ofTable, row, mem, same⟩
      have isRow : row = link.primary := by
        have tables := (Tables.mem_primaryPage permutes mem).1
        cases row
        cases link with
        | mk id fk primary =>
          cases primary
          simp_all
      exact taken (isRow ▸ mem)
    simp only [taken, if_false, kept, and_false, not_false_eq_true, true_and]
    exact linked link

end

section

variable (joins : List JoinDefinition)

/-- Rows are objects and links follow the stored keys, whatever the keys. -/
structure Indexed (tables : Tables) : Prop where
  objects : RawObjects tables
  linked : Linked tables

/-- A stored primary row carries the key of every relation over its table. -/
def KeyedAt (tables : Tables) (row : RowKey) : Prop :=
  ∀ stored : PrimaryRowState, tables.primaryRows[row]? = some stored →
    ∀ defn ∈ joins, defn.primary.table = row.table → ∀ rel ∈ defn.related,
      stored.fkValues[rel.id]? = some (sourceKey rel stored.raw)

/-- The stored keys are those of the relations as well. -/
structure InOrder (tables : Tables) : Prop extends
    Indexed tables where
  keyed : ∀ row, KeyedAt joins tables row

/-- Definitions over one primary table leave each other alone on a row: only the last of them
    has relations, and then they all see the same key. -/
def OwnersAgree (table : String) (row : Fields) : Prop :=
  (∀ defn ∈ (joins.filter fun defn => defn.primary.table = table).dropLast, defn.related = []) ∧
    ∀ last ∈ (joins.filter fun defn => defn.primary.table = table).getLast?, last.related ≠ [] →
        ∀ defn ∈ joins, defn.primary.table = table →
          keyOf defn.primary.pk.columns row = keyOf last.primary.pk.columns row

variable {joins}

theorem Indexed.of_same {before after : Engine} (same : SamePrimaries before after)
    (indexed : Indexed before.tables) : Indexed after.tables := by
  refine ⟨indexed.objects.of_same same, ?_⟩
  intro link
  rw [same.1, same.2]
  exact indexed.linked link

variable {before after : Tables} {state : JoinState} {row other : RowKey} {stored : PrimaryRowState}
  {order : List RowKey → List RowKey}

theorem KeyedAt.of_eq (keyed : KeyedAt joins before row)
    (same : after.primaryRows[row]? = before.primaryRows[row]?) : KeyedAt joins after row := by
  intro stored isStored
  rw [same] at isStored
  exact keyed stored isStored

theorem InOrder.of_same {before after : Engine} (same : SamePrimaries before after)
    (inOrder : InOrder joins before.tables) : InOrder joins after.tables where
  toIndexed := inOrder.toIndexed.of_same same
  keyed row := (inOrder.keyed row).of_eq (by rw [same.1])

theorem RawObjects.of_fewer (objects : RawObjects before)
    (fewer : ∀ (row : RowKey) (stored : PrimaryRowState), after.primaryRows[row]? = some stored →
      before.primaryRows[row]? = some stored) : RawObjects after :=
  fun row stored isStored => objects row stored (fewer row stored isStored)

theorem InOrder.of_fewer (inOrder : InOrder joins before) (linked : Linked after)
    (fewer : ∀ (row : RowKey) (stored : PrimaryRowState), after.primaryRows[row]? = some stored →
      before.primaryRows[row]? = some stored) : InOrder joins after where
  objects := inOrder.objects.of_fewer fewer
  linked := linked
  keyed row stored isStored := inOrder.keyed row stored (fewer row stored isStored)

theorem tables_storePrimaryRow (defn : JoinDefinition) (row : RowKey) (op : Op) (fields : Fields)
    (state : JoinState) :
    (storePrimaryRow defn row op fields state).2.tables =
      state.tables.applyAll (storePrimary state.tables defn row
        (storePrimaryRow defn row op fields state).1) := by
  simp [storePrimaryRow]

theorem getElem?_storePrimaryRow :
    (storePrimaryRow defn row op fields state).2.tables.primaryRows[other]? =
      if row = other then
        some ⟨(storePrimaryRow defn row op fields state).1,
          fkValuesOf defn (storePrimaryRow defn row op fields state).1⟩
      else state.tables.primaryRows[other]? := by
  rw [tables_storePrimaryRow, applyAll_storePrimary, Ordered.getElem?_set]

theorem RawObjects.storePrimaryRow (objects : RawObjects state.tables) (defn : JoinDefinition)
    (row : RowKey) (op : Op) (fields : Fields) :
    RawObjects (Joins.storePrimaryRow defn row op fields state).2.tables := by
  intro other stored isStored
  rw [getElem?_storePrimaryRow] at isStored
  split at isStored
  · cases isStored
    exact mergeOver_isObject _ _
  · exact objects other stored isStored

theorem fewer_of_remove
    (isStored : (removePrimaryRow row state).2.tables.primaryRows[other]? = some stored) :
    state.tables.primaryRows[other]? = some stored := by
  simp only [removePrimaryRow, JoinState.tables_mutateAll, applyAll_removePrimary,
    Ordered.getElem?_drop] at isStored
  split at isStored
  · cases isStored
  · exact isStored

theorem fewer_of_takePage
    (isStored : (state.takePrimaryTablePage order table limit).2.tables.primaryRows[other]? =
      some stored) : state.tables.primaryRows[other]? = some stored := by
  rw [JoinState.tables_takePrimaryTablePage, Ordered.getElem?_dropAll] at isStored
  split at isStored
  · cases isStored
  · exact isStored

theorem Indexed.storePrimaryRow (indexed : Indexed state.tables) (defn : JoinDefinition)
    (row : RowKey) (op : Op) (fields : Fields) :
    Indexed (storePrimaryRow defn row op fields state).2.tables where
  objects := indexed.objects.storePrimaryRow defn row op fields
  linked := by
    rw [tables_storePrimaryRow]
    exact indexed.linked.storePrimary defn row _

theorem InOrder.removePrimaryRow (inOrder : InOrder joins state.tables)
    (row : RowKey) : InOrder joins (removePrimaryRow row state).2.tables := by
  refine inOrder.of_fewer ?_ fun _ _ => fewer_of_remove
  simpa [Joins.removePrimaryRow] using inOrder.linked.removePrimary row

theorem InOrder.takePage (inOrder : InOrder joins state.tables)
    (permutes : ∀ rows, (order rows).Perm rows) (table : String) (limit : Nat) :
    InOrder joins (state.takePrimaryTablePage order table limit).2.tables :=
  inOrder.of_fewer (inOrder.linked.takePage permutes table limit) fun _ _ => fewer_of_takePage

/-- What is known when a row is being stored by several definitions: all but that row is in
    order. -/
structure InOrderApart (joins : List JoinDefinition) (apart : RowKey) (tables : Tables) : Prop
    extends Indexed tables where
  keyed : ∀ row, row ≠ apart → KeyedAt joins tables row

theorem InOrderApart.of_same {before after : Engine} (same : SamePrimaries before after)
    (inOrder : InOrderApart joins apart before.tables) : InOrderApart joins apart after.tables where
  toIndexed := inOrder.toIndexed.of_same same
  keyed row other := (inOrder.keyed row other).of_eq (by rw [same.1])

theorem InOrderApart.storePrimaryRow (inOrder : InOrderApart joins row state.tables)
    (defn : JoinDefinition) (op : Op) (fields : Fields) :
    InOrderApart joins row (storePrimaryRow defn row op fields state).2.tables where
  toIndexed := inOrder.toIndexed.storePrimaryRow defn row op fields
  keyed other different := (inOrder.keyed other different).of_eq
    (by rw [getElem?_storePrimaryRow, if_neg different.symm])

/-- The only definition with relations over the table completes the row. -/
theorem InOrderApart.complete (inOrder : InOrderApart joins row state.tables)
    (distinct : (defn.related.map (·.id)).Nodup)
    (only : ∀ other ∈ joins, other.primary.table = row.table → other.related ≠ [] →
      other = defn) (op : Op) (fields : Fields) :
    InOrder joins (Joins.storePrimaryRow defn row op fields state).2.tables where
  toIndexed := inOrder.toIndexed.storePrimaryRow defn row op fields
  keyed other := by
    by_cases same : other = row
    · subst same
      intro stored isStored owner isOwner ofTable rel mem
      rw [getElem?_storePrimaryRow, if_pos rfl] at isStored
      cases isStored
      have isDefinition := only owner isOwner ofTable (ne_nil_of_mem mem)
      subst isDefinition
      exact foldl_sourceKey_of_mem distinct mem ∅
    · exact (inOrder.storePrimaryRow defn op fields).keyed other same

variable (joins)

/-- A failure that sets the event aside leaves the primary tables in order. -/
def OrderedStop (error : JoinError) (engine : Engine) : Prop :=
  error.isPermanent = true → InOrder joins engine.tables

abbrev KeepsOrder (program : Program JoinError Engine PUnit) : Prop :=
  Keeps (fun engine => InOrder joins engine.tables) (OrderedStop joins) program

theorem composing_inOrder :
    Composing (fun engine => InOrder joins engine.tables) (OrderedStop joins) :=
  (composing_of_samePrimaries (fun _ _ => InOrder.of_same) fun _ inOrder => inOrder.objects).mono
    fun _ _ stopped _ => stopped.2

theorem composing_inOrderApart (apart : RowKey) :
    Composing (fun engine => InOrderApart joins apart engine.tables) (OrderedStop joins) :=
  (composing_of_samePrimaries (fun _ _ => InOrderApart.of_same) fun _ inOrder =>
    inOrder.objects).mono fun _ _ stopped permanent => by simp [stopped.1] at permanent

variable {joins}

theorem split_at_last (isLast : (joins.filter fun defn => defn.primary.table = table).getLast? =
      some last) :
    ∃ front back, joins = front ++ last :: back ∧ last.primary.table = table ∧
      (joins.filter fun defn => defn.primary.table = table).dropLast =
        front.filter (fun defn => defn.primary.table = table) ∧
      ∀ defn ∈ back, defn.primary.table ≠ table := by
  obtain ⟨owners, filtered⟩ := getLast?_eq_some_iff.mp isLast
  obtain ⟨first, second, rfl, isFirst, isSecond⟩ := filter_eq_append_iff.mp filtered
  obtain ⟨skipped, back, rfl, noOwner, ofTable, noneAfter⟩ := filter_eq_cons_iff.mp isSecond
  refine ⟨first ++ skipped, back, by simp, by simpa using ofTable, ?_, ?_⟩
  · have nothing : skipped.filter (fun defn => defn.primary.table = table) = [] := by
      simpa [filter_eq_nil_iff] using noOwner
    rw [filtered, dropLast_concat, filter_append, nothing, append_nil, isFirst]
  · simpa [filter_eq_nil_iff] using noneAfter

section

variable {env : Env} {table : String} {op : Op} {ev : Event}

theorem related_inOrder : KeepsOrder joins (handleRelated env defn rel op ev) :=
  (composing_inOrder joins).handleRelated_of_same (fun _ _ => InOrder.of_same)
    fun _ _ _ _ inOrder _ => inOrder

theorem handleRow_inOrder_of_no_row
    (noRow : ∀ defn pk fields, decodePrimary env defn table op ev ≠
      .ok (.store pk fields)) : KeepsOrder joins (handleRow env joins table op ev) := by
  apply (composing_inOrder joins).handleRow
  · intro _ engine inOrder
    exact inOrder.takePage env.primaryOrder_perm table reEmitPrimaryChunkSize
  · intro route mem
    cases route with
    | related defn rel => exact related_inOrder
    | primary defn =>
      refine (composing_inOrder joins).handlePrimary ⟨?_, ?_, ?_, ?_⟩
      · exact fun _ _ _ _ inOrder _ => inOrder
      · exact fun pk fields decoded => absurd decoded (noRow defn pk fields)
      · exact fun pk _ engine inOrder => inOrder.removePrimaryRow ⟨table, pk⟩
      · exact fun _ _ inOrder => inOrder

section

variable {fields : Fields} (writes : op.writes = true)
  (carries : eventRow ev op = some (.object fields))

include writes carries

omit carries in
theorem ne_truncate_of_writes : op ≠ .truncate := by
  rintro rfl
  cases writes

theorem handlePrimary_stores (composing : Composing inv stop)
    (stores : ∀ engine, pre engine → inv { engine with
      state := (storePrimaryRow defn ⟨table, keyOf defn.primary.pk.columns fields⟩ op
        fields engine.state).2 }) :
    Triple pre (handlePrimary env defn table op ev) (fun _ => inv) stop := by
  have decoded := @decodePrimary_object env defn table op ev fields writes carries
  refine composing.handlePrimary ⟨?_, ?_, ?_, ?_⟩
  · intro _ error failed
    simp [decoded] at failed
  · intro pk row isStore
    rw [decoded] at isStore
    cases isStore
    exact stores
  · intro pk isRemove
    rw [decoded] at isRemove
    cases isRemove
  · exact fun isTruncate => absurd isTruncate (ne_truncate_of_writes writes)

theorem handleRelated_no_reject : decodeRelated env rel op ev ≠ .error error := by
  rw [decodeRelated_object writes carries]
  exact fun failed => by cases failed

theorem handleRow_inOrder_of_bare
    (bare : ∀ defn ∈ joins, defn.primary.table = table → defn.related = []) :
    KeepsOrder joins (handleRow env joins table op ev) := by
  have notTruncate := ne_truncate_of_writes writes
  rw [handleRow_writes notTruncate]
  apply Triple.each
  intro route mem
  cases route with
  | related defn rel => exact related_inOrder
  | primary defn =>
    apply handlePrimary_stores writes carries (composing_inOrder joins)
    intro engine inOrder
    refine ⟨inOrder.toIndexed.storePrimaryRow defn _ op fields, fun row => ?_⟩
    by_cases ofTable : row.table = table
    · intro stored _ owner isOwner owns rel mem
      rw [bare owner isOwner (owns.trans ofTable)] at mem
      cases mem
    · apply (inOrder.keyed row).of_eq
      rw [getElem?_storePrimaryRow, if_neg]
      intro same
      exact ofTable (by rw [← same])

/-- The definitions before the last one keep everything but the row in order; the last one
    completes the row; what comes after does not touch the primary tables. -/
theorem handleRow_inOrder_of_last (split : joins = front ++ last :: back)
    (ofTable : last.primary.table = table) (distinct : (last.related.map (·.id)).Nodup)
    (bare : ∀ defn ∈ front, defn.primary.table = table → defn.related = [])
    (elsewhere : ∀ defn ∈ back, defn.primary.table ≠ table)
    (sameKey : ∀ defn ∈ joins, defn.primary.table = table →
      keyOf defn.primary.pk.columns fields = keyOf last.primary.pk.columns fields) :
    KeepsOrder joins (handleRow env joins table op ev) := by
  have notTruncate := ne_truncate_of_writes writes
  have byRoutes : routes joins table = routes front table ++ (.primary last ::
      ((last.related.filter fun rel => rel.table = table).map (.related last) ++
        routes back table)) := by
    simp [split, routes, routesOf, ofTable]
  rw [handleRow_writes notTruncate, byRoutes]
  have before : Triple (fun engine => InOrder joins engine.tables)
      (each (handleRoute env table op ev) (routes front table))
      (fun _ engine => InOrderApart joins ⟨table, keyOf last.primary.pk.columns fields⟩
        engine.tables) (OrderedStop joins) := by
    refine (Triple.each ?_).weaken (fun engine inOrder => ?_) (fun _ _ kept => kept)
      fun _ _ stopped => stopped
    · intro route mem
      cases route with
      | related defn rel =>
        exact (composing_inOrderApart joins _).handleRelated_of_same
          (fun _ _ => InOrderApart.of_same) fun _ _ failed =>
            absurd failed (handleRelated_no_reject writes carries)
      | primary defn =>
        have owner : defn ∈ front ∧ defn.primary.table = table := by
          obtain ⟨other, inFront, isPrimary | ⟨rel, _, _, isRelated⟩⟩ := mem_routes.mp mem
          · cases isPrimary.1
            exact ⟨inFront, isPrimary.2⟩
          · cases isRelated
        apply handlePrimary_stores writes carries (composing_inOrderApart joins _)
        intro engine inOrder
        rw [sameKey defn (split ▸ mem_append_left _ owner.1) owner.2]
        exact inOrder.storePrimaryRow defn op fields
    · exact ⟨inOrder.toIndexed, fun row _ => inOrder.keyed row⟩
  have completing : Triple (fun engine => InOrderApart joins
        ⟨table, keyOf last.primary.pk.columns fields⟩ engine.tables)
      (handlePrimary env last table op ev) (fun _ engine => InOrder joins engine.tables)
      (OrderedStop joins) := by
    apply handlePrimary_stores writes carries (composing_inOrder joins)
    intro engine inOrder
    apply inOrder.complete distinct
    intro other isOther owns related
    rw [split, mem_append, mem_cons] at isOther
    rcases isOther with inFront | same | inBack
    · exact absurd (bare other inFront owns) related
    · exact same
    · exact absurd owns (elsewhere other inBack)
  have rest : KeepsOrder joins (each (handleRoute env table op ev)
        ((last.related.filter fun rel => rel.table = table).map (.related last) ++
          routes back table)) := by
    apply Triple.each
    intro route mem
    cases route with
    | related defn rel => exact related_inOrder
    | primary defn =>
      rcases mem_append.mp mem with inLast | inBack
      · simp at inLast
      · obtain ⟨other, isOther, isPrimary | ⟨rel, _, _, isRelated⟩⟩ := mem_routes.mp inBack
        · cases isPrimary.1
          exact absurd isPrimary.2 (elsewhere defn isOther)
        · cases isRelated
  exact Triple.each_append before (Triple.bind completing fun _ => rest)

theorem handleRow_inOrder_of_row (distinct : ∀ defn ∈ joins,
      (defn.related.map (·.id)).Nodup) (agree : OwnersAgree joins table fields) :
    KeepsOrder joins (handleRow env joins table op ev) := by
  cases isLast : (joins.filter fun defn => defn.primary.table = table).getLast? with
  | none =>
    rw [getLast?_eq_none_iff, filter_eq_nil_iff] at isLast
    apply handleRow_inOrder_of_bare writes carries
    intro defn mem ofTable
    exact absurd ofTable (by simpa using isLast defn mem)
  | some last =>
    obtain ⟨front, back, split, ofTable, owners, elsewhere⟩ := split_at_last isLast
    have bare : ∀ defn ∈ front, defn.primary.table = table →
        defn.related = [] := by
      intro defn mem owns
      apply agree.1
      rw [owners]
      simpa using ⟨mem, owns⟩
    have mem : last ∈ joins := by simp [split]
    by_cases related : last.related = []
    · apply handleRow_inOrder_of_bare writes carries
      intro defn isDefinition owns
      rw [split, mem_append, mem_cons] at isDefinition
      rcases isDefinition with inFront | rfl | inBack
      · exact bare defn inFront owns
      · exact related
      · exact absurd owns (elsewhere defn inBack)
    · exact handleRow_inOrder_of_last writes carries split ofTable (distinct last mem) bare
        elsewhere (agree.2 last isLast related)

end

/-- Every row that an event brings to a primary table suits the definitions over it. -/
def RowsAgree (joins : List JoinDefinition) (ev : Event) : Prop :=
  ∀ table op fields, sourceTable ev = .ok table → subjectOp ev = .ok op →
    op.writes = true → eventRow ev op = some (.object fields) → OwnersAgree joins table fields

theorem rowsAgree_singleton (defn : JoinDefinition) (ev : Event) : RowsAgree [defn] ev := by
  intro table op fields _ _ _ _
  unfold OwnersAgree
  by_cases ofTable : defn.primary.table = table <;> simp [ofTable]

theorem handle_inOrder (distinct : ∀ defn ∈ joins, (defn.related.map (·.id)).Nodup)
    (agree : RowsAgree joins ev) : KeepsOrder joins (handle env joins ev) := by
  apply (composing_inOrder joins).handle
  apply Composing.handleInner
  · exact fun _ inOrder => inOrder
  · exact fun _ _ inOrder _ => inOrder
  · intro table op located named
    by_cases row : op.writes ∧ ∃ fields, eventRow ev op = some (.object fields)
    · obtain ⟨writes, fields, carries⟩ := row
      exact handleRow_inOrder_of_row writes carries distinct
        (agree table op fields located named writes carries)
    · apply handleRow_inOrder_of_no_row
      intro defn pk fields decoded
      cases writes : op.writes with
      | true =>
        obtain ⟨carried, carries, _⟩ := decodePrimary_writes writes decoded
        exact row ⟨writes, carried, carries⟩
      | false =>
        obtain ⟨removed, isRemove⟩ := decodePrimary_removes writes decoded
        cases isRemove

end

end

end Ventstream.Joins
