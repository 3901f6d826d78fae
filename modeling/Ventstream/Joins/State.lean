import Ventstream.Joins.Config
import Ventstream.Library.Ordered
import Ventstream.Library.Walk

/-! # The join state

Four tables: the rows of related tables, the rows of primary tables with the
foreign keys they were linked under, and the two indexes between them. The nested
maps of `state.rs` drop a bucket when it becomes empty, so each index is the set
of its links.

Every change is one of eight mutations. A mutation always reaches memory; while
persistence is enabled it is also written into the open transaction of the
backend, and a failed write is remembered, which makes every later flush fail.
The definitions follow `state.rs` and `persistence.rs`.
-/

namespace Ventstream.Joins

open Library List
open Std (ExtTreeMap ExtTreeSet)
open Json (Value)

/-- What is remembered of a primary row: the row, and per related id the key it is linked
    under. -/
structure PrimaryRowState where
  raw : Value
  fkValues : ExtTreeMap String PkValue

@[ext]
structure Tables where
  foreignRows : ExtTreeMap RowKey Value
  primaryRows : ExtTreeMap RowKey PrimaryRowState
  primaryReverse : ExtTreeSet PrimaryLink
  foreignByFk : ExtTreeSet ForeignLink

inductive Mutation where
  | setForeign (row : RowKey) (value : Value)
  | deleteForeign (row : RowKey)
  | setPrimary (row : RowKey) (state : PrimaryRowState)
  | takePrimary (row : RowKey)
  | addPrimaryReverse (link : PrimaryLink)
  | removePrimaryReverse (link : PrimaryLink)
  | addForeignByFk (link : ForeignLink)
  | removeForeignByFk (link : ForeignLink)

/-- The name a failed write of the mutation is reported under. -/
def Mutation.op : Mutation → String
  | .setForeign _ _ => "set_foreign"
  | .deleteForeign _ => "delete_foreign"
  | .setPrimary _ _ => "set_primary"
  | .takePrimary _ => "take_primary"
  | .addPrimaryReverse _ => "add_primary_reverse"
  | .removePrimaryReverse _ => "remove_primary_reverse"
  | .addForeignByFk _ => "add_foreign_by_fk"
  | .removeForeignByFk _ => "remove_foreign_by_fk"

/-- The mutations of the tables for related rows. -/
def Mutation.isForeign : Mutation → Bool
  | .setForeign _ _ | .deleteForeign _ | .addForeignByFk _ | .removeForeignByFk _ => true
  | _ => false

namespace Tables

def empty : Tables := ⟨∅, ∅, ∅, ∅⟩

variable (tables : Tables)

def apply : Mutation → Tables
  | .setForeign row value => { tables with foreignRows := tables.foreignRows.insert row value }
  | .deleteForeign row => { tables with foreignRows := tables.foreignRows.erase row }
  | .setPrimary row state => { tables with primaryRows := tables.primaryRows.insert row state }
  | .takePrimary row => { tables with primaryRows := tables.primaryRows.erase row }
  | .addPrimaryReverse link => { tables with primaryReverse := tables.primaryReverse.insert link }
  | .removePrimaryReverse link => { tables with primaryReverse := tables.primaryReverse.erase link }
  | .addForeignByFk link => { tables with foreignByFk := tables.foreignByFk.insert link }
  | .removeForeignByFk link => { tables with foreignByFk := tables.foreignByFk.erase link }

def applyAll (mutations : List Mutation) : Tables :=
  mutations.foldl apply tables

def getForeign (table : String) (pk : PkValue) : Option Value :=
  tables.foreignRows[(⟨table, pk⟩ : RowKey)]?

def getPrimary (row : RowKey) : Option PrimaryRowState :=
  tables.primaryRows[row]?

def foreignPksFor (relatedId : String) (fkValue : PkValue) : List PkValue :=
  (tables.foreignByFk.toList.filter fun link =>
    link.relatedId = relatedId ∧ link.fkValue = fkValue).map (·.foreignPk)

def primariesFor (relatedId : String) (fkValue : PkValue) : List RowKey :=
  (tables.primaryReverse.toList.filter fun link =>
    link.relatedId = relatedId ∧ link.fkValue = fkValue).map (·.primary)

/-- The keys of a relation that have a bucket of primaries. -/
def reverseKeys (relatedId : String) : List PkValue :=
  ((tables.primaryReverse.toList.filter fun link => link.relatedId = relatedId).map
    (·.fkValue)).eraseDups

/-- At most `limit` primaries past the cursor from one or two buckets of a relation. -/
def primariesForKeysChunk (relatedId : String) (fkValue : PkValue)
    (secondary : Option PkValue) (limit : Nat) (after : Option RowKey) : List RowKey :=
  let second := match secondary.filter (· ≠ fkValue) with
    | some other => tables.primariesFor relatedId other
    | none => []
  mergeUpTo limit ((tables.primariesFor relatedId fkValue).filter fun row => Past after row)
    (second.filter fun row => Past after row)

/-- At most `limit` primaries past the cursor from all buckets of a relation. -/
def primariesForRelationChunk (relatedId : String) (limit : Nat)
    (after : Option RowKey) : List RowKey :=
  collectUpTo limit (((tables.reverseKeys relatedId).map (tables.primariesFor relatedId)).map
    (·.filter fun row => Past after row))

/-- Drop the rows of a truncated related table and the index of one relation over it. -/
def purgeRelatedTable (relatedId table : String) : List Mutation :=
  (tables.foreignRows.keys.filter fun row => row.table = table).map .deleteForeign ++
    (tables.foreignByFk.toList.filter fun link => link.relatedId = relatedId).map .removeForeignByFk

/-- The first stored rows of a primary table, in some order. -/
def primaryPage (order : List RowKey → List RowKey) (table : String) (limit : Nat) : List RowKey :=
  (order (tables.primaryRows.keys.filter fun row => row.table = table)).take limit

/-- The links of the given primaries of a table, under any relation and key. -/
def dropPrimaryLinks (table : String) (removed : List PkValue) : List Mutation :=
  (tables.primaryReverse.toList.filter fun link =>
    link.primary.table = table ∧ link.primary.pk ∈ removed).map .removePrimaryReverse

end Tables

/-- A redb database. `pending` is what the open write transaction would commit, and
    `faults` decides for each call on the database whether it fails. -/
structure Backend where
  committed : Tables
  pending : Option Tables
  identity : Option String
  faults : Nat → Option String
  calls : Nat

namespace Backend

/-- Append a mutation to the pending transaction, opening one if there is none. -/
def write (backend : Backend) (mutation : Mutation) : Except String Unit × Backend :=
  match backend.faults backend.calls with
  | some detail => (.error detail, { backend with calls := backend.calls + 1 })
  | none =>
    (.ok (), { backend with
      pending := some ((backend.pending.getD backend.committed).apply mutation)
      calls := backend.calls + 1 })

/-- Commit the pending transaction. A failed commit loses it. -/
def flush (backend : Backend) : Except String Unit × Backend :=
  match backend.pending with
  | none => (.ok (), backend)
  | some contents =>
    match backend.faults backend.calls with
    | some detail =>
      (.error detail, { backend with pending := none, calls := backend.calls + 1 })
    | none =>
      (.ok (), { backend with
        committed := contents
        pending := none
        calls := backend.calls + 1 })

/-- Replace the whole contents in one transaction. -/
def dumpState (backend : Backend) (contents : Tables) (identity : String) :
    Except String Unit × Backend :=
  match backend.flush with
  | (.error detail, flushed) => (.error detail, flushed)
  | (.ok (), flushed) =>
    match flushed.faults flushed.calls with
    | some detail => (.error detail, { flushed with calls := flushed.calls + 1 })
    | none =>
      (.ok (), { flushed with
        committed := contents
        identity := some identity
        calls := flushed.calls + 1 })

end Backend

structure JoinState where
  tables : Tables
  backend : Option Backend
  persistenceIdentity : Option String
  persistFailure : Option String
  persistEnabled : Bool

namespace JoinState

def new : JoinState where
  tables := .empty
  backend := none
  persistenceIdentity := none
  persistFailure := none
  persistEnabled := true

/-- Change memory, and the backend while persistence is enabled. Only the first failed
    write is remembered; `scope` says which compound operation it belongs to. -/
def mutate (scope : String) (state : JoinState) (mutation : Mutation) : JoinState :=
  let changed := { state with tables := state.tables.apply mutation }
  if state.persistEnabled then
    match state.backend with
    | none => changed
    | some backend =>
      match backend.write mutation with
      | (.ok (), written) => { changed with backend := some written }
      | (.error detail, written) =>
        { changed with
          backend := some written
          persistFailure := state.persistFailure <|> some (scope ++ mutation.op ++ ": " ++ detail) }
  else changed

def mutateAll (scope : String) (state : JoinState) (mutations : List Mutation) : JoinState :=
  mutations.foldl (mutate scope) state

/-- Remove at most `limit` rows of a truncated primary table together with their links.
    `order` is the order in which the map yields its keys. -/
def takePrimaryTablePage (order : List RowKey → List RowKey) (table : String) (limit : Nat)
    (state : JoinState) : List PkValue × JoinState :=
  let keys := state.tables.primaryPage order table limit
  let taken := state.mutateAll "" (keys.map .takePrimary)
  (keys.map (·.pk), taken.mutateAll "take_primary_table_page."
    (taken.tables.dropPrimaryLinks table (keys.map (·.pk))))

def ensurePersistenceHealthy (state : JoinState) : Except String Unit :=
  match state.persistFailure with
  | some detail =>
    .error ("redb transaction failed: an earlier join-state mutation was not persisted (" ++
      detail ++ ")")
  | none => .ok ()

def flushPersistent (state : JoinState) : Except String Unit × JoinState :=
  match state.ensurePersistenceHealthy, state.backend with
  | .error detail, _ => (.error detail, state)
  | .ok (), none => (.ok (), state)
  | .ok (), some backend =>
    (backend.flush.1, { state with backend := some backend.flush.2 })

def dumpToPersistent (state : JoinState) : Except String Unit × JoinState :=
  match state.ensurePersistenceHealthy, state.backend, state.persistenceIdentity with
  | .error detail, _, _ => (.error detail, state)
  | .ok (), none, _ => (.ok (), state)
  | .ok (), some _, none =>
    (.error "redb transaction failed: persistent join state is missing its source identity", state)
  | .ok (), some backend, some identity =>
    ((backend.dumpState state.tables identity).1,
      { state with backend := some (backend.dumpState state.tables identity).2 })

end JoinState

namespace Tables

section

variable (tables : Tables)

@[simp] theorem applyAll_nil : tables.applyAll [] = tables := rfl

@[simp] theorem applyAll_cons (mutation : Mutation) (rest : List Mutation) :
    tables.applyAll (mutation :: rest) = (tables.apply mutation).applyAll rest := rfl

theorem applyAll_append (front back : List Mutation) :
    tables.applyAll (front ++ back) = (tables.applyAll front).applyAll back :=
  foldl_append

/-- Mutations of one kind fold their items into the one part of the tables that they change. -/
theorem applyAll_map {kind : α → Mutation} {step : β → α → β} (put : β → Tables)
    (made : ∀ part item, (put part).apply (kind item) = put (step part item)) (items : List α)
    (part : β) : (put part).applyAll (items.map kind) = put (items.foldl step part) := by
  induction items generalizing part with
  | nil => rfl
  | cons item rest ih => rw [map_cons, applyAll_cons, made, ih, foldl_cons]

theorem applyAll_deleteForeign (rows : List RowKey) : tables.applyAll (rows.map .deleteForeign) =
      { tables with foreignRows := Ordered.dropAll tables.foreignRows rows } :=
  applyAll_map (fun part => { tables with foreignRows := part }) (fun _ _ => rfl) rows _

theorem applyAll_takePrimary (rows : List RowKey) : tables.applyAll (rows.map .takePrimary) =
      { tables with primaryRows := Ordered.dropAll tables.primaryRows rows } :=
  applyAll_map (fun part => { tables with primaryRows := part }) (fun _ _ => rfl) rows _

theorem applyAll_addPrimaryReverse (links : List PrimaryLink) :
    tables.applyAll (links.map .addPrimaryReverse) =
      { tables with primaryReverse := Ordered.insertAll tables.primaryReverse links } :=
  applyAll_map (fun part => { tables with primaryReverse := part }) (fun _ _ => rfl) links _

theorem applyAll_removePrimaryReverse (links : List PrimaryLink) :
    tables.applyAll (links.map .removePrimaryReverse) =
      { tables with primaryReverse := Ordered.eraseAll tables.primaryReverse links } :=
  applyAll_map (fun part => { tables with primaryReverse := part }) (fun _ _ => rfl) links _

theorem applyAll_removeForeignByFk (links : List ForeignLink) :
    tables.applyAll (links.map .removeForeignByFk) =
      { tables with foreignByFk := Ordered.eraseAll tables.foreignByFk links } :=
  applyAll_map (fun part => { tables with foreignByFk := part }) (fun _ _ => rfl) links _

theorem applyAll_foreign (foreign : ∀ mutation ∈ mutations, mutation.isForeign) :
    (tables.applyAll mutations).primaryRows = tables.primaryRows ∧
      (tables.applyAll mutations).primaryReverse = tables.primaryReverse := by
  induction mutations generalizing tables with
  | nil => exact ⟨rfl, rfl⟩
  | cons mutation rest ih =>
    have later := ih (tables.apply mutation) fun other mem =>
      foreign other (mem_cons_of_mem _ mem)
    have here := foreign mutation mem_cons_self
    cases mutation <;> simp [Mutation.isForeign] at here <;> exact later

theorem applyAll_primary (primary : ∀ mutation ∈ mutations, mutation.isForeign = false) :
    (tables.applyAll mutations).foreignRows = tables.foreignRows ∧
      (tables.applyAll mutations).foreignByFk = tables.foreignByFk := by
  induction mutations generalizing tables with
  | nil => exact ⟨rfl, rfl⟩
  | cons mutation rest ih =>
    have later := ih (tables.apply mutation) fun other mem =>
      primary other (mem_cons_of_mem _ mem)
    have here := primary mutation mem_cons_self
    cases mutation <;> simp [Mutation.isForeign] at here <;> exact later

end

theorem mem_primaryPage {tables : Tables} (permutes : ∀ rows, (order rows).Perm rows)
    (mem : row ∈ tables.primaryPage order table limit) :
    row.table = table ∧ (tables.primaryRows[row]?).isSome := by
  have listed := (permutes _).mem_iff.mp (mem_of_mem_take mem)
  simp only [mem_filter, decide_eq_true_eq, Ordered.mem_keys] at listed
  exact ⟨listed.2, listed.1⟩

section

variable {tables : Tables} {relatedId : String} {fkValue : PkValue}

theorem mem_foreignPksFor : pk ∈ tables.foreignPksFor relatedId fkValue ↔
      (⟨relatedId, fkValue, pk⟩ : ForeignLink) ∈ tables.foreignByFk := by
  simp only [foreignPksFor, mem_map, mem_filter, decide_eq_true_eq, ExtTreeSet.mem_toList]
  constructor
  · rintro ⟨⟨_, _, _⟩, ⟨listed, rfl, rfl⟩, rfl⟩
    exact listed
  · intro listed
    exact ⟨_, ⟨listed, rfl, rfl⟩, rfl⟩

theorem mem_primariesFor : row ∈ tables.primariesFor relatedId fkValue ↔
      (⟨relatedId, fkValue, row⟩ : PrimaryLink) ∈ tables.primaryReverse := by
  simp only [primariesFor, mem_map, mem_filter, decide_eq_true_eq, ExtTreeSet.mem_toList]
  constructor
  · rintro ⟨⟨_, _, _⟩, ⟨listed, rfl, rfl⟩, rfl⟩
    exact listed
  · intro listed
    exact ⟨_, ⟨listed, rfl, rfl⟩, rfl⟩

theorem primariesFor_sorted : (tables.primariesFor relatedId fkValue).Pairwise (· < ·) := by
  unfold primariesFor
  rw [pairwise_map]
  have bucket := (Ordered.toList_sorted tables.primaryReverse).filter
    fun link => link.relatedId = relatedId ∧ link.fkValue = fkValue
  refine bucket.imp_of_mem ?_
  intro left right inLeft inRight less
  simp only [mem_filter, decide_eq_true_eq] at inLeft inRight
  apply PrimaryLink.primary_lt less
  · rw [inLeft.2.1, inRight.2.1]
  · rw [inLeft.2.2, inRight.2.2]

theorem mem_reverseKeys :
    key ∈ tables.reverseKeys relatedId ↔ ∃ row, row ∈ tables.primariesFor relatedId key := by
  simp only [reverseKeys, mem_eraseDups, mem_map, mem_filter, decide_eq_true_eq,
    ExtTreeSet.mem_toList, mem_primariesFor]
  constructor
  · rintro ⟨⟨_, _, row⟩, ⟨listed, rfl⟩, rfl⟩
    exact ⟨row, listed⟩
  · rintro ⟨row, listed⟩
    exact ⟨_, ⟨listed, rfl⟩, rfl⟩

theorem isPage_primariesForKeysChunk (positive : 0 < limit) (after : Option RowKey) :
    IsPage (fun row => row ∈ tables.primariesFor relatedId fkValue ∨
        ∃ other ∈ secondary, row ∈ tables.primariesFor relatedId other) after
      (tables.primariesForKeysChunk relatedId fkValue secondary limit after) := by
  unfold primariesForKeysChunk
  cases different : secondary.filter (· ≠ fkValue) with
  | none =>
    have page := isPage_mergeUpTo after positive
      (@primariesFor_sorted tables relatedId fkValue) List.Pairwise.nil
    refine ⟨page.sorted, ?_, ?_⟩
    · intro row mem
      have sound := page.sound row mem
      simpa using ⟨.inl (by simpa using sound.1), sound.2⟩
    · rintro row (first | ⟨other, isOther, second⟩) past
      · exact page.complete row (.inl first) past
      · have same : other = fkValue := by
          cases isOther
          simpa [Option.filter_some] using different
        subst same
        exact page.complete row (.inl second) past
  | some other =>
    have named : secondary = some other := (Option.filter_eq_some_iff.mp different).1
    have page := isPage_mergeUpTo after positive
      (@primariesFor_sorted tables relatedId fkValue)
      (@primariesFor_sorted tables relatedId other)
    subst named
    simpa using page

theorem isPage_primariesForRelationChunk (positive : 0 < limit) (after : Option RowKey) :
    IsPage (fun row => ∃ key, row ∈ tables.primariesFor relatedId key) after
      (tables.primariesForRelationChunk relatedId limit after) := by
  have page := @isPage_collectUpTo _ _
    ((tables.reverseKeys relatedId).map (tables.primariesFor relatedId)) limit after positive
    (by
      intro bucket mem
      obtain ⟨key, _, rfl⟩ := mem_map.mp mem
      exact primariesFor_sorted)
  refine ⟨page.sorted, ?_, ?_⟩
  · intro row mem
    obtain ⟨⟨bucket, inBuckets, inBucket⟩, past⟩ := page.sound row mem
    obtain ⟨key, _, rfl⟩ := mem_map.mp inBuckets
    exact ⟨⟨key, inBucket⟩, past⟩
  · rintro row ⟨key, inBucket⟩ past
    exact page.complete row ⟨_, mem_map_of_mem (mem_reverseKeys.mpr ⟨row, inBucket⟩), inBucket⟩ past

theorem mem_linked (mem : row ∈ tables.primariesFor relatedId key) :
    row ∈ tables.primaryReverse.toList.map (·.primary) :=
  mem_map.mpr ⟨_, ExtTreeSet.mem_toList.mpr (mem_primariesFor.mp mem), rfl⟩

theorem visitsOnce_keys (positive : 0 < limit) :
    VisitsOnce (fun row => row ∈ tables.primariesFor relatedId fkValue ∨
        ∃ other ∈ secondary, row ∈ tables.primariesFor relatedId other)
      (tables.primariesForKeysChunk relatedId fkValue secondary limit) limit
      tables.primaryReverse.size := by
  rw [← ExtTreeSet.length_toList, ← length_map (·.primary)]
  refine visitsOnce_of_isPage (isPage_primariesForKeysChunk positive)
    (fun _ => length_mergeUpTo_le) ?_
  rintro row (inKey | ⟨other, _, inOther⟩)
  · exact mem_linked inKey
  · exact mem_linked inOther

theorem visitsOnce_relation (positive : 0 < limit) :
    VisitsOnce (fun row => ∃ key, row ∈ tables.primariesFor relatedId key)
      (tables.primariesForRelationChunk relatedId limit) limit tables.primaryReverse.size := by
  rw [← ExtTreeSet.length_toList, ← length_map (·.primary)]
  refine visitsOnce_of_isPage (isPage_primariesForRelationChunk positive) (fun after => ?_)
    fun row ⟨key, inKey⟩ => mem_linked inKey
  rw [primariesForRelationChunk, collectUpTo_eq]
  exact length_take_le _ _

/-- Paging through the primaries of one or two keys, or of a whole relation, ends and visits each
    of them once. -/
theorem fan_out_visits_once (tables : Tables) (relatedId : String) (fkValue : PkValue)
    (secondary : Option PkValue) (limit : Nat) (positive : 0 < limit) :
    VisitsOnce (fun row => row ∈ tables.primariesFor relatedId fkValue ∨
        ∃ other ∈ secondary, row ∈ tables.primariesFor relatedId other)
      (tables.primariesForKeysChunk relatedId fkValue secondary limit) limit
      tables.primaryReverse.size ∧
    VisitsOnce (fun row => ∃ key, row ∈ tables.primariesFor relatedId key)
      (tables.primariesForRelationChunk relatedId limit) limit tables.primaryReverse.size :=
  ⟨visitsOnce_keys positive, visitsOnce_relation positive⟩

/-- One primary in two buckets is visited once. -/
theorem fan_out_visits_once_shared : ∃ (row : RowKey) (tables : Tables),
    row ∈ tables.primariesFor "tags" ⟨"[1]"⟩ ∧ row ∈ tables.primariesFor "tags" ⟨"[2]"⟩ ∧
      VisitsOnce (fun row => ∃ key, row ∈ tables.primariesFor "tags" key)
        (tables.primariesForRelationChunk "tags" 1) 1 tables.primaryReverse.size := by
  let row : RowKey := ⟨"orders", ⟨"[7]"⟩⟩
  refine ⟨row, empty.applyAll [.addPrimaryReverse ⟨"tags", ⟨"[1]"⟩, row⟩,
    .addPrimaryReverse ⟨"tags", ⟨"[2]"⟩, row⟩], ?_, ?_,
    (fan_out_visits_once _ _ ⟨""⟩ none 1 Nat.one_pos).2⟩
  · simp [mem_primariesFor, applyAll, apply]
  · simp [mem_primariesFor, applyAll, apply]

end

end Tables

namespace JoinState

section

variable (scope : String)

@[simp] theorem tables_mutate (state : JoinState) (mutation : Mutation) :
    (mutate scope state mutation).tables = state.tables.apply mutation := by
  unfold mutate
  repeat' split
  all_goals rfl

@[simp] theorem tables_mutateAll (state : JoinState) (mutations : List Mutation) :
    (state.mutateAll scope mutations).tables = state.tables.applyAll mutations := by
  unfold mutateAll
  induction mutations generalizing state with
  | nil => rfl
  | cons mutation rest ih => simp [ih]

end

theorem tables_takePrimaryTablePage (order : List RowKey → List RowKey) (table : String)
    (limit : Nat) (state : JoinState) :
    (state.takePrimaryTablePage order table limit).2.tables =
      { state.tables with
        primaryRows := Ordered.dropAll state.tables.primaryRows
          (state.tables.primaryPage order table limit)
        primaryReverse := Ordered.eraseAll state.tables.primaryReverse
          (state.tables.primaryReverse.toList.filter fun link => link.primary.table = table ∧
            link.primary.pk ∈ (state.tables.primaryPage order table limit).map (·.pk)) } := by
  simp only [takePrimaryTablePage, Tables.dropPrimaryLinks, tables_mutateAll,
    Tables.applyAll_takePrimary, Tables.applyAll_removePrimaryReverse]

end JoinState

end Ventstream.Joins
