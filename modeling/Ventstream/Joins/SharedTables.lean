import Ventstream.Joins.ForeignIndex

/-! # Related tables shared by several relations

Along a history of the database the foreign index of every relation is exact, as
long as each event keeps the keys of the relations that are not the first over its
table, and an insert those of all. A deleted row then has the primaries of every
relation sent again that embedded it. When an update moves a shared row, or a delete
carries the key alone, the relations after the first are left with a listing that
points nowhere.
-/

namespace Ventstream.Joins

open Core Library Library.Program List Function
open Std (ExtTreeMap ExtTreeSet)
open Json (Value Fields)

section

variable {env : Env} {ev : Event} {columns : List String} {key : PkValue}

theorem resolvePk_identified (identifies : Identifies columns env ev key) (table : String) :
    ∃ payload, parsePayload ev = .ok payload ∧
      resolvePk env table columns payload .delete ev = .ok key := by
  rcases identifies with ⟨tuple, carried, isKey⟩ | ⟨empty, named⟩
  · unfold eventRow at carried
    cases parsed : parsePayload ev with
    | error error => simp [parsed] at carried
    | ok payload =>
      rw [parsed] at carried
      refine ⟨payload, rfl, ?_⟩
      simp only at carried
      simp [resolvePk, carried, isKey]
  · have parsed : parsePayload ev = .ok (.object []) := by
      simp [parsePayload, empty, Except.mapError]
    refine ⟨_, parsed, ?_⟩
    simp [resolvePk, currentRow, Value.get?, Fields.get?, named]

theorem decodeRelated_identified (identifies : Identifies rel.pk.columns env ev key) :
    ∃ lookup, decodeRelated env rel .delete ev = .ok (.remove key lookup) := by
  obtain ⟨payload, parsed, resolved⟩ := resolvePk_identified identifies rel.table
  exact ⟨_, by simp only [decodeRelated, parsed, resolved, bind, Except.bind]; rfl⟩

theorem decodePrimary_identified (identifies : Identifies defn.primary.pk.columns env ev key) :
    decodePrimary env defn table .delete ev = .ok (.remove key) := by
  obtain ⟨payload, parsed, resolved⟩ := resolvePk_identified identifies table
  simp only [decodePrimary, parsed, resolved, bind, Except.bind]

end

section

variable {schema : Schema} {env : Env} {joins : List JoinDefinition} {ev : Event}
  {table : String} {op : Op} {db later : Database} {tables : Tables}

theorem Legal.accepted (legal : Legal schema env ev table op db later) (fits : Fits schema joins) :
    ∀ route ∈ routes joins table, Rejects env table op ev route = false := by
  intro route mem
  obtain ⟨defn, isDefinition, isRoute⟩ := mem_routes.mp mem
  have suits := fits defn isDefinition
  rcases isRoute with ⟨rfl, rfl⟩ | ⟨rel, isRelation, rfl, rfl⟩
  · cases legal with
    | insert carries => simp [Rejects, decodePrimary_object rfl carries, Except.isOk, Except.toBool]
    | update carries => simp [Rejects, decodePrimary_object rfl carries, Except.isOk, Except.toBool]
    | delete live identifies =>
      rw [← suits.1] at identifies
      simp [Rejects, decodePrimary_identified identifies, Except.isOk, Except.toBool]
    | truncate => simp [Rejects]
  · cases legal with
    | insert carries => simp [Rejects, decodeRelated_object rfl carries, Except.isOk, Except.toBool]
    | update carries => simp [Rejects, decodeRelated_object rfl carries, Except.isOk, Except.toBool]
    | delete live identifies =>
      rw [← suits.2 rel isRelation] at identifies
      obtain ⟨lookup, decoded⟩ := decodeRelated_identified identifies
      simp [Rejects, decoded, Except.isOk, Except.toBool]
    | truncate => simp [Rejects]

theorem suits_of_route (fits : Fits schema joins) (mem : .related defn rel ∈ routes joins table) :
    rel ∈ allRelated joins ∧ rel.table = table ∧ rel.pk.columns = schema table := by
  obtain ⟨isRelation, ofTable⟩ := allRelated_of_route mem
  obtain ⟨owner, isOwner, related⟩ := mem_flatMap.mp isRelation
  exact ⟨isRelation, ofTable, ofTable ▸ (fits owner isOwner).2 rel related⟩

theorem allTurn_delete (fits : Fits schema joins)
    (identifies : Identifies (schema table) env ev key) :
    AllTurn env .delete ev tables table key none (routes joins table) := by
  intro defn rel mem
  obtain ⟨isRelation, rfl, columns⟩ := suits_of_route fits mem
  rw [← columns] at identifies
  obtain ⟨lookup, decoded⟩ := decodeRelated_identified identifies
  exact ⟨rfl, _, turns_remove decoded⟩

theorem Legal.turns (legal : Legal schema env ev table op db later) (fits : Fits schema joins)
    (concerns : Concerns ev table op) (kept : KeysKept joins env tables ev)
    (notTruncate : op ≠ .truncate) :
    ∃ pk new, AllTurn env op ev tables table pk new (routes joins table) := by
  cases legal with
  | @insert _ row carries distinct =>
    refine ⟨keyOf (schema table) row, some (.object row), fun defn rel mem => ?_⟩
    obtain ⟨front, back, split⟩ := append_of_mem mem
    obtain ⟨_, rfl, columns⟩ := suits_of_route fits mem
    rw [← columns]
    refine ⟨rfl, _, turns_store rfl carries distinct (fun _ => ?_) rfl⟩
    exact kept rel.table .insert front defn rel back _ concerns.located concerns.named notTruncate
      split (.inl rfl) (decodeRelated_object rfl carries)
  | @update _ key old new carries distinct =>
    obtain ⟨value, isValue⟩ := Value.isObject_iff.mp (mergeOver_isObject
      (priorOf Op.update (tables.getForeign table (keyOf (schema table) new))) new)
    refine ⟨keyOf (schema table) new, some (.object value), fun defn rel mem => ?_⟩
    obtain ⟨_, rfl, columns⟩ := suits_of_route fits mem
    rw [← columns] at isValue ⊢
    exact ⟨rfl, _, turns_store rfl carries distinct (by simp) isValue⟩
  | delete live identifies => exact ⟨_, none, allTurn_delete fits identifies⟩
  | truncate => exact absurd rfl notTruncate

theorem tables_handle_unconcerned (concerns : Concerns ev table op)
    (unconcerned : routes joins table = []) (engine : Engine) :
    (exec (handle env joins ev) engine).2.tables = engine.tables := by
  have noPrimary : (joins.any fun defn => defn.primary.table = table) = false := by
    rw [any_eq_false]
    intro defn isDefinition ofTable
    have mem : .primary defn ∈ routes joins table :=
      mem_routes.mpr ⟨defn, isDefinition, .inl ⟨rfl, by simpa using ofTable⟩⟩
    simp [unconcerned] at mem
  have inner : exec (handleInner env joins ev) engine = (.ok false, suspended ev engine) := by
    have idle : exec (handleRow env joins table op ev) (suspended ev engine) =
        (.ok ⟨⟩, suspended ev engine) := by
      unfold handleRow
      rw [noPrimary, unconcerned, if_neg (by simp)]
      rfl
    rw [exec_handleInner_row concerns.isRow, concerns.located, concerns.named,
      exec_bind_ok (exec_check (.ok table) _), exec_bind_ok (exec_check (.ok op) _),
      exec_bind_ok idle,
      unconcerned]
    rfl
  unfold handle
  rw [exec_bind_ok inner]
  have same := @send_same env ev SameTables _ (fun _ => rfl) (suspended ev engine)
  simpa [SameTables] using same

section

variable {isAlphanumeric : Char → Bool} {engine after : Engine}
  {result : Except JoinError PUnit}

theorem exec_handle_legal (fits : Fits schema joins) (objects : RawObjects engine.tables)
    (concerns : Concerns ev table op) (legal : Legal schema env ev table op db later)
    (concerned : routes joins table ≠ [])
    (ran : exec (handle env joins ev) engine = (result, after)) (continues : Continues result) :
    exec (handleRow env joins table op ev) (suspended ev engine) = (.ok ⟨⟩, after) := by
  rw [exec_handle_row concerns.isRow concerns.located concerns.named concerned] at ran
  cases result with
  | ok done => exact ran
  | error error =>
    obtain ⟨notTruncate, early⟩ := exec_handleRow_permanent (by simpa using objects) ran
      (continues error rfl)
    have all : ((routes joins table).takeWhile fun route =>
        !Rejects env table op ev route) = routes joins table := by
      refine takeWhile_eq_self_iff.mpr fun route mem => ?_
      simp [legal.accepted fits route mem]
    rw [all] at early
    rw [handleRow_writes notTruncate, early] at ran
    cases ran

theorem exec_routes_truncate (ran : exec (handleRow env joins table .truncate ev) engine =
      (.ok ⟨⟩, after)) :
    ∃ mid, SameForeign engine mid ∧
      exec (each (handleRoute env table .truncate ev) (routes joins table)) mid =
        (.ok ⟨⟩, after) := by
  obtain ⟨_, mid, ranFirst, ranRoutes⟩ := exec_bind_inv ran
  refine ⟨mid, ?_, ranRoutes⟩
  split at ranFirst
  · exact handlePrimaryTruncate_sameForeign.ran ranFirst
  · cases ranFirst
    exact refl_of SameForeign engine

theorem ForeignExact.of_same (same : SameRelated left right)
    (exact : ForeignExact joins left) : ForeignExact joins right := by
  simpa only [ForeignExact, ListedAt, Tables.getForeign, same.1, same.2] using exact

section

variable (accepted : validateSpec isAlphanumeric joins = .ok ())
  (noFetch : ∀ defn ∈ joins, defn.backfill = .none) (fits : Fits schema joins)

include accepted noFetch fits

theorem foreignExact_step (objects : RawObjects engine.tables) (concerns : Concerns ev table op)
    (legal : Legal schema env ev table op db later) (kept : KeysKept joins env engine.tables ev)
    (ran : exec (handle env joins ev) engine = (result, after)) (continues : Continues result)
    (exact : ForeignExact joins engine.tables) : ForeignExact joins after.tables := by
  by_cases concerned : routes joins table = []
  · have same := @tables_handle_unconcerned env joins ev table op concerns concerned engine
    rw [ran] at same
    rwa [show after.tables = engine.tables from same]
  · have finished := exec_handle_legal fits objects concerns legal concerned ran continues
    by_cases isTruncate : op = .truncate
    · subst isTruncate
      obtain ⟨mid, same, ranRoutes⟩ := exec_routes_truncate finished
      have sameMid : SameRelated engine.tables mid.tables := by
        simpa only [SameForeign, SameRelated, suspended_tables] using same
      exact truncation_exact accepted noFetch ranRoutes (exact.of_same sameMid)
    · obtain ⟨pk, new, turn⟩ := legal.turns fits concerns kept isTruncate
      rw [handleRow_writes isTruncate] at finished
      rw [← suspended_tables ev engine] at turn exact
      refine (turn.exact accepted noFetch isTruncate ?_ finished exact).1
      intro front defn rel back change split first turns
      simp only [suspended_tables] at turns ⊢
      exact kept table op front defn rel back change concerns.located concerns.named
        isTruncate split (.inr first) turns.decoded

theorem History.foreignExact (history : History schema joins
      (fun engine env ev => KeysKept joins env engine.tables ev) db engine) :
    ForeignExact joins engine.tables := by
  induction history with
  | start engine isEmpty =>
    rw [isEmpty]
    intro rel _ pk other
    simp [Tables.empty, Tables.getForeign, targetKey]
  | step earlier concerns legal kept ran continues ih =>
    exact foreignExact_step accepted noFetch fits earlier.reachable.rawObjects concerns legal
      kept ran continues ih

end

end

end

/-- Orders embed the items given with them, from the table of the items. -/
def giftsOf : RelatedDefinition where
  id := "gift"
  table := "public.items"
  pk := column "id"
  joinOn := ⟨column "id", column "gift_of"⟩
  select := []
  embedAs := "gifts"
  cardinality := .many
  onMissing := .null
  sortBy := none

def giftSpec : List JoinDefinition := [ordersWith "orders" [itemsOf, giftsOf]]

def idSchema : Schema := fun _ => ["id"]

/-- The item, sold with one order and given with another. -/
def itemOf (giftOf : Nat) : Fields :=
  [("id", number 3), ("order_id", number 1), ("gift_of", number giftOf)]

def itemInserted : Event where
  subject := ⟨"postgres.public.items.insert", by decide⟩
  headers := ∅
  payload := .ok (.object (itemOf 2))

def itemUpdated : Event where
  subject := ⟨"postgres.public.items.update", by decide⟩
  headers := ∅
  payload := .ok (.object [("new", .object (itemOf 5))])

def itemKey : RowKey := ⟨"public.items", ⟨"[\"3\"]"⟩⟩

theorem fits_giftSpec : Fits idSchema giftSpec := by
  intro defn isDefinition
  cases mem_singleton.mp isDefinition
  refine ⟨rfl, fun rel isRelation => ?_⟩
  rcases mem_pair.mp isRelation with rfl | rfl <;> rfl

theorem noFetch_giftSpec : ∀ defn ∈ giftSpec, defn.backfill = .none := by
  intro defn isDefinition
  cases mem_singleton.mp isDefinition
  rfl

theorem legal_itemInserted : Legal idSchema .calm itemInserted "public.items" .insert
    (fun _ => none) (update (fun _ => none) itemKey (some (itemOf 2))) := by
  have isKey : (⟨"public.items", keyOf (idSchema "public.items") (itemOf 2)⟩ : RowKey) =
    itemKey := by decide +kernel
  rw [← isKey]
  refine Legal.insert rfl (by unfold DistinctNames; decide) ?_ rfl
  intro column isColumn
  cases mem_singleton.mp isColumn
  exact ⟨number 3, rfl, rfl⟩

theorem history_itemInserted {Meets} (meets : Meets .new .calm itemInserted) :
    History idSchema giftSpec Meets
      (update (fun _ => none) itemKey (some (itemOf 2)))
      (feed giftSpec itemInserted .new) :=
  .step (.start .new rfl) ⟨by decide, by decide +kernel, by decide +kernel⟩ legal_itemInserted
    meets (ok_feed (by decide +kernel)) (continues_of_isOk rfl)

end Ventstream.Joins
