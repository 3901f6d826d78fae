import Ventstream.Joins.Poison

/-! # The foreign index

`foreign_by_fk` lists a related row under its join key, per relation. Relations over
one table share the stored row, and each recovers the key the row is listed under
from it. The first relation to see an event finds the row as it was; the later ones
find what the first has made of it. Their listings stay exact when the event does
not change their key, or carries it.
-/

namespace Ventstream.Joins

open Core Library Library.Program
open List hiding after lookup replace
open Std (ExtTreeMap ExtTreeSet)
open Json (Value Fields)

variable {env : Env} {table : String} {op : Op} {ev : Event} {rel : RelatedDefinition}

section

variable {tables : Tables}

/-- The join key of a related row, if there is one. -/
def targetKey (rel : RelatedDefinition) (row : Option Value) : Option PkValue :=
  row.bind (extractPk · rel.joinOn.target.columns)

def ListedAt (tables : Tables) (rel : RelatedDefinition) (pk : PkValue) (key : Option PkValue) :
    Prop :=
  ∀ other, (⟨rel.id, other, pk⟩ : ForeignLink) ∈ tables.foreignByFk ↔ key = some other

/-- Every relation lists exactly the stored rows of its table, under their join keys. -/
def ForeignExact (joins : List JoinDefinition) (tables : Tables) : Prop :=
  ∀ rel ∈ allRelated joins, ∀ pk,
    ListedAt tables rel pk (targetKey rel (tables.getForeign rel.table pk))

theorem targetKey_object (fields : Fields) :
    targetKey rel (some (.object fields)) = some (keyOf rel.joinOn.target.columns fields) := rfl

/-- Storing a row lists it under its key alone if it was unlisted, listed there already, or
    listed under the key of the row that the relation finds. -/
theorem listedAt_store (listed : ListedAt tables rel pk was)
    (isValue : mergeOver (priorOf op (tables.getForeign rel.table pk)) row = .object value)
    (known : was = none ∨ was = targetKey rel (some (.object value)) ∨
      was = targetKey rel (priorOf op (tables.getForeign rel.table pk))) :
    ListedAt (changed tables rel op (.store pk row lookup)) rel pk
      (targetKey rel (some (.object value))) := by
  have under : listedUnder tables rel op (.store pk row lookup) =
      keyOf rel.joinOn.target.columns value := by
    simp [listedUnder, isValue, joinKey]
  have moved : movedFrom tables rel op (.store pk row lookup) =
      (targetKey rel (priorOf op (tables.getForeign rel.table pk))).filter
        (· ≠ keyOf rel.joinOn.target.columns value) := by
    simp only [movedFrom, under]
    rfl
  intro other
  rw [mem_changed_store, under, moved, targetKey_object, listed other]
  constructor
  · rintro (same | ⟨isWas, stays⟩)
    · simpa using same.symm
    · rcases known with unlisted | there | found
      · simp [unlisted] at isWas
      · rw [← isWas, there, targetKey_object]
      · by_contra different
        have left : other ∈ (targetKey rel (priorOf op (tables.getForeign rel.table pk))).filter
            (· ≠ keyOf rel.joinOn.target.columns value) := by
          rw [← found, isWas]
          have apart : other ≠ keyOf rel.joinOn.target.columns value := fun same =>
            different (by rw [same])
          simpa [Option.filter_some] using apart
        exact stays other left rfl
  · intro same
    cases same
    exact .inl rfl

theorem listedAt_remove (listed : ListedAt tables rel pk was)
    (known : was = none ∨ was = some (listedUnder tables rel op (.remove pk lookup))) :
    ListedAt (changed tables rel op (.remove pk lookup)) rel pk none := by
  intro other
  rw [mem_changed_remove, listed other]
  constructor
  · rintro ⟨notRemoved, isWas⟩
    rcases known with unlisted | there
    · simp [unlisted] at isWas
    · rw [isWas] at there
      cases there
      exact absurd rfl notRemoved
  · rintro ⟨⟩

theorem ListedAt.changed_other (listed : ListedAt tables rel pk key)
    (apart : other.id ≠ rel.id ∨ change.pk ≠ pk) :
    ListedAt (changed tables other op change) rel pk key := by
  intro key
  rw [← listed key]
  rcases apart with differentId | differentPk
  · exact mem_changed_of_other (Ne.symm differentId)
  · have elsewhere : ∀ name under,
        (⟨rel.id, key, pk⟩ : ForeignLink) ≠ ⟨name, under, change.pk⟩ := by
      intro name under same
      exact differentPk (congrArg ForeignLink.foreignPk same).symm
    cases change with
    | store otherPk row lookup =>
      simp only [mem_changed_store, RelatedChange.pk_store] at elsewhere ⊢
      simp [elsewhere]
    | remove otherPk lookup =>
      simp only [mem_changed_remove, RelatedChange.pk_remove] at elsewhere ⊢
      simp [elsewhere]

/-- The event leaves the key that the stored row has for a relation as it is, or carries it. -/
def KeyKept (tables : Tables) (rel : RelatedDefinition) (op : Op) : RelatedChange → Prop
  | .store pk row lookup => ∀ old, targetKey rel (tables.getForeign rel.table pk) = some old →
      targetKey rel (rowAfter tables rel op (.store pk row lookup)) = some old
  | .remove pk lookup => ∀ old, targetKey rel (tables.getForeign rel.table pk) = some old →
      lookup = old

/-- A relation that is not the first over its table loses track of a row's old key, and so does
    every relation when an INSERT finds a row that an UPDATE has left under its old key: these
    relations' keys are kept. -/
def KeysKept (joins : List JoinDefinition) (env : Env) (tables : Tables) (ev : Event) : Prop :=
  ∀ table op front defn rel back change, sourceTable ev = .ok table →
    subjectOp ev = .ok op → op ≠ .truncate →
    routes joins table = front ++ .related defn rel :: back →
    (op = .insert ∨ ∃ route ∈ front, route.relationId.isSome = true) →
    decodeRelated env rel op ev = .ok change → KeyKept tables rel op change

end

variable {joins : List JoinDefinition}

section

variable {before : Tables} {pk : PkValue} {new : Option Value}

/-- A relation takes the event as a change of one row, and makes it whether or not an earlier
    relation has made it already. -/
structure Turns (env : Env) (op : Op) (ev : Event) (before : Tables) (pk : PkValue)
    (new : Option Value) (rel : RelatedDefinition) (change : RelatedChange) : Prop where
  decoded : decodeRelated env rel op ev = .ok change
  located : change.pk = pk
  turned : ∀ tables : Tables, tables.getForeign rel.table pk = before.getForeign rel.table pk ∨
      tables.getForeign rel.table pk = new → rowAfter tables rel op change = new
  listed : ∀ tables : Tables,
    ListedAt tables rel pk (targetKey rel (before.getForeign rel.table pk)) →
    tables.getForeign rel.table pk = before.getForeign rel.table pk ∨
      tables.getForeign rel.table pk = new ∧ KeyKept before rel op change →
    ListedAt (changed tables rel op change) rel pk (targetKey rel new)

/-- An event that brings a row turns the stored one into the merge of both. A row that an insert
    finds must have its key. -/
theorem turns_store (writes : op.writes) (carries : eventRow ev op = some (.object fields))
    (distinct : DistinctNames fields)
    (kept : op = .insert → KeyKept before rel op (.store (keyOf rel.pk.columns fields)
      (.object fields) (keyOf rel.joinOn.target.columns fields)))
    (isValue : mergeOver (priorOf op (before.getForeign rel.table (keyOf rel.pk.columns fields)))
      (.object fields) = .object value) :
    Turns env op ev before (keyOf rel.pk.columns fields) (some (.object value)) rel
      (.store (keyOf rel.pk.columns fields) (.object fields)
        (keyOf rel.joinOn.target.columns fields)) := by
  have again : mergeOver (priorOf op (some (.object value))) (.object fields) = .object value := by
    rw [← isValue]
    exact mergeOver_twice op _ distinct
  have made : ∀ tables : Tables, tables.getForeign rel.table (keyOf rel.pk.columns fields) =
          before.getForeign rel.table (keyOf rel.pk.columns fields) ∨
        tables.getForeign rel.table (keyOf rel.pk.columns fields) = some (.object value) →
      mergeOver (priorOf op (tables.getForeign rel.table (keyOf rel.pk.columns fields)))
        (.object fields) = .object value := by
    rintro tables (same | same)
    · rw [same, isValue]
    · rw [same, again]
  refine ⟨decodeRelated_object writes carries, rfl, ?_, ?_⟩
  · intro tables found
    exact congrArg some (made tables found)
  · intro tables listed found
    refine listedAt_store listed (made tables (found.imp_right And.left)) ?_
    cases old : targetKey rel (before.getForeign rel.table (keyOf rel.pk.columns fields)) with
    | none => exact .inl rfl
    | some key =>
      have there : KeyKept before rel op (.store (keyOf rel.pk.columns fields) (.object fields)
          (keyOf rel.joinOn.target.columns fields)) →
          targetKey rel (some (.object value)) = some key := by
        intro kept
        have same := kept key old
        rwa [rowAfter, isValue] at same
      rcases found with same | ⟨-, kept⟩
      · by_cases isInsert : op = .insert
        · exact .inr (.inl (there (kept isInsert)).symm)
        · have isUpdate : op = .update := by
            cases op <;> simp_all [Op.writes]
          exact .inr (.inr (by simp [priorOf, isUpdate, same, old]))
      · exact .inr (.inl (there kept).symm)

theorem turns_remove (decoded : decodeRelated env rel op ev = .ok (.remove pk lookup)) :
    Turns env op ev before pk none rel (.remove pk lookup) := by
  refine ⟨decoded, rfl, fun _ _ => rfl, ?_⟩
  intro tables listed found
  refine listedAt_remove listed ?_
  cases old : targetKey rel (before.getForeign rel.table pk) with
  | none => exact .inl rfl
  | some key =>
    right
    rcases found with same | ⟨same, kept⟩
    · have stored : targetKey rel (tables.getForeign rel.table pk) = some key := by
        rw [same, old]
      simp only [targetKey] at stored
      simp [listedUnder, stored]
    · simp [listedUnder, same, kept key old]

/-- The relations among the routes all turn the row. -/
def AllTurn (env : Env) (op : Op) (ev : Event) (before : Tables) (table : String) (pk : PkValue)
    (new : Option Value) (list : List Route) : Prop :=
  ∀ defn rel, .related defn rel ∈ list →
    rel.table = table ∧ ∃ change, Turns env op ev before pk new rel change

section

variable {list : List Route} {engine after : Engine}
  (turn : AllTurn env op ev before table pk new list) (notTruncate : op ≠ .truncate)

theorem AllTurn.subset (turn : AllTurn env op ev before table pk new list)
    (isPart : part ⊆ list) : AllTurn env op ev before table pk new part :=
  fun defn rel mem => turn defn rel (isPart mem)

include turn notTruncate

theorem AllTurn.kept (kept : Tables → Prop) (noFetch : ∀ route ∈ list, route.owner.backfill = .none)
    (ran : exec (each (handleRoute env table op ev) list) engine = (.ok ⟨⟩, after))
    (related : ∀ left right, SameRelated left right → kept left → kept right)
    (step : ∀ defn rel change tables, .related defn rel ∈ list → rel.table = table →
      Turns env op ev before pk new rel change → kept tables →
        kept (changed tables rel op change)) (holds : kept engine.tables) : kept after.tables := by
  have run := @routes_effect env table op ev list kept noFetch related (by
    intro route mem tables holds
    cases route with
    | primary defn => exact holds
    | related defn rel =>
      obtain ⟨ofTable, change, turns⟩ := turn defn rel mem
      simp only [effect, if_neg notTruncate, turns.decoded]
      exact step defn rel change tables mem ofTable turns holds) engine holds
  rw [ran] at run
  exact run

variable (noFetch : ∀ route ∈ list, route.owner.backfill = .none)
  (ran : exec (each (handleRoute env table op ev) list) engine = (.ok ⟨⟩, after))

include noFetch ran

theorem AllTurn.row (isOld : old = before.getForeign table pk ∨ old = new)
    (holds : engine.tables.getForeign table pk = old ∨ engine.tables.getForeign table pk = new) :
    after.tables.getForeign table pk = old ∨ after.tables.getForeign table pk = new := by
  refine turn.kept notTruncate (fun tables =>
    tables.getForeign table pk = old ∨ tables.getForeign table pk = new) noFetch ran ?_ ?_ holds
  · intro left right same holds
    simpa only [Tables.getForeign, same.1] using holds
  · rintro defn rel change tables _ rfl turns holds
    right
    rw [getForeign_changed, if_pos ⟨rfl, turns.located⟩]
    apply turns.turned
    rcases isOld with rfl | rfl
    · exact holds
    · exact .inr (by simpa using holds)

theorem AllTurn.other_row (apart : ¬ (table = other ∧ pk = key)) :
    after.tables.getForeign other key = engine.tables.getForeign other key := by
  refine turn.kept notTruncate (fun tables =>
    tables.getForeign other key = engine.tables.getForeign other key) noFetch ran ?_ ?_ rfl
  · intro left right same holds
    simpa only [Tables.getForeign, same.1] using holds
  · rintro defn rel change tables _ rfl turns holds
    rw [getForeign_changed, turns.located, if_neg apart, holds]

theorem AllTurn.listings {row key}
    (apart : (∀ defn other, .related defn other ∈ list → other.id ≠ rel.id) ∨ pk ≠ row)
    (holds : ListedAt engine.tables rel row key) : ListedAt after.tables rel row key := by
  refine turn.kept notTruncate (fun tables => ListedAt tables rel row key) noFetch ran ?_ ?_ holds
  · intro left right same holds
    simpa only [ListedAt, same.2] using holds
  · intro defn other change tables mem _ turns holds
    refine holds.changed_other ?_
    rw [turns.located]
    exact apart.imp_left fun others => others defn other mem

/-- What a relation finds after the routes before it: the old row, or the new one if it is not
    the first to turn it. -/
theorem AllTurn.found (isBefore : before = engine.tables)
    (others : (∃ route ∈ list, route.relationId.isSome) → turned) :
    after.tables.getForeign table pk = before.getForeign table pk ∨
      after.tables.getForeign table pk = new ∧ turned := by
  by_cases first : ∃ route ∈ list, route.relationId.isSome
  · have row := turn.row notTruncate noFetch ran (.inl rfl) (.inl (by rw [isBefore]))
    exact row.imp_right fun same => ⟨same, others first⟩
  · left
    have acts : ActsFirst list := by
      intro route mem
      cases route with
      | primary owner => exact ⟨owner, rfl, noFetch _ mem⟩
      | related owner other => exact absurd ⟨_, mem, rfl⟩ first
    simp only [Tables.getForeign, isBefore, (acts.sameForeign.ran ran).1]

/-- A relation among the routes turns the row, and lists it under its new key, if it is the
    first or its key is kept. -/
theorem AllTurn.own_row (isBefore : before = engine.tables)
    (split : list = front ++ .related defn rel :: back)
    (others : ∀ defn other, .related defn other ∈ front ++ back → other.id ≠ rel.id)
    (kept : (∃ route ∈ front, route.relationId.isSome) →
      ∀ change, Turns env op ev before pk new rel change → KeyKept before rel op change)
    (listed : ListedAt engine.tables rel pk (targetKey rel (before.getForeign table pk))) :
    after.tables.getForeign table pk = new ∧ ListedAt after.tables rel pk (targetKey rel new) := by
  subst split
  obtain ⟨early, late, ranFront, ranOwn, ranBack⟩ := exec_each_split ran
  have turnFront := turn.subset (subset_append_left front _)
  have turnBack := turn.subset (fun route (mem : route ∈ back) =>
    mem_append_right front (mem_cons_of_mem (.related defn rel) mem))
  have fetchFront := fun route mem =>
    noFetch route (subset_append_left front _ mem)
  have fetchBack := fun route mem =>
    noFetch route (subset_append_right front _ (mem_cons_of_mem _ mem))
  obtain ⟨rfl, change, turns⟩ := turn defn rel (by simp)
  have listedEarly := turnFront.listings notTruncate fetchFront ranFront
    (.inl fun owner other mem => others owner other (mem_append_left _ mem)) listed
  have found := turnFront.found notTruncate fetchFront ranFront isBefore fun first =>
    kept first change turns
  have own := @handleRoute_effect env rel.table op ev (.related defn rel)
    (noFetch _ (by simp)) early
  rw [ranOwn] at own
  simp only [effect, if_neg notTruncate, turns.decoded] at own
  have rowLate : late.tables.getForeign rel.table pk = new := by
    have made := @getForeign_changed early.tables rel op change rel.table pk
    rw [if_pos ⟨rfl, turns.located⟩, turns.turned _ (found.imp_right And.left)] at made
    rw [← made]
    simp only [Tables.getForeign, own.1]
  have listedLate : ListedAt late.tables rel pk (targetKey rel new) := by
    have made := turns.listed early.tables listedEarly found
    simpa only [ListedAt, own.2] using made
  refine ⟨?_, turnBack.listings notTruncate fetchBack ranBack
    (.inl fun owner other mem => others owner other (mem_append_right _ mem))
    listedLate⟩
  have turned := turnBack.row notTruncate fetchBack ranBack (.inr rfl) (.inl rowLate)
  simpa using turned

end

theorem mem_routes_related (isRelation : rel ∈ allRelated joins) :
    ∃ defn, .related defn rel ∈ routes joins rel.table := by
  obtain ⟨defn, isDefinition, mem⟩ := mem_flatMap.mp isRelation
  exact ⟨defn, mem_routes.mpr ⟨defn, isDefinition, .inr ⟨rel, mem, rfl, rfl⟩⟩⟩

theorem allRelated_of_route (mem : .related defn rel ∈ routes joins table) :
    rel ∈ allRelated joins ∧ rel.table = table := by
  obtain ⟨owner, isDefinition, ⟨isPrimary, _⟩ | ⟨other, isRelation, ofTable, same⟩⟩ :=
    mem_routes.mp mem
  · cases isPrimary
  · cases same
    exact ⟨mem_flatMap.mpr ⟨defn, isDefinition, isRelation⟩, ofTable⟩

theorem owner_noFetch (noFetch : ∀ defn ∈ joins, defn.backfill = .none) :
    ∀ route ∈ routes joins table, route.owner.backfill = .none := by
  intro route mem
  obtain ⟨defn, isDefinition, ⟨rfl, _⟩ | ⟨_, _, _, rfl⟩⟩ := mem_routes.mp mem <;>
    exact noFetch defn isDefinition

/-- A change of one row, in a spec that fetches nothing: the row turns, the others stay, and
    the listings stay exact if the keys are kept. -/
theorem AllTurn.exact (accepted : validateSpec isAlphanumeric joins = .ok ())
    (noFetch : ∀ defn ∈ joins, defn.backfill = .none) (notTruncate : op ≠ .truncate)
    (turn : AllTurn env op ev engine.tables table pk new (routes joins table))
    (kept : ∀ front defn rel back change, routes joins table = front ++ .related defn rel :: back →
      (∃ route ∈ front, route.relationId.isSome) →
      Turns env op ev engine.tables pk new rel change → KeyKept engine.tables rel op change)
    (ran : exec (each (handleRoute env table op ev) (routes joins table)) engine =
      (.ok ⟨⟩, after)) (exact : ForeignExact joins engine.tables) :
    ForeignExact joins after.tables ∧ ∀ rel ∈ allRelated joins, ∀ key,
      after.tables.getForeign rel.table key =
        if rel.table = table ∧ key = pk then new else engine.tables.getForeign rel.table key := by
  have fetches := @owner_noFetch table joins noFetch
  have each : ∀ rel ∈ allRelated joins, ∀ key,
      ListedAt after.tables rel key (targetKey rel (after.tables.getForeign rel.table key)) ∧
      after.tables.getForeign rel.table key =
        if rel.table = table ∧ key = pk then new else engine.tables.getForeign rel.table key := by
    intro rel isRelation key
    by_cases here : rel.table = table ∧ key = pk
    · obtain ⟨rfl, rfl⟩ := here
      obtain ⟨defn, mem⟩ := mem_routes_related isRelation
      obtain ⟨front, back, split⟩ := append_of_mem mem
      have distinct := relationIds_nodup accepted rel.table
      rw [split, filterMap_append, filterMap_cons, Route.relationId] at distinct
      obtain ⟨row, listed⟩ := turn.own_row notTruncate fetches ran rfl split (by
        intro owner other isOther same
        refine (nodup_cons.mp (nodup_middle.mp distinct)).1 ?_
        rw [← filterMap_append]
        exact mem_filterMap.mpr ⟨_, isOther, congrArg some same⟩)
        (fun first change turns => kept front defn rel back change split first turns)
        (exact rel isRelation key)
      rw [row, if_pos ⟨rfl, rfl⟩]
      exact ⟨listed, rfl⟩
    · rw [if_neg here, turn.other_row notTruncate fetches ran (fun same =>
        here ⟨same.1.symm, same.2.symm⟩)]
      refine ⟨turn.listings notTruncate fetches ran ?_ (exact rel isRelation key), rfl⟩
      by_cases ofTable : rel.table = table
      · exact .inr fun same => here ⟨ofTable, same.symm⟩
      · left
        intro owner other mem same
        obtain ⟨isOther, otherTable⟩ := allRelated_of_route mem
        have unique := inj_on_of_nodup_map (related_ids_nodup accepted) isOther isRelation same
        exact ofTable (unique ▸ otherTable)
  exact ⟨fun rel isRelation key => (each rel isRelation key).1,
    fun rel isRelation key => (each rel isRelation key).2⟩

end

theorem handlePrimaryTruncate_sameForeign :
    Ensures SameForeign (handlePrimaryTruncate env joins table ev) := by
  have pages : ∀ fuel, Ensures SameForeign (truncatePages env joins table ev fuel) := by
    intro fuel
    induction fuel with
    | zero => exact Ensures.pure _
    | succ fuel ih =>
      refine Ensures.bind (Ensures.update fun engine => ?_) fun removed => ?_
      · simp only [SameForeign, Engine.tables, JoinState.tables_takePrimaryTablePage, and_self]
      · split
        · exact Ensures.pure _
        · refine Ensures.bind (Ensures.each fun _ _ => Ensures.each fun _ _ => ?_) fun _ => ih
          exact send_same fun _ => ⟨rfl, rfl⟩
  exact Ensures.bind (Ensures.read _) pages

/-- Nothing is stored in the relation's table, and nothing listed by the relation. -/
def Gone (rel : RelatedDefinition) (tables : Tables) : Prop :=
  (∀ pk, tables.getForeign rel.table pk = none) ∧
    ∀ key pk, (⟨rel.id, key, pk⟩ : ForeignLink) ∉ tables.foreignByFk

theorem gone_purged (tables : Tables) (rel : RelatedDefinition) : Gone rel (purged tables rel) :=
  ⟨fun pk => by rw [getForeign_purged, if_pos rfl], fun key pk listed =>
    (mem_purged.mp listed).1 rfl⟩

theorem Gone.purged (gone : Gone rel tables)
    (other : RelatedDefinition) : Gone rel (purged tables other) := by
  refine ⟨fun pk => ?_, fun key pk listed => gone.2 key pk (mem_purged.mp listed).2⟩
  rw [getForeign_purged, gone.1 pk, ite_self]

theorem Gone.of_same (same : SameRelated left right) (gone : Gone rel left) : Gone rel right := by
  simpa only [Gone, Tables.getForeign, same.1, same.2] using gone

theorem truncation_exact (accepted : validateSpec isAlphanumeric joins = .ok ())
    (noFetch : ∀ defn ∈ joins, defn.backfill = .none)
    (ran : exec (each (handleRoute env table .truncate ev) (routes joins table)) engine =
      (.ok ⟨⟩, after)) (exact : ForeignExact joins engine.tables) :
    ForeignExact joins after.tables := by
  have fetches := @owner_noFetch table joins noFetch
  intro rel isRelation key
  by_cases here : rel.table = table
  · subst here
    obtain ⟨defn, mem⟩ := mem_routes_related isRelation
    obtain ⟨front, back, split⟩ := append_of_mem mem
    rw [split] at ran
    obtain ⟨early, late, _, ranOwn, ranBack⟩ := exec_each_split ran
    have own := @handleRoute_effect env rel.table .truncate ev (.related defn rel)
      (fetches _ mem) early
    rw [ranOwn] at own
    have goneLate : Gone rel late.tables := (gone_purged early.tables rel).of_same own
    have run := @routes_effect env rel.table .truncate ev back (Gone rel)
      (fun route isBack => fetches route (by rw [split]; simp [isBack]))
      (fun _ _ => Gone.of_same) (by
        intro route _ tables gone
        cases route with
        | primary owner => exact gone
        | related owner other => exact gone.purged other) late goneLate
    rw [ranBack] at run
    have gone : Gone rel after.tables := run
    rw [gone.1 key]
    exact fun other => by simpa [targetKey] using gone.2 other key
  · have run := @routes_effect env table .truncate ev (routes joins table)
      (fun tables => tables.getForeign rel.table key = engine.tables.getForeign rel.table key ∧
        ListedAt tables rel key (targetKey rel (engine.tables.getForeign rel.table key)))
      fetches (fun left right same holds => by
        simpa only [Tables.getForeign, ListedAt, same.1, same.2] using holds) (by
        intro route mem tables holds
        cases route with
        | primary owner => exact holds
        | related owner other =>
          obtain ⟨isOther, otherTable⟩ := allRelated_of_route mem
          have apart : rel.id ≠ other.id := fun same => here (by
            rw [inj_on_of_nodup_map (related_ids_nodup accepted) isRelation isOther same]
            exact otherTable)
          simp only [effect, if_true]
          rw [getForeign_purged, if_neg (by rw [otherTable]; exact here)]
          refine ⟨holds.1, fun listed => ?_⟩
          rw [mem_purged]
          simpa [apart] using holds.2 listed) engine ⟨rfl, exact rel isRelation key⟩
    rw [ran] at run
    rw [run.1]
    exact run.2

end Ventstream.Joins
