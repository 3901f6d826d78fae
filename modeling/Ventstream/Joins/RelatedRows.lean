import Ventstream.Joins.Frame

/-! # Related rows

An accepted event on a related table stores or removes one row, lists it under its
join key and drops the listing it had, and then sends the primaries under the keys
it touched. Here is what that does to the rows and the listings, relation by
relation: a relation only ever touches its own listings, but the rows of a table
are shared by all relations over it.
-/

namespace Ventstream.Joins

open Core Library Library.Program
open Std (ExtTreeMap ExtTreeSet)
open Json (Value Fields)

def RelatedChange.pk : RelatedChange → PkValue
  | .store pk _ _ => pk
  | .remove pk _ => pk

@[simp] theorem RelatedChange.pk_store (pk : PkValue) (row : Value) (lookup : PkValue) :
    (RelatedChange.store pk row lookup).pk = pk := rfl

@[simp] theorem RelatedChange.pk_remove (pk lookup : PkValue) :
    (RelatedChange.remove pk lookup).pk = pk := rfl

section

variable (tables : Tables) (rel : RelatedDefinition) (op : Op)

def rowAfter : RelatedChange → Option Value
  | .store pk row _ => some (mergeOver (priorOf op (tables.getForeign rel.table pk)) row)
  | .remove _ _ => none

/-- The key under which the change lists the row, or had it listed. -/
def listedUnder : RelatedChange → PkValue
  | .store pk row lookup =>
    joinKey rel (mergeOver (priorOf op (tables.getForeign rel.table pk)) row) lookup
  | .remove pk lookup =>
    ((tables.getForeign rel.table pk).bind (extractPk · rel.joinOn.target.columns)).getD lookup

/-- The other key that the change touches, if it moves the row. -/
def movedFrom : RelatedChange → Option PkValue
  | .store pk row lookup =>
    reparentedFrom rel (priorOf op (tables.getForeign rel.table pk))
      (listedUnder tables rel op (.store pk row lookup))
  | .remove _ _ => none

def relatedMutations : RelatedChange → List Mutation
  | .store pk row lookup =>
    storeRelated rel pk (mergeOver (priorOf op (tables.getForeign rel.table pk)) row)
      (listedUnder tables rel op (.store pk row lookup))
      (movedFrom tables rel op (.store pk row lookup))
  | .remove pk lookup =>
    [.deleteForeign ⟨rel.table, pk⟩,
      .removeForeignByFk ⟨rel.id, listedUnder tables rel op (.remove pk lookup), pk⟩]

def changed (change : RelatedChange) : Tables :=
  tables.applyAll (relatedMutations tables rel op change)

variable {tables rel op}

theorem movedFrom_ne (moved : movedFrom tables rel op change = some old) :
    old ≠ listedUnder tables rel op change := by
  cases change with
  | store pk row lookup => simpa using (Option.filter_eq_some_iff.mp moved).2
  | remove pk lookup => cases moved

theorem relatedMutations_foreign (change : RelatedChange) :
    ∀ mutation ∈ relatedMutations tables rel op change, mutation.isForeign := by
  cases change with
  | store pk row lookup => exact storeRelated_foreign rel pk _ _ _
  | remove pk lookup => simp [relatedMutations, Mutation.isForeign]

theorem changed_primary (change : RelatedChange) :
    (changed tables rel op change).primaryRows = tables.primaryRows ∧
      (changed tables rel op change).primaryReverse = tables.primaryReverse :=
  Tables.applyAll_foreign _ (relatedMutations_foreign change)

theorem applyAll_storeRelated (pk : PkValue) (value : Value) (key : PkValue)
    (moved : Option PkValue) :
    tables.applyAll (storeRelated rel pk value key moved) =
      { tables with
        foreignRows := tables.foreignRows.insert ⟨rel.table, pk⟩ value
        foreignByFk := moved.elim (tables.foreignByFk.insert ⟨rel.id, key, pk⟩) fun old =>
          (tables.foreignByFk.insert ⟨rel.id, key, pk⟩).erase ⟨rel.id, old, pk⟩ } := by
  cases moved <;> rfl

theorem foreignRows_changed (change : RelatedChange) : (changed tables rel op change).foreignRows =
      match rowAfter tables rel op change with
      | some value => tables.foreignRows.insert ⟨rel.table, change.pk⟩ value
      | none => tables.foreignRows.erase ⟨rel.table, change.pk⟩ := by
  cases change with
  | store pk row lookup =>
    simp only [changed, relatedMutations, applyAll_storeRelated]
    rfl
  | remove pk lookup => rfl

theorem getForeign_changed (change : RelatedChange) (table : String) (pk : PkValue) :
    (changed tables rel op change).getForeign table pk =
      if rel.table = table ∧ change.pk = pk then rowAfter tables rel op change
      else tables.getForeign table pk := by
  have here : ((⟨rel.table, change.pk⟩ : RowKey) = ⟨table, pk⟩) ↔
      rel.table = table ∧ change.pk = pk := by simp
  unfold Tables.getForeign
  rw [foreignRows_changed]
  cases rowAfter tables rel op change with
  | some value => simp only [Ordered.getElem?_set, here]
  | none => simp only [Ordered.getElem?_drop, here]

theorem mem_changed_store : link ∈ (changed tables rel op (.store pk row lookup)).foreignByFk ↔
      link = ⟨rel.id, listedUnder tables rel op (.store pk row lookup), pk⟩ ∨
        link ∈ tables.foreignByFk ∧
          ∀ old ∈ movedFrom tables rel op (.store pk row lookup), link ≠ ⟨rel.id, old, pk⟩ := by
  simp only [changed, relatedMutations, applyAll_storeRelated]
  cases moved : movedFrom tables rel op (.store pk row lookup) with
  | none => simp only [Option.elim_none, Ordered.mem_set, Option.not_mem_none, false_implies,
      implies_true, and_true]
  | some old =>
    have different := movedFrom_ne moved
    simp only [Option.elim_some, Ordered.mem_unset, Ordered.mem_set, Option.mem_some_iff,
      forall_eq']
    constructor
    · rintro ⟨notOld, same | listed⟩
      · exact .inl same
      · exact .inr ⟨listed, notOld⟩
    · rintro (rfl | ⟨listed, notOld⟩)
      · exact ⟨by simpa using different.symm, .inl rfl⟩
      · exact ⟨notOld, .inr listed⟩

theorem mem_changed_remove : link ∈ (changed tables rel op (.remove pk lookup)).foreignByFk ↔
      link ≠ ⟨rel.id, listedUnder tables rel op (.remove pk lookup), pk⟩ ∧
        link ∈ tables.foreignByFk := by
  simp only [changed, relatedMutations, Tables.applyAll, Tables.apply, List.foldl_cons,
    List.foldl_nil, Ordered.mem_unset]

theorem mem_changed_of_other (other : link.relatedId ≠ rel.id) :
    link ∈ (changed tables rel op change).foreignByFk ↔ link ∈ tables.foreignByFk := by
  have apart : ∀ key pk, link ≠ ⟨rel.id, key, pk⟩ := by
    rintro key pk rfl
    exact other rfl
  cases change with
  | store pk row lookup => simp [mem_changed_store, apart]
  | remove pk lookup => simp [mem_changed_remove, apart]

end

section

variable {env : Env} {defn : JoinDefinition} {rel : RelatedDefinition} {op : Op}
  {ev : Event}

def changedEngine (rel : RelatedDefinition) (op : Op) (change : RelatedChange) (engine : Engine) :
    Engine where
  state := engine.state.mutateAll "" (relatedMutations engine.tables rel op change)
  sent := engine.sent

@[simp] theorem tables_changedEngine (change : RelatedChange) (engine : Engine) :
    (changedEngine rel op change engine).tables = changed engine.tables rel op change := by
  simp [changedEngine, Engine.tables, changed]

@[simp] theorem sent_changedEngine (change : RelatedChange) (engine : Engine) :
    (changedEngine rel op change engine).sent = engine.sent := rfl

theorem samePrimaries_changedEngine (change : RelatedChange) (engine : Engine) :
    SamePrimaries engine (changedEngine rel op change engine) :=
  samePrimaries_mutateAll (relatedMutations_foreign change)

theorem exec_handleRelated (notTruncate : op ≠ .truncate)
    (decoded : decodeRelated env rel op ev = .ok change) (engine : Engine) :
    exec (handleRelated env defn rel op ev) engine =
      exec (reEmitPrimariesForKeys env defn rel.id (listedUnder engine.tables rel op change)
        (movedFrom engine.tables rel op change) ev) (changedEngine rel op change engine) := by
  unfold handleRelated
  rw [if_neg notTruncate, exec_bind, exec_check, decoded]
  cases change with
  | store pk row lookup =>
    rfl
  | remove pk lookup =>
    have sameKey : (removeRelatedRow rel pk lookup engine.state).1 =
        listedUnder engine.tables rel op (.remove pk lookup) := by
      simp only [removeRelatedRow, listedUnder]
      cases engine.tables.getForeign rel.table pk with
      | none => rfl
      | some prior => rfl
    have sameState : (removeRelatedRow rel pk lookup engine.state).2 =
        (changedEngine rel op (.remove pk lookup) engine).state := by
      simp only [changedEngine, relatedMutations, ← sameKey]
      rfl
    simp only [exec_onState_bind, sameKey, sameState]
    rfl

theorem exec_handleRelated_reject {error} (notTruncate : op ≠ .truncate)
    (decoded : decodeRelated env rel op ev = .error error) (engine : Engine) :
    exec (handleRelated env defn rel op ev) engine = (.error error, engine) := by
  unfold handleRelated
  rw [if_neg notTruncate, exec_bind, exec_check, decoded]

end

end Ventstream.Joins
