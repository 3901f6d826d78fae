import Ventstream.SqlDenormalize.Outputs

/-! # A history of committed changes

The state of the database after each change of a history. A change that is not about a
document's own row leaves that row in place, and it alters the document only if it
touches a related row that the row joins. So a batch that contains the change notes a
join key which leads back to the row, if the row is still there to be found.
-/

namespace Ventstream.SqlDenormalize

open List hiding after count

open Core (Event docId)
open Joins (JoinDefinition RelatedDefinition)
open Json (Value)

variable {V : Type}

variable {catalog : Catalog V} {defn : JoinDefinition} {database : Database} {change : Change}

namespace Change

def rowsAfter (rows : List Row) : Change → List Row
  | .insert _ row => rows ++ [row]
  | .update _ before after => rows.erase before ++ [after]
  | .delete _ row => rows.erase row
  | .truncate _ => []

def apply (database : Database) (change : Change) : Database :=
  Function.update database change.table (change.rowsAfter (database change.table))

/-- The change can happen. Keys of primary rows are unique, and updates keep them. -/
def Legal (catalog : Catalog V) (defn : JoinDefinition) (database : Database) : Change → Prop
  | .insert table row => table = qualified defn.primary.table →
      (keyOf defn row).isSome ∧ ∀ other ∈ primaryRows defn database,
        keyValues catalog defn other ≠ keyValues catalog defn row
  | .update table before after => before ∈ database table ∧ (table = qualified defn.primary.table →
        keyOf defn after = keyOf defn before)
  | .delete table row => row ∈ database table
  | .truncate _ => True

/-- The change is about the row of this document. -/
def Own (catalog : Catalog V) (defn : JoinDefinition) (id : String) (change : Change) : Prop :=
  change.table = qualified defn.primary.table ∧
    (change.op = .truncate ∨ ∃ row, (change.after? = some row ∨ change.before? = some row) ∧
      idOf catalog defn row = some id)

theorem apply_of_ne {table} (other : change.table ≠ table) :
    change.apply database table = database table :=
  Function.update_of_ne other.symm _ _

theorem apply_table : change.apply database change.table =
    change.rowsAfter (database change.table) :=
  Function.update_self _ _ _

theorem primaryRows_apply (ofPrimary : change.table = qualified defn.primary.table) :
    primaryRows defn (change.apply database) =
      change.rowsAfter (primaryRows defn database) := by
  unfold primaryRows
  rw [← ofPrimary, apply_table]

end Change

theorem Keyed.apply (keyed : Keyed catalog defn database)
    (legal : change.Legal catalog defn database) : Keyed catalog defn (change.apply database) := by
  by_cases ofPrimary : change.table = qualified defn.primary.table
  · have rows := @Change.primaryRows_apply defn database change ofPrimary
    cases change with
    | insert table row =>
      obtain ⟨isSome, fresh⟩ := legal ofPrimary
      constructor
      · rw [rows]
        exact forall_mem_append.mpr ⟨keyed.present, forall_mem_singleton.mpr isSome⟩
      · rw [rows]
        refine pairwise_append.mpr ⟨keyed.distinct, pairwise_singleton _ _, ?_⟩
        intro other earlier added isAdded
        rw [mem_singleton.mp isAdded]
        exact fresh other earlier
    | update table before after =>
      obtain ⟨isBefore, keeps⟩ := legal
      have sameKey := keeps ofPrimary
      have mem : before ∈ primaryRows defn database := by
        rw [primaryRows, ← ofPrimary]
        exact isBefore
      have nodup : (primaryRows defn database).Nodup :=
        keyed.distinct.imp fun differ same => differ (congrArg _ same)
      constructor
      · rw [rows]
        refine forall_mem_append.mpr ⟨fun other earlier => ?_, forall_mem_singleton.mpr ?_⟩
        · exact keyed.present other (mem_of_mem_erase earlier)
        · rw [sameKey]
          exact keyed.present before mem
      · rw [rows]
        refine pairwise_append.mpr ⟨keyed.distinct.sublist erase_sublist,
          pairwise_singleton _ _, ?_⟩
        intro other earlier added isAdded same
        rw [mem_singleton.mp isAdded, keyValues, keyValues, sameKey, ← keyValues] at same
        have isSame := keyed.eq_of_keyValues (mem_of_mem_erase earlier) mem same
        exact (nodup.mem_erase_iff.mp earlier).1 isSame
    | delete table row =>
      refine ⟨fun other isOther => ?_, ?_⟩
      · rw [rows] at isOther
        exact keyed.present other (mem_of_mem_erase isOther)
      · rw [rows]
        exact keyed.distinct.sublist erase_sublist
    | truncate table =>
      refine ⟨fun other isOther => ?_, ?_⟩
      · rw [rows] at isOther
        cases isOther
      · rw [rows]
        exact List.Pairwise.nil
  · have same : primaryRows defn (change.apply database) = primaryRows defn database :=
      Change.apply_of_ne ofPrimary
    exact ⟨by rw [same]; exact keyed.present, by rw [same]; exact keyed.distinct⟩

variable {id : String} {row : Row}

section

/-- The row is in the primary table, and its document has this id. -/
def Holds (catalog : Catalog V) (defn : JoinDefinition) (database : Database) (id : String)
    (row : Row) : Prop :=
  row ∈ primaryRows defn database ∧ idOf catalog defn row = some id

theorem holds_apply (apart : ¬ change.Own catalog defn id) :
    Holds catalog defn (change.apply database) id row ↔
      Holds catalog defn database id row := by
  refine and_congr_left fun isId => ?_
  by_cases ofPrimary : change.table = qualified defn.primary.table
  · have other : ∀ touched, change.after? = some touched ∨ change.before? = some touched →
        row ≠ touched := by
      rintro touched isTouched rfl
      exact apart ⟨ofPrimary, .inr ⟨row, isTouched, isId⟩⟩
    rw [Change.primaryRows_apply ofPrimary]
    cases change with
    | insert table inserted => simp [Change.rowsAfter, other inserted (.inl rfl)]
    | update table before after =>
      simp [Change.rowsAfter, other after (.inl rfl), mem_erase_of_ne (other before (.inr rfl))]
    | delete table deleted =>
      simp [Change.rowsAfter, mem_erase_of_ne (other deleted (.inr rfl))]
    | truncate table => exact absurd ⟨ofPrimary, .inl rfl⟩ apart
  · unfold primaryRows
    rw [Change.apply_of_ne ofPrimary]

theorem filter_erase_of_not {α : Type} [BEq α] [LawfulBEq α] {keep item}
    (dropped : keep item = false) (items : List α) :
    (items.erase item).filter keep = items.filter keep := by
  induction items with
  | nil => rfl
  | cons first rest ih =>
    by_cases same : first = item
    · subst same
      simp [dropped]
    · rw [erase_cons_tail (by simpa using same), filter_cons, filter_cons, ih]

/-- A change alters the related rows that a row joins only if it truncates their table, or
    touches one of them. -/
theorem matching_apply
    (differs : matching catalog (change.apply database) rel row ≠ matching catalog database rel row) :
    change.table = qualified rel.table ∧ (change.op = .truncate ∨
      ∃ touched, (change.after? = some touched ∨ change.before? = some touched) ∧
        joinCondition catalog rel row touched) := by
  by_cases ofRelated : change.table = qualified rel.table
  · refine ⟨ofRelated, ?_⟩
    by_contra never
    push Not at never
    obtain ⟨notTruncate, apart⟩ := never
    have missed : ∀ touched, change.after? = some touched ∨ change.before? = some touched →
        joinCondition catalog rel row touched = false :=
      fun touched isTouched => by simpa using apart touched isTouched
    refine differs ?_
    unfold matching
    rw [← ofRelated, Change.apply_table]
    cases change with
    | insert table inserted => simp [Change.rowsAfter, missed inserted (.inl rfl)]
    | update table before after =>
      simp [Change.rowsAfter, missed after (.inl rfl),
        filter_erase_of_not (missed before (.inr rfl))]
    | delete table deleted =>
      exact filter_erase_of_not (missed deleted (.inr rfl)) _
    | truncate table => exact absurd rfl notTruncate
  · refine absurd ?_ differs
    unfold matching
    rw [Change.apply_of_ne ofRelated]

theorem docExpr_congr (same : ∀ rel ∈ defn.related,
      matching catalog database rel row = matching catalog other rel row) :
    docExpr catalog defn database row = docExpr catalog defn other row := by
  unfold docExpr
  congr 1
  refine foldl_ext _ _ _ fun fields rel isRelated => ?_
  unfold subquery
  rw [same rel isRelated]

/-- The columns that the relation joins are equal only where the primary's type takes their
    texts for one value. -/
def Comparable (catalog : Catalog V) (table : Table) (joined : List (String × String)) : Prop :=
  ∀ source target left right, (source, target) ∈ joined →
    catalog.equates source table target left right = true →
      catalog.value source left = catalog.value source right

theorem joined_cells (paired : sources.length = targets.length)
    (comparable : Comparable catalog table (zip sources targets))
    (joined : ((zip sources targets).all fun (source, target) =>
      match cell row source, cell touched target with
      | some left, some right => catalog.equates source table target left right
      | _, _ => false)) :
    ∃ key name, cells touched targets = some key ∧ cells row sources = some name ∧
      values catalog sources name = values catalog sources key := by
  induction sources generalizing targets with
  | nil =>
    cases targets with
    | nil => exact ⟨[], [], rfl, rfl, rfl⟩
    | cons target rest => cases paired
  | cons source others ih =>
    cases targets with
    | nil => cases paired
    | cons target rest =>
      rw [zip_cons_cons, all_cons, Bool.and_eq_true] at joined
      obtain ⟨here, there⟩ := joined
      obtain ⟨key, name, isKey, isName, same⟩ := ih (by simpa using paired)
        (fun source target left right mem =>
          comparable source target left right (mem_cons_of_mem _ mem)) there
      cases left : cell row source with
      | none => simp [left] at here
      | some leftText =>
        cases right : cell touched target with
        | none => simp [left, right] at here
        | some rightText =>
          have sameHere : catalog.value source leftText = catalog.value source rightText :=
            comparable source target leftText rightText mem_cons_self
              (by simpa [left, right] using here)
          refine ⟨rightText :: key, leftText :: name, ?_, ?_, ?_⟩
          · unfold cells at isKey ⊢
            simp [right, isKey]
          · unfold cells at isName ⊢
            simp [left, isName]
          · unfold values at same ⊢
            simp [sameHere, same]

end

def databaseAfter (initial : Database) (changes : List Change) : Database :=
  changes.foldl Change.apply initial

/-- A history of legal changes from a database with keys. -/
structure History (catalog : Catalog V) (defn : JoinDefinition) where
  initial : Database
  changes : List Change
  keyed : Keyed catalog defn initial
  legal : ∀ (index : Nat) (change : Change), changes[index]? = some change →
    change.Legal catalog defn (databaseAfter initial (changes.take index))

namespace History

variable (history : History catalog defn)

def state (count : Nat) : Database := databaseAfter history.initial (history.changes.take count)

def final : Database := history.state history.changes.length

variable {history} {index : Nat}

theorem state_succ (isChange : history.changes[index]? = some change) :
    history.state (index + 1) = change.apply (history.state index) := by
  rw [state, take_add_one, isChange, databaseAfter, foldl_append]
  rfl

theorem state_succ_of_none (unchanged : history.changes[index]? = none) :
    history.state (index + 1) = history.state index := by
  rw [state, state, take_add_one, unchanged, Option.toList_none, append_nil]

theorem keyed_state (history : History catalog defn) (count : Nat) :
    Keyed catalog defn (history.state count) := by
  induction count with
  | zero => exact history.keyed
  | succ count ih =>
    cases isChange : history.changes[count]? with
    | none =>
      rw [state_succ_of_none isChange]
      exact ih
    | some change =>
      rw [state_succ isChange]
      exact ih.apply (history.legal count change isChange)

/-- No change from here on is about the document's row. -/
def Quiet (history : History catalog defn) (id : String) (since : Nat) : Prop :=
  ∀ (index : Nat) (change : Change), since ≤ index → history.changes[index]? = some change →
    ¬ change.Own catalog defn id

theorem Quiet.holds_iff (quiet : history.Quiet id since)
    (after : since ≤ count) : Holds catalog defn (history.state count) id row ↔
      Holds catalog defn (history.state since) id row := by
  induction count, after using Nat.le_induction with
  | base => rfl
  | succ count after ih =>
    cases isChange : history.changes[count]? with
    | none =>
      rw [state_succ_of_none isChange]
      exact ih
    | some change =>
      rw [state_succ isChange, holds_apply (quiet count change after isChange), ih]

/-- After the last change about a document's row, that row is there as the change has left
    it, or the change has removed it. -/
theorem own_cases (own : change.Own catalog defn id)
    (isChange : history.changes[index]? = some change) :
    (∃ row, change.after? = some row ∧ Holds catalog defn (history.state (index + 1)) id row) ∨
      change.op = .truncate ∨ ∃ row, change = .delete (qualified defn.primary.table) row ∧
        Holds catalog defn (history.state index) id row := by
  have legal := history.legal index change isChange
  obtain ⟨ofPrimary, touches⟩ := own
  have rows : primaryRows defn (history.state (index + 1)) =
      change.rowsAfter (primaryRows defn (history.state index)) := by
    rw [state_succ isChange, Change.primaryRows_apply ofPrimary]
  cases touches with
  | inl truncates => exact .inr (.inl truncates)
  | inr touches =>
    obtain ⟨row, isRow, isId⟩ := touches
    cases change with
    | insert table inserted =>
      obtain rfl : inserted = row := by simpa [Change.after?, Change.before?] using isRow
      exact .inl ⟨inserted, rfl, by simp [rows, Change.rowsAfter], isId⟩
    | update table before after =>
      -- An update keeps the key, so that the new row has the id as well.
      have sameKey := legal.2 ofPrimary
      have isIdAfter : idOf catalog defn after = some id := by
        cases isRow with
        | inl isAfter =>
          cases isAfter
          exact isId
        | inr isBefore =>
          cases isBefore
          rw [← isId, idOf, idOf, keyText, keyText, sameKey]
      exact .inl ⟨after, rfl, by simp [rows, Change.rowsAfter], isIdAfter⟩
    | delete table deleted =>
      obtain rfl : deleted = row := by simpa [Change.after?, Change.before?] using isRow
      have here : table = qualified defn.primary.table := ofPrimary
      subst here
      exact .inr (.inr ⟨deleted, rfl, legal, isId⟩)
    | truncate table => simp [Change.after?, Change.before?] at isRow

end History

end Ventstream.SqlDenormalize
