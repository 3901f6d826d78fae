import Mathlib

/-! # Documents kept by reading rows again

A log tells that rows of a table have changed. For each row that was inserted or
updated its follower reads the row again, at any later time, and stores what it
finds under the document id of the changed row; for a deleted row it removes the
document. A row found gone is passed over.

Rows that are there at the same time differ in their key. An update may move a row to
another id, and then nothing is done about the document under the old one.
-/

namespace Ventstream.Library

open Function

universe u v w x

inductive RowEvent (ρ : Type u) where
  | insert (row : ρ)
  | update (before after : ρ)
  | delete (row : ρ)

variable {ρ : Type u} {κ : Type v} {ι : Type w} {δ : Type x} {key : ρ → κ} {id : ρ → ι}
  {ev : RowEvent ρ} {body : ρ → δ} {docs : ι → Option δ}

namespace RowEvent

/-- The event can happen to the table. -/
def Legal (key : ρ → κ) (table : κ → Option ρ) : RowEvent ρ → Prop
  | .insert row => table (key row) = none
  | .update before after => table (key before) = some before ∧
      (key after = key before ∨ table (key after) = none)
  | .delete row => table (key row) = some row

def arrival : RowEvent ρ → Option ρ
  | .insert row => some row
  | .update _ after => some after
  | .delete _ => none

/-- The id of the document that the event is about. -/
def target (id : ρ → ι) : RowEvent ρ → ι
  | .insert row => id row
  | .update _ after => id after
  | .delete row => id row

/-- The event moves a row away from this id. -/
def Leaves (id : ρ → ι) (name : ι) : RowEvent ρ → Prop
  | .update before after => id before = name ∧ id after ≠ name
  | _ => False

theorem target_of_arrival (arrives : ev.arrival = some row) : ev.target id = id row := by
  cases ev <;> cases arrives <;> rfl

section

variable [DecidableEq κ]

def apply (key : ρ → κ) (table : κ → Option ρ) : RowEvent ρ → κ → Option ρ
  | .insert row => Function.update table (key row) (some row)
  | .update before after =>
    Function.update (Function.update table (key before) none) (key after) (some after)
  | .delete row => Function.update table (key row) none

variable {table : κ → Option ρ} {place : κ} {row : ρ}

theorem apply_arrival (arrives : ev.arrival = some row) :
    ev.apply key table (key row) = some row := by
  cases ev <;> cases arrives <;> simp [apply]

theorem apply_eq_some (isRow : ev.apply key table place = some row) :
    table place = some row ∨ ev.arrival = some row ∧ place = key row := by
  cases ev with
  | insert arrived =>
    by_cases here : place = key arrived
    · subst here
      have isArrived : arrived = row := by simpa [apply] using isRow
      exact .inr ⟨congrArg some isArrived, congrArg key isArrived⟩
    · rw [apply, update_of_ne here] at isRow
      exact .inl isRow
  | update before after =>
    by_cases here : place = key after
    · subst here
      have isArrived : after = row := by simpa [apply] using isRow
      exact .inr ⟨congrArg some isArrived, congrArg key isArrived⟩
    · rw [apply, update_of_ne here] at isRow
      by_cases old : place = key before
      · simp [old] at isRow
      · rw [update_of_ne old] at isRow
        exact .inl isRow
  | delete gone =>
    by_cases here : place = key gone
    · simp [apply, here] at isRow
    · rw [apply, update_of_ne here] at isRow
      exact .inl isRow

theorem apply_of_untouched (legal : ev.Legal key table) (isRow : table place = some row)
    (other : ev.target id ≠ id row) (stays : ¬ ev.Leaves id (id row)) :
    ev.apply key table place = some row := by
  -- A row that an event replaces or removes is the one the event names.
  have elsewhere : ∀ {gone}, table (key gone) = some gone → id gone ≠ id row →
      place ≠ key gone := by
    intro gone isGone different here
    rw [here, isGone] at isRow
    exact different (congrArg id (Option.some.inj isRow))
  cases ev with
  | insert arrived =>
    have free : place ≠ key arrived := by
      intro here
      rw [here, legal] at isRow
      cases isRow
    rw [apply, update_of_ne free, isRow]
  | delete gone => rw [apply, update_of_ne (elsewhere legal other), isRow]
  | update before after =>
    obtain ⟨isBefore, legalAfter⟩ := legal
    have notBefore : place ≠ key before := elsewhere isBefore fun same => stays ⟨same, other⟩
    have notAfter : place ≠ key after := by
      rcases legalAfter with same | free
      · rw [same]
        exact notBefore
      · intro here
        rw [here, free] at isRow
        cases isRow
    rw [apply, update_of_ne notAfter, update_of_ne notBefore, isRow]

end

section

variable [DecidableEq ι]

/-- Read the row of the event again and store or remove its document. -/
def reread (key : ρ → κ) (id : ρ → ι) (body : ρ → δ) (observed : κ → Option ρ) (docs : ι → Option δ)
    (ev : RowEvent ρ) : ι → Option δ :=
  match ev.arrival with
  | some row =>
    match observed (key row) with
    | some found => Function.update docs (id row) (some (body found))
    | none => docs
  | none => Function.update docs (ev.target id) none

variable {observed : κ → Option ρ}

theorem reread_of_ne (other : ev.target id ≠ name) :
    ev.reread key id body observed docs name = docs name := by
  cases ev with
  | delete row => exact Function.update_of_ne (Ne.symm other) _ _
  | insert row | update _ row =>
    simp only [reread, arrival]
    cases observed (key row) with
    | none => rfl
    | some found => exact update_of_ne (Ne.symm other) _ _

theorem reread_arrival (arrives : ev.arrival = some row)
    (isFound : observed (key row) = some found) :
    ev.reread key id body observed docs (id row) = some (body found) := by
  simp [reread, arrives, isFound]

end

end RowEvent

section

variable [DecidableEq κ]

def tableAfter (key : ρ → κ) (initial : κ → Option ρ) (evs : List (RowEvent ρ))
    (count : Nat) : κ → Option ρ :=
  (evs.take count).foldl (RowEvent.apply key) initial

/-- A table, with each row under its key, and what happens to it. -/
structure RowHistory (key : ρ → κ) where
  initial : κ → Option ρ
  keyed : ∀ place row, initial place = some row → key row = place
  events : List (RowEvent ρ)
  legal : ∀ (index : Nat) (ev : RowEvent ρ), events[index]? = some ev →
    ev.Legal key (tableAfter key initial events index)

namespace RowHistory

variable (history : RowHistory key)

def table (count : Nat) : κ → Option ρ := tableAfter key history.initial history.events count

def final : κ → Option ρ := history.table history.events.length

/-- The row is in the table at some time. -/
def Occurs (row : ρ) : Prop :=
  (∃ place, history.initial place = some row) ∨
    ∃ ev : RowEvent ρ, ev ∈ history.events ∧ ev.arrival = some row

def DistinctIds (id : ρ → ι) : Prop :=
  ∀ row other, history.Occurs row → history.Occurs other → id row = id other → key row = key other

/-- Nothing from this event on is about the id. -/
def Untouched (id : ρ → ι) (name : ι) (from_ : Nat) : Prop :=
  ∀ (index : Nat) (ev : RowEvent ρ), from_ ≤ index → history.events[index]? = some ev →
    ev.target id ≠ name ∧ ¬ ev.Leaves id name

/-- An id that a row is moved away from is what a later event is about. -/
def Revisited (id : ρ → ι) : Prop :=
  ∀ (index : Nat) (ev : RowEvent ρ) (name : ι), history.events[index]? = some ev →
    ev.Leaves id name → ∃ (later : Nat) (next : RowEvent ρ), index < later ∧
      history.events[later]? = some next ∧ next.target id = name

/-- Each row is read again at some time after its event, never earlier than the one before. -/
structure Observes (observed : Nat → Nat) : Prop where
  later : ∀ index < history.events.length, index < observed index
  within : ∀ index < history.events.length, observed index ≤ history.events.length
  monotone : ∀ index later, index ≤ later → later < history.events.length →
    observed index ≤ observed later

/-- The documents once the first events have been followed. -/
def docsAfter [DecidableEq ι] (id : ρ → ι) (body : ρ → δ) (observed : Nat → Nat)
    (docs : ι → Option δ) : Nat → ι → Option δ
  | 0 => docs
  | count + 1 =>
    match history.events[count]? with
    | some ev =>
      ev.reread key id body (history.table (observed count))
        (docsAfter id body observed docs count)
    | none => docsAfter id body observed docs count

end RowHistory

/-- The document under this id is right for the table. -/
def DocRight (id : ρ → ι) (body : ρ → δ) (table : κ → Option ρ) (name : ι) (doc : Option δ) :
    Prop :=
  (∀ place row, table place = some row → id row = name → doc = some (body row)) ∧
    ∀ found, doc = some found → ∃ place row, table place = some row ∧ id row = name

/-- The documents are one for each row of the table, and no others. -/
structure Projects (id : ρ → ι) (body : ρ → δ) (table : κ → Option ρ) (docs : ι → Option δ) :
    Prop where
  right : ∀ name, DocRight id body table name (docs name)
  apart : ∀ place row other second, table place = some row → table other = some second →
    id row = id second → place = other

namespace RowHistory

variable {history : RowHistory key} {index : Nat}

theorem table_succ (isEvent : history.events[index]? = some ev) :
    history.table (index + 1) = ev.apply key (history.table index) := by
  simp [table, tableAfter, List.take_add_one, isEvent, List.foldl_append]

theorem table_succ_of_none (isEnd : history.events[index]? = none) :
    history.table (index + 1) = history.table index := by
  simp [table, tableAfter, List.take_add_one, isEnd]

theorem occurs_table (count : Nat) : ∀ place row, history.table count place = some row →
    key row = place ∧ history.Occurs row := by
  induction count with
  | zero => exact fun place row isRow => ⟨history.keyed place row isRow, .inl ⟨place, isRow⟩⟩
  | succ count ih =>
    intro place row isRow
    cases isEvent : history.events[count]? with
    | none => exact ih place row (table_succ_of_none isEvent ▸ isRow)
    | some ev =>
      rw [table_succ isEvent] at isRow
      rcases RowEvent.apply_eq_some isRow with old | ⟨arrives, here⟩
      · exact ih place row old
      · exact ⟨here.symm, .inr ⟨ev, List.mem_of_getElem? isEvent, arrives⟩⟩

theorem DistinctIds.same_place (distinct : history.DistinctIds id)
    (isRow : history.table count place = some row)
    (isSecond : history.table later other = some second) (sameId : id row = id second) :
    place = other := by
  obtain ⟨rfl, occurs⟩ := occurs_table count place row isRow
  obtain ⟨rfl, occursLater⟩ := occurs_table later other second isSecond
  exact distinct row second occurs occursLater sameId

theorem table_arrival (isEvent : history.events[index]? = some ev)
    (arrives : ev.arrival = some row) : history.table (index + 1) (key row) = some row := by
  rw [table_succ isEvent]
  exact RowEvent.apply_arrival arrives

theorem DistinctIds.gone (distinct : history.DistinctIds id) {gone : ρ}
    (isEvent : history.events[index]? = some (.delete gone))
    (isRow : history.table (index + 1) place = some row) : id row ≠ id gone := by
  intro sameId
  have isGone : history.table index (key gone) = some gone := history.legal _ _ isEvent
  have same := distinct.same_place isRow isGone sameId
  rw [table_succ isEvent, same] at isRow
  simp [RowEvent.apply] at isRow

theorem Untouched.table_eq (untouched : history.Untouched id (id row) start)
    (isRow : history.table start place = some row) (more : Nat)
    (within : start + more ≤ history.events.length) :
    history.table (start + more) place = some row := by
  induction more with
  | zero => exact isRow
  | succ more ih =>
    have inside : start + more < history.events.length := by omega
    have isEvent := List.getElem?_eq_getElem inside
    obtain ⟨other, stays⟩ := untouched (start + more) _ (Nat.le_add_right _ _) isEvent
    rw [← Nat.add_assoc, table_succ isEvent]
    exact RowEvent.apply_of_untouched (history.legal _ _ isEvent) (ih (by omega)) other stays

theorem absent_of_target_ne (other : ∀ (index : Nat) (ev : RowEvent ρ), start ≤ index →
      history.events[index]? = some ev → ev.target id ≠ name)
    (none_ : ∀ place row, history.table start place = some row → id row ≠ name) (more : Nat)
    (within : start + more ≤ history.events.length) :
    ∀ place row, history.table (start + more) place = some row → id row ≠ name := by
  induction more with
  | zero => exact none_
  | succ more ih =>
    intro place row isRow
    have inside : start + more < history.events.length := by omega
    have isEvent := List.getElem?_eq_getElem inside
    rw [← Nat.add_assoc, table_succ isEvent] at isRow
    rcases RowEvent.apply_eq_some isRow with old | ⟨arrives, _⟩
    · exact ih (by omega) place row old
    · have different := other (start + more) _ (Nat.le_add_right _ _) isEvent
      rw [RowEvent.target_of_arrival arrives] at different
      exact different

theorem Untouched.docRight (untouched : history.Untouched id name start)
    (distinct : history.DistinctIds id) (within : start ≤ history.events.length)
    (right : DocRight id body (history.table start) name doc) :
    DocRight id body history.final name doc := by
  obtain ⟨more, whole⟩ := Nat.exists_eq_add_of_le within
  have stays : ∀ place row, history.table start place = some row → id row = name →
      history.final place = some row := by
    rintro place row isRow rfl
    rw [final, whole]
    exact untouched.table_eq isRow more (le_of_eq whole.symm)
  refine ⟨fun place row isRow isName => ?_, fun found isDoc => ?_⟩
  · by_cases present : ∃ other second, history.table start other = some second ∧ id second = name
    · obtain ⟨other, second, isSecond, sameName⟩ := present
      have same : place = other := distinct.same_place isRow isSecond (isName.trans sameName.symm)
      have isFinal := stays other second isSecond sameName
      rw [← same, isRow] at isFinal
      rw [Option.some.inj isFinal]
      exact right.1 other second isSecond sameName
    · have none_ := absent_of_target_ne
        (fun index ev from_ isEvent => (untouched index ev from_ isEvent).1)
        (fun other second isSecond sameName => present ⟨other, second, isSecond, sameName⟩) more
        (le_of_eq whole.symm)
      rw [final, whole] at isRow
      exact absurd isName (none_ place row isRow)
  · obtain ⟨place, row, isRow, isName⟩ := right.2 found isDoc
    exact ⟨place, row, stays place row isRow isName, isName⟩

variable [DecidableEq ι] {observed : Nat → Nat}

theorem docsAfter_succ (isEvent : history.events[index]? = some ev) :
    history.docsAfter id body observed docs (index + 1) =
      ev.reread key id body (history.table (observed index))
        (history.docsAfter id body observed docs index) := by
  simp [docsAfter, isEvent]

section

variable (distinct : history.DistinctIds id) (observes : history.Observes observed)

include distinct observes

theorem docRight_target (isEvent : history.events[index]? = some ev)
    (untouched : history.Untouched id (ev.target id) (index + 1)) :
    DocRight id body history.final (ev.target id)
      (history.docsAfter id body observed docs (index + 1) (ev.target id)) := by
  have inside : index < history.events.length := (List.getElem?_eq_some_iff.mp isEvent).1
  refine untouched.docRight distinct inside ?_
  rw [docsAfter_succ isEvent]
  cases arrives : ev.arrival with
  | some row =>
    have isTarget : ev.target id = id row := RowEvent.target_of_arrival arrives
    have arrived := table_arrival isEvent arrives
    rw [isTarget] at untouched ⊢
    have later := observes.later index inside
    obtain ⟨more, isLater⟩ := Nat.exists_eq_add_of_le (Nat.succ_le_of_lt later)
    have found : history.table (observed index) (key row) = some row := by
      have within := observes.within index inside
      rw [isLater] at within ⊢
      exact untouched.table_eq arrived more within
    rw [RowEvent.reread_arrival arrives found]
    refine ⟨fun place other isOther sameId => ?_, fun _ _ => ⟨key row, row, arrived, rfl⟩⟩
    have same := distinct.same_place isOther arrived sameId
    rw [same, arrived] at isOther
    rw [Option.some.inj isOther]
  | none =>
    cases ev with
    | insert | update => cases arrives
    | delete gone =>
      refine ⟨fun place row isRow sameId => absurd sameId (distinct.gone isEvent isRow), ?_⟩
      intro found isFound
      simp [RowEvent.reread, RowEvent.arrival, RowEvent.target] at isFound

theorem docRight_of_untouched (revisited : history.Revisited id)
    (initial : Projects id body history.initial docs) (count : Nat)
    (within : count ≤ history.events.length) :
    ∀ name, history.Untouched id name count →
      DocRight id body history.final name (history.docsAfter id body observed docs count name) := by
  induction count with
  | zero =>
    intro name untouched
    exact untouched.docRight distinct within (initial.right name)
  | succ count ih =>
    intro name untouched
    have inside : count < history.events.length := within
    have isEvent := List.getElem?_eq_getElem inside
    by_cases isTarget : history.events[count].target id = name
    · subst isTarget
      exact docRight_target distinct observes isEvent untouched
    · rw [docsAfter_succ isEvent, RowEvent.reread_of_ne isTarget]
      refine ih (le_of_lt inside) name fun index ev from_ isIndex => ?_
      rcases Nat.eq_or_lt_of_le from_ with rfl | later
      · rw [isEvent] at isIndex
        cases isIndex
        refine ⟨isTarget, fun leaves => ?_⟩
        -- A later event is about an id that is left.
        obtain ⟨later, next, after, isNext, sameName⟩ := revisited count _ name isEvent leaves
        exact (untouched later next after isNext).1 sameName
      · exact untouched index ev later isIndex

/-- If every id that a row leaves is revisited, the documents end up as the table. -/
theorem projects_final (revisited : history.Revisited id)
    (initial : Projects id body history.initial docs) :
    Projects id body history.final
      (history.docsAfter id body observed docs history.events.length) where
  right name := docRight_of_untouched distinct observes revisited initial _ le_rfl name
    fun index ev from_ isEvent => by
      rw [List.getElem?_eq_none from_] at isEvent
      cases isEvent
  apart _ _ _ _ isRow isSecond sameId := distinct.same_place isRow isSecond sameId

end

theorem observes_succ : history.Observes (· + 1) where
  later index _ := Nat.lt_succ_self index
  within _ inside := inside
  monotone _ _ ordered _ := Nat.succ_le_succ ordered

theorem docsAfter_row (distinct : history.DistinctIds id)
    (initial : Projects id body history.initial docs) (count : Nat)
    (within : count ≤ history.events.length) :
    ∀ place row, history.table count place = some row →
      history.docsAfter id body (· + 1) docs count (id row) = some (body row) := by
  induction count with
  | zero =>
    intro place row isRow
    exact (initial.right (id row)).1 place row isRow rfl
  | succ count ih =>
    intro place row isRow
    have isEvent := List.getElem?_eq_getElem within
    rw [docsAfter_succ isEvent]
    generalize history.events[count] = ev at isEvent
    by_cases isTarget : ev.target id = id row
    · cases arrives : ev.arrival with
      | some arrived =>
        have there := table_arrival isEvent arrives
        have sameId : id arrived = id row := (RowEvent.target_of_arrival arrives).symm.trans isTarget
        have same := distinct.same_place there isRow sameId
        rw [same, isRow] at there
        cases Option.some.inj there
        exact RowEvent.reread_arrival arrives (same ▸ isRow)
      | none =>
        cases ev with
        | insert | update => cases arrives
        | delete gone => exact absurd isTarget.symm (distinct.gone isEvent isRow)
    · rw [RowEvent.reread_of_ne isTarget]
      rw [table_succ isEvent] at isRow
      rcases RowEvent.apply_eq_some isRow with old | ⟨arrives, _⟩
      · exact ih (le_of_lt within) place row old
      · exact absurd (RowEvent.target_of_arrival arrives) isTarget

theorem docsAfter_of_target_ne (other : ∀ (index : Nat) (ev : RowEvent ρ), start ≤ index →
      history.events[index]? = some ev → ev.target id ≠ name) (more : Nat)
    (within : start + more ≤ history.events.length) :
    history.docsAfter id body observed docs (start + more) name =
      history.docsAfter id body observed docs start name := by
  induction more with
  | zero => rfl
  | succ more ih =>
    have inside : start + more < history.events.length := by omega
    have isEvent := List.getElem?_eq_getElem inside
    rw [← Nat.add_assoc, docsAfter_succ isEvent,
      RowEvent.reread_of_ne (other _ _ (Nat.le_add_right _ _) isEvent), ih (by omega)]

/-- A row that leaves its id for good leaves a document behind. -/
theorem revisited_of_projects (distinct : history.DistinctIds id)
    (initial : Projects id body history.initial docs) (projects : Projects id body history.final
      (history.docsAfter id body (· + 1) docs history.events.length)) : history.Revisited id := by
  intro index ev name isEvent leaves
  by_contra never
  have inside : index < history.events.length := (List.getElem?_eq_some_iff.mp isEvent).1
  have other : ∀ (later : Nat) (next : RowEvent ρ), index + 1 ≤ later →
      history.events[later]? = some next → next.target id ≠ name :=
    fun later next after isNext sameName => never ⟨later, next, after, isNext, sameName⟩
  obtain ⟨more, whole⟩ := Nat.exists_eq_add_of_le (Nat.succ_le_of_lt inside)
  cases ev with
  | insert | delete => cases leaves
  | update before after =>
    obtain ⟨rfl, away⟩ := leaves
    obtain ⟨isBefore, _⟩ := history.legal _ _ isEvent
    have moved : (RowEvent.update before after).target id ≠ id before := away
    have stale : history.docsAfter id body (· + 1) docs history.events.length (id before) =
        some (body before) := by
      rw [whole, docsAfter_of_target_ne other more (le_of_eq whole.symm),
        docsAfter_succ isEvent, RowEvent.reread_of_ne moved]
      exact docsAfter_row distinct initial index (le_of_lt inside) _ before isBefore
    have gone : ∀ place row, history.table (index + 1) place = some row →
        id row ≠ id before := by
      intro place row isRow sameId
      rw [table_succ isEvent] at isRow
      rcases RowEvent.apply_eq_some isRow with old | ⟨arrives, _⟩
      · have same := distinct.same_place old isBefore sameId
        subst same
        by_cases here : key before = key after
        · rw [RowEvent.apply, here, Function.update_self] at isRow
          cases isRow
          exact away sameId
        · rw [RowEvent.apply, update_of_ne here, update_self] at isRow
          cases isRow
      · cases arrives
        exact away sameId
    obtain ⟨place, row, isRow, sameId⟩ := (projects.right (id before)).2 _ stale
    rw [final, whole] at isRow
    exact absent_of_target_ne other gone more (le_of_eq whole.symm) place row isRow sameId

end RowHistory

end

end Ventstream.Library
