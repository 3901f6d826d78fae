import Ventstream.SurrealDb.Schedules

/-! # Batches as if one event at a time

The documents that an execution of a batch leaves, and those that its events give when they
are applied one after another. The two differ where a truncate empties a table that holds
documents of another relation.
-/

namespace Ventstream.SurrealDb

open Core Library Library.Runs Library.Strands List Function
open Json (Value Fields)

section

variable (cfg : Config)

/-- A document together with the relation that it is of. -/
structure Held where
  relation : Option String
  document : Fields

abbrev Store := RecordId → Option Held

def relationOf (ev : SinkEvent) : Option String := ev.headers["ventstream.cdc.relation"]?

/-- What a request should do: a truncate removes the documents of its relation. -/
def applyRequest (relation : Option String) (store : Store) : Request → Store
  | .truncate _ => fun key => (store key).filter fun held => held.relation ≠ relation
  | .delete table rid => update store (table, rid) none
  | .upsert table oldRid rid document =>
    let cleared := match oldRid with
      | none => store
      | some old => update store (table, old) none
    update cleared (table, rid) (some ⟨relation, document⟩)

def applyEvent (store : Store) (ev : SinkEvent) : Store :=
  match requestOf cfg ev with
  | .ok request => applyRequest (relationOf ev) store request
  | .error _ => store

def applyEvents (store : Store) (evs : List SinkEvent) : Store :=
  evs.foldl (applyEvent cfg) store

/-- The store holds the documents of the database, outside of the tables of edges. -/
def Represents (store : Store) (db : Database) : Prop :=
  ∀ key, IsDocumentKey cfg key → documents db key = (store key).map (·.document)

/-- Events that name the record. -/
def Names (ev : SinkEvent) (key : RecordId) : Prop :=
  requestOf cfg ev = .ok (.delete key.1 key.2) ∨
    ∃ oldRid rid document, requestOf cfg ev = .ok (.upsert key.1 oldRid rid document) ∧
      (oldRid = some key.2 ∨ rid = key.2)

/-- What the events have stored last, or what was there before the first of them. -/
def StoredBy (store : Store) (evs : List SinkEvent) (key : RecordId) (held : Held) : Prop :=
  (evs = [] ∧ store key = some held) ∨ ∃ earlier ev oldRid, evs = earlier ++ [ev] ∧
      requestOf cfg ev = .ok (.upsert key.1 oldRid key.2 held.document) ∧
      relationOf ev = held.relation

/-- For each document that is not written again: a truncate that follows empties its table if and
    only if a truncate that follows is of its relation. -/
def TruncatesFit (store : Store) (evs : List SinkEvent) : Prop :=
  ∀ key, IsDocumentKey cfg key → ∀ front back held, evs = front ++ back →
    StoredBy cfg store front key held → (∀ ev ∈ back, ¬ Names cfg ev key) →
    ((∃ ev ∈ back, requestOf cfg ev = .ok (.truncate key.1)) ↔
      ∃ ev ∈ back, (∃ table, requestOf cfg ev = .ok (.truncate table)) ∧
        relationOf ev = held.relation)

end

section

/-- What an event does to one record. -/
inductive Change where
  | writes (held : Option Held)
  | truncates (here : Bool) (relation : Option String)
  | leaves

def Change.IsWrite (change : Change) : Prop := ∃ held, change = .writes held

/-- A truncate empties its table. -/
def Change.actual (cell : Option Held) : Change → Option Held
  | .writes held => held
  | .truncates here _ => if here then none else cell
  | .leaves => cell

/-- A truncate should remove the documents of its relation. -/
def Change.meant (cell : Option Held) : Change → Option Held
  | .writes held => held
  | .truncates _ relation => cell.filter fun held => held.relation ≠ relation
  | .leaves => cell

variable {changes front back : List Change} {cell : Option Held} {held : Held}

/-- A truncate that empties the table of the record. -/
def Change.Empties (change : Change) : Prop := ∃ relation, change = .truncates true relation

/-- A truncate of a relation. -/
def Change.IsOf (relation : Option String) (change : Change) : Prop :=
  ∃ here, change = .truncates here relation

variable {apply : Option Held → Change → Option Held}

theorem foldl_none (keeps : ∀ change, ¬ change.IsWrite → apply none change = none)
    (unwritten : ∀ change ∈ back, ¬ change.IsWrite) : back.foldl apply none = none := by
  induction back with
  | nil => rfl
  | cons change rest ih =>
    obtain ⟨isFirst, isRest⟩ := forall_mem_cons.mp unwritten
    rw [foldl_cons, keeps change isFirst, ih isRest]

theorem foldl_some {drops : Change → Prop}
    (keeps : ∀ change, ¬ change.IsWrite → apply none change = none)
    (drop : ∀ change, ¬ change.IsWrite → drops change → apply (some held) change = none)
    (keep : ∀ change, ¬ change.IsWrite → ¬ drops change → apply (some held) change = some held)
    (unwritten : ∀ change ∈ back, ¬ change.IsWrite) :
    ((∃ change ∈ back, drops change) ∧ back.foldl apply (some held) = none) ∨
      ((¬ ∃ change ∈ back, drops change) ∧ back.foldl apply (some held) = some held) := by
  induction back with
  | nil =>
    refine .inr ⟨?_, rfl⟩
    rintro ⟨change, mem, -⟩
    cases mem
  | cons change rest ih =>
    obtain ⟨isFirst, isRest⟩ := forall_mem_cons.mp unwritten
    rw [foldl_cons]
    by_cases isDrop : drops change
    · rw [drop change isFirst isDrop, foldl_none keeps isRest]
      exact .inl ⟨⟨change, mem_cons_self, isDrop⟩, rfl⟩
    · rw [keep change isFirst isDrop]
      refine (ih isRest).imp ?_ ?_
      · rintro ⟨⟨other, mem, drops⟩, isNone⟩
        exact ⟨⟨other, mem_cons_of_mem _ mem, drops⟩, isNone⟩
      · rintro ⟨nothing, isSome⟩
        refine ⟨?_, isSome⟩
        rintro ⟨other, mem, drops⟩
        rcases mem_cons.mp mem with rfl | mem
        · exact isDrop drops
        · exact nothing ⟨other, mem, drops⟩

theorem actual_none (change : Change) (notWrite : ¬ change.IsWrite) :
    Change.actual none change = none := by
  cases change with
  | writes held => exact absurd ⟨held, rfl⟩ notWrite
  | truncates here relation => exact ite_self none
  | leaves => rfl

theorem meant_none (change : Change) (notWrite : ¬ change.IsWrite) :
    Change.meant none change = none := by
  cases change with
  | writes held => exact absurd ⟨held, rfl⟩ notWrite
  | truncates | leaves => rfl

theorem actual_unwritten (unwritten : ∀ change ∈ back, ¬ change.IsWrite) :
    ((∃ change ∈ back, change.Empties) ∧ back.foldl Change.actual (some held) = none) ∨
      ((¬ ∃ change ∈ back, change.Empties) ∧
        back.foldl Change.actual (some held) = some held) := by
  refine foldl_some actual_none ?_ ?_ unwritten
  · rintro change - ⟨relation, rfl⟩
    rfl
  · intro change notWrite notEmpties
    cases change with
    | writes held => exact absurd ⟨held, rfl⟩ notWrite
    | truncates here relation =>
      cases here with
      | true => exact absurd ⟨relation, rfl⟩ notEmpties
      | false => rfl
    | leaves => rfl

theorem meant_unwritten (unwritten : ∀ change ∈ back, ¬ change.IsWrite) :
    ((∃ change ∈ back, change.IsOf held.relation) ∧ back.foldl Change.meant (some held) = none) ∨
    ((¬ ∃ change ∈ back, change.IsOf held.relation) ∧
      back.foldl Change.meant (some held) = some held) := by
  refine foldl_some meant_none ?_ ?_ unwritten
  · rintro change - ⟨here, rfl⟩
    simp [Change.meant]
  · intro change notWrite notOf
    cases change with
    | writes held => exact absurd ⟨held, rfl⟩ notWrite
    | truncates here relation =>
      have other : held.relation ≠ relation := fun same => notOf ⟨here, by rw [same]⟩
      simp [Change.meant, other]
    | leaves => rfl

/-- What the last write of the record stored, or what was there. -/
def LastStored (cell : Option Held) (front : List Change) (held : Held) : Prop :=
  (front = [] ∧ cell = some held) ∨ ∃ earlier, front = earlier ++ [.writes (some held)]

/-- After the last write a truncate empties the table iff one is of the relation. -/
def Fits (cell : Option Held) (changes : List Change) : Prop :=
  ∀ front back held, changes = front ++ back → LastStored cell front held →
    (∀ change ∈ back, ¬ change.IsWrite) →
    ((∃ change ∈ back, change.Empties) ↔ ∃ change ∈ back, change.IsOf held.relation)

theorem agree_unwritten (unwritten : ∀ change ∈ changes, ¬ change.IsWrite) :
    (changes.foldl Change.actual cell).map (·.document) =
        (changes.foldl Change.meant cell).map (·.document) ↔
      ∀ held, cell = some held →
        ((∃ change ∈ changes, change.Empties) ↔ ∃ change ∈ changes, change.IsOf held.relation) := by
  cases cell with
  | none =>
    rw [foldl_none actual_none unwritten, foldl_none meant_none unwritten]
    simp
  | some held =>
    have one : (∀ other, some held = some other → ((∃ change ∈ changes, change.Empties) ↔
        ∃ change ∈ changes, change.IsOf other.relation)) ↔
        ((∃ change ∈ changes, change.Empties) ↔
          ∃ change ∈ changes, change.IsOf held.relation) := by
      simp
    rw [one]
    rcases @actual_unwritten changes held unwritten with ⟨empties, actual⟩ | ⟨empties, actual⟩ <;>
      rcases @meant_unwritten changes held unwritten with ⟨isOf, meant⟩ | ⟨isOf, meant⟩ <;>
      simp [actual, meant, empties, isOf]

theorem exists_last_write (changes : List Change) :
    (∀ change ∈ changes, ¬ change.IsWrite) ∨ ∃ front held back,
      changes = front ++ .writes held :: back ∧ ∀ change ∈ back, ¬ change.IsWrite := by
  induction changes using reverseRecOn with
  | nil => exact .inl fun _ mem => absurd mem not_mem_nil
  | append_singleton changes last ih =>
    by_cases isWrite : last.IsWrite
    · obtain ⟨held, rfl⟩ := isWrite
      exact .inr ⟨changes, held, [], rfl, fun _ mem => absurd mem not_mem_nil⟩
    · rcases ih with unwritten | ⟨front, held, back, rfl, unwritten⟩
      · exact .inl (forall_mem_append.mpr ⟨unwritten, forall_mem_singleton.mpr isWrite⟩)
      · exact .inr ⟨front, held, back ++ [last], by simp,
          forall_mem_append.mpr ⟨unwritten, forall_mem_singleton.mpr isWrite⟩⟩

theorem last_write_unique (same : front ++ .writes value :: back = other ++ .writes stored :: rest)
    (unwritten : ∀ change ∈ back, ¬ change.IsWrite)
    (unwrittenRest : ∀ change ∈ rest, ¬ change.IsWrite) : value = stored ∧ back = rest := by
  rcases append_eq_append_iff.mp same with ⟨between, isOther, isBack⟩ | ⟨between, isFront, isRest⟩
  · cases between with
    | nil =>
      cases isBack
      exact ⟨rfl, rfl⟩
    | cons first more =>
      cases isBack
      exact absurd ⟨stored, rfl⟩ (unwritten _ (by simp))
  · cases between with
    | nil =>
      cases isRest
      exact ⟨rfl, rfl⟩
    | cons first more =>
      cases isRest
      exact absurd ⟨value, rfl⟩ (unwrittenRest _ (by simp))

/-- A record is as meant if and only if the truncates after its last write fit. -/
theorem agree_iff : (changes.foldl Change.actual cell).map (·.document) =
    (changes.foldl Change.meant cell).map (·.document) ↔ Fits cell changes := by
  rcases exists_last_write changes with unwritten | ⟨earlier, value, rest, rfl, unwritten⟩
  · rw [agree_unwritten unwritten]
    constructor
    · rintro fits front back held rfl stored -
      rcases stored with ⟨rfl, isCell⟩ | ⟨earlier, rfl⟩
      · exact fits held isCell
      · exact absurd ⟨_, rfl⟩ (unwritten (.writes (some held)) (by simp))
    · intro fits held isCell
      exact fits [] changes held rfl (.inl ⟨rfl, isCell⟩) unwritten
  · have actual : (earlier ++ .writes value :: rest).foldl Change.actual cell =
        rest.foldl Change.actual value := by simp [Change.actual]
    have meant : (earlier ++ .writes value :: rest).foldl Change.meant cell =
        rest.foldl Change.meant value := by simp [Change.meant]
    rw [actual, meant, agree_unwritten unwritten]
    constructor
    · rintro fits front back held isSplit stored unwrittenBack
      rcases stored with ⟨rfl, -⟩ | ⟨before, rfl⟩
      · rw [nil_append] at isSplit
        exact absurd ⟨value, rfl⟩ (unwrittenBack (.writes value) (isSplit ▸ by simp))
      · rw [append_assoc] at isSplit
        obtain ⟨rfl, rfl⟩ := last_write_unique isSplit unwritten unwrittenBack
        exact fits held rfl
    · rintro fits held rfl
      exact fits (earlier ++ [.writes (some held)]) rest held (by simp) (.inr ⟨earlier, rfl⟩)
        unwritten

end

section

variable {cfg : Config} {key : RecordId}

/-- What an event does to a record. -/
def changeAt (cfg : Config) (key : RecordId) (ev : SinkEvent) : Change :=
  match requestOf cfg ev with
  | .error _ => .leaves
  | .ok (.truncate table) => .truncates (table = key.1) (relationOf ev)
  | .ok (.delete table rid) => if (table, rid) = key then .writes none else .leaves
  | .ok (.upsert table oldRid rid document) =>
    if (table, rid) = key then .writes (some ⟨relationOf ev, document⟩)
    else if oldRid.any fun old => (table, old) = key then .writes none
    else .leaves

theorem applyEvent_eq (store : Store) (ev : SinkEvent) :
    applyEvent cfg store ev key = (changeAt cfg key ev).meant (store key) := by
  unfold applyEvent changeAt
  cases isRequest : requestOf cfg ev with
  | error error => rfl
  | ok request =>
    cases request with
    | truncate table => rfl
    | delete table rid =>
      by_cases same : (table, rid) = key
      · subst same
        simp [applyRequest, Change.meant]
      · simp [applyRequest, same, update_of_ne (Ne.symm same), Change.meant]
    | upsert table oldRid rid document =>
      by_cases same : (table, rid) = key
      · subst same
        simp [applyRequest, Change.meant]
      · cases oldRid with
        | none =>
          simp [applyRequest, same, update_of_ne (Ne.symm same), Change.meant]
        | some old =>
          by_cases isOld : (table, old) = key
          · subst isOld
            simp [applyRequest, same, update_of_ne (Ne.symm same), Change.meant]
          · simp [applyRequest, same, isOld, update_of_ne (Ne.symm same),
              update_of_ne (Ne.symm isOld), Change.meant]

theorem applyEvents_eq (store : Store) (evs : List SinkEvent) : applyEvents cfg store evs key =
      (evs.map (changeAt cfg key)).foldl Change.meant (store key) := by
  induction evs generalizing store with
  | nil => rfl
  | cons ev rest ih =>
    rw [applyEvents, foldl_cons, map_cons, foldl_cons, ← applyEvent_eq]
    exact ih _

theorem putAll_documentsAt (cell : Option Held) (entry : SinkEvent × Nat) :
    putAll (operationEffect key) (cell.map (·.document)) (documentsAt cfg entry) =
      ((changeAt cfg key entry.1).actual cell).map (·.document) := by
  unfold documentsAt changeAt
  cases isRequest : requestOf cfg entry.1 with
  | error error => rfl
  | ok request =>
    cases request with
    | truncate table =>
      by_cases same : table = key.1 <;>
        simp [Request.operations, place, operationEffect, documentCall, Call.command,
          Command.effect, put, Change.actual, same]
    | delete table rid =>
      by_cases same : (table, rid) = key <;>
        simp [Request.operations, place, operationEffect, documentCall, Call.command,
          Command.effect, put, Change.actual, same]
    | upsert table oldRid rid document =>
      cases oldRid with
      | none =>
        by_cases same : (table, rid) = key <;>
          simp [Request.operations, place, operationEffect, documentCall, Call.command,
            Command.effect, put, Change.actual, same]
      | some old =>
        by_cases same : (table, rid) = key <;> by_cases isOld : (table, old) = key <;>
          simp [Request.operations, place, operationEffect, documentCall, Call.command,
            Command.effect, put, Change.actual, same, isOld]

theorem putAll_actual (cell : Option Held) (evs : List SinkEvent) (start : Nat) :
    putAll (operationEffect key) (cell.map (·.document))
        ((evs.zipIdx start).flatMap (documentsAt cfg)) =
      ((evs.map (changeAt cfg key)).foldl Change.actual cell).map (·.document) := by
  induction evs generalizing cell start with
  | nil => rfl
  | cons ev rest ih =>
    rw [zipIdx_cons, flatMap_cons, putAll_append, putAll_documentsAt, ih, map_cons, foldl_cons]

theorem changeAt_isWrite : (changeAt cfg key ev).IsWrite ↔ Names cfg ev key := by
  obtain ⟨table, rid⟩ := key
  unfold changeAt Names Change.IsWrite
  cases isRequest : requestOf cfg ev with
  | error error => simp
  | ok request =>
    cases request with
    | truncate => simp
    | delete other old =>
      by_cases same : other = table ∧ old = rid <;> simp [same]
    | upsert other oldRid new document =>
      cases oldRid with
      | none => by_cases same : other = table ∧ new = rid <;> simp [same]
      | some old =>
        by_cases same : other = table ∧ new = rid
        · simp [same]
        · by_cases isOld : other = table ∧ old = rid
          · have apart : ¬ new = rid := fun isNew => same ⟨isOld.1, isNew⟩
            simp [isOld, apart]
          · simp [same, isOld]
            tauto

theorem changeAt_truncates :
    ((changeAt cfg key ev).Empties ↔ requestOf cfg ev = .ok (.truncate key.1)) ∧
    ∀ relation, (changeAt cfg key ev).IsOf relation ↔
      (∃ table, requestOf cfg ev = .ok (.truncate table)) ∧
        relationOf ev = relation := by
  unfold changeAt Change.Empties Change.IsOf
  cases isRequest : requestOf cfg ev with
  | error error => simp
  | ok request =>
    cases request with
    | truncate => simp
    | delete =>
      dsimp only
      split <;> simp
    | upsert =>
      dsimp only
      split
      · simp
      · split <;> simp

theorem changeAt_writes_some : changeAt cfg key ev = .writes (some held) ↔
      (∃ oldRid, requestOf cfg ev = .ok (.upsert key.1 oldRid key.2 held.document)) ∧
        relationOf ev = held.relation := by
  obtain ⟨relation, document⟩ := held
  unfold changeAt
  cases isRequest : requestOf cfg ev with
  | error error => simp
  | ok request =>
    cases request with
    | truncate => simp
    | delete =>
      dsimp only
      split <;> simp
    | upsert other oldRid new stored =>
      dsimp only
      split
      · rename_i same
        cases same
        simp [and_comm]
      · rename_i other
        rw [Prod.mk.injEq] at other
        split <;> simp <;> tauto

theorem fits_iff : (∀ key, IsDocumentKey cfg key → Fits (store key) (evs.map (changeAt cfg key))) ↔
      TruncatesFit cfg store evs := by
  refine forall_congr' fun key => imp_congr_right fun _ => ?_
  constructor
  · rintro fits front back held rfl stored unnamed
    rw [map_append] at fits
    have lastStored : LastStored (store key) (front.map (changeAt cfg key)) held := by
      rcases stored with ⟨rfl, isHeld⟩ | ⟨earlier, ev, oldRid, rfl, isUpsert, isRelation⟩
      · exact .inl ⟨rfl, isHeld⟩
      · refine .inr ⟨earlier.map (changeAt cfg key), ?_⟩
        rw [map_append, map_singleton, changeAt_writes_some.mpr ⟨⟨oldRid, isUpsert⟩, isRelation⟩]
    have iff := fits _ _ held rfl lastStored (by
      intro change mem
      obtain ⟨ev, isEvent, rfl⟩ := mem_map.mp mem
      rw [changeAt_isWrite]
      exact unnamed ev isEvent)
    simpa only [mem_map, exists_exists_and_eq_and, changeAt_truncates] using iff
  · intro fits changes more held isSplit lastStored unwritten
    obtain ⟨front, back, rfl, rfl, rfl⟩ := map_eq_append_iff.mp isSplit
    have stored : StoredBy cfg store front key held := by
      rcases lastStored with ⟨isNil, isHeld⟩ | ⟨earlier, isLast⟩
      · exact .inl ⟨map_eq_nil_iff.mp isNil, isHeld⟩
      · obtain ⟨before, last, rfl, -, isOne⟩ := map_eq_append_iff.mp isLast
        obtain ⟨ev, rfl, isWrite⟩ := map_eq_singleton_iff.mp isOne
        obtain ⟨⟨oldRid, isUpsert⟩, isRelation⟩ := changeAt_writes_some.mp isWrite
        exact .inr ⟨before, ev, oldRid, rfl, isUpsert, isRelation⟩
    have iff := fits front back held rfl stored fun ev isEvent isNamed =>
      unwritten _ (mem_map_of_mem isEvent) (changeAt_isWrite.mpr isNamed)
    simpa only [mem_map, exists_exists_and_eq_and, changeAt_truncates] using iff

/-- The documents that an execution of a batch leaves are those that its accepted events give one
    after another, if and only if its truncates fit the documents. -/
theorem batch_applies_one_by_one {sink : Sink} {events : List SinkEvent} {db later : Database}
    {store : Store} (represents : Represents sink.toConfig store db)
    (writes : Writes sink.toConfig events db later) :
    Represents sink.toConfig (applyEvents sink.toConfig store events) later ↔
      TruncatesFit sink.toConfig store events := by
  rw [← fits_iff]
  refine forall_congr' fun key => imp_congr_right fun isKey => ?_
  rw [documents_writes isKey writes, represents key isKey, putAll_actual, applyEvents_eq, agree_iff]

def oneTable : Sink where
  tableRouting := .fixed "all"
  tablePrefix := ""
  batching := ⟨1000, 4096⟩
  lookupFields := []
  graphEdges := []
  fromStr := fun _ => none
  accepted := rfl

def personAdded : SinkEvent where
  subject := ⟨"pg.public.people.insert", by decide +kernel⟩
  headers := .ofList [("ventstream.doc.id", "people:1"), ("ventstream.cdc.relation", "people")]
  payload := .ok (.object [("name", .string "Ann")])
  id := "e1"
  bytes := "\x7b\"name\":\"Ann\"\x7d"

def ordersCleared : SinkEvent where
  subject := ⟨"pg.public.orders.truncate", by decide +kernel⟩
  headers := .ofList [("ventstream.cdc.relation", "orders")]
  payload := .ok .null
  id := "e2"
  bytes := "null"

def perRelation : Sink := { oneTable with tableRouting := .byOutputRelation, accepted := rfl }

def personMoved : SinkEvent where
  subject := ⟨"pg.public.people.update", by decide +kernel⟩
  headers := .ofList [("ventstream.doc.id", "people:2"), ("ventstream.doc.old_id", "people:1"),
    ("ventstream.cdc.relation", "people")]
  payload := .ok (.object [("name", .string "Ann")])
  id := "e3"
  bytes := "\x7b\"name\":\"Ann\"\x7d"

def recordIn (table key : String) : RecordId := (table, .array [.string key])

/-- A person and an order, each in the table of its relation. -/
def bothHeld : Store := fun key =>
  if key = recordIn "people" "1" then some ⟨some "people", [("name", .string "Ann")]⟩
  else if key = recordIn "orders" "7" then some ⟨some "orders", []⟩
  else none

def bothStored : Database := fun key => (bothHeld key).map fun held => .document held.document

theorem truncatesFit_moved :
    TruncatesFit perRelation.toConfig bothHeld [personMoved, ordersCleared] := by
  refine fits_iff.mp fun key _ => agree_iff.mp ?_
  have moved : requestOf perRelation.toConfig personMoved = .ok (.upsert "people"
      (some (.array [.string "1"])) (.array [.string "2"])
      [("name", .string "Ann"), ("_vs_id", .string "people:2")]) := rfl
  have cleared : requestOf perRelation.toConfig ordersCleared = .ok (.truncate "orders") := rfl
  have ofPeople : relationOf personMoved = some "people" := rfl
  have ofOrders : relationOf ordersCleared = some "orders" := rfl
  simp only [map_cons, map_nil, changeAt, moved, cleared, ofPeople, ofOrders, bothHeld, recordIn]
  by_cases isNew : key = ("people", .array [.string "2"])
  · simp [isNew, Change.actual, Change.meant]
  · by_cases isOld : key = ("people", .array [.string "1"])
    · simp [isOld, Change.actual, Change.meant]
    · by_cases isOrder : key = ("orders", .array [.string "7"])
      · simp [isOrder, Change.actual, Change.meant]
      · simp [isOrder, isOld, Ne.symm isOld, Ne.symm isNew, Change.actual, Change.meant]

/-- A person moves to another id and the orders are truncated: three runs on two tables, of which
    the first is sent again after a failure that came too late. -/
theorem batch_applies_one_by_one_moved : ∃ later,
    Writes perRelation.toConfig [personMoved, ordersCleared] bothStored later ∧
    documents later (recordIn "people" "1") = none ∧
    (documents later (recordIn "people" "2")).isSome = true ∧
    documents later (recordIn "orders" "7") = none ∧
    Represents perRelation.toConfig
      (applyEvents perRelation.toConfig bothHeld [personMoved, ordersCleared]) later := by
  have represents : Represents perRelation.toConfig bothHeld bothStored := by
    intro key _
    unfold documents bothStored
    cases bothHeld key <;> rfl
  have writes : Writes perRelation.toConfig [personMoved, ordersCleared] bothStored _ :=
    ⟨_, ⟨rfl, .head (.failed [] _ _ _ _ _ (List.Sublist.refl _)) (.head
      (.answered [] _ _ _ _ _ rfl) (.head (.answered [] _ _ _ _ _ rfl)
      (.single (.answered [[]] [] _ [] _ _ rfl))))⟩, by simp, rfl⟩
  exact ⟨_, writes, by decide +kernel, by decide +kernel, by decide +kernel,
    (batch_applies_one_by_one represents writes).mpr truncatesFit_moved⟩

/-- The truncate of one relation empties the table of all. -/
theorem truncate_removes_other_relation : ∃ later,
    Writes oneTable.toConfig [personAdded, ordersCleared] (fun _ => none) later ∧
    documents later ("all", .array [.string "people:1"]) = none ∧
    (applyEvents oneTable.toConfig (fun _ => none) [personAdded, ordersCleared]
      ("all", .array [.string "people:1"])).isSome :=
  ⟨_, ⟨_, ⟨rfl, .head (.answered [] [] _ _ _ _ rfl) (.single (.answered [] [] _ [] _ _ rfl))⟩,
    by simp, rfl⟩, by decide +kernel, by decide +kernel⟩

end

end Ventstream.SurrealDb
