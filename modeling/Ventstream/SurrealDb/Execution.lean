import Ventstream.SurrealDb.Statements

/-! # Executing the runs of a batch

The requests of `sink.rs` against a database of records. A run is one request of one or two
statements, and each statement is a transaction. Runs are spread over lanes; the runs of a
lane are executed in order, or all at once where they are upserts of different records. A
request may fail in passing, and then some of its statements may have been committed; it is
sent again.
-/

namespace Ventstream.SurrealDb

open Core Library Library.Runs List
open Json (Value Fields)

abbrev RecordId := String × Value

inductive Record where
  | document (fields : Fields)
  | edge (a b : RecordId)

def Record.ends : Record → List RecordId
  | .document _ => []
  | .edge a b => [a, b]

abbrev Database := RecordId → Option Record

/-- Deleting records also deletes the edges that are attached to them. -/
def remove (gone : RecordId → Bool) (db : Database) : Database := fun key =>
  (db key).filter fun record =>
    !(gone key || record.ends.any fun attached => gone attached && (db attached).isSome)

/-- What a statement does in each turn of its loop. -/
inductive Command where
  | upsert (key : RecordId) (document : Fields)
  | delete (key : RecordId)
  | deleteTable (table : String)
  | relate (key a b : RecordId)

/-- None where the statement fails: an edge is only created under an id that is free. -/
def Command.exec (db : Database) : Command → Option Database
  | .upsert key document => some (Function.update db key (some (.document document)))
  | .delete key => some (remove (· == key) db)
  | .deleteTable table => some (remove (·.1 == table) db)
  | .relate key a b =>
    if (db key).isSome then none else some (Function.update db key (some (.edge a b)))

abbrev Transaction := List Command

def Transaction.commit (db : Database) (transaction : Transaction) : Option Database :=
  transaction.foldlM Command.exec db

/-- A transaction that fails is rolled back. -/
def Transaction.attempt (db : Database) (transaction : Transaction) : Database :=
  (transaction.commit db).getD db

/-- What an operation does in the first statement of its run. -/
def Call.command (call : Call) : Operation → Command
  | .upsert rid document => .upsert (call.table, rid) document
  | .delete rid => .delete (call.table, rid)
  | .truncate => .deleteTable call.table
  | .edgeApply eid _ _ => .delete (call.table, eid)

/-- The creation of an edge, in the second statement. -/
def Call.relate (call : Call) : Operation → Option Command
  | .edgeApply eid a b =>
    match call.kind with
    | .edgeApply aTable bTable => some (.relate (call.table, eid) (aTable, a) (bTable, b))
    | _ => none
  | _ => none

/-- The statements of a run. -/
def transactions (run : Run Call Operation) : List Transaction :=
  let first := run.items.map fun entry => run.kind.command entry.2
  if run.kind.kind.isEdgeApply then
    [first, run.items.filterMap fun entry => run.kind.relate entry.2]
  else [first]

/-- A request without a failure; none where a statement is refused. -/
def perform (db : Database) (run : Run Call Operation) : Option Database :=
  (transactions run).foldlM Transaction.commit db

abbrev Lane := String × List (Run Call Operation)

/-- A run goes to the lane of its key, behind those that are there. -/
def insertLane (lanes : List Lane) (run : Run Call Operation) : List Lane :=
  if lanes.any (·.1 == run.kind.laneKey) then
    lanes.map fun lane =>
      if lane.1 = run.kind.laneKey then (lane.1, lane.2 ++ [run]) else lane
  else lanes ++ [(run.kind.laneKey, [run])]

def lanesOf (runs : List (Run Call Operation)) : List Lane := runs.foldl insertLane []

/-- The texts of the ids that a run upserts. -/
def upsertedIds (run : Run Call Operation) : List String :=
  run.items.filterMap fun entry =>
    match entry.2 with
    | .upsert rid _ => some (Json.render rid)
    | _ => none

def upsertRunsAreDisjoint (runs : List (Run Call Operation)) : Bool :=
  (runs.all fun run => run.kind.kind == .upsert) && decide (runs.flatMap upsertedIds).Nodup

/-- What is executed in order: a lane, or each run by itself. -/
def strandsOf (lane : Lane) : List (List (Run Call Operation)) :=
  if 1 < lane.2.length && upsertRunsAreDisjoint lane.2 then lane.2.map ([·]) else [lane.2]

def strands (runs : List (Run Call Operation)) : List (List (Run Call Operation)) :=
  (lanesOf runs).flatMap strandsOf

structure Exec where
  strands : List (List (Run Call Operation))
  db : Database

/-- A request is answered, or it fails in passing and is sent again later. -/
inductive Step : Exec → Exec → Prop where
  | answered (front back : List (List (Run Call Operation))) (run : Run Call Operation)
      (rest : List (Run Call Operation)) (db later : Database)
      (performs : perform db run = some later) :
      Step ⟨front ++ (run :: rest) :: back, db⟩ ⟨front ++ rest :: back, later⟩
  | failed (front back : List (List (Run Call Operation))) (run : Run Call Operation)
      (rest : List (Run Call Operation)) (db : Database) (taken : List Transaction)
      (isTaken : taken.Sublist (transactions run)) :
      Step ⟨front ++ (run :: rest) :: back, db⟩
        ⟨front ++ (run :: rest) :: back, taken.foldl Transaction.attempt db⟩

/-- A relation that arrives must not have the table of an edge. -/
def inspectEdgeRelations (cfg : Config) (evs : List SinkEvent) : Bool :=
  evs.all fun ev =>
    match resolveTable cfg ev with
    | .error _ => true
    | .ok table => cfg.graphEdges.all fun spec => table != cfg.edgeTable spec

/-- The executions of a batch. -/
def Executes (cfg : Config) (evs : List SinkEvent) (db : Database) (exec : Exec) : Prop :=
  inspectEdgeRelations cfg evs = true ∧
    Relation.ReflTransGen Step ⟨strands (translateBatch cfg evs).runs, db⟩ exec

/-- `write` returns `Ok` or `Rejected`: every run was answered. -/
def Writes (cfg : Config) (evs : List SinkEvent) (db later : Database) : Prop :=
  ∃ exec, Executes cfg evs db exec ∧ (∀ strand ∈ exec.strands, strand = []) ∧ exec.db = later

section

variable {runs : List (Run Call Operation)} {lanes : List Lane} {run : Run Call Operation}

/-- Each lane holds the runs of its key, in order. -/
structure Spread (runs : List (Run Call Operation)) (lanes : List Lane) : Prop where
  distinct : (lanes.map (·.1)).Nodup
  holds : ∀ lane ∈ lanes, lane.2 = runs.filter fun run => run.kind.laneKey = lane.1
  covers : ∀ run ∈ runs, run.kind.laneKey ∈ lanes.map (·.1)

theorem Spread.insert (spread : Spread runs lanes) :
    Spread (runs ++ [run]) (insertLane lanes run) := by
  unfold insertLane
  split
  · rename_i isThere
    have sameKeys : (lanes.map fun lane => if lane.1 = run.kind.laneKey then
        (lane.1, lane.2 ++ [run]) else lane).map (·.1) = lanes.map (·.1) := by
      rw [map_map]
      refine map_congr_left fun lane _ => ?_
      by_cases same : lane.1 = run.kind.laneKey <;> simp [same]
    refine ⟨sameKeys ▸ spread.distinct, ?_, ?_⟩
    · intro lane mem
      obtain ⟨old, isOld, rfl⟩ := mem_map.mp mem
      have held := spread.holds old isOld
      by_cases same : old.1 = run.kind.laneKey
      · simp [same, held, filter_append]
      · simp [same, held, filter_append, Ne.symm same]
    · intro other mem
      rw [sameKeys]
      rcases mem_append.mp mem with old | new
      · exact spread.covers other old
      · rw [mem_singleton.mp new]
        obtain ⟨lane, isLane, isKey⟩ := any_eq_true.mp isThere
        exact mem_map.mpr ⟨lane, isLane, eq_of_beq isKey⟩
  · rename_i isNew
    have notThere : run.kind.laneKey ∉ lanes.map (·.1) := by
      intro mem
      obtain ⟨lane, isLane, isKey⟩ := mem_map.mp mem
      exact isNew (any_eq_true.mpr ⟨lane, isLane, beq_iff_eq.mpr isKey⟩)
    refine ⟨?_, ?_, ?_⟩
    · rw [map_append, nodup_append]
      refine ⟨spread.distinct, by simp, ?_⟩
      rintro key isKey other isOther rfl
      have isNew : key = run.kind.laneKey := mem_singleton.mp isOther
      exact notThere (isNew ▸ isKey)
    · intro lane mem
      rcases mem_append.mp mem with old | new
      · have apart : ¬ run.kind.laneKey = lane.1 := by
          rintro same
          exact notThere (same ▸ mem_map_of_mem old)
        simp [spread.holds lane old, filter_append, apart]
      · rw [mem_singleton.mp new]
        have none : runs.filter (fun other => other.kind.laneKey = run.kind.laneKey) = [] := by
          rw [filter_eq_nil_iff]
          intro other isOther same
          exact notThere (of_decide_eq_true same ▸ spread.covers other isOther)
        simp [filter_append, none]
    · intro other mem
      rw [map_append, mem_append]
      rcases mem_append.mp mem with old | new
      · exact .inl (spread.covers other old)
      · rw [mem_singleton.mp new]
        exact .inr (mem_singleton_self _)

theorem spread_lanesOf (runs : List (Run Call Operation)) : Spread runs (lanesOf runs) := by
  induction runs using reverseRecOn with
  | nil => exact ⟨nodup_nil, fun _ mem => absurd mem not_mem_nil,
      fun _ mem => absurd mem not_mem_nil⟩
  | append_singleton runs run ih =>
    rw [lanesOf, foldl_append]
    exact ih.insert

theorem flatten_strandsOf (lane : Lane) : (strandsOf lane).flatten = lane.2 := by
  unfold strandsOf
  split
  · exact flatMap_singleton' lane.2
  · exact flatten_singleton

end

end Ventstream.SurrealDb
