import Ventstream.Library.Keyset

/-! # Snapshot bootstrap of the flat Postgres pipeline

A process creates the replication slot, scans the tables in keyset order onto
the bus and then tails the slot. The slot is all that a later process looks at:
when it exists the scan is skipped. The definitions follow `snapshot.rs`; the
world around the process is the database, the sink and the in-memory bus, which
a stop of the process (a crash, an error or a shutdown) empties.
-/

namespace Ventstream.Postgres.Bootstrap

open Library

/-- A table with a primary key; only such tables can be scanned. -/
structure SnapshotTable where
  schema : String
  name : String
  primaryKey : List String
  keyed : primaryKey ≠ []

instance : DecidableEq SnapshotTable := fun table other =>
  decidable_of_iff (table.schema = other.schema ∧ table.name = other.name ∧
    table.primaryKey = other.primaryKey) (by cases table; cases other; simp)

/-- A row of `pg_publication_tables` with its primary-key columns. -/
structure PublicationTable where
  schema : String
  name : String
  primaryKey : List String

/-- Publication tables without a primary key are skipped. -/
def fetchPublicationSnapshotTables (publication : List PublicationTable) : List SnapshotTable :=
  publication.filterMap fun table =>
    if keyed : table.primaryKey ≠ [] then some ⟨table.schema, table.name, table.primaryKey, keyed⟩
    else none

structure SnapshotBootstrap where
  tables : List SnapshotTable
  chunkSize : Nat

/-- The types of the tables' keys enter as `recast`: the text of a key is cast to the type that
    `pg_typeof` names, which has no length, so that a `CHAR(n)` or `BIT(n)` key is cut. -/
structure Config (Key : Type) where
  publication : List PublicationTable
  bootstrap : Option SnapshotBootstrap
  recast : SnapshotTable → Key → Key

section

variable {Key : Type} (cfg : Config Key)

/-- The cast gives every key back. -/
def Config.CastsBack : Prop := ∀ table key, cfg.recast table key = key

/-- What `maybe_bootstrap` scans, or `none` when it returns without a scan. -/
def maybeBootstrap (slotExists bootstrapExistingSlot : Bool) : Option (List SnapshotTable) :=
  match cfg.bootstrap with
  | none => none
  | some bootstrap =>
    if slotExists && !bootstrapExistingSlot then none
    else if bootstrap.tables.isEmpty then
      some (fetchPublicationSnapshotTables cfg.publication)
    else some bootstrap.tables

def Config.chunkSize : Nat := (cfg.bootstrap.map (·.chunkSize)).getD 0

end

variable {Key Value : Type} [LinearOrder Key]

structure Row (Key Value : Type) where
  key : Key
  value : Value
  deriving DecidableEq

structure Database (Key Value : Type) [LinearOrder Key] where
  rows : SnapshotTable → List (Row Key Value)
  sorted : ∀ table, (rows table).Pairwise (·.key < ·.key)

inductive BusEvent (Key Value : Type) where
  | snapshot (table : SnapshotTable) (row : Row Key Value)
  | snapshotComplete
  | wal (lsn : Nat)
  deriving DecidableEq

/-- Where the source task stands. `selecting` is about to query the next chunk
    of the first table; `publishing` sends the rows of a chunk, after which the
    cursor is `nextPk` and a `short` chunk ends its table. -/
inductive Phase (Key Value : Type) where
  | stopped
  | selecting (tables : List SnapshotTable) (lastPk : Option Key)
  | publishing (table : SnapshotTable) (rest : List SnapshotTable)
      (rows : List (Row Key Value)) (nextPk : Key) (short : Bool)
  | tailing
  deriving DecidableEq

structure World (Key Value : Type) [LinearOrder Key] where
  slotExists : Bool
  database : Database Key Value
  phase : Phase Key Value
  /-- Published and not yet durable, oldest first. -/
  bus : List (BusEvent Key Value)
  sink : List (BusEvent Key Value)

/-- `SELECT … WHERE pk > last::text::type ORDER BY pk LIMIT chunk`. -/
def selectChunk (cfg : Config Key) (database : Database Key Value) (table : SnapshotTable)
    (lastPk : Option Key) : List (Row Key Value) :=
  page (·.key) (database.rows table) (lastPk.map (cfg.recast table)) cfg.chunkSize

namespace World

/-- The next move of the source task. The flat pipeline never asks for a
    bootstrap of an existing slot. -/
def advance (cfg : Config Key) (world : World Key Value) : Option (World Key Value) :=
  match world.phase with
  | .stopped =>
    match maybeBootstrap cfg world.slotExists false with
    | none => some { world with phase := .tailing }
    | some tables => some { world with slotExists := true, phase := .selecting tables none }
  | .selecting [] _ =>
    some { world with bus := world.bus ++ [.snapshotComplete], phase := .tailing }
  | .selecting (table :: rest) lastPk =>
    match (selectChunk cfg world.database table lastPk).getLast? with
    | none => some { world with phase := .selecting rest none }
    | some last =>
      some { world with
        phase := .publishing table rest (selectChunk cfg world.database table lastPk)
          last.key
          ((selectChunk cfg world.database table lastPk).length < cfg.chunkSize) }
  | .publishing table rest (row :: rows) nextPk short =>
    some { world with
      bus := world.bus ++ [.snapshot table row]
      phase := .publishing table rest rows nextPk short }
  | .publishing table rest [] nextPk short =>
    some { world with
      phase := if short then .selecting rest none else .selecting (table :: rest) (some nextPk) }
  | .tailing => none

/-- The sink makes the oldest event of the bus durable. -/
def settle (world : World Key Value) : Option (World Key Value) :=
  match world.bus with
  | [] => none
  | ev :: bus => some { world with bus := bus, sink := world.sink ++ [ev] }

def stop (world : World Key Value) : World Key Value :=
  { world with phase := .stopped, bus := [] }

/-- Anything that can happen, given the states in which the process may stop. -/
inductive Step (cfg : Config Key) (mayStop : World Key Value → Prop) :
    World Key Value → World Key Value → Prop
  | advance {world later : World Key Value} (moved : world.advance cfg = some later) :
      Step cfg mayStop world later
  | settle {world later : World Key Value} (moved : world.settle = some later) :
      Step cfg mayStop world later
  | wal {world : World Key Value} (lsn : Nat) (tailing : world.phase = .tailing) :
      Step cfg mayStop world { world with bus := world.bus ++ [.wal lsn] }
  | change {world : World Key Value} (database : Database Key Value) :
      Step cfg mayStop world { world with database := database }
  | stop {world : World Key Value} (running : world.phase ≠ .stopped) (may : mayStop world) :
      Step cfg mayStop world world.stop

/-- A run from before the slot exists, in which `row` is in its table from the
    creation of the slot on. -/
inductive Run (cfg : Config Key) (mayStop : World Key Value → Prop) (table : SnapshotTable)
    (row : Row Key Value) : World Key Value → Prop
  | start (database : Database Key Value) :
      Run cfg mayStop table row ⟨false, database, .stopped, [], []⟩
  | step {world later : World Key Value} (run : Run cfg mayStop table row world)
      (move : Step cfg mayStop world later)
      (kept : later.slotExists = true → row ∈ later.database.rows table) :
      Run cfg mayStop table row later

/-- Moves of the process and the sink only: no stop and no change of the tables. -/
inductive Calm (cfg : Config Key) : Nat → World Key Value → World Key Value → Prop
  | refl (world : World Key Value) : Calm cfg 0 world world
  | advance {moves : Nat} {world next later : World Key Value}
      (moved : world.advance cfg = some next) (rest : Calm cfg moves next later) :
      Calm cfg (moves + 1) world later
  | settle {moves : Nat} {world next later : World Key Value}
      (moved : world.settle = some next) (rest : Calm cfg moves next later) :
      Calm cfg (moves + 1) world later

/-- Neither the process nor the sink has anything left to do. -/
def Quiescent (cfg : Config Key) (world : World Key Value) : Prop :=
  world.advance cfg = none ∧ world.settle = none

/-- The row has reached the sink. -/
def Landed (table : SnapshotTable) (row : Row Key Value) (world : World Key Value) : Prop :=
  BusEvent.snapshot table row ∈ world.sink

/-- The scan is over and every row it published is durable. -/
def SnapshotSettled (world : World Key Value) : Prop :=
  world.phase = .tailing ∧ ∀ table row, BusEvent.snapshot table row ∉ world.bus

end World

end Ventstream.Postgres.Bootstrap
