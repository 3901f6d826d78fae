import Ventstream.Library.AckLog

/-! # The MySQL binlog source

A session resumes at the persisted binlog position, or at the current end of the
binlog after a scan of the tables, and then reads the binlog event by event. It
keeps the TABLE_MAP events of one connection in memory to decode the rows events
behind them, publishes what a rows event changes, and follows the end offset of
every event. A position waits behind a barrier that follows the output before it
and is written once the sink has confirmed that barrier.

The binlog is a fixed sequence of events of which a growing front has been
written. The definitions follow `mysql/source.rs` and `mysql/cursor.rs`.
-/

namespace Ventstream.MySql

open Library

structure TableName where
  db : String
  table : String
  deriving DecidableEq

inductive Op where
  | insert
  | update
  | delete
  deriving DecidableEq

def Op.isDelete : Op → Bool
  | .delete => true
  | _ => false

/-- A recognised statement of a query event, with the tables it names. -/
structure DdlStatement where
  truncate : Bool
  tables : List TableName

inductive EventData where
  /-- A real ROTATE event: the last of its file, with the name of the next one. -/
  | rotate (file position : Nat)
  | tableMap (tableId : Nat) (table : TableName)
  /-- A rows event; `decode_rows` skips one of a kind without an operation, such as a partial
      update. -/
  | rows (tableId : Nat) (op : Option Op)
  | query (ddl : Option DdlStatement)
  | other

/-- An event with the number of its file and the offsets in it where the event begins and
    ends. -/
structure BinlogEvent where
  file : Nat
  start : Nat
  stop : Nat
  data : EventData

/-- The end offset in the event's header, which has 32 bits for it. -/
def BinlogEvent.logPos (ev : BinlogEvent) : Nat := ev.stop % 2 ^ 32

/-- The header has an end offset, which it lacks where the offset is a multiple of 4 GiB, and
    the event is not of a kind that `decode_rows` skips. -/
def BinlogEvent.Readable (ev : BinlogEvent) : Prop :=
  ev.logPos ≠ 0 ∧ ∀ tableId, ev.data ≠ .rows tableId none

def firstOffset : Nat := 4

/-- The event takes away what is known of the table under this id. -/
def EventData.Unmaps (tableId : Nat) (table : TableName) : EventData → Prop
  | .tableMap otherId _ => otherId = tableId
  | .query (some ddl) => table ∈ ddl.tables
  | _ => False

/-- Of the sequence of events: the rows event at `index` is decoded by the TABLE_MAP at `map`. -/
def Maps (ev : Nat → BinlogEvent) (map index : Nat) (table : TableName) : Prop :=
  ∃ tableId op, (ev map).data = .tableMap tableId table ∧
    (ev index).data = .rows tableId op ∧ map < index ∧
    ∀ between, map < between → between < index → ¬ (ev between).data.Unmaps tableId table

structure Binlog where
  event : Nat → BinlogEvent
  nonempty : ∀ index, (event index).start < (event index).stop
  headed : ∀ index, firstOffset ≤ (event index).start
  ordered : ∀ index later, index < later → (event index).file < (event later).file ∨
    (event index).file = (event later).file ∧ (event index).stop ≤ (event later).start
  /-- A ROTATE event ends its file. -/
  rotates : ∀ index file position, (event index).data = .rotate file position →
    (event index).file < (event (index + 1)).file

structure BinlogPos where
  file : Nat
  pos : Nat
  deriving DecidableEq

/-- The event begins before the position, so that a stream resumed there leaves it out. -/
def BinlogPos.Passes (pos : BinlogPos) (ev : BinlogEvent) : Prop :=
  ev.file < pos.file ∨ ev.file = pos.file ∧ ev.start < pos.pos

/-- A stream resumed at the position delivers the events from this place on. -/
def Binlog.Resumes (binlog : Binlog) (pos : BinlogPos) (place : Nat) : Prop :=
  ∀ index, index < place ↔ pos.Passes (binlog.event index)

/-- No rows event from this place on needs a TABLE_MAP before it. -/
def Binlog.Boundary (binlog : Binlog) (place : Nat) : Prop :=
  ∀ map index table, Maps binlog.event map index table → place ≤ index → place ≤ map

/-- The configuration, with the tables that have a primary key. -/
structure Config where
  database : String
  tables : List String
  emitTruncateEvents : Bool
  keyed : TableName → Bool

def Config.tableAllowed (cfg : Config) (table : String) : Bool :=
  cfg.tables.isEmpty || cfg.tables.any (· == table)

def Config.inScope (cfg : Config) (table : TableName) : Bool :=
  table.db == cfg.database && cfg.tableAllowed table.table

/-- The event at this place changes rows of an allowed table with a primary key. -/
def RowChange (cfg : Config) (binlog : Binlog) (index : Nat) : Prop :=
  ∃ map table, Maps binlog.event map index table ∧ cfg.inScope table = true ∧ cfg.keyed table = true

/-- What a session publishes: scanned rows, the output of a rows event with its place in the
    binlog, truncations, and barriers. -/
inductive Entry where
  | scanned
  | rows (index : Nat)
  | truncated
  | barrier (ackSeq : Nat)
  deriving DecidableEq

def Entry.ackSeq? : Entry → Option Nat
  | .barrier ackSeq => some ackSeq
  | _ => none

@[simp] theorem Entry.ackSeq?_scanned : Entry.scanned.ackSeq? = none := rfl

@[simp] theorem Entry.ackSeq?_barrier (ackSeq : Nat) :
    (Entry.barrier ackSeq).ackSeq? = some ackSeq := rfl

inductive IncompleteKind where
  | bootstrap
  | stateRebuild
  deriving DecidableEq

/-- A position, with the number of events that had been read when it was taken. -/
structure Mark where
  pos : BinlogPos
  after : Nat
  deriving DecidableEq

/-- The files of the state directory. -/
structure CursorFile where
  mark : Option Mark
  incomplete : Option IncompleteKind
  deriving DecidableEq

/-- One connection of the tail, at the event `next` and in the file that the server reads. -/
structure Connection where
  next : Nat
  file : Nat
  pos : BinlogPos
  tableMap : Nat → Option TableName
  pendingGated : List (Nat × Mark)
  pendingWrite : Option Mark

inductive Stage where
  | scanning
  /-- The barrier behind the scan is published. -/
  | awaiting (ackSeq : Nat)
  /-- The cursor is written and the marker about to be cleared. -/
  | clearing
  | connecting
  | tailing (connection : Connection)

structure Session where
  resume : Mark
  log : AckLog Entry Entry.ackSeq?
  stage : Stage

/-- The server, the state directory, the sink and the running session. `first` is the place
    where the source first started tailing; `stored` are the rows events whose output the sink
    made durable in a session that has ended, and `vanished` those whose rows were all gone
    when they were read again. -/
structure System where
  written : Nat
  cursor : CursorFile
  session : Option Session
  first : Option Nat
  stored : List Nat
  vanished : List Nat

/-- Note what an event says about files and tables. -/
def Connection.observe (cfg : Config) (conn : Connection) : EventData → Connection
  | .rotate file position => { conn with pos := ⟨file, position⟩ }
  | .tableMap tableId table =>
    { conn with tableMap := Function.update conn.tableMap tableId (some table) }
  | .query (some ddl) =>
    if ddl.truncate then conn
    else { conn with
      tableMap := fun tableId => (conn.tableMap tableId).filter fun table =>
        !(ddl.tables.any fun altered => altered == table && cfg.inScope table) }
  | _ => conn

/-- The rows event is decoded, and its table is in scope and has a primary key. -/
def Connection.processes (cfg : Config) (conn : Connection) : EventData → Bool
  | .rows tableId (some _) =>
    (conn.tableMap tableId).any fun table => cfg.inScope table && cfg.keyed table
  | _ => false

/-- What the event leads to, where `found` tells whether any of its rows is still there (a
    deleted row need not be). -/
def Connection.output (cfg : Config) (conn : Connection) (found : Bool) : EventData → Option Entry
  | .rows tableId (some op) =>
    if conn.processes cfg (.rows tableId op) && (found || op.isDelete) then
      some (.rows conn.next)
    else none
  | .query (some ddl) =>
    if cfg.emitTruncateEvents && ddl.truncate && ddl.tables.any cfg.inScope then
      some .truncated
    else none
  | _ => none

theorem Connection.output_ackSeq? {conn : Connection}
    (isOutput : conn.output cfg found data = some entry) : entry.ackSeq? = none := by
  unfold Connection.output at isOutput
  split at isOutput
  · split at isOutput
    · cases isOutput
      rfl
    · cases isOutput
  · split at isOutput
    · cases isOutput
      rfl
    · cases isOutput
  · cases isOutput

/-- Let the position ride on the last barrier of the queue. -/
def rideLast (mark : Mark) : List (Nat × Mark) → List (Nat × Mark)
  | [] => []
  | [(gate, _)] => [(gate, mark)]
  | entry :: second :: rest => entry :: rideLast mark (second :: rest)

/-- Follow the end offset of the event that was read, if it has one. -/
def Connection.record (conn : Connection) (log : AckLog Entry Entry.ackSeq?) (emitted : Bool)
    (logPos : Nat) : Connection × AckLog Entry Entry.ackSeq? :=
  let passed := { conn with next := conn.next + 1 }
  if logPos = 0 then (passed, log)
  else
    let pos : BinlogPos := ⟨conn.pos.file, logPos⟩
    let mark : Mark := ⟨pos, conn.next + 1⟩
    let drained := drainGates log.progress conn.pendingGated conn.pendingWrite
    if emitted then
      ({ passed with
          pos := pos
          pendingGated := drained.2 ++ [(log.next, mark)]
          pendingWrite := drained.1 },
        log.pushNext (.barrier log.next) (Entry.ackSeq?_barrier _))
    else if drained.2.isEmpty then
      ({ passed with pos := pos, pendingGated := [], pendingWrite := some mark }, log)
    else
      ({ passed with
          pos := pos
          pendingGated := rideLast mark drained.2
          pendingWrite := drained.1 }, log)

def publishOutput (log : AckLog Entry Entry.ackSeq?) : (output : Option Entry) →
    (∀ entry, output = some entry → entry.ackSeq? = none) → AckLog Entry Entry.ackSeq?
  | some entry, plain => log.push entry (plain entry rfl)
  | none, _ => log

def Connection.read (cfg : Config) (binlog : Binlog) (conn : Connection)
    (log : AckLog Entry Entry.ackSeq?) (found : Bool) : Connection × AckLog Entry Entry.ackSeq? :=
  let ev := binlog.event conn.next
  let observed := conn.observe cfg ev.data
  let output := observed.output cfg found ev.data
  observed.record
    (publishOutput log output fun _ isOutput => Connection.output_ackSeq? isOutput)
    output.isSome ev.logPos

/-- The server goes on to the file of the next event and says so in an artificial ROTATE event,
    which has no end offset. -/
def Connection.switchFile (binlog : Binlog) (conn : Connection) : Connection :=
  let file := (binlog.event conn.next).file
  { conn with file := file, pos := ⟨file, firstOffset⟩ }

/-- Write the newest position that the sink has confirmed. -/
def flushConfirmedPositions (cursor : CursorFile) (progress : Nat) (conn : Connection) :
    CursorFile × Connection :=
  let drained := drainGates progress conn.pendingGated conn.pendingWrite
  ({ cursor with mark := drained.1.or cursor.mark },
    { conn with pendingGated := drained.2, pendingWrite := none })

namespace System

variable (sys : System)

/-- The cursor that a start trusts. -/
def persisted : Option Mark :=
  if sys.cursor.incomplete = some .bootstrap then none else sys.cursor.mark

/-- The start of a session, at the persisted cursor or at the end of the binlog. It fails when
    a rebuild was interrupted and its cursor is gone. -/
def start (bootstrap forceSnapshot : Bool) (master : BinlogPos) : Option System :=
  let rebuilding := forceSnapshot || sys.cursor.incomplete == some .stateRebuild
  match sys.persisted with
  | some mark =>
    if rebuilding then
      some { sys with
        cursor := ⟨some mark, some .stateRebuild⟩
        session := some ⟨mark, .new, .scanning⟩ }
    else
      some { sys with
        cursor := { sys.cursor with mark := some mark }
        session := some ⟨mark, .new, .connecting⟩ }
  | none =>
    if sys.cursor.incomplete = some .stateRebuild then none
    else if bootstrap || rebuilding then
      some { sys with
        cursor := ⟨none, some .bootstrap⟩
        session := some ⟨⟨master, sys.written⟩, .new, .scanning⟩ }
    else
      some { sys with
        cursor := { sys.cursor with mark := none }
        session := some ⟨⟨master, sys.written⟩, .new, .connecting⟩ }

/-- The rows events of the session whose output is durable. -/
def durableRows (session : Session) : List Nat :=
  session.log.settled.filterMap fun
    | .rows index => some index
    | _ => none

def stop (session : Session) : System :=
  { sys with session := none, stored := sys.stored ++ durableRows session }

def connect (session : Session) (place : Nat) : System :=
  { sys with
    first := sys.first.or (some session.resume.after)
    session := some { session with
      stage := .tailing
        { next := place
          file := session.resume.pos.file
          pos := session.resume.pos
          tableMap := fun _ => none
          pendingGated := []
          pendingWrite := none } } }

/-- A connection drops, and the session resumes at the cursor if there is one. -/
def drop (session : Session) : System :=
  { sys with
    session := some { session with
      resume := sys.cursor.mark.getD session.resume
      stage := .connecting } }

def read (cfg : Config) (binlog : Binlog) (session : Session) (conn : Connection)
    (found : Bool) : System :=
  let data := (binlog.event conn.next).data
  let result := conn.read cfg binlog session.log found
  { sys with
    session := some { session with log := result.2, stage := .tailing result.1 }
    vanished :=
      if conn.processes cfg data && (conn.output cfg found data).isNone then
        sys.vanished ++ [conn.next]
      else sys.vanished }

end System

/-- The moves of the server, the source and the sink that do not go back in the binlog. -/
inductive Step (config : Config) (binlog : Binlog) : System → System → Prop where
  /-- The server writes whole statements. -/
  | write (system : System) (written : Nat) : system.written ≤ written → binlog.Boundary written →
      Step config binlog system { system with written := written }
  | scan (system : System) (session : Session) : system.session = some session →
      session.stage = .scanning →
      Step config binlog system { system with
        session := some { session with log := session.log.push .scanned Entry.ackSeq?_scanned } }
  | scanned (system : System) (session : Session) : system.session = some session →
      session.stage = .scanning →
      Step config binlog system { system with
        session := some { session with
          log := session.log.pushNext (.barrier session.log.next) (Entry.ackSeq?_barrier _)
          stage := .awaiting session.log.next } }
  | writeCursor (system : System) (session : Session) (ackSeq : Nat) :
      system.session = some session → session.stage = .awaiting ackSeq →
      ackSeq ≤ session.log.progress →
      Step config binlog system { system with
        cursor := { system.cursor with mark := some session.resume }
        session := some { session with stage := .clearing } }
  | clearIncomplete (system : System) (session : Session) : system.session = some session →
      session.stage = .clearing →
      Step config binlog system { system with
        cursor := { system.cursor with incomplete := none }
        session := some { session with stage := .connecting } }
  | connect (system : System) (session : Session) (place : Nat) : system.session = some session →
      session.stage = .connecting → binlog.Resumes session.resume.pos place →
      Step config binlog system (system.connect session place)
  | read (system : System) (session : Session) (connection : Connection) (found : Bool) :
      system.session = some session → session.stage = .tailing connection →
      connection.next < system.written →
      connection.file = (binlog.event connection.next).file →
      Step config binlog system (system.read config binlog session connection found)
  | switchFile (system : System) (session : Session) (connection : Connection) :
      system.session = some session → session.stage = .tailing connection →
      connection.next < system.written →
      connection.file ≠ (binlog.event connection.next).file →
      Step config binlog system { system with
        session := some { session with stage := .tailing (connection.switchFile binlog) } }
  | flush (system : System) (session : Session) (connection : Connection) :
      system.session = some session → session.stage = .tailing connection →
      Step config binlog system { system with
        cursor := (flushConfirmedPositions system.cursor session.log.progress connection).1
        session := some { session with
          stage := .tailing
            (flushConfirmedPositions system.cursor session.log.progress connection).2 } }
  | durable (system : System) (session : Session) (count : Nat)
      (within : count ≤ session.log.entries.length)
      (grows : session.log.log.durableCount ≤ count) : system.session = some session →
      Step config binlog system { system with
        session := some { session with log := session.log.settle count within grows } }
  | confirm (system : System) (session : Session) (ackSeq : Nat)
      (isDurable : ackSeq ∈ session.log.settled.filterMap Entry.ackSeq?) :
      system.session = some session →
      Step config binlog system { system with
        session := some { session with log := session.log.confirm ackSeq isDurable } }
  /-- A crash, an error or a shutdown. -/
  | stop (system : System) (session : Session) : system.session = some session →
      Step config binlog system (system.stop session)

/-- The moves that go back in the binlog. -/
inductive Return (binlog : Binlog) : System → System → Prop where
  | start (sys started : System) (bootstrap forceSnapshot : Bool) (master : BinlogPos) :
      sys.session = none → binlog.Resumes master sys.written →
      sys.start bootstrap forceSnapshot master = some started →
      Return binlog sys started
  | drop (sys : System) (session : Session) (conn : Connection) :
      sys.session = some session → session.stage = .tailing conn →
      Return binlog sys (sys.drop session)

/-- A state directory without files, and a server that has written nothing. -/
def System.new : System where
  written := 0
  cursor := ⟨none, none⟩
  session := none
  first := none
  stored := []
  vanished := []

end Ventstream.MySql
