import Ventstream.Library.AckLog

/-! # The Neo4j change-data-capture source

A tail polls the rows behind its cursor and emits events for them, stamped with
transaction ids: in raw mode each row's event with its own, in denormalize mode all
events of a poll with the last one. The dispatcher makes batches of the emitted events
durable and raises a watermark to the largest id of a batch. A cursor waits in a queue
behind the id that its poll was stamped with, and is written once the watermark has
reached it. The cursor in memory moves only then, so that rows are polled again as
long as they wait.

The rows are a fixed sequence of which a growing front has been written; a cursor is
the number of rows it lies behind. The definitions follow `neo4j/source.rs` and
`neo4j/cursor.rs`, and `max_watermark_in` of the dispatcher.
-/

namespace Ventstream.Neo4j

open Library

inductive Mode where
  | raw
  | denormalize

/-- The rows that the server reports, and whether the mapper of raw mode has an event for
    them. -/
structure Stream where
  txId : Nat → Nat
  emits : Nat → Bool

/-- An event for the rows up to a place, with the transaction id it is stamped with. -/
structure Emitted where
  place : Nat
  txId : Nat
  content : Nat
  deriving DecidableEq

inductive Entry where
  | snapshot
  | change (ev : Emitted)
  deriving DecidableEq

/-- The files of the state directory. -/
structure CursorFile where
  cursor : Option Nat
  incomplete : Bool
  deriving DecidableEq

/-- The state of one tail loop; `since` is the cursor it began at and `began` the number of
    entries published before it. -/
structure Tail where
  since : Nat
  began : Nat
  cursor : Nat
  pendingCursors : List (Nat × Nat)
  lastEmittedTx : Nat
  bootstrapConfirmed : Bool

inductive Stage where
  /-- The scan, with the cursor fetched before it. -/
  | bootstrapping (cursor : Nat)
  | tailing (tail : Tail)

/-- A process with what it has published and the watermark that the dispatcher raises. -/
structure Session where
  log : DurableLog Entry
  sinkProgress : Nat
  stage : Stage

structure System where
  written : Nat
  file : CursorFile
  session : Option Session

/-- The events of raw mode for the rows between two cursors. -/
def rawEvents (stream : Stream) (cursor last : Nat) : List Emitted :=
  ((List.range' cursor (last - cursor)).filter stream.emits).map fun row =>
    ⟨row + 1, stream.txId row, 0⟩

/-- What a poll of the rows between two cursors may emit. In denormalize mode that depends on
    the graph. -/
def Emits (mode : Mode) (stream : Stream) (cursor last : Nat) (evs : List Emitted) : Prop :=
  match mode with
  | .raw => evs = rawEvents stream cursor last
  | .denormalize => ∀ ev ∈ evs, ev.place = last ∧ ev.txId = stream.txId (last - 1)

/-- The highest transaction id that a poll has emitted. -/
def batchEmitTx (mode : Mode) (stream : Stream) (last : Nat) (evs : List Emitted) : Option Nat :=
  match mode with
  | .raw => (evs.map Emitted.txId).max?
  | .denormalize => if evs.isEmpty then none else some (stream.txId (last - 1))

def gateTxForBatch (batchEmitTx : Option Nat) (lastEmittedTx : Nat) : Nat :=
  batchEmitTx.getD lastEmittedTx

/-- Queue the cursor behind the poll's events. -/
def Tail.queue (tail : Tail) (emitTx : Option Nat) (last : Nat) : Tail :=
  let lastEmittedTx := emitTx.elim tail.lastEmittedTx (max tail.lastEmittedTx)
  { tail with
    lastEmittedTx := lastEmittedTx
    pendingCursors := tail.pendingCursors ++ [(gateTxForBatch emitTx lastEmittedTx, last)] }

def publish (log : DurableLog Entry) (evs : List Emitted) : DurableLog Entry :=
  evs.foldl (fun log ev => log.push (.change ev)) log

/-- The largest transaction id of a batch; snapshot events have none. -/
def maxWatermarkIn (batch : List Entry) : Nat :=
  batch.foldl (fun highest entry =>
    match entry with
    | .snapshot => highest
    | .change ev => max highest ev.txId) 0

namespace System

variable (sys : System)

/-- Take the confirmed cursors off the queue, and write the last of them. -/
def drain (session : Session) (tail : Tail) : Option Nat × System :=
  let drained := drainGates session.sinkProgress tail.pendingCursors none
  match drained.1 with
  | none => (none, sys)
  | some cursor =>
    (some cursor,
      { sys with
        file := ⟨some cursor, sys.file.incomplete && tail.bootstrapConfirmed⟩
        session := some { session with
          stage := .tailing
            { tail with
              cursor := cursor
              pendingCursors := drained.2
              bootstrapConfirmed := true } } })

def beginTail (session : Session) (cursor : Nat) (file : CursorFile) : System :=
  { sys with
    file := file
    session := some { session with
      stage := .tailing
        { since := cursor
          began := session.log.entries.length
          cursor := cursor
          pendingCursors := []
          lastEmittedTx := 0
          bootstrapConfirmed := false } } }

/-- The cursor is resolved: a trusted one is resumed, or else a bootstrap begins, or the tail
    begins at the current end if none is configured. The second component is the cursor that is
    written. -/
def resolveCursor (session : Session) (bootstrap : Bool) : Option Nat × System :=
  match if sys.file.incomplete then none else sys.file.cursor with
  | some cursor => (none, sys.beginTail session cursor sys.file)
  | none =>
    if bootstrap then
      (none,
        { sys with
          file := ⟨none, true⟩
          session := some { session with stage := .bootstrapping sys.written } })
    else
      (some sys.written, sys.beginTail session sys.written ⟨some sys.written, sys.file.incomplete⟩)

end System

/-- Which polls and which batches a run admits, and in which states a tail may begin at a new
    cursor. -/
structure Admission where
  poll : Session → Tail → List Emitted → Prop
  commit : Session → Nat → Prop
  begin : Session → Prop

/-- The moves of the server, the source and the dispatcher, with the cursor that a move writes
    to the file. -/
inductive Step (mode : Mode) (stream : Stream) (bootstrap : Bool) (admits : Admission) :
    System → Option Nat → System → Prop where
  | write (system : System) : Step mode stream bootstrap admits system none
      { system with written := system.written + 1 }
  | start (system : System) : system.session = none → Step mode stream bootstrap admits system
        (system.resolveCursor ⟨.empty, 0, .bootstrapping 0⟩ bootstrap).1
        (system.resolveCursor ⟨.empty, 0, .bootstrapping 0⟩ bootstrap).2
  | scan (system : System) (session : Session) (cursor : Nat) :
      system.session = some session → session.stage = .bootstrapping cursor →
      Step mode stream bootstrap admits system none
        { system with session := some { session with log := session.log.push .snapshot } }
  | scanned (system : System) (session : Session) (cursor : Nat) :
      system.session = some session → session.stage = .bootstrapping cursor →
      admits.begin session →
      Step mode stream bootstrap admits system (some cursor)
        (system.beginTail session cursor ⟨some cursor, system.file.incomplete⟩)
  /-- A poll returns the rows up to `last`. The transaction ids of the rows that a cursor is
      valid for do not fall. -/
  | poll (system : System) (session : Session) (tail : Tail) (last : Nat)
      (events : List Emitted) : system.session = some session → session.stage = .tailing tail →
      tail.cursor < last → last ≤ system.written →
      (∀ row later, tail.since ≤ row → row ≤ later → later < last →
        stream.txId row ≤ stream.txId later) →
      Emits mode stream tail.cursor last events → admits.poll session tail events →
      Step mode stream bootstrap admits system none { system with
        session := some
          { session with
            log := publish session.log events
            stage := .tailing (tail.queue (batchEmitTx mode stream last events) last) } }
  | drain (system : System) (session : Session) (tail : Tail) :
      system.session = some session → session.stage = .tailing tail →
      Step mode stream bootstrap admits system (system.drain session tail).1
        (system.drain session tail).2
  /-- An empty poll with nothing pending writes the cursor that it had fetched before. -/
  | idleAdvance (system : System) (session : Session) (tail : Tail) :
      system.session = some session → session.stage = .tailing tail →
      tail.cursor = system.written → tail.pendingCursors = [] →
      Step mode stream bootstrap admits system (some tail.cursor)
        { system with file := { system.file with cursor := some tail.cursor } }
  /-- The next batch becomes durable, and the watermark rises. -/
  | commit (system : System) (session : Session) (count : Nat)
      (within : count ≤ session.log.entries.length) : system.session = some session →
      session.log.durableCount ≤ count → admits.commit session count →
      Step mode stream bootstrap admits system none { system with
        session := some { session with
          log := session.log.settle count within
          sinkProgress := max session.sinkProgress
            (maxWatermarkIn ((session.log.entries.take count).drop session.log.durableCount)) } }
  /-- The server rejects the cursor: it is deleted and resolved anew in the same process. -/
  | invalidCursor (system : System) (session : Session) (tail : Tail) :
      system.session = some session → session.stage = .tailing tail →
      (bootstrap = false → admits.begin session) →
      Step mode stream bootstrap admits system
        (({ system with file := { system.file with cursor := none } }).resolveCursor session
          bootstrap).1
        (({ system with file := { system.file with cursor := none } }).resolveCursor session
          bootstrap).2
  | stop (system : System) (session : Session) : system.session = some session →
      Step mode stream bootstrap admits system none { system with session := none }

def System.new : System where
  written := 0
  file := ⟨none, false⟩
  session := none

inductive Run (mode : Mode) (stream : Stream) (bootstrap : Bool) (admits : Admission) :
    System → Prop where
  | new : Run mode stream bootstrap admits .new
  | step {before after : System} {written : Option Nat} : Run mode stream bootstrap admits before →
      Step mode stream bootstrap admits before written after → Run mode stream bootstrap admits after

end Ventstream.Neo4j
