import Ventstream.Library.AckLog
import Ventstream.Library.Json

/-! # The MongoDB change-stream source

A session opens the change stream, at the persisted resume token or at the current
end, scans the collections if there is no token and a bootstrap is configured, and
then publishes the changes one by one. A token is queued with each change and
written once the sink has confirmed everything published before it. A crash keeps
the files of the state directory and what the sink has made durable.

The change stream is a fixed sequence of events of which a growing front has been
written; a token is the number of events it lies behind. The definitions follow
`mongodb/source.rs` and `mongodb/cursor.rs`.
-/

namespace Ventstream.MongoDb

open Library
open Json (Value)

inductive OperationType where
  | insert
  | update
  | replace
  | delete
  /-- Drop, rename, invalidate and the like. -/
  | lifecycle
  deriving DecidableEq

inductive Op where
  | insert
  | update
  | delete
  deriving DecidableEq

def Op.isDelete : Op → Bool
  | .delete => true
  | _ => false

def mapOp : OperationType → Option Op
  | .insert => some .insert
  | .update | .replace => some .update
  | .delete => some .delete
  | .lifecycle => none

structure ChangeStreamEvent where
  operationType : OperationType
  collection : Option String
  documentId : Option Value
  fullDocument : Option Value

/-- The part of the configuration that decides what is in scope. -/
structure Config where
  collections : List String

def Config.collectionAllowed (cfg : Config) (collection : String) : Bool :=
  cfg.collections.isEmpty || cfg.collections.any (· == collection)

/-- What a published change says. -/
structure Change where
  op : Op
  collection : String
  id : Value
  document : Option Value

/-- The change that an event is published as, unless it is filtered or skipped. -/
def handleEvent (cfg : Config) (ev : ChangeStreamEvent) : Option Change :=
  match mapOp ev.operationType, ev.collection with
  | some op, some collection =>
    if cfg.collectionAllowed collection then
      match ev.documentId with
      | none => none
      | some id =>
        if op.isDelete then some ⟨op, collection, id, none⟩
        else ev.fullDocument.map fun document => ⟨op, collection, id, some document⟩
    else none
  | _, _ => none

/-- What a session publishes: scanned documents, the barrier behind them, and changes with
    their place in the stream. -/
inductive Entry where
  | document
  | barrier (ackSeq : Nat)
  | change (index ackSeq : Nat)
  deriving DecidableEq

def Entry.ackSeq? : Entry → Option Nat
  | .document => none
  | .barrier ackSeq => some ackSeq
  | .change _ ackSeq => some ackSeq

@[simp] theorem Entry.ackSeq?_document : Entry.document.ackSeq? = none := rfl

@[simp] theorem Entry.ackSeq?_barrier (ackSeq : Nat) :
    (Entry.barrier ackSeq).ackSeq? = some ackSeq := rfl

@[simp] theorem Entry.ackSeq?_change (index ackSeq : Nat) :
    (Entry.change index ackSeq).ackSeq? = some ackSeq := rfl

def bootstrapBarrierSeq : Nat := 1

/-- The files of the state directory. -/
structure CursorFile where
  token : Option Nat
  incomplete : Bool
  deriving DecidableEq

inductive Stage where
  /-- The scan, with the token the stream was opened at, if the server gave one. -/
  | scanning (start : Option Nat)
  /-- The barrier is published. -/
  | awaiting (start : Option Nat)
  /-- The token is written and the marker about to be cleared. -/
  | clearing
  | tailing
  /-- A change could not be published; what is confirmed may still be written. -/
  | closing
  deriving DecidableEq

structure Session where
  position : Nat
  log : AckLog Entry Entry.ackSeq?
  lastPublishedSeq : Nat
  pendingGated : List (Nat × Nat)
  stage : Stage

/-- The server, the state directory, the sink and the running session. `delivered` and
    `stored` record the places of the changes that any session was given, and of those that
    the sink made durable in a session that has ended. -/
structure System where
  written : Nat
  cursor : CursorFile
  session : Option Session
  delivered : List Nat
  stored : List Nat

namespace Session

variable (session : Session)

/-- The changes of the session that are durable. -/
def durableChanges : List Nat :=
  session.log.settled.filterMap fun
    | .change index _ => some index
    | _ => none

/-- Publish a change and queue its token. -/
def publishChange : Session :=
  { session with
    position := session.position + 1
    log := session.log.pushNext (.change session.position session.log.next)
      (Entry.ackSeq?_change _ _)
    lastPublishedSeq := session.log.next
    pendingGated := session.pendingGated ++ [(session.log.next, session.position + 1)] }

/-- Pass over an event: its token rides on what has been published so far. -/
def skipChange : Session :=
  { session with
    position := session.position + 1
    pendingGated := session.pendingGated ++ [(session.lastPublishedSeq, session.position + 1)] }

end Session

/-- Write the newest token that the sink has confirmed. -/
def flushConfirmed (cursor : CursorFile) (session : Session) : CursorFile × Session :=
  let (latest, pending) := drainGates session.log.progress session.pendingGated none
  ({ cursor with token := latest.or cursor.token }, { session with pendingGated := pending })

namespace System

variable (sys : System)

/-- The token that a start trusts. -/
def persisted : Option Nat := if sys.cursor.incomplete then none else sys.cursor.token

/-- Where a start opens the stream. -/
def startPosition : Nat := sys.persisted.getD sys.written

/-- The start of a session: cold with a bootstrap, or else straight into the tail. -/
def start (bootstrap tokenKnown : Bool) : System :=
  if sys.persisted = none ∧ bootstrap then
    { sys with
      cursor := ⟨none, true⟩
      session := some
        { position := sys.written
          log := .new
          lastPublishedSeq := 0
          pendingGated := []
          stage := .scanning (if tokenKnown then some sys.written else none) } }
  else
    { sys with
      cursor := { sys.cursor with token := sys.persisted }
      session := some
        { position := sys.startPosition
          log := AckLog.new.skip
          lastPublishedSeq := 0
          pendingGated := []
          stage := .tailing } }

/-- The end of a session, in any way: what is durable stays so. -/
def stop (session : Session) : System :=
  { sys with session := none, stored := sys.stored ++ session.durableChanges }

end System

/-- The moves of the server, the source and the sink over a stream of events. -/
inductive Step (config : Config) (stream : Nat → ChangeStreamEvent) : System → System → Prop where
  | write (system : System) :
      Step config stream system { system with written := system.written + 1 }
  | start (system : System) (bootstrap tokenKnown : Bool) : system.session = none →
      Step config stream system (system.start bootstrap tokenKnown)
  /-- The server rejects the token when the stream is opened. -/
  | rejected (system : System) : system.session = none → system.persisted ≠ none →
      Step config stream system { system with cursor := { system.cursor with token := none } }
  | scan (system : System) (session : Session) (start : Option Nat) :
      system.session = some session → session.stage = .scanning start →
      Step config stream system { system with
        session := some { session with log := session.log.push .document Entry.ackSeq?_document } }
  | scanned (system : System) (session : Session) (start : Option Nat) :
      system.session = some session → session.stage = .scanning start →
      Step config stream system { system with
        session := some { session with
          log := session.log.pushNext (.barrier session.log.next) (Entry.ackSeq?_barrier _)
          stage := .awaiting start } }
  | writeStart (system : System) (session : Session) (start : Option Nat) :
      system.session = some session → session.stage = .awaiting start →
      bootstrapBarrierSeq ≤ session.log.progress →
      Step config stream system { system with
        cursor := { system.cursor with token := start.or system.cursor.token }
        session := some { session with stage := .clearing } }
  | clearIncomplete (system : System) (session : Session) :
      system.session = some session → session.stage = .clearing →
      Step config stream system { system with
        cursor := { system.cursor with incomplete := false }
        session := some { session with stage := .tailing } }
  | publish (system : System) (session : Session) (change : Change) :
      system.session = some session → session.stage = .tailing →
      session.position < system.written →
      handleEvent config (stream session.position) = some change →
      Step config stream system { system with
        delivered := system.delivered ++ [session.position]
        session := some session.publishChange }
  | skip (system : System) (session : Session) :
      system.session = some session → session.stage = .tailing →
      session.position < system.written → handleEvent config (stream session.position) = none →
      Step config stream system { system with
        delivered := system.delivered ++ [session.position]
        session := some session.skipChange }
  /-- The bus refuses a change, or the shutdown comes first. -/
  | refused (system : System) (session : Session) :
      system.session = some session → session.stage = .tailing →
      session.position < system.written →
      Step config stream system { system with
        delivered := system.delivered ++ [session.position]
        session := some { session with stage := .closing } }
  | flush (system : System) (session : Session) :
      system.session = some session → session.stage = .tailing ∨ session.stage = .closing →
      Step config stream system { system with
        cursor := (flushConfirmed system.cursor session).1
        session := some (flushConfirmed system.cursor session).2 }
  | durable (system : System) (session : Session) (count : Nat)
      (within : count ≤ session.log.entries.length)
      (grows : session.log.log.durableCount ≤ count) : system.session = some session →
      Step config stream system { system with
        session := some { session with log := session.log.settle count within grows } }
  | confirm (system : System) (session : Session) (ackSeq : Nat)
      (isDurable : ackSeq ∈ session.log.settled.filterMap Entry.ackSeq?) :
      system.session = some session →
      Step config stream system { system with
        session := some { session with log := session.log.confirm ackSeq isDurable } }
  /-- The server has lost the history behind the token; the source wipes it and ends. -/
  | historyLost (system : System) (session : Session) :
      system.session = some session → session.stage = .tailing →
      Step config stream system
        { system.stop session with cursor := { system.cursor with token := none } }
  /-- A crash, an error or a shutdown. -/
  | stop (system : System) (session : Session) : system.session = some session →
      Step config stream system (system.stop session)

/-- A state directory without files. -/
def System.new : System where
  written := 0
  cursor := ⟨none, false⟩
  session := none
  delivered := []
  stored := []

/-- The event at this place is published when it is delivered. -/
def Publishes (cfg : Config) (stream : Nat → ChangeStreamEvent) (index : Nat) : Prop :=
  (handleEvent cfg (stream index)).isSome = true

end Ventstream.MongoDb
