import Ventstream.Library.DurableLog

/-! # The Postgres replication loop

`drive_replication` reads server messages, buffers a transaction until its
commit, publishes its events to the bus and decides when the slot may advance.
The handlers below follow `source.rs`. A handler that awaits the bus in the
middle is cut at every publication, so that the sink can move in between.

An event here is what decoding a record yields; the type is left open.
-/

namespace Ventstream.Postgres

open Library

variable {Event : Type}

/-- A buffered WAL message together with the events its payload decodes to. -/
structure WalRecord (Event : Type) where
  walStart : Nat
  events : List Event
  deriving DecidableEq

structure Stamped (Event : Type) where
  event : Event
  lsn : Option Nat
  deriving DecidableEq

def stampLsn (lsn : Nat) (ev : Event) : Stamped Event := ⟨ev, some lsn⟩

def publishEvents (evs : List Event) (lsn : Nat) : List (Stamped Event) :=
  evs.map (stampLsn lsn)

/-- The local variables of the commit replay. -/
structure Replay (Event : Type) where
  published : List (Stamped Event)
  pending : Option (List Event × Nat)
  publishedAny : Bool

/-- One buffered record: a later non-empty record releases the one held back. -/
def Replay.next (replay : Replay Event) (record : WalRecord Event) : Replay Event :=
  if record.events.isEmpty then replay
  else
    match replay.pending with
    | some (prev, prevLsn) =>
      { published := replay.published ++ publishEvents prev prevLsn
        pending := some (record.events, record.walStart)
        publishedAny := true }
    | none => { replay with pending := some (record.events, record.walStart) }

/-- The last event of the held-back record carries the commit end LSN. -/
def Replay.finish (replay : Replay Event) (endLsn : Nat) : List (Stamped Event) × Bool :=
  match replay.pending with
  | some (lastEvents, lastLsn) =>
    (replay.published ++ publishEvents lastEvents.dropLast lastLsn ++
      publishEvents lastEvents.getLast?.toList endLsn, true)
  | none => (replay.published, replay.publishedAny)

/-- What a commit publishes, and whether it publishes anything. -/
def replayTransaction (records : List (WalRecord Event)) (endLsn : Nat) :
    List (Stamped Event) × Bool :=
  (records.foldl Replay.next ⟨[], none, false⟩).finish endLsn

/-- Where the source task stands between two polls of its inputs. -/
inductive Task (Event : Type) where
  /-- Waiting in `select!`. -/
  | idle
  /-- Publishing a record that arrived outside a transaction. -/
  | record (queue : List (Stamped Event)) (walStart : Nat)
  /-- Publishing a committed transaction. -/
  | commit (queue : List (Stamped Event)) (endLsn : Nat) (publishedAny : Bool)
  /-- Past the commit, before the last look at the sink. -/
  | afterCommit

/-- The local variables of `drive_replication`. -/
structure Source (Event : Type) where
  walHighWater : Nat
  lastAcked : Nat
  transaction : Option (List (WalRecord Event))
  task : Task Event

namespace Source

/-- The state in which every connection starts. -/
def connected : Source Event where
  walHighWater := 0
  lastAcked := 0
  transaction := none
  task := .idle

variable (source : Source Event) (sinkProgress : Option Nat)

def computeSafeAck (walHighWater : Nat) : Nat :=
  match sinkProgress with
  | some progress => min walHighWater progress
  | none => walHighWater

/-- `if lsn > last_acked`: call `update_applied_lsn`. The call is the second
    component. -/
def updateAppliedLsn (lsn : Nat) : Source Event × Option Nat :=
  if lsn > source.lastAcked then ({ source with lastAcked := lsn }, some lsn) else (source, none)

def onTick : Source Event × Option Nat :=
  source.updateAppliedLsn (computeSafeAck sinkProgress source.walHighWater)

def onBegin : Except String (Source Event) :=
  if source.transaction.isSome then
    .error "received PostgreSQL BEGIN before the prior transaction committed"
  else .ok { source with transaction := some [] }

def onXLogData (record : WalRecord Event) : Source Event :=
  match source.transaction with
  | some buffer => { source with transaction := some (buffer ++ [record]) }
  | none =>
    if record.events.isEmpty then source
    else { source with
      task := .record (publishEvents record.events record.walStart) record.walStart }

/-- The tail of the non-transactional arm, once its events are on the bus. -/
def finishRecord (walStart : Nat) : Source Event × Option Nat :=
  let raised := { source with
    walHighWater := max source.walHighWater walStart
    task := .idle }
  raised.updateAppliedLsn (computeSafeAck sinkProgress raised.walHighWater)

def onCommit (endLsn : Nat) : Source Event :=
  match source.transaction with
  | some buffered =>
    let (queue, publishedAny) := replayTransaction buffered endLsn
    { source with transaction := none, task := .commit queue endLsn publishedAny }
  | none => { source with task := .commit [] endLsn false }

/-- A transaction that published something bounds the slot by its end; one that
    published nothing is acknowledged at once when all earlier work is durable. -/
def settleCommit (endLsn : Nat) (publishedAny : Bool) : Source Event × Option Nat :=
  let settled := { source with task := .afterCommit }
  if publishedAny then ({ settled with walHighWater := max settled.walHighWater endLsn }, none)
  else if computeSafeAck sinkProgress settled.walHighWater = settled.walHighWater then
    settled.updateAppliedLsn endLsn
  else (settled, none)

/-- The deferred advance that every commit ends with. -/
def finishCommit : Source Event × Option Nat :=
  { source with task := .idle }.updateAppliedLsn
    (computeSafeAck sinkProgress source.walHighWater)

def onKeepAlive (walEnd : Nat) : Source Event × Option Nat :=
  if source.transaction.isNone ∧ (source.walHighWater = 0 ∨
      computeSafeAck sinkProgress source.walHighWater = source.walHighWater) then
    source.updateAppliedLsn walEnd
  else (source, none)

end Source

/-- A committed transaction. Its row records precede the end of its commit. -/
structure Transaction (Event : Type) where
  records : List (WalRecord Event)
  endLsn : Nat
  below : ∀ record ∈ records, record.walStart < endLsn

def Transaction.events (txn : Transaction Event) : List Event :=
  txn.records.flatMap (·.events)

/-- The transactions the server has to deliver, in commit order. -/
structure CommitLog (Event : Type) where
  transactions : List (Transaction Event)
  increasing : transactions.Pairwise (·.endLsn < ·.endLsn)

/-- The source between the server and the sink. -/
structure System (Event : Type) where
  /-- How many transactions of the log lie behind this connection. -/
  next : Nat
  /-- How many records of the next transaction have been sent, once it has begun. -/
  sent : Option Nat
  /-- The largest LSN handed to `update_applied_lsn` so far. -/
  applied : Nat
  source : Source Event
  bus : DurableLog (Stamped Event)
  sinkProgress : Nat

namespace System

def start : System Event where
  next := 0
  sent := none
  applied := 0
  source := .connected
  bus := .empty
  sinkProgress := 0

def respond (sys : System Event) (response : Source Event × Option Nat) : System Event :=
  { sys with
    source := response.1
    applied := max sys.applied (response.2.getD 0) }

def resumeAt (log : CommitLog Event) (lsn : Nat) : Nat :=
  (log.transactions.takeWhile fun txn => txn.endLsn ≤ lsn).length

/-- Every event of the transaction is durable, in order and as often as it occurs. -/
def Durable (sys : System Event) (txn : Transaction Event) : Prop :=
  txn.events.Sublist (sys.bus.settled.map (·.event))

/-- One move of the server, the source task or the sink; the label is the
    argument of `update_applied_lsn` when the move calls it. Server messages are
    taken only while the task is idle. -/
inductive Step (log : CommitLog Event) : System Event → Option Nat → System Event → Prop
  | begin {system : System Event} {source : Source Event}
      (idle : system.source.task = .idle) (closed : system.sent = none)
      (more : system.next < log.transactions.length)
      (accepted : system.source.onBegin = .ok source) :
      Step log system none { system with sent := some 0, source := source }
  | xLogData {system : System Event} {transaction : Transaction Event}
      {record : WalRecord Event} {count : Nat}
      (idle : system.source.task = .idle) (opened : system.sent = some count)
      (current : log.transactions[system.next]? = some transaction)
      (present : transaction.records[count]? = some record) :
      Step log system none
        { system with sent := some (count + 1), source := system.source.onXLogData record }
  | commit {system : System Event} {transaction : Transaction Event}
      (idle : system.source.task = .idle)
      (current : log.transactions[system.next]? = some transaction)
      (complete : system.sent = some transaction.records.length) :
      Step log system none
        { system with source := system.source.onCommit transaction.endLsn }
  /-- A record outside any transaction precedes every commit still to come. -/
  | record {system : System Event} (record : WalRecord Event)
      (idle : system.source.task = .idle) (closed : system.sent = none)
      (ahead : ∀ transaction ∈ log.transactions.drop system.next,
        record.walStart < transaction.endLsn) :
      Step log system none { system with source := system.source.onXLogData record }
  /-- `wal_end` may lie past the commit of a transaction whose content has begun
      to arrive, never past one that has not. -/
  | keepAlive {system : System Event} {response : Source Event × Option Nat} (walEnd : Nat)
      (idle : system.source.task = .idle)
      (ahead : ∀ transaction ∈
        log.transactions.drop (system.next + if system.sent.isSome then 1 else 0),
          walEnd < transaction.endLsn)
      (handled : response = system.source.onKeepAlive (some system.sinkProgress) walEnd) :
      Step log system response.2 (system.respond response)
  /-- The stream resumes at, or before, the last applied LSN. -/
  | reconnect {system : System Event} (lsn : Nat) (idle : system.source.task = .idle)
      (confirmed : lsn ≤ system.applied) :
      Step log system none
        { system with next := resumeAt log lsn, sent := none, source := .connected }
  | tick {system : System Event} {response : Source Event × Option Nat}
      (idle : system.source.task = .idle)
      (handled : response = system.source.onTick (some system.sinkProgress)) :
      Step log system response.2 (system.respond response)
  | publishRecord {system : System Event} {entry : Stamped Event}
      {queue : List (Stamped Event)} {walStart : Nat}
      (publishing : system.source.task = .record (entry :: queue) walStart) :
      Step log system none
        { system with
          bus := system.bus.push entry
          source := { system.source with task := .record queue walStart } }
  | finishRecord {system : System Event} {response : Source Event × Option Nat} {walStart : Nat}
      (published : system.source.task = .record [] walStart)
      (handled : response = system.source.finishRecord (some system.sinkProgress) walStart) :
      Step log system response.2 (system.respond response)
  | publishCommit {system : System Event} {entry : Stamped Event}
      {queue : List (Stamped Event)} {endLsn : Nat} {publishedAny : Bool}
      (publishing : system.source.task = .commit (entry :: queue) endLsn publishedAny) :
      Step log system none
        { system with
          bus := system.bus.push entry
          source := { system.source with task := .commit queue endLsn publishedAny } }
  | settleCommit {system : System Event} {response : Source Event × Option Nat}
      {endLsn : Nat} {publishedAny : Bool}
      (published : system.source.task = .commit [] endLsn publishedAny)
      (handled : response =
        system.source.settleCommit (some system.sinkProgress) endLsn publishedAny) :
      Step log system response.2
        ({ system with next := system.next + 1, sent := none }.respond response)
  | finishCommit {system : System Event} {response : Source Event × Option Nat}
      (settled : system.source.task = .afterCommit)
      (handled : response = system.source.finishCommit (some system.sinkProgress)) :
      Step log system response.2 (system.respond response)
  /-- The sink makes more of the bus durable, in order. Its progress reaches a
      value only with an event stamped with that value. -/
  | sink {system : System Event} (count : Nat) (within : count ≤ system.bus.entries.length)
      (progress : Nat) (grows : system.bus.durableCount ≤ count)
      (reached : progress = system.sinkProgress ∨ ∃ front last,
        front ++ [last] <+: (system.bus.settle count within).settled ∧
        last.lsn = some progress) :
      Step log system none
        { system with bus := system.bus.settle count within, sinkProgress := progress }
  /-- Snapshot and resync rows reach the same bus without an LSN. -/
  | publishElsewhere {system : System Event} (event : Event) :
      Step log system none { system with bus := system.bus.push ⟨event, none⟩ }

/-- Every state of every run. -/
inductive Reachable (log : CommitLog Event) : System Event → Prop
  | start : Reachable log start
  | step {sys later : System Event} {ack : Option Nat} (run : Reachable log sys)
      (move : Step log sys ack later) : Reachable log later

end System

end Ventstream.Postgres
