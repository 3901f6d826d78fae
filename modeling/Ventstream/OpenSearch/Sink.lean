import Ventstream.Library.Program
import Ventstream.OpenSearch.Bulk

/-! # Writing a batch

The write path of `sink.rs`: one request with its retries, the bisection of what is
too large, the clears at their place in the batch, and the error that `write` returns.
The cluster is any machine that answers requests; every reading of the clock and every
request with its answer go into a log that the sink never looks at. Fuel bounds the
requests and ranges of one loop: a write that runs out of it has not returned yet.
-/

namespace Ventstream.OpenSearch

open Core Library Library.Program

inductive Error where
  | request (failure : Failure)
  | partialFailure (batchSize failedCount : Nat) (sampleError : String)
      (failedItems : List FailedItem)
  | transientItems (failedCount : Nat) (sampleError : String)
  | blockedItems (failedCount : Nat) (sampleError : String)
  | requestTooLarge (actualBytes maxBytes : Nat)

/-- How a call that gives no result stops. -/
inductive Halt (ε : Type) where
  | failed (error : ε)
  | running

structure Config (Time : Type) where
  template : Template Time
  bytes : Action → Nat
  bytes_pos : ∀ action, 0 < bytes action
  maxBytes : Nat
  maxAttempts : Nat

inductive Reply where
  | transport (message : String)
  | unreadable (message : String)
  | failure (status : Nat) (errorType : Option String) (body : String)
  | items (items : List BulkResponseItem)

def Reply.entries : Reply → List BulkResponseItem
  | .items entries => entries
  | _ => []

/-- The clock, and the cluster that answers the sink's requests. -/
structure Cluster (σ Time : Type) where
  now : σ → Time × σ
  resolve : List BatchEvent → σ → Except Failure (Option DeleteTargets) × σ
  bulk : List Requested → σ → Reply × σ
  clear : String → String → σ → Except Failure PUnit × σ

inductive Entry (Time : Type) where
  /-- The clock was read, for a slice or for a clear. -/
  | clock (reading : Time)
  /-- A request that failed as a whole. -/
  | failed (request : List Requested) (failure : Failure)
  /-- A request with an answer for each of its actions. -/
  | answered (answers : List (Requested × BulkResponseItem))
  /-- A clear that was carried out, and the place of its event. -/
  | cleared (place : Nat)

structure World (σ Time : Type) where
  cluster : σ
  log : List (Entry Time)

section

variable {σ Time : Type} (cfg : Config Time) (cluster : Cluster σ Time)

abbrev Sending (σ Time : Type) := Program (Halt Error) (World σ Time)

/-- A result that may be a failed request. -/
def orFail {α : Type} (result : Except Failure α) : Sending σ Time α :=
  check (result.mapError fun failure => .failed (.request failure))

def readClock : Sending σ Time Time := update fun world =>
  let answer := cluster.now world.cluster
  (answer.1, ⟨answer.2, world.log ++ [.clock answer.1]⟩)

def resolveDeleteIndices (evs : List BatchEvent) : Sending σ Time (Option DeleteTargets) := do
  let found ← update fun world => ((cluster.resolve evs world.cluster).1,
    { world with cluster := (cluster.resolve evs world.cluster).2 })
  orFail found

/-- The index that a clear empties, and how the ids of the relation start. -/
def clearTarget (template : Template Time) (now : Time) (ev : BatchEvent) :
    Except Failure (String × String) := do
  let index ← template.render ev.toEvent now
  match ev.headers["ventstream.cdc.namespace"]?, ev.headers["ventstream.cdc.relation"]? with
  | some schema, some relation => .ok (index, schema ++ "." ++ relation ++ ":")
  | _, _ => .error (.internal ("target-clear event " ++ ev.id ++
      " has no namespace/relation headers; refusing to clear `" ++ index ++
      "` because the delete cannot be scoped to the truncated relation"))

def applyTargetClear (placed : Placed) : Sending σ Time PUnit := do
  let now ← readClock cluster
  let target ← orFail (clearTarget cfg.template now placed.event)
  let cleared ← update fun world =>
    let answer := cluster.clear target.1 target.2 world.cluster
    match answer.1 with
    | .ok _ => (answer.1, ⟨answer.2, world.log ++ [.cleared placed.place]⟩)
    | .error _ => (answer.1, { world with cluster := answer.2 })
  orFail cleared

/-- The outcome of one request: its buckets, or what went wrong with the request. -/
def classifyResponse (request : List Requested) : Reply → Except Failure Buckets
  | .transport message => .error (.transport message)
  | .unreadable message => .error (.malformedResponse message)
  | .failure status errorType body => .error (classifyFailure status errorType body)
  | .items items =>
    if items.length = request.length then .ok (partitionBulkItems (request.zip items))
    else .error (.malformedResponse ("bulk response item count " ++ toString items.length ++
      " does not match request item count " ++ toString request.length))

/-- What a request leaves in the log. -/
def entryOf (request : List Requested) (reply : Reply) : Entry Time :=
  match classifyResponse request reply with
  | .ok _ => .answered (request.zip reply.entries)
  | .error failure => .failed request failure

def sendOnce (request : List Requested) : Sending σ Time (Except Failure Buckets) :=
  update fun world =>
    let answer := cluster.bulk request world.cluster
    (classifyResponse request answer.1, ⟨answer.2, world.log ++ [entryOf request answer.1]⟩)

def bodyBytes (request : List Requested) : Nat :=
  (request.map fun requested => cfg.bytes requested.action).sum

variable (targets : Option DeleteTargets)

def encodeAttempt (renderedAt : Time) (attempt : List Placed) : Except Error (List Requested) :=
  match buildBulkBody cfg.template targets renderedAt attempt with
  | .error failure => .error (.request failure)
  | .ok request =>
    if cfg.maxBytes < bodyBytes cfg request then
      .error (.requestTooLarge (bodyBytes cfg request) cfg.maxBytes)
    else .ok request

/-- The schedule's next attempt, unless its budget has ended. -/
def nextAttempt (maxAttempts attempt : Nat) : Option Nat :=
  if maxAttempts ≠ 0 ∧ maxAttempts ≤ attempt + 1 then none else some (attempt + 1)

/-- The failed items of an attempt, by their offsets in the slice. -/
def mapBack (pending : List Nat) (items : List FailedItem) : List FailedItem :=
  items.filterMap fun item => pending[item.offset]?.map fun offset => ⟨offset, item.error⟩

def sampleOf (items : List FailedItem) (default : String) : String :=
  (items.head?.map (·.error)).getD default

/-- The end of a slice or of a batch: the items that failed for good are its error. -/
def settle (batchSize : Nat) (permanent : List FailedItem) : Sending σ Time PUnit :=
  if permanent.isEmpty then pure ⟨⟩
  else throw (.failed (.partialFailure batchSize permanent.length (sampleOf permanent "unknown")
    permanent))

/-- The attempts of one slice. A request that failed as a whole is sent again as it is; after an
    answer only the events that can be retried are. -/
def attemptLoop (renderedAt : Time) (evs : List Placed) :
    (fuel attempt : Nat) → (pending : List Nat) → (subset : List Placed) →
      (permanent : List FailedItem) → Sending σ Time PUnit
  | 0, _, _, _, _ => throw .running
  | fuel + 1, attempt, pending, subset, permanent => do
      let request ← check ((encodeAttempt cfg targets renderedAt subset).mapError .failed)
      -- a request without a body is never sent
      if bodyBytes cfg request = 0 then pure ⟨⟩
      else
        match ← sendOnce cluster request with
        | .ok buckets =>
          if !buckets.blocked.isEmpty then
            throw (.failed (.blockedItems buckets.blocked.length
              (sampleOf buckets.blocked "unknown blocked bulk item")))
          else
            let permanent := permanent ++ mapBack pending buckets.permanent
            let next := mapBack pending buckets.transient
            if next.isEmpty then settle evs.length permanent
            else
              match nextAttempt cfg.maxAttempts attempt with
              | some attempt =>
                let offsets := next.map (·.offset)
                attemptLoop renderedAt evs fuel attempt offsets
                  (offsets.filterMap (evs[·]?)) permanent
              | none => throw (.failed (.transientItems next.length
                  (sampleOf next "unknown transient item failure")))
        | .error failure =>
          if failure.isRetryable then
            match nextAttempt cfg.maxAttempts attempt with
            | some attempt =>
              attemptLoop renderedAt evs fuel attempt pending subset permanent
            | none => throw (.failed (.request failure))
          else throw (.failed (.request failure))

def sendSliceWithRetry (fuel : Nat) (evs : List Placed) : Sending σ Time PUnit :=
  if evs.isEmpty then pure ⟨⟩
  else do
    let renderedAt ← readClock cluster
    attemptLoop cfg cluster targets renderedAt evs fuel 0 (List.range evs.length) evs []

/-- The events of a range, unless it leaves the batch. -/
def slice (evs : List Placed) (start stop : Nat) : Option (List Placed) :=
  if start ≤ stop ∧ stop ≤ evs.length then some ((evs.take stop).drop start) else none

def tooLargeText (actualBytes maxBytes : Nat) : String :=
  "bulk request of " ++ toString actualBytes ++ " bytes exceeds max_bytes=" ++ toString maxBytes

/-- The failed items of a range, by their offsets in the batch. -/
def shift (start : Nat) (items : List FailedItem) : List FailedItem :=
  items.map fun item => ⟨start + item.offset, item.error⟩

/-- The queue of ranges: one that is too large makes room for its halves, the left one first, and
    a single event that is too large has failed for good. -/
def sendRanges (evs : List Placed) :
    (fuel : Nat) → List (Nat × Nat) → List FailedItem → Sending σ Time (List FailedItem)
  | _, [], permanent => pure permanent
  | 0, _ :: _, _ => throw .running
  | fuel + 1, (start, stop) :: rest, permanent => do
      match slice evs start stop with
      | none => throw (.failed (.request (.internal "bulk split produced an invalid event range")))
      | some attempt =>
        match ← outcome (sendSliceWithRetry cfg cluster targets fuel attempt) with
        | .ok _ => sendRanges evs fuel rest permanent
        | .error (.failed (.requestTooLarge actual max)) =>
          if 1 < stop - start then
            let midpoint := start + (stop - start) / 2
            sendRanges evs fuel ((start, midpoint) :: (midpoint, stop) :: rest)
              permanent
          else
            sendRanges evs fuel rest
              (permanent ++ [⟨start, tooLargeText actual max⟩])
        | .error (.failed (.partialFailure _ _ _ items)) =>
          let inRange := items.filter fun item => item.offset < stop - start
          sendRanges evs fuel rest (permanent ++ shift start inRange)
        | .error halt => throw halt

def sendSegment (evs : List Placed) (fuel start stop : Nat)
    (permanent : List FailedItem) : Sending σ Time (List FailedItem) :=
  if start < stop then sendRanges cfg cluster targets evs fuel [(start, stop)] permanent
  else pure permanent

/-- The segments between the clears of a batch, each clear at its place. -/
def sendSegments (evs : List Placed) (fuel : Nat) :
    List Placed → (segmentStart : Nat) → List FailedItem → Sending σ Time (List FailedItem)
  | [], segmentStart, permanent =>
    sendSegment cfg cluster targets evs fuel segmentStart evs.length permanent
  | placed :: rest, segmentStart, permanent =>
    if isTargetClear placed.event.toEvent then do
      let permanent ←
        sendSegment cfg cluster targets evs fuel segmentStart placed.place permanent
      applyTargetClear cfg cluster placed
      sendSegments evs fuel rest (placed.place + 1) permanent
    else sendSegments evs fuel rest segmentStart permanent

def place (batch : List BatchEvent) : List Placed :=
  batch.zipIdx.map fun entry => ⟨entry.1, entry.2⟩

def sendWithRetry (fuel : Nat) (batch : List BatchEvent) : Sending σ Time PUnit :=
  if batch.isEmpty then pure ⟨⟩
  else do
    let targets ← resolveDeleteIndices cluster batch
    let permanent ← sendSegments cfg cluster targets (place batch) fuel (place batch) 0 []
    settle batch.length (permanent.insertionSort fun item other => item.offset ≤ other.offset)

end

section

inductive SinkError where
  | connection (message : String)
  | blocked (message : String)
  | internal (message : String)
  | rejected (batchSize rejectedCount : Nat) (message : String)
      (failedItems : Option (List FailedItem))

def Failure.toSinkError : Failure → SinkError
  | .transport message => .connection message
  | .server status message => .connection ("HTTP " ++ toString status ++ ": " ++ message)
  | .rateLimited message => .connection ("HTTP 429: " ++ message)
  | .client status message | .auth status message =>
    .blocked ("HTTP " ++ toString status ++ ": " ++ message)
  | .malformedResponse message | .indexTemplate message => .blocked message
  | .internal message => .internal message

def Error.toSinkError : Error → SinkError
  | .request failure => failure.toSinkError
  | .partialFailure batchSize failedCount sampleError failedItems =>
    .rejected batchSize failedCount sampleError (some failedItems)
  | .transientItems failedCount sampleError => .connection (toString failedCount ++
      " bulk items remain transiently unavailable: " ++ sampleError)
  | .blockedItems failedCount sampleError => .blocked (toString failedCount ++
      " bulk items blocked delivery: " ++ sampleError)
  | .requestTooLarge actualBytes maxBytes => .internal ("single bulk item encoded to " ++
      toString actualBytes ++ " bytes, exceeding max_bytes=" ++ toString maxBytes)

variable {σ Time : Type} (cfg : Config Time) (cluster : Cluster σ Time)

/-- Write a batch: the result that the dispatcher sees and what the cluster was asked. -/
def write (fuel : Nat) (batch : List BatchEvent) (state : σ) :
    Except (Halt SinkError) PUnit × World σ Time :=
  let ran := exec (sendWithRetry cfg cluster fuel batch) ⟨state, []⟩
  (ran.1.mapError fun
    | .failed error => .failed error.toSinkError
    | .running => .running, ran.2)

end

end Ventstream.OpenSearch
