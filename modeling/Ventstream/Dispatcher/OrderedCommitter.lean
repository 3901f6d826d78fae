import Mathlib

/-! # The dispatcher's ordered committer

Bulk writes finish in any order, but the source may only be acknowledged along
the contiguous run of durable batches. `OrderedCommitter` buffers finished
batches by spawn sequence and drains them from the head, so it is pure logic
over the results it is handed. The definitions follow `dispatcher.rs`.
-/

namespace Ventstream.Dispatcher

open Std (ExtTreeMap)

/-- Durability verdict of one batch. -/
inductive BatchOutcome where
  | durable
  | nonDurable (writesOk synced : Bool)
  | failedClosed
  | cancelled
  deriving Repr, DecidableEq

namespace BatchOutcome

/-- The two outcomes the caller must hear about: events of the batch are in
    neither the sink nor the dead-letter queue. -/
def IsFailure : BatchOutcome → Prop
  | .nonDurable _ _ | .failedClosed => True
  | .durable | .cancelled => False

instance : DecidablePred IsFailure := fun outcome => by
  cases outcome <;> simp only [IsFailure] <;> infer_instance

end BatchOutcome

structure BatchResult where
  seq : Nat
  maxWatermark : Nat
  maxTransformWatermark : Nat
  outcome : BatchOutcome
  deriving Repr, DecidableEq

structure OrderedCommitter where
  nextSeq : Nat
  pending : ExtTreeMap Nat BatchResult
  sinkProgress : Option Nat
  transformProgress : Option Nat
  /-- Whether the shutdown token has been cancelled. -/
  shutdown : Bool
  failed : Bool
  fatal : Option String

namespace OrderedCommitter

def new (sinkProgress transformProgress : Option Nat) (shutdown : Bool) : OrderedCommitter where
  nextSeq := 0
  pending := ∅
  sinkProgress := sinkProgress
  transformProgress := transformProgress
  shutdown := shutdown
  failed := false
  fatal := none

variable (c : OrderedCommitter)

/-- `fail` keeps the first reason it is given. -/
def fail (reason : String) : OrderedCommitter :=
  { c with failed := true, fatal := c.fatal.or (some reason), shutdown := true }

/-- `AtomicU64::fetch_max` behind the `> 0` guard both progress atomics share. -/
def fetchMax (progress : Option Nat) (watermark : Nat) : Option Nat :=
  progress.map fun current => if watermark > 0 then max current watermark else current

/-- The `Durable` arm of the drain loop. -/
def advance (entry : BatchResult) : OrderedCommitter :=
  { c with
    sinkProgress := fetchMax c.sinkProgress entry.maxWatermark
    transformProgress := fetchMax c.transformProgress entry.maxTransformWatermark
    nextSeq := c.nextSeq + 1 }

/-- One entry of the buffer that a cancelled head leaves behind. -/
def reportBuffered (entry : Nat × BatchResult) : OrderedCommitter :=
  if entry.2.outcome.IsFailure then
    let seq := entry.1
    c.fail s!"batch {seq} was not durable (observed while draining after a cancelled batch)"
  else c

/-- The `Cancelled` arm: stop, then look for failures among what is buffered. -/
def cancel : OrderedCommitter :=
  c.pending.toList.foldl reportBuffered { c with failed := true, pending := ∅ }

/-- At most `fuel` iterations of the `while let` loop of `commit`. -/
def drain : Nat → OrderedCommitter → OrderedCommitter
  | 0, c => c
  | fuel + 1, c =>
    match c.pending[c.nextSeq]? with
    | none => c
    | some entry =>
      let rest := { c with pending := c.pending.erase c.nextSeq }
      match entry.outcome with
      | .durable => drain fuel (rest.advance entry)
      | .nonDurable writesOk synced =>
        let seq := entry.seq
        rest.fail s!"DLQ not durable for batch {seq} (writes_ok={writesOk}, synced={synced})"
      | .failedClosed =>
        let seq := entry.seq
        rest.fail s!"sink batch {seq} failed closed"
      | .cancelled => rest.cancel

/-- The buffer after `pending.insert(result.seq, result)`. -/
def buffer (result : BatchResult) : OrderedCommitter :=
  { c with pending := c.pending.insert result.seq result }

/-- `commit` after at most `rounds` iterations of its loop. -/
def commitRounds (rounds : Nat) (result : BatchResult) : OrderedCommitter :=
  if c.failed then c else drain rounds (c.buffer result)

/-- Every iteration takes one entry out of the buffer, so its size bounds the loop. -/
def commit (result : BatchResult) : OrderedCommitter :=
  c.commitRounds (c.buffer result).pending.size result

def fatalReason : Option String := c.fatal

/-- Results handed over one after the other, in the order of the list. -/
def commitAll (results : List BatchResult) : OrderedCommitter :=
  results.foldl commit c

end OrderedCommitter

inductive DispatcherError where
  | failedClosed (reason : String)
  deriving Repr, DecidableEq

/-- What `Dispatcher::run` returns once every in-flight batch is reaped. -/
def runVerdict (c : OrderedCommitter) : Except DispatcherError Unit :=
  match c.fatalReason with
  | some reason => .error (.failedClosed reason)
  | none => .ok ()

end Ventstream.Dispatcher
