import Ventstream.Core.Event
import Ventstream.Library.DurableLog

/-! # Checkpoints of the SQL denormalizer

The denormalizer reads batches of changes, recomposes the documents they affect
and publishes these, followed by a barrier with a sequence number. The dispatcher
raises the transform progress to that number once everything published up to the
barrier is durable, and only then may the source progress take the watermark of
the batch. Batches overlap: some barriers may wait for confirmation while the next
batch is handled. The definitions follow `sql_denormalize.rs`.
-/

namespace Ventstream.SqlDenormalize

open Library
open List hiding after count max
open Core (Event parseU64)

/-- The highest LSN on a batch, with the header that carries it. -/
def maxLsn (evs : List Event) : Option (Nat × String) :=
  evs.foldl (fun best ev =>
    match ev.headers["ventstream.cdc.lsn"]? with
    | none => best
    | some raw =>
      match parseU64 raw with
      | none => best
      | some lsn => if best.all fun found => found.1 < lsn then some (lsn, raw) else best) none

def maxLsnU64 (evs : List Event) : Nat :=
  ((maxLsn evs).bind fun best => parseU64 best.2).getD 0

/-- A barrier that has been emitted: its sequence number and the watermark of its batch. -/
structure Barrier where
  sequence : Nat
  watermark : Nat
  deriving DecidableEq

structure Durability where
  transformProgress : Nat
  sourceProgress : Nat
  /-- Emitted but unconfirmed barriers, oldest first. -/
  pending : List Barrier
  maxInFlight : Nat

namespace Durability

/-- Take confirmed barriers off the front of the queue, raising the source progress. -/
def settleLoop (confirmed : Nat) : List Barrier → Nat → List Barrier × Nat
  | [], progress => ([], progress)
  | oldest :: rest, progress =>
    if oldest.sequence > confirmed then (oldest :: rest, progress)
    else
      settleLoop confirmed rest
        (if oldest.watermark > 0 then max progress oldest.watermark else progress)

def settle (durability : Durability) : Durability :=
  let (pending, progress) :=
    settleLoop durability.transformProgress durability.pending durability.sourceProgress
  { durability with pending := pending, sourceProgress := progress }

def lookahead (durability : Durability) : Nat := max durability.maxInFlight 1

def hasPending (durability : Durability) : Bool := !durability.pending.isEmpty

/-- The oldest barrier, if any, is confirmed. -/
def oldestConfirmed (durability : Durability) : Bool :=
  durability.pending.head?.all fun oldest => durability.transformProgress ≥ oldest.sequence

end Durability

inductive Entry where
  | document
  | barrier (sequence : Nat)
  deriving DecidableEq

def Entry.sequence? : Entry → Option Nat
  | .document => none
  | .barrier sequence => some sequence

/-- A batch whose barrier has been emitted. The bootstrap counts as a batch without events. -/
structure Commit where
  sequence : Nat
  batch : List Event

def Commit.barrier (commit : Commit) : Barrier := ⟨commit.sequence, maxLsnU64 commit.batch⟩

/-- The queue of barriers and the bus. `commits` is a record of the batches so far. -/
structure Ledger where
  durability : Durability
  nextSequence : Nat
  log : DurableLog Entry
  commits : List Commit

namespace Ledger

variable (ledger : Ledger)

def settle : Ledger := { ledger with durability := ledger.durability.settle }

def publish : Ledger := { ledger with log := ledger.log.push .document }

/-- The end of `emit_barrier`: a slot is free. -/
def emitBarrier (batch : List Event) : Ledger :=
  { durability := Durability.settle { ledger.durability with
      pending := ledger.durability.pending ++ [⟨ledger.nextSequence, maxLsnU64 batch⟩] }
    nextSequence := ledger.nextSequence + 1
    log := ledger.log.push (.barrier ledger.nextSequence)
    commits := ledger.commits ++ [⟨ledger.nextSequence, batch⟩] }

/-- A barrier that the bus has refused: only the sequence number is used up. -/
def skipSequence : Ledger := { ledger with nextSequence := ledger.nextSequence + 1 }

/-- The dispatcher's report: the barrier is durable with everything before it. -/
def confirm (sequence : Nat) : Ledger :=
  { ledger with durability := { ledger.durability with
      transformProgress := max ledger.durability.transformProgress sequence } }

end Ledger

/-- Where `run` stands. -/
inductive Stage where
  /-- `bootstrap` publishes the snapshot. -/
  | bootstrapping
  /-- `emit_barrier` waits for a free slot. -/
  | emitting (batch : List Event)
  /-- `commit` waits for all confirmations. -/
  | draining
  /-- The select of the tail loop. -/
  | tailing
  /-- `handle_tail_batch` publishes recomposed documents. -/
  | handling (batch : List Event)
  /-- `handle_tail_batch` waits for all confirmations before it reads the sink. -/
  | lookingUp (batch : List Event)
  | backingOff (batch : List Event)
  /-- `settle_until` after the loop. -/
  | closing
  | stopped

structure System where
  ledger : Ledger
  stage : Stage

/-- `commit_batch` waits for the confirmation of the batch, as `commit` does for the bootstrap. -/
def confirmsFirst (maxInFlight : Nat) (batch : List Event) : Prop := maxInFlight = 0 ∨ batch = []

/-- The moves of the denormalizer, the dispatcher and the sink. -/
inductive Step : System → System → Prop where
  /-- The sink makes more of the log durable. -/
  | durable (ledger : Ledger) (stage : Stage) (count : Nat)
      (within : count ≤ ledger.log.entries.length) (grows : ledger.log.durableCount ≤ count) :
      Step ⟨ledger, stage⟩ ⟨{ ledger with log := ledger.log.settle count within }, stage⟩
  | confirm (ledger : Ledger) (stage : Stage) (sequence : Nat) :
      .barrier sequence ∈ ledger.log.settled →
      Step ⟨ledger, stage⟩ ⟨ledger.confirm sequence, stage⟩
  | snapshotRow (ledger : Ledger) : Step ⟨ledger, .bootstrapping⟩ ⟨ledger.publish, .bootstrapping⟩
  | bootstrapped (ledger : Ledger) : Step ⟨ledger, .bootstrapping⟩ ⟨ledger.settle, .emitting []⟩
  | document (ledger : Ledger) (batch : List Event) :
      Step ⟨ledger, .handling batch⟩ ⟨ledger.publish, .handling batch⟩
  | lookUp (ledger : Ledger) (batch : List Event) :
      Step ⟨ledger, .handling batch⟩ ⟨ledger, .lookingUp batch⟩
  | lookedUp (ledger : Ledger) (batch : List Event) : ledger.durability.hasPending = false →
      Step ⟨ledger, .lookingUp batch⟩ ⟨ledger, .handling batch⟩
  | handled (ledger : Ledger) (batch : List Event) :
      Step ⟨ledger, .handling batch⟩ ⟨ledger.settle, .emitting batch⟩
  /-- `wait_for_oldest`, from `emit_barrier`. -/
  | waitForSlot (ledger : Ledger) (batch : List Event) :
      ledger.durability.lookahead ≤ ledger.durability.pending.length →
      ledger.durability.oldestConfirmed = true →
      Step ⟨ledger, .emitting batch⟩ ⟨ledger.settle, .emitting batch⟩
  /-- `wait_for_oldest`, from `drain`. -/
  | waitForAll (ledger : Ledger) (stage : Stage) :
      stage = .draining ∨ (∃ batch, stage = .lookingUp batch) →
      ledger.durability.hasPending = true → ledger.durability.oldestConfirmed = true →
      Step ⟨ledger, stage⟩ ⟨ledger.settle, stage⟩
  | emitAndWait (ledger : Ledger) (batch : List Event) :
      ledger.durability.pending.length < ledger.durability.lookahead →
      ledger.nextSequence + 1 < 2 ^ 64 → confirmsFirst ledger.durability.maxInFlight batch →
      Step ⟨ledger, .emitting batch⟩ ⟨ledger.emitBarrier batch, .draining⟩
  | emit (ledger : Ledger) (batch : List Event) :
      ledger.durability.pending.length < ledger.durability.lookahead →
      ledger.nextSequence + 1 < 2 ^ 64 → ¬ confirmsFirst ledger.durability.maxInFlight batch →
      Step ⟨ledger, .emitting batch⟩ ⟨ledger.emitBarrier batch, .tailing⟩
  | drained (ledger : Ledger) : ledger.durability.hasPending = false →
      Step ⟨ledger, .draining⟩ ⟨ledger, .tailing⟩
  /-- The settle tick of the tail loop, of a backoff and of the end. -/
  | settle (ledger : Ledger) (stage : Stage) :
      stage = .tailing ∨ (∃ batch, stage = .backingOff batch) ∨ stage = .closing →
      Step ⟨ledger, stage⟩ ⟨ledger.settle, stage⟩
  | receive (ledger : Ledger) (batch : List Event) : batch ≠ [] →
      Step ⟨ledger, .tailing⟩ ⟨ledger, .handling batch⟩
  /-- A query, a publication or the numbering of barriers fails; the batch is kept. -/
  | fail (ledger : Ledger) (batch : List Event) (stage : Stage) : batch ≠ [] →
      stage = .handling batch ∨ stage = .lookingUp batch ∨ stage = .emitting batch →
      Step ⟨ledger, stage⟩ ⟨ledger.settle, .backingOff batch⟩
  /-- The bus refuses the barrier itself. -/
  | refused (ledger : Ledger) (batch : List Event) : batch ≠ [] →
      ledger.durability.pending.length < ledger.durability.lookahead →
      Step ⟨ledger, .emitting batch⟩ ⟨ledger.skipSequence.settle, .backingOff batch⟩
  | retry (ledger : Ledger) (batch : List Event) :
      Step ⟨ledger, .backingOff batch⟩ ⟨ledger, .handling batch⟩
  /-- Shutdown, the end of the input, or a failed bootstrap. -/
  | leave (ledger : Ledger) (stage : Stage) : Step ⟨ledger, stage⟩ ⟨ledger, .closing⟩
  | stop (ledger : Ledger) (stage : Stage) : Step ⟨ledger, stage⟩ ⟨ledger, .stopped⟩

def System.start (maxInFlight : Nat) : System where
  ledger := ⟨⟨0, 0, [], maxInFlight⟩, 1, .empty, []⟩
  stage := .bootstrapping

inductive Reachable (maxInFlight : Nat) : System → Prop where
  | start : Reachable maxInFlight (.start maxInFlight)
  | step {before after : System} : Reachable maxInFlight before → Step before after →
      Reachable maxInFlight after

/-- What a settle takes off the queue is a front of it, all confirmed; and if it raises the
    source progress, it raises it to the watermark of one of them. -/
theorem settleLoop_spec (confirmed : Nat) (pending : List Barrier) (progress : Nat) :
    ∃ front, pending = front ++ (Durability.settleLoop confirmed pending progress).1 ∧
      (∀ barrier ∈ front, barrier.sequence ≤ confirmed) ∧
      ((Durability.settleLoop confirmed pending progress).2 = progress ∨ ∃ barrier ∈ front,
          barrier.watermark = (Durability.settleLoop confirmed pending progress).2) := by
  induction pending generalizing progress with
  | nil => exact ⟨[], rfl, by simp, .inl rfl⟩
  | cons oldest rest ih =>
    unfold Durability.settleLoop
    by_cases waits : oldest.sequence > confirmed
    · rw [if_pos waits]
      exact ⟨[], rfl, by simp, .inl rfl⟩
    · rw [if_neg waits]
      obtain ⟨front, split, areConfirmed, raised⟩ :=
        ih (if oldest.watermark > 0 then max progress oldest.watermark else progress)
      refine ⟨oldest :: front, congrArg (oldest :: ·) split, ?_, ?_⟩
      · exact forall_mem_cons.mpr ⟨Nat.le_of_not_lt waits, areConfirmed⟩
      · rcases raised with same | ⟨barrier, mem, isWatermark⟩
        · rw [same]
          by_cases higher : progress < oldest.watermark
          · right
            refine ⟨oldest, mem_cons_self, ?_⟩
            rw [if_pos (Nat.zero_lt_of_lt higher)]
            exact (Nat.max_eq_right (le_of_lt higher)).symm
          · left
            split
            · exact Nat.max_eq_left (Nat.le_of_not_lt higher)
            · rfl
        · exact .inr ⟨barrier, mem_cons_of_mem _ mem, isWatermark⟩

namespace Ledger

/-- The batches so far are those released and those that wait, in this order; the released
    ones are confirmed. -/
structure Sound (ledger : Ledger) (released waiting : List Commit) : Prop where
  split : ledger.commits = released ++ waiting
  pending : ledger.durability.pending = waiting.map Commit.barrier
  confirmed : ∀ commit ∈ released, commit.sequence ≤ ledger.durability.transformProgress
  logged : ledger.log.entries.filterMap Entry.sequence? = ledger.commits.map (·.sequence)
  increasing : (ledger.commits.map (·.sequence)).Pairwise (· < ·)
  fresh : ∀ commit ∈ ledger.commits, 0 < commit.sequence ∧ commit.sequence < ledger.nextSequence
  numbered : 0 < ledger.nextSequence
  reported : ledger.durability.transformProgress = 0 ∨
    .barrier ledger.durability.transformProgress ∈ ledger.log.settled
  room : waiting.length ≤ ledger.durability.lookahead

variable {ledger : Ledger} {released waiting : List Commit}

section

variable (sound : ledger.Sound released waiting)

include sound

theorem Sound.settle :
    ∃ front rest, waiting = front ++ rest ∧ ledger.settle.Sound (released ++ front) rest ∧
      (ledger.settle.durability.sourceProgress = ledger.durability.sourceProgress ∨
        ∃ commit ∈ front, commit.barrier.watermark = ledger.settle.durability.sourceProgress) := by
  obtain ⟨front, split, areConfirmed, raised⟩ := settleLoop_spec
    ledger.durability.transformProgress ledger.durability.pending ledger.durability.sourceProgress
  rw [sound.pending, map_eq_append_iff] at split
  obtain ⟨freed, rest, parts, isFront, isRest⟩ := split
  refine ⟨freed, rest, parts, ?_, ?_⟩
  · refine { sound with split := ?_, pending := ?_, confirmed := ?_, room := ?_ }
    · rw [append_assoc, ← parts]
      exact sound.split
    · rw [isRest, ← sound.pending]
      rfl
    · intro commit mem
      rcases mem_append.mp mem with earlier | freshly
      · exact sound.confirmed commit earlier
      · refine areConfirmed commit.barrier ?_
        rw [← isFront]
        exact mem_map_of_mem freshly
    · have shorter : rest.length ≤ waiting.length := by
        rw [parts, length_append]
        exact Nat.le_add_left _ _
      exact le_trans shorter sound.room
  · refine raised.imp_right ?_
    rintro ⟨barrier, mem, isWatermark⟩
    rw [← isFront] at mem
    obtain ⟨commit, isFreed, rfl⟩ := mem_map.mp mem
    exact ⟨commit, isFreed, isWatermark⟩

theorem Sound.publish : ledger.publish.Sound released waiting :=
  { sound with
    logged := by
      rw [Ledger.publish, DurableLog.entries_push, filterMap_append, sound.logged]
      exact append_nil _
    reported := sound.reported.imp_right fun durable => by
      rw [Ledger.publish, DurableLog.settled_push]
      exact durable }

theorem Sound.durable (within : count ≤ ledger.log.entries.length)
    (grows : ledger.log.durableCount ≤ count) :
    Sound { ledger with log := ledger.log.settle count within } released waiting :=
  { sound with
    reported := sound.reported.imp_right fun durable =>
      (ledger.log.settled_prefix_settle within grows).subset durable }

theorem Sound.confirm {sequence} (isDurable : .barrier sequence ∈ ledger.log.settled) :
    (ledger.confirm sequence).Sound released waiting :=
  { sound with
    confirmed := fun commit member =>
      le_trans (sound.confirmed commit member) (Nat.le_max_left _ _)
    reported := by
      rcases Nat.le_total ledger.durability.transformProgress sequence with lower | higher
      · right
        simpa only [Ledger.confirm, Nat.max_eq_right lower] using isDurable
      · simpa only [Ledger.confirm, Nat.max_eq_left higher] using sound.reported }

theorem Sound.skipSequence : ledger.skipSequence.Sound released waiting :=
  { sound with
    fresh := fun commit member =>
      ⟨(sound.fresh commit member).1, Nat.lt_succ_of_lt (sound.fresh commit member).2⟩
    numbered := Nat.succ_pos _ }

theorem Sound.pushBarrier (batch : List Event)
    (free : ledger.durability.pending.length < ledger.durability.lookahead) :
    Sound
      { durability := { ledger.durability with
          pending := ledger.durability.pending ++ [⟨ledger.nextSequence, maxLsnU64 batch⟩] }
        nextSequence := ledger.nextSequence + 1
        log := ledger.log.push (.barrier ledger.nextSequence)
        commits := ledger.commits ++ [⟨ledger.nextSequence, batch⟩] }
      released (waiting ++ [⟨ledger.nextSequence, batch⟩]) where
  split := by
    rw [← append_assoc, ← sound.split]
  pending := by
    simp [sound.pending, Commit.barrier]
  confirmed := sound.confirmed
  logged := by
    simp [sound.logged, Entry.sequence?]
  increasing := by
    rw [map_append, pairwise_append]
    refine ⟨sound.increasing, by simp, ?_⟩
    intro earlier member later isNew
    obtain ⟨commit, isCommit, rfl⟩ := mem_map.mp member
    simp only [map_cons, map_nil, mem_singleton] at isNew
    rw [isNew]
    exact (sound.fresh commit isCommit).2
  fresh := forall_mem_append.mpr ⟨fun commit earlier =>
      ⟨(sound.fresh commit earlier).1, Nat.lt_succ_of_lt (sound.fresh commit earlier).2⟩,
    forall_mem_singleton.mpr ⟨sound.numbered, Nat.lt_succ_self _⟩⟩
  numbered := Nat.succ_pos _
  reported := by
    simpa using sound.reported
  room := by
    have shorter : waiting.length < ledger.durability.lookahead := by
      simpa [sound.pending] using free
    simpa [Durability.lookahead] using Nat.succ_le_of_lt shorter

end

/-- A batch whose sequence number the progress has reached: its barrier and everything
    published before it are durable. -/
def Confirmed (ledger : Ledger) (commit : Commit) : Prop :=
  commit.sequence ≤ ledger.durability.transformProgress ∧
    ∀ front, front ++ [.barrier commit.sequence] <+: ledger.log.entries →
      front ++ [.barrier commit.sequence] <+: ledger.log.settled

theorem Sound.confirmed_of_le (sound : ledger.Sound released waiting)
    (isCommit : commit ∈ ledger.commits)
    (reached : commit.sequence ≤ ledger.durability.transformProgress) :
    ledger.Confirmed commit := by
  refine ⟨reached, fun front inside => ?_⟩
  have positive := (sound.fresh commit isCommit).1
  have durable : .barrier ledger.durability.transformProgress ∈ ledger.log.settled := by
    rcases sound.reported with nothing | durable
    · omega
    · exact durable
  have ordered : (ledger.log.entries.filterMap Entry.sequence?).Pairwise (· < ·) := by
    rw [sound.logged]
    exact sound.increasing
  exact ledger.log.front_settled ordered inside rfl (mem_filterMap.mpr ⟨_, durable, rfl⟩) reached

/-- What a step can do to the ledger. -/
inductive Move : Ledger → Ledger → Prop where
  | stay (ledger : Ledger) : Move ledger ledger
  | settle (ledger : Ledger) : Move ledger ledger.settle
  | publish (ledger : Ledger) : Move ledger ledger.publish
  | durable (ledger : Ledger) (count : Nat) (within : count ≤ ledger.log.entries.length)
      (grows : ledger.log.durableCount ≤ count) :
      Move ledger { ledger with log := ledger.log.settle count within }
  | confirm (ledger : Ledger) (sequence : Nat) : .barrier sequence ∈ ledger.log.settled →
      Move ledger (ledger.confirm sequence)
  | emit (ledger : Ledger) (batch : List Event) :
      ledger.durability.pending.length < ledger.durability.lookahead →
      Move ledger (ledger.emitBarrier batch)
  | refuse (ledger : Ledger) : Move ledger ledger.skipSequence.settle

variable {before after : Ledger}

theorem Move.maxInFlight (move : Move before after) :
    after.durability.maxInFlight = before.durability.maxInFlight := by
  cases move <;> rfl

/-- A move keeps the ledger sound, and raises the source progress only to the watermark of a
    batch that is released. -/
theorem Move.sound (move : Move before after) (sound : before.Sound released waiting) :
    ∃ freed rest, after.Sound freed rest ∧
      (after.durability.sourceProgress = before.durability.sourceProgress ∨
        ∃ commit ∈ freed, commit.barrier.watermark = after.durability.sourceProgress) := by
  cases move with
  | stay => exact ⟨released, waiting, sound, .inl rfl⟩
  | settle =>
    obtain ⟨front, rest, _, settled, raised⟩ := sound.settle
    refine ⟨_, _, settled, raised.imp_right ?_⟩
    rintro ⟨commit, mem, isWatermark⟩
    exact ⟨commit, mem_append_right _ mem, isWatermark⟩
  | publish => exact ⟨released, waiting, sound.publish, .inl rfl⟩
  | durable count within grows =>
    exact ⟨released, waiting, sound.durable within grows, .inl rfl⟩
  | confirm sequence isDurable =>
    exact ⟨released, waiting, sound.confirm isDurable, .inl rfl⟩
  | emit batch free =>
    obtain ⟨front, rest, _, settled, raised⟩ := (sound.pushBarrier batch free).settle
    refine ⟨_, _, settled, raised.imp_right ?_⟩
    rintro ⟨commit, mem, isWatermark⟩
    exact ⟨commit, mem_append_right _ mem, isWatermark⟩
  | refuse =>
    obtain ⟨front, rest, _, settled, raised⟩ := sound.skipSequence.settle
    refine ⟨_, _, settled, raised.imp_right ?_⟩
    rintro ⟨commit, mem, isWatermark⟩
    exact ⟨commit, mem_append_right _ mem, isWatermark⟩

end Ledger

section

open Ledger (Sound Move)

variable {before after : System}

theorem Step.move (step : Step before after) : Move before.ledger after.ledger := by
  cases step with
  | durable ledger stage count within grows => exact .durable ledger count within grows
  | confirm ledger stage sequence isDurable => exact .confirm ledger sequence isDurable
  | snapshotRow ledger => exact .publish ledger
  | document ledger => exact .publish ledger
  | emitAndWait ledger batch free => exact .emit ledger batch free
  | emit ledger batch free => exact .emit ledger batch free
  | refused ledger => exact .refuse ledger
  | bootstrapped ledger => exact .settle ledger
  | handled ledger => exact .settle ledger
  | waitForSlot ledger => exact .settle ledger
  | waitForAll ledger => exact .settle ledger
  | settle ledger => exact .settle ledger
  | fail ledger => exact .settle ledger
  | lookUp | lookedUp | drained | receive | retry | leave | stop => exact .stay _

theorem pending_settle {ledger : Ledger} (settled : ledger.durability.pending = []) :
    ledger.settle.durability.pending = [] := by
  simp [Ledger.settle, Durability.settle, settled, Durability.settleLoop]

/-- Between batches nothing waits for confirmation. -/
def System.Synchronous (sys : System) : Prop :=
  sys.ledger.durability.pending = [] ∨
    sys.stage = .draining ∨ sys.stage = .closing ∨ sys.stage = .stopped

/-- Without batches in flight, what is emitted is confirmed before the loop goes on. -/
theorem Step.synchronous (step : Step before after)
    (alone : before.ledger.durability.maxInFlight = 0) (synchronous : before.Synchronous) :
    after.Synchronous := by
  cases step with
  | durable | confirm | snapshotRow | document => exact synchronous
  | emit ledger batch free unique asynchronous => exact absurd (.inl alone) asynchronous
  | emitAndWait | leave | stop => simp [System.Synchronous]
  | drained ledger nothing =>
    left
    simpa [Durability.hasPending] using nothing
  | lookUp | lookedUp | receive | retry =>
    left
    simpa [System.Synchronous] using synchronous
  | bootstrapped | handled | waitForSlot =>
    left
    exact pending_settle (by simpa [System.Synchronous] using synchronous)
  | waitForAll ledger stage | settle ledger stage =>
    exact synchronous.imp_left pending_settle
  | fail ledger batch stage isBatch isStage =>
    left
    apply pending_settle
    rcases isStage with rfl | rfl | rfl <;> simpa [System.Synchronous] using synchronous
  | refused ledger batch =>
    left
    exact pending_settle (by simpa [System.Synchronous, Ledger.skipSequence] using synchronous)

variable {maxInFlight : Nat} {sys : System}

theorem Reachable.sound (reached : Reachable maxInFlight sys) :
    sys.ledger.durability.maxInFlight = maxInFlight ∧
      ∃ released waiting, sys.ledger.Sound released waiting := by
  induction reached with
  | start =>
    refine ⟨rfl, [], [], rfl, rfl, by simp, rfl, List.Pairwise.nil, ?_, Nat.one_pos, .inl rfl,
      Nat.zero_le _⟩
    intro commit mem
    cases mem
  | step _ step ih =>
    obtain ⟨sameLimit, released, waiting, sound⟩ := ih
    obtain ⟨freed, rest, stillSound, _⟩ := step.move.sound sound
    exact ⟨step.move.maxInFlight.trans sameLimit, freed, rest, stillSound⟩

theorem Reachable.synchronous (reached : Reachable 0 sys) : sys.Synchronous := by
  induction reached with
  | start => exact .inl rfl
  | step earlier step ih => exact step.synchronous earlier.sound.1 ih

/-- In every run: a step that raises the source progress raises it to the watermark of a batch
    that is confirmed with all batches before it; at most as many batches as are allowed in
    flight, and at least one, are unconfirmed; and if none is allowed, every earlier batch is
    confirmed while a batch is handled. -/
theorem source_progress_confirmed (reached : Reachable maxInFlight system) :
    (∀ later, Step system later →
      later.ledger.durability.sourceProgress ≠ system.ledger.durability.sourceProgress →
      ∃ earlier commit rest, later.ledger.commits = earlier ++ commit :: rest ∧
        maxLsnU64 commit.batch = later.ledger.durability.sourceProgress ∧
        ∀ released ∈ earlier ++ [commit], later.ledger.Confirmed released) ∧
    (system.ledger.commits.filter fun commit =>
      system.ledger.durability.transformProgress < commit.sequence).length ≤ max maxInFlight 1 ∧
    (maxInFlight = 0 → ∀ batch, system.stage = .handling batch →
      ∀ commit ∈ system.ledger.commits, system.ledger.Confirmed commit) := by
  obtain ⟨sameLimit, released, waiting, sound⟩ := reached.sound
  refine ⟨?_, ?_, ?_⟩
  · intro later step raised
    obtain ⟨freed, rest, stillSound, unraised | ⟨commit, member, isWatermark⟩⟩ :=
      step.move.sound sound
    · exact absurd unraised raised
    · obtain ⟨front, back, split⟩ := append_of_mem member
      refine ⟨front, commit, back ++ rest, ?_, isWatermark, ?_⟩
      · rw [stillSound.split, split]
        simp
      · intro confirmed isEarlier
        have isFreed : confirmed ∈ freed := by
          rw [split]
          rcases mem_append.mp isEarlier with earlier | same
          · exact mem_append_left _ earlier
          · exact mem_append_right _ (mem_singleton.mp same ▸ mem_cons_self)
        refine stillSound.confirmed_of_le ?_ (stillSound.confirmed confirmed isFreed)
        rw [stillSound.split]
        exact mem_append_left _ isFreed
  · have unconfirmed : (system.ledger.commits.filter fun commit =>
        system.ledger.durability.transformProgress < commit.sequence) =
        waiting.filter fun commit =>
          system.ledger.durability.transformProgress < commit.sequence := by
      have none : (released.filter fun commit =>
          system.ledger.durability.transformProgress < commit.sequence) = [] := by
        rw [filter_eq_nil_iff]
        intro commit member
        simpa using sound.confirmed commit member
      rw [sound.split, filter_append, none, nil_append]
    rw [unconfirmed, ← sameLimit]
    exact le_trans (length_filter_le _ _) sound.room
  · rintro rfl batch handling commit isCommit
    have nothing : system.ledger.durability.pending = [] := by
      simpa [System.Synchronous, handling] using reached.synchronous
    have allReleased : waiting = [] := by
      simpa [sound.pending] using nothing
    refine sound.confirmed_of_le isCommit (sound.confirmed commit ?_)
    simpa [sound.split, allReleased] using isCommit

theorem orders_isSegment :
    (Core.segments "postgres.public.orders.insert").all Core.isSegment := by decide

def sampleChange : Event where
  subject := ⟨"postgres.public.orders.insert", orders_isSegment⟩
  headers := (∅ : Core.Headers).insert "ventstream.cdc.lsn" "100"
  payload := .ok .null

/-- The ledger of a run with one batch, when the sink has confirmed its barrier. -/
def sampleLedger : Ledger where
  durability := ⟨2, 0, [⟨2, 100⟩], 0⟩
  nextSequence := 3
  log := ⟨[.barrier 1, .document, .barrier 2], 3, by decide⟩
  commits := [⟨1, []⟩, ⟨2, [sampleChange]⟩]

theorem reachable_sampleLedger : Reachable 0 ⟨sampleLedger, .draining⟩ := by
  have watermark : maxLsnU64 [sampleChange] = 100 := by decide +kernel
  let bootstrap : Ledger := ⟨⟨0, 0, [⟨1, 0⟩], 0⟩, 2, ⟨[.barrier 1], 0, by decide⟩, [⟨1, []⟩]⟩
  let settled : Ledger := ⟨⟨1, 0, [], 0⟩, 2, ⟨[.barrier 1], 1, by decide⟩, [⟨1, []⟩]⟩
  let barred : Ledger := ⟨⟨1, 0, [⟨2, 100⟩], 0⟩, 3,
    ⟨[.barrier 1, .document, .barrier 2], 1, by decide⟩, [⟨1, []⟩, ⟨2, [sampleChange]⟩]⟩
  have first : Reachable 0 ⟨bootstrap, .draining⟩ :=
    (Reachable.start.step (.bootstrapped _)).step
      (.emitAndWait _ [] (by decide) (by decide) (.inl rfl))
  have second : Reachable 0 ⟨settled, .tailing⟩ :=
    (((first.step (.durable _ _ 1 (by decide) (by decide))).step
      (.confirm _ _ 1 (by decide))).step
      (.waitForAll _ _ (.inl rfl) (by decide) (by decide))).step (.drained _ (by decide))
  have emitted : (settled.publish.settle.emitBarrier [sampleChange]) = barred := by
    simp [barred, settled, Ledger.publish, Ledger.settle, Ledger.emitBarrier, Durability.settle,
      Durability.settleLoop, watermark, DurableLog.push]
  have third : Reachable 0 ⟨barred, .draining⟩ := by
    exact (((second.step (.receive _ [sampleChange] (by simp))).step (.document _ _)).step
      (.handled _ _)).step (.emitAndWait _ _ (by decide) (by decide) (.inl rfl))
  exact (third.step (.durable _ _ 3 (by decide) (by decide))).step (.confirm _ _ 2 (by decide))

/-- The settle after the confirmation raises the source progress to the batch's LSN. -/
theorem source_progress_confirmed_once : sampleLedger.settle.durability.sourceProgress = 100 ∧
      ∃ earlier commit rest, sampleLedger.settle.commits = earlier ++ commit :: rest ∧
        maxLsnU64 commit.batch = 100 ∧
        ∀ released ∈ earlier ++ [commit], sampleLedger.settle.Confirmed released := by
  refine ⟨rfl, (source_progress_confirmed reachable_sampleLedger).1
    ⟨sampleLedger.settle, .draining⟩ (.waitForAll _ _ (Or.inl rfl) (by decide) (by decide)) ?_⟩
  decide

end

end Ventstream.SqlDenormalize
