import Ventstream.Postgres.Replication

/-! # The slot is never advanced past work that is not durable

Publication order and commit order agree on every connection, and a connection
resumes no later than the last applied LSN. So whenever an event stamped `v` is
on the bus, every transaction that ends at or before `v` is on the bus up to
that point: reading `v` off the durable front settles all of them.
-/

namespace Ventstream.Postgres

open Library
open List hiding all any below count lt max tail

variable {Event : Type}

/-- Events before the last are stamped below `endLsn`, the last one with it. -/
def StampedUpTo (endLsn : Nat) : List (Stamped Event) → Prop
  | [] => True
  | [last] => last.lsn = some endLsn
  | entry :: rest => (∃ lsn < endLsn, entry.lsn = some lsn) ∧ StampedUpTo endLsn rest

theorem stampedUpTo_append (atEnd : last.lsn = some endLsn) :
    ∀ queue : List (Stamped Event), (∀ entry ∈ queue, ∃ lsn < endLsn, entry.lsn = some lsn) →
      StampedUpTo endLsn (queue ++ [last])
  | [], _ => atEnd
  | entry :: rest, below => by
      have headBelow := below entry mem_cons_self
      have tail := stampedUpTo_append atEnd rest fun later mem =>
        below later (mem_cons_of_mem entry mem)
      cases rest with
      | nil => exact ⟨headBelow, tail⟩
      | cons second rest => exact ⟨headBelow, tail⟩

@[simp] theorem map_event_publishEvents (evs : List Event) (lsn : Nat) :
    (publishEvents evs lsn).map (·.event) = evs := by
  simp [publishEvents, stampLsn, Function.comp_def]

theorem lsn_of_mem_publishEvents (mem : entry ∈ publishEvents evs lsn) : entry.lsn = some lsn := by
  simp only [publishEvents, mem_map] at mem
  obtain ⟨ev, -, rfl⟩ := mem
  rfl

/-- The replay after the events `seen`: at most the last non-empty record is
    held back, and nothing has reached the end LSN yet. -/
structure Replay.Holds (endLsn : Nat) (seen : List Event) (replay : Replay Event) : Prop where
  events : replay.published.map (·.event) ++ (replay.pending.map Prod.fst).getD [] = seen
  below : ∀ entry ∈ replay.published, ∃ lsn < endLsn, entry.lsn = some lsn
  held : ∀ evs lsn, replay.pending = some (evs, lsn) → evs ≠ [] ∧ lsn < endLsn
  silent : replay.pending = none → replay.published = [] ∧ replay.publishedAny = false

theorem Replay.Holds.next {endLsn seen} {replay : Replay Event} (holds : replay.Holds endLsn seen)
    {record : WalRecord Event} (below : record.walStart < endLsn) :
    (replay.next record).Holds endLsn (seen ++ record.events) := by
  unfold Replay.next
  cases empty : record.events.isEmpty with
  | true =>
    simp only [List.isEmpty_iff] at empty
    simpa [empty] using holds
  | false =>
    have nonempty : record.events ≠ [] := by
      simpa [List.isEmpty_iff] using empty
    cases pending : replay.pending with
    | none =>
      obtain ⟨nothing, -⟩ := holds.silent pending
      have seenNil : seen = [] := by simpa [pending, nothing] using holds.events.symm
      refine ⟨by simp [nothing, seenNil], by simp [nothing], ?_, by simp⟩
      intro evs lsn same
      cases same
      exact ⟨nonempty, below⟩
    | some held =>
      obtain ⟨evs, lsn⟩ := held
      have heldBelow := (holds.held evs lsn pending).2
      refine ⟨?_, ?_, ?_, by simp⟩
      · have all := holds.events
        simp only [pending, Option.map_some, Option.getD_some] at all
        simp [← all]
      · exact forall_mem_append.mpr ⟨holds.below, fun _ released =>
          ⟨lsn, heldBelow, lsn_of_mem_publishEvents released⟩⟩
      · intro evs lsn same
        cases same
        exact ⟨nonempty, below⟩

theorem Replay.Holds.foldl (records : List (WalRecord Event)) :
    ∀ {seen} {replay : Replay Event}, replay.Holds endLsn seen →
      (∀ record ∈ records, record.walStart < endLsn) →
      (records.foldl Replay.next replay).Holds endLsn (seen ++ records.flatMap (·.events)) := by
  induction records with
  | nil =>
    intro seen replay holds _
    simpa using holds
  | cons record rest ih =>
    intro seen replay holds below
    have step := holds.next (below record mem_cons_self)
    have run := ih step fun later mem => below later (mem_cons_of_mem record mem)
    simpa [append_assoc] using run

/-- A commit publishes the events of the transaction in order, and exactly the
    last of them carries the end LSN. -/
theorem replayTransaction_spec (txn : Transaction Event) :
    let (queue, publishedAny) := replayTransaction txn.records txn.endLsn
    queue.map (·.event) = txn.events ∧
    (publishedAny ↔ txn.events ≠ []) ∧
    StampedUpTo txn.endLsn queue := by
  have start : Replay.Holds txn.endLsn [] (⟨[], none, false⟩ : Replay Event) :=
    ⟨rfl, nofun, nofun, fun _ => ⟨rfl, rfl⟩⟩
  have holds := start.foldl txn.records txn.below
  rw [nil_append, ← Transaction.events] at holds
  unfold replayTransaction Replay.finish
  cases pending : (txn.records.foldl Replay.next ⟨[], none, false⟩).pending with
  | none =>
    obtain ⟨nothing, quiet⟩ := holds.silent pending
    have noEvents : txn.events = [] := by
      simpa [pending, nothing] using holds.events.symm
    simp [nothing, quiet, noEvents, StampedUpTo]
  | some held =>
    obtain ⟨evs, lsn⟩ := held
    obtain ⟨nonempty, heldBelow⟩ := holds.held evs lsn pending
    have all := holds.events
    simp only [pending, Option.map_some, Option.getD_some] at all
    have last : evs.getLast?.toList = [evs.getLast nonempty] := by
      simp [getLast?_eq_some_getLast nonempty]
    refine ⟨?_, ?_, ?_⟩
    · simp [last, ← all, dropLast_append_getLast]
    · simp [← all, nonempty]
    · rw [last]
      apply stampedUpTo_append rfl
      exact forall_mem_append.mpr ⟨holds.below, fun _ front =>
        ⟨lsn, heldBelow, lsn_of_mem_publishEvents front⟩⟩

section

variable (source : Source Event) (lsn : Nat)

@[simp] theorem updateAppliedLsn_walHighWater :
    (source.updateAppliedLsn lsn).1.walHighWater = source.walHighWater := by
  unfold Source.updateAppliedLsn
  split <;> rfl

@[simp] theorem updateAppliedLsn_transaction :
    (source.updateAppliedLsn lsn).1.transaction = source.transaction := by
  unfold Source.updateAppliedLsn
  split <;> rfl

@[simp] theorem updateAppliedLsn_task : (source.updateAppliedLsn lsn).1.task = source.task := by
  unfold Source.updateAppliedLsn
  split <;> rfl

theorem updateAppliedLsn_ack {source : Source Event} {lsn ack}
    (acked : (source.updateAppliedLsn lsn).2 = some ack) : ack = lsn := by
  unfold Source.updateAppliedLsn at acked
  split at acked
  · exact (Option.some.inj acked).symm
  · cases acked

/-- Only a transaction without events is acknowledged by its own commit, and only
    when the sink has caught up. -/
theorem settleCommit_spec (progress endLsn : Nat) (publishedAny : Bool) :
    let response := source.settleCommit (some progress) endLsn publishedAny
    source.walHighWater ≤ response.1.walHighWater ∧
    (publishedAny → endLsn ≤ response.1.walHighWater) ∧
    response.1.task = .afterCommit ∧ response.1.transaction = source.transaction ∧
    ∀ ack, response.2 = some ack →
      ack = endLsn ∧ publishedAny = false ∧ source.walHighWater ≤ progress := by
  cases publishedAny with
  | true => simp [Source.settleCommit]
  | false =>
    by_cases drained : Source.computeSafeAck (some progress) source.walHighWater =
        source.walHighWater
    · have caughtUp : source.walHighWater ≤ progress := by
        rw [← drained]
        exact Nat.min_le_right _ _
      simp only [Source.settleCommit, Bool.false_eq_true, if_false, drained, if_true,
        updateAppliedLsn_walHighWater, updateAppliedLsn_task, updateAppliedLsn_transaction]
      refine ⟨le_rfl, nofun, trivial, trivial, fun ack acked => ?_⟩
      exact ⟨updateAppliedLsn_ack acked, trivial, caughtUp⟩
    · simp [Source.settleCommit, drained]

theorem computeSafeAck_le_progress (progress walHighWater : Nat) :
    Source.computeSafeAck (some progress) walHighWater ≤ progress :=
  Nat.min_le_right _ _

end

namespace System

variable {log : CommitLog Event} {sys : System Event}

@[simp] theorem respond_source (response : Source Event × Option Nat) :
    (sys.respond response).source = response.1 := rfl

variable {txn later : Transaction Event}

theorem Transaction.events_eq_nil_of_endLsn (atZero : txn.endLsn = 0) : txn.events = [] := by
  unfold Transaction.events
  cases records : txn.records with
  | nil => rfl
  | cons record rest =>
    have impossible := txn.below record (by simp [records])
    omega

theorem drop_next {next} (current : log.transactions[next]? = some txn) :
    log.transactions.drop next = txn :: log.transactions.drop (next + 1) := by
  obtain ⟨inside, same⟩ := List.getElem?_eq_some_iff.mp current
  rw [drop_eq_getElem_cons inside, same]

theorem endLsn_lt_of_later {next} (current : log.transactions[next]? = some txn)
    (mem : later ∈ log.transactions.drop (next + 1)) : txn.endLsn < later.endLsn := by
  have sorted := log.increasing.sublist (drop_sublist next _)
  rw [drop_next current, pairwise_cons] at sorted
  exact sorted.1 later mem

theorem endLsn_le_of_drop {next} (current : log.transactions[next]? = some txn)
    (mem : later ∈ log.transactions.drop next) : txn.endLsn ≤ later.endLsn := by
  rw [drop_next current, mem_cons] at mem
  rcases mem with rfl | mem
  · exact le_rfl
  · exact le_of_lt (endLsn_lt_of_later current mem)

/-- Where the task stands in the log. -/
inductive Position (log : CommitLog Event) (sys : System Event) : Prop
  | idle (task : sys.source.task = .idle) (closed : sys.sent = none)
      (none : sys.source.transaction = none)
  | buffering {txn : Transaction Event} {count : Nat}
      (task : sys.source.task = .idle) (opened : sys.sent = some count)
      (current : log.transactions[sys.next]? = some txn)
      (buffer : sys.source.transaction = some (txn.records.take count))
  | record {queue : List (Stamped Event)} {walStart : Nat}
      (task : sys.source.task = .record queue walStart) (closed : sys.sent = none)
      (none : sys.source.transaction = none)
      (stamped : ∀ entry ∈ queue, entry.lsn = some walStart)
      (ahead : ∀ txn ∈ log.transactions.drop sys.next, walStart < txn.endLsn)
  | commit {queue : List (Stamped Event)} {publishedAny : Bool}
      {txn : Transaction Event} {done : List Event}
      (task : sys.source.task = .commit queue txn.endLsn publishedAny)
      (none : sys.source.transaction = none)
      (current : log.transactions[sys.next]? = some txn)
      (split : txn.events = done ++ queue.map (·.event))
      (published : done.Sublist (sys.bus.entries.map (·.event)))
      (any : publishedAny = true ↔ txn.events ≠ [])
      (stamped : StampedUpTo txn.endLsn queue)
  | afterCommit (task : sys.source.task = .afterCommit) (closed : sys.sent = none)
      (none : sys.source.transaction = none)

theorem Position.of_bus {bus : DurableLog (Stamped Event)} {sinkProgress} (pos : Position log sys)
    (longer : sys.bus.entries <+: bus.entries) :
    Position log { sys with bus := bus, sinkProgress := sinkProgress } := by
  cases pos with
  | idle task closed none => exact .idle task closed none
  | buffering task opened current buffer => exact .buffering task opened current buffer
  | record task closed none stamped ahead => exact .record task closed none stamped ahead
  | commit task none current split published any stamped =>
    exact .commit task none current split (published.trans (longer.sublist.map _)) any stamped
  | afterCommit task closed none => exact .afterCommit task closed none

/-- Whatever ends at or before an acknowledged LSN is durable. -/
def Acks (log : CommitLog Event) (sys : System Event) (ack : Option Nat) : Prop :=
  ∀ lsn, ack = some lsn → ∀ txn ∈ log.transactions, txn.endLsn ≤ lsn → sys.Durable txn

/-- The invariant of the replication loop. -/
structure AckSafe (log : CommitLog Event) (system : System Event) : Prop where
  /-- A stamp on the bus vouches for every transaction that ends at or before it. -/
  covered : ∀ front last lsn, front ++ [last] <+: system.bus.entries → last.lsn = some lsn →
    ∀ transaction ∈ log.transactions, transaction.endLsn ≤ lsn →
      transaction.events.Sublist ((front ++ [last]).map (·.event))
  watermark : system.sinkProgress = 0 ∨ ∃ front last,
    front ++ [last] <+: system.bus.settled ∧ last.lsn = some system.sinkProgress
  behind : ∀ transaction ∈ log.transactions.take system.next,
    transaction.events.Sublist (system.bus.entries.map (·.event)) ∧
    (transaction.endLsn ≤ system.source.walHighWater ∨ system.Durable transaction)
  applied : ∀ transaction ∈ log.transactions, transaction.endLsn ≤ system.applied →
    system.Durable transaction
  position : Position log system

namespace AckSafe

theorem start : AckSafe log (start : System Event) where
  covered := by
    intro front last lsn inside
    simp [System.start] at inside
  watermark := Or.inl rfl
  behind := by simp [System.start]
  applied := by
    intro txn _ atZero
    have noEvents := Transaction.events_eq_nil_of_endLsn (Nat.le_zero.mp atZero)
    simp [Durable, noEvents]
  position := .idle rfl rfl rfl

variable (safe : AckSafe log sys)
include safe

variable {txn : Transaction Event} {source : Source Event} {entry : Stamped Event}

theorem durable_of_le_progress (mem : txn ∈ log.transactions)
    (reached : txn.endLsn ≤ sys.sinkProgress) : sys.Durable txn := by
  rcases safe.watermark with zero | ⟨front, last, inside, stamped⟩
  · have noEvents := Transaction.events_eq_nil_of_endLsn (Nat.le_zero.mp (zero ▸ reached))
    simp [Durable, noEvents]
  · have onBus := inside.trans sys.bus.settled_prefix_entries
    have vouched := safe.covered front last _ onBus stamped txn mem reached
    exact vouched.trans (inside.sublist.map _)

/-- When the sink has caught up with the high-water mark, everything this
    connection has behind it is durable. -/
theorem durable_of_drained (drained : sys.source.walHighWater ≤ sys.sinkProgress)
    (mem : txn ∈ log.transactions.take sys.next) : sys.Durable txn := by
  rcases (safe.behind txn mem).2 with bounded | durable
  · exact safe.durable_of_le_progress (mem_of_mem_take mem) (bounded.trans drained)
  · exact durable

theorem behind_raised (raised : sys.source.walHighWater ≤ walHighWater)
    (mem : txn ∈ log.transactions.take sys.next) :
    txn.events.Sublist (sys.bus.entries.map (·.event)) ∧
    (txn.endLsn ≤ walHighWater ∨ sys.Durable txn) := by
  obtain ⟨published, bounded⟩ := safe.behind txn mem
  exact ⟨published, bounded.imp (fun below => below.trans raised) id⟩

theorem respond {response next sent} (behind : ∀ txn ∈ log.transactions.take next,
      txn.events.Sublist (sys.bus.entries.map (·.event)) ∧
      (txn.endLsn ≤ response.1.walHighWater ∨ sys.Durable txn)) (acked : Acks log sys response.2)
    (pos : Position log ({ sys with next := next, sent := sent }.respond response)) :
    AckSafe log ({ sys with next := next, sent := sent }.respond response) where
  covered := safe.covered
  watermark := safe.watermark
  behind := behind
  applied := by
    intro txn mem reached
    change txn.endLsn ≤ max sys.applied (response.2.getD 0) at reached
    cases call : response.2 with
    | none =>
      simp only [call, Option.getD_none, Nat.max_zero] at reached
      exact safe.applied txn mem reached
    | some lsn =>
      simp only [call, Option.getD_some] at reached
      have split : txn.endLsn ≤ sys.applied ∨ txn.endLsn ≤ lsn := by omega
      rcases split with earlier | now
      · exact safe.applied txn mem earlier
      · exact acked lsn call txn mem now
  position := pos

theorem hold {sent} (raised : sys.source.walHighWater ≤ source.walHighWater)
    (pos : Position log { sys with sent := sent, source := source }) :
    AckSafe log { sys with sent := sent, source := source } where
  covered := safe.covered
  watermark := safe.watermark
  behind := fun _ mem => safe.behind_raised raised mem
  applied := safe.applied
  position := pos

theorem respond_safeAck {walHighWater} (raised : sys.source.walHighWater ≤ source.walHighWater)
    (pos : ∀ ack, Position log (sys.respond ((source.updateAppliedLsn
        (Source.computeSafeAck (some sys.sinkProgress) walHighWater)).1, ack))) :
    let response := source.updateAppliedLsn
      (Source.computeSafeAck (some sys.sinkProgress) walHighWater)
    Acks log sys response.2 ∧ AckSafe log (sys.respond response) := by
  intro response
  have acked : Acks log sys response.2 := by
    intro lsn called txn mem ended
    rw [updateAppliedLsn_ack called] at ended
    exact safe.durable_of_le_progress mem
      (ended.trans (computeSafeAck_le_progress sys.sinkProgress walHighWater))
  refine ⟨acked, safe.respond (fun _ mem => safe.behind_raised ?_ mem) acked (pos _)⟩
  simpa [response] using raised

/-- One more entry on the bus. Its stamp, if it has one, must vouch for the
    transactions that end at or before it. -/
theorem push (same : source.walHighWater = sys.source.walHighWater)
    (vouched : ∀ lsn, entry.lsn = some lsn → ∀ txn ∈ log.transactions, txn.endLsn ≤ lsn →
        txn.events.Sublist ((sys.bus.entries ++ [entry]).map (·.event)))
    (pos : Position log { sys with bus := sys.bus.push entry, source := source }) :
    AckSafe log { sys with bus := sys.bus.push entry, source := source } where
  covered := by
    intro front last lsn inside stamped
    rcases sys.bus.front_push inside with earlier | ⟨rfl, rfl⟩
    · exact safe.covered front last lsn earlier stamped
    · exact vouched lsn stamped
  watermark := by simpa using safe.watermark
  behind := by
    intro txn mem
    obtain ⟨published, bounded⟩ := safe.behind txn mem
    refine ⟨published.trans ?_, ?_⟩
    · simp
    · simpa [Durable, same] using bounded
  applied := by
    intro txn mem reached
    simpa [Durable] using safe.applied txn mem reached
  position := pos

theorem sink (within : count ≤ sys.bus.entries.length) (progress : Nat)
    (grows : sys.bus.durableCount ≤ count) (reached : progress = sys.sinkProgress ∨ ∃ front last,
      front ++ [last] <+: (sys.bus.settle count within).settled ∧ last.lsn = some progress) :
    AckSafe log
      { sys with bus := sys.bus.settle count within, sinkProgress := progress } where
  covered := safe.covered
  watermark := by
    have longer := sys.bus.settled_prefix_settle within grows
    rcases reached with rfl | durable
    · rcases safe.watermark with zero | ⟨front, last, inside, stamped⟩
      · exact .inl zero
      · exact .inr ⟨front, last, inside.trans longer, stamped⟩
    · exact .inr durable
  behind := by
    intro txn mem
    have longer := sys.bus.settled_prefix_settle within grows
    obtain ⟨published, bounded⟩ := safe.behind txn mem
    exact ⟨published, bounded.imp id fun durable => durable.trans (longer.sublist.map _)⟩
  applied := by
    intro txn mem reached
    have longer := sys.bus.settled_prefix_settle within grows
    exact (safe.applied txn mem reached).trans (longer.sublist.map _)
  position := safe.position.of_bus (prefix_refl _)

theorem reconnect (confirmed : lsn ≤ sys.applied) : AckSafe log
      { sys with next := resumeAt log lsn, sent := none, source := .connected } where
  covered := safe.covered
  watermark := safe.watermark
  behind := by
    intro txn mem
    have resumed : txn ∈ log.transactions.takeWhile (·.endLsn ≤ lsn) := by
      rw [prefix_iff_eq_take.mp ( takeWhile_prefix _)]
      exact mem
    have ended : txn.endLsn ≤ lsn := by
      simpa using mem_takeWhile_imp resumed
    have durable := safe.applied txn (mem_of_mem_take mem) (ended.trans confirmed)
    have front := sys.bus.settled_prefix_entries.sublist
    exact ⟨durable.trans (front.map _), .inr durable⟩
  applied := safe.applied
  position := .idle rfl rfl rfl

/-- While the task is idle the source buffers exactly what has been sent of the
    next transaction. -/
theorem idle_cases (idle : sys.source.task = .idle) :
    (sys.sent = none ∧ sys.source.transaction = none) ∨
    ∃ txn count, sys.sent = some count ∧ log.transactions[sys.next]? = some txn ∧
      sys.source.transaction = some (txn.records.take count) := by
  cases safe.position with
  | idle task closed none => exact .inl ⟨closed, none⟩
  | buffering task opened current buffer => exact .inr ⟨_, _, opened, current, buffer⟩
  | record task | commit task | afterCommit task =>
    rw [idle] at task
    cases task

/-- The events of everything behind the connection precede any stamp that lies
    before the end of the transactions ahead. -/
theorem vouched_of_behind (before : ∀ txn ∈ log.transactions.drop sys.next, lsn < txn.endLsn)
    (mem : txn ∈ log.transactions) (ended : txn.endLsn ≤ lsn) :
    txn.events.Sublist ((sys.bus.entries ++ [entry]).map (·.event)) := by
  rw [← take_append_drop sys.next log.transactions, mem_append] at mem
  rcases mem with behind | ahead
  · have published := (safe.behind txn behind).1
    simpa using published.trans (sublist_append_left _ [entry.event])
  · have late := before txn ahead
    omega

theorem publishCommit
    (publishing : sys.source.task = .commit (entry :: queue) endLsn publishedAny) :
    AckSafe log { sys with
      bus := sys.bus.push entry
      source := { sys.source with task := .commit queue endLsn publishedAny } } := by
  cases safe.position with
  | idle task | buffering task | record task | afterCommit task =>
    rw [publishing] at task
    cases task
  | @commit _ _ txn done task none current split published any stamped =>
    rw [publishing] at task
    cases task
    have publishedNow : (done ++ [entry.event]).Sublist
        ((sys.bus.entries ++ [entry]).map (·.event)) := by
      simpa using published.append_right [entry.event]
    refine safe.push rfl ?_ (.commit rfl none current ?_ publishedNow any ?_)
    · intro lsn stamp other mem ended
      cases queue with
      | nil =>
        -- the stamp is the end of this transaction, and this is its last event
        have atEnd : lsn = txn.endLsn := by
          rw [show entry.lsn = some txn.endLsn from stamped] at stamp
          exact (Option.some.inj stamp).symm
        rw [← take_append_drop sys.next log.transactions, drop_next current,
          mem_append, mem_cons] at mem
        rcases mem with behind | rfl | later
        · have earlier := (safe.behind other behind).1
          simpa using earlier.trans (sublist_append_left _ [entry.event])
        · rw [split]
          exact publishedNow
        · have late := endLsn_lt_of_later current later
          omega
      | cons second rest =>
        obtain ⟨below, lt, stampBelow⟩ := stamped.1
        rw [stampBelow] at stamp
        cases stamp
        refine safe.vouched_of_behind (fun ahead present => ?_) mem ended
        have atLeast := endLsn_le_of_drop current present
        omega
    · simp [split]
    · cases queue with
      | nil => trivial
      | cons second rest => exact stamped.2

theorem settleCommit {response endLsn publishedAny}
    (published : sys.source.task = .commit [] endLsn publishedAny) (handled : response =
      sys.source.settleCommit (some sys.sinkProgress) endLsn publishedAny) :
    Acks log sys response.2 ∧
      AckSafe log ({ sys with next := sys.next + 1, sent := none }.respond response) := by
  cases safe.position with
  | idle task | buffering task | record task | afterCommit task =>
    rw [published] at task
    cases task
  | @commit _ _ txn done task none current split onBus any stamped =>
    rw [published] at task
    cases task
    have done_eq : txn.events = done := by simpa using split
    have emptyDurable : txn.events = [] → sys.Durable txn := by
      intro empty
      simp [Durable, empty]
    have source := settleCommit_spec sys.source sys.sinkProgress txn.endLsn publishedAny
    rw [← handled] at source
    obtain ⟨raised, bound, task, kept, call⟩ := source
    have acked : Acks log sys response.2 := by
      intro lsn called other mem ended
      obtain ⟨rfl, silent, drained⟩ := call lsn called
      rw [← take_append_drop sys.next log.transactions, drop_next current,
        mem_append, mem_cons] at mem
      rcases mem with behind | rfl | later
      · exact safe.durable_of_drained drained behind
      · exact emptyDurable (by simpa [silent] using any)
      · have late := endLsn_lt_of_later current later
        omega
    refine ⟨acked, safe.respond ?_ acked (.afterCommit task rfl (kept.trans none))⟩
    intro other mem
    rw [take_add_one, current, mem_append, Option.toList_some, mem_singleton] at mem
    rcases mem with behind | rfl
    · exact safe.behind_raised raised behind
    · refine ⟨done_eq ▸ onBus, ?_⟩
      cases publishedAny with
      | true => exact .inl (bound rfl)
      | false => exact .inr (emptyDurable (by simpa using any))

/-- An idle keepalive acknowledges `wal_end` only when nothing is open and
    everything behind the connection is durable. -/
theorem keepAlive {walEnd} (idle : sys.source.task = .idle) (ahead : ∀ txn ∈
      log.transactions.drop (sys.next + if sys.sent.isSome then 1 else 0), walEnd < txn.endLsn) :
    let response := sys.source.onKeepAlive (some sys.sinkProgress) walEnd
    Acks log sys response.2 ∧ AckSafe log (sys.respond response) := by
  intro response
  have source : response.1.walHighWater = sys.source.walHighWater ∧
      response.1.task = sys.source.task ∧
      response.1.transaction = sys.source.transaction := by
    simp only [response, Source.onKeepAlive]
    split <;> simp
  have acked : Acks log sys response.2 := by
    intro lsn called txn mem ended
    simp only [response, Source.onKeepAlive] at called
    split at called
    · rename_i guard
      obtain ⟨notOpen, drained⟩ := guard
      cases updateAppliedLsn_ack called
      have caughtUp : sys.source.walHighWater ≤ sys.sinkProgress := by
        rcases drained with zero | reached
        · omega
        · rw [← reached]
          exact computeSafeAck_le_progress _ _
      rcases safe.idle_cases idle with ⟨closed, -⟩ | ⟨_, _, _, _, buffer⟩
      · simp only [closed, Option.isSome_none, Bool.false_eq_true, if_false, Nat.add_zero] at ahead
        rw [← take_append_drop sys.next log.transactions, mem_append] at mem
        rcases mem with behind | later
        · exact safe.durable_of_drained caughtUp behind
        · have late := ahead txn later
          omega
      · simp [buffer] at notOpen
    · cases called
  refine ⟨acked, safe.respond (fun _ mem => safe.behind_raised ?_ mem) acked ?_⟩
  · exact le_of_eq source.1.symm
  · rcases safe.idle_cases idle with ⟨closed, none⟩ | ⟨_, _, opened, current, buffer⟩
    · exact .idle (source.2.1.trans idle) closed (source.2.2.trans none)
    · exact .buffering (source.2.1.trans idle) opened current (source.2.2.trans buffer)

theorem step {later ack} (move : Step log sys ack later) :
    Acks log sys ack ∧ AckSafe log later := by
  cases move with
  | @begin source idle closed more accepted =>
    refine ⟨nofun, ?_⟩
    rcases safe.idle_cases idle with ⟨-, none⟩ | ⟨_, _, opened, _⟩
    · simp only [Source.onBegin, none, Option.isSome_none, Bool.false_eq_true, if_false,
        Except.ok.injEq] at accepted
      subst accepted
      exact safe.hold le_rfl (.buffering idle rfl (getElem?_eq_getElem more) (by simp))
    · rw [closed] at opened
      cases opened
  | @xLogData txn record count idle opened current present =>
    refine ⟨nofun, ?_⟩
    rcases safe.idle_cases idle with ⟨closed, -⟩ | ⟨other, known, sent, here, buffer⟩
    · rw [opened] at closed
      cases closed
    · rw [opened] at sent
      rw [current] at here
      cases sent
      cases here
      have pushed : sys.source.onXLogData record = { sys.source with
          transaction := some (txn.records.take (count + 1)) } := by
        simp [Source.onXLogData, buffer, take_add_one, present]
      rw [pushed]
      exact safe.hold le_rfl (.buffering idle rfl current rfl)
  | @commit txn idle current complete =>
    refine ⟨nofun, ?_⟩
    rcases safe.idle_cases idle with ⟨closed, -⟩ | ⟨other, known, sent, here, buffer⟩
    · rw [complete] at closed
      cases closed
    · rw [complete] at sent
      rw [current] at here
      cases sent
      cases here
      rw [take_length] at buffer
      obtain ⟨evs, any, stamped⟩ := replayTransaction_spec txn
      simp only [Source.onCommit, buffer]
      exact safe.hold le_rfl (.commit rfl rfl current evs.symm (nil_sublist _) any stamped)
  | record record idle closed ahead =>
    refine ⟨nofun, ?_⟩
    rcases safe.idle_cases idle with ⟨-, none⟩ | ⟨_, _, opened, _⟩
    · simp only [Source.onXLogData, none]
      split
      · exact safe
      · exact safe.hold le_rfl (.record rfl closed rfl
          (fun _ mem => lsn_of_mem_publishEvents mem) ahead)
    · rw [closed] at opened
      cases opened
  | keepAlive walEnd idle ahead handled =>
    subst handled
    exact safe.keepAlive idle ahead
  | reconnect lsn idle confirmed => exact ⟨nofun, safe.reconnect confirmed⟩
  | tick idle handled =>
    subst handled
    refine safe.respond_safeAck le_rfl fun _ => ?_
    rcases safe.idle_cases idle with ⟨closed, none⟩ | ⟨_, _, opened, current, buffer⟩
    · exact .idle (by simpa using idle) closed (by simpa using none)
    · exact .buffering (by simpa using idle) opened current (by simpa using buffer)
  | @publishRecord entry queue walStart publishing =>
    refine ⟨nofun, ?_⟩
    cases safe.position with
    | idle task | buffering task | commit task | afterCommit task =>
      rw [publishing] at task
      cases task
    | record task closed none stamped ahead =>
      rw [publishing] at task
      cases task
      refine safe.push rfl ?_ (.record rfl closed none
        (fun other mem => stamped other (mem_cons_of_mem _ mem)) ahead)
      intro lsn stamp
      rw [stamped entry mem_cons_self] at stamp
      cases stamp
      exact fun _ mem ended => safe.vouched_of_behind ahead mem ended
  | @finishRecord _ walStart published handled =>
    subst handled
    cases safe.position with
    | idle task | buffering task | commit task | afterCommit task =>
      rw [published] at task
      cases task
    | record task closed none stamped ahead =>
      refine safe.respond_safeAck (Nat.le_max_left _ _) fun _ => ?_
      exact .idle (by simp) closed (by simpa using none)
  | publishCommit publishing => exact ⟨nofun, safe.publishCommit publishing⟩
  | settleCommit published handled => exact safe.settleCommit published handled
  | finishCommit settled handled =>
    subst handled
    cases safe.position with
    | idle task | buffering task | record task | commit task =>
      rw [settled] at task
      cases task
    | afterCommit task closed none =>
      refine safe.respond_safeAck le_rfl fun _ => ?_
      exact .idle (by simp) closed (by simpa using none)
  | sink count within progress grows reached =>
    exact ⟨nofun, safe.sink within progress grows reached⟩
  | publishElsewhere ev =>
    exact ⟨nofun, safe.push rfl nofun (safe.position.of_bus (by simp))⟩

end AckSafe

theorem Reachable.ackSafe (run : Reachable log sys) : AckSafe log sys := by
  induction run with
  | start => exact .start
  | step run move ih => exact (ih.step move).2

/-- In every run, when `update_applied_lsn(lsn)` is called every event of every
    transaction that ends at or before `lsn` is already durable in the sink. -/
theorem updateAppliedLsn_durable (log : CommitLog Event) {system later : System Event} {lsn : Nat}
    (run : Reachable log system) (call : Step log system (some lsn) later)
    {transaction : Transaction Event} (member : transaction ∈ log.transactions)
    (ended : transaction.endLsn ≤ lsn) : system.Durable transaction :=
  (run.ackSafe.step call).1 lsn rfl transaction member ended

def oneRow : CommitLog Nat where
  transactions := [⟨[⟨5, [42]⟩], 10, by simp⟩]
  increasing := by simp

/-- The transaction is delivered, published and made durable; the look at the
    sink that ends its commit then acknowledges its end. -/
theorem updateAppliedLsn_durable_oneRow :
    ∃ system later, Reachable oneRow system ∧ Step oneRow system (some 10) later ∧
      ∀ transaction ∈ oneRow.transactions, system.Durable transaction := by
  have begun := Reachable.step (@Reachable.start Nat oneRow) (.begin rfl rfl (by decide) rfl)
  have sent := Reachable.step begun (.xLogData rfl rfl rfl rfl)
  have committed := Reachable.step sent (.commit rfl rfl rfl)
  have published := Reachable.step committed (.publishCommit rfl)
  have settled := Reachable.step published (.settleCommit rfl rfl)
  have durable := Reachable.step settled
    (.sink 1 (by decide) 10 (by decide) (Or.inr ⟨[], ⟨42, some 10⟩, by decide, rfl⟩))
  refine ⟨_, _, durable, .finishCommit rfl rfl, fun transaction member => ?_⟩
  have ended : transaction.endLsn ≤ 10 := by
    simp only [oneRow, mem_singleton] at member
    simp [member]
  exact @updateAppliedLsn_durable Nat oneRow _ _ 10 durable (.finishCommit rfl rfl)
    transaction member ended

end System

end Ventstream.Postgres
