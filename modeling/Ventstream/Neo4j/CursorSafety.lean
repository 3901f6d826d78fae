import Ventstream.Neo4j.Source

/-! # What a written cursor stands for

A cursor is written when the watermark has reached a transaction id. This says that
the events of the rows before it are durable as long as the watermark tells the truth:
no batch raises it past an event that is left out of the batch, nothing new is
emitted below it, and a tail that has not emitted anything only passes over rows once
the snapshot before it is durable.
-/

namespace Ventstream.Neo4j

open Library
open List hiding after below count head max tail

def Tail.emitted (tail : Tail) (log : DurableLog Entry) : List Entry := log.entries.drop tail.began

/-- An event that the tail emits for the first time is above the watermark, and no cursor waits
    at or past its rows behind a lower id. A tail that has emitted nothing passes over rows only
    when all before it is durable. -/
def AdmitsPoll (session : Session) (tail : Tail) (evs : List Emitted) : Prop :=
  (∀ ev ∈ evs, .change ev ∉ tail.emitted session.log → session.sinkProgress < ev.txId ∧
      ∀ entry ∈ tail.pendingCursors, ev.place ≤ entry.2 → ev.txId ≤ entry.1) ∧
  (evs = [] → tail.lastEmittedTx = 0 → tail.began ≤ session.log.durableCount)

/-- No event of the tail is left behind by a batch with its transaction id or a higher one. -/
def AdmitsCommit (session : Session) (count : Nat) : Prop :=
  ∀ tail, session.stage = .tailing tail → ∀ ev, .change ev ∈ tail.emitted session.log →
    ev.txId ≤ maxWatermarkIn
      ((session.log.entries.take count).drop session.log.durableCount) →
    .change ev ∈ session.log.entries.take count

/-- Every event published so far is durable. -/
def AdmitsBegin (session : Session) : Prop :=
  ∀ ev, .change ev ∈ session.log.entries → .change ev ∈ session.log.settled

def truthful : Admission := ⟨AdmitsPoll, AdmitsCommit, AdmitsBegin⟩

variable {mode : Mode} {stream : Stream} {log : DurableLog Entry} {sinkProgress : Nat} {tail : Tail}

structure Tail.Safe (mode : Mode) (stream : Stream) (log : DurableLog Entry)
    (sinkProgress : Nat) (tail : Tail) : Prop where
  inside : tail.began ≤ log.entries.length
  ahead : tail.since ≤ tail.cursor
  past : ∀ ev, .change ev ∈ log.entries.take tail.began →
    ev.place ≤ tail.since ∧ .change ev ∈ log.settled
  fresh : ∀ ev, .change ev ∈ tail.emitted log → tail.since < ev.place ∧
    ev.txId = stream.txId (ev.place - 1)
  repeats : mode = .raw → ∀ ev, .change ev ∈ tail.emitted log →
    stream.emits (ev.place - 1) = true ∧ ev.content = 0
  plain : .snapshot ∉ tail.emitted log
  guarded : ∀ ev, .change ev ∈ tail.emitted log → .change ev ∈ log.settled ∨
    (sinkProgress < ev.txId ∧ ∀ entry ∈ tail.pendingCursors, ev.place ≤ entry.2 → ev.txId ≤ entry.1)
  queued : ∀ ev, .change ev ∈ tail.emitted log → .change ev ∈ log.settled ∨
    ∃ entry ∈ tail.pendingCursors, ev.place ≤ entry.2
  behind : ∀ ev, .change ev ∈ tail.emitted log → ev.place ≤ tail.cursor → .change ev ∈ log.settled
  raised : ∀ ev, .change ev ∈ tail.emitted log → ev.txId ≤ tail.lastEmittedTx
  attained : tail.lastEmittedTx = 0 ∨
    ∃ ev, .change ev ∈ tail.emitted log ∧ ev.txId = tail.lastEmittedTx
  pending : ∀ entry ∈ tail.pendingCursors, tail.since ≤ entry.2 ∧ (tail.began ≤ log.durableCount ∨
      ∃ ev, .change ev ∈ tail.emitted log ∧ ev.txId = entry.1)

structure Session.Safe (mode : Mode) (stream : Stream) (written : Nat) (session : Session) :
    Prop where
  places : ∀ ev, .change ev ∈ session.log.entries → ev.place ≤ written
  scanning : ∀ cursor, session.stage = .bootstrapping cursor → cursor ≤ written ∧
    ∀ ev, .change ev ∈ session.log.entries → ev.place ≤ cursor
  tailing : ∀ tail, session.stage = .tailing tail →
    tail.Safe mode stream session.log session.sinkProgress

section

variable (safe : tail.Safe mode stream log sinkProgress)

include safe

theorem Tail.Safe.reached {gate cursor} (isPending : (gate, cursor) ∈ tail.pendingCursors)
    (open_ : gate ≤ sinkProgress) (ev : Emitted) (isEmitted : .change ev ∈ tail.emitted log)
    (before : ev.place ≤ cursor) : .change ev ∈ log.settled := by
  rcases safe.guarded ev isEmitted with durable | ⟨above, gated⟩
  · exact durable
  · have below := gated _ isPending before
    omega

theorem Tail.Safe.began_le (isEmitted : .change ev ∈ tail.emitted log)
    (durable : .change ev ∈ log.settled) : tail.began ≤ log.durableCount := by
  obtain ⟨place, inside, isPlace⟩ := getElem_of_mem durable
  by_contra early
  have isPast : .change ev ∈ log.entries.take tail.began := by
    have within : place < log.durableCount := by
      rw [DurableLog.settled, length_take] at inside
      omega
    rw [← isPlace]
    simp only [DurableLog.settled, getElem_take]
    exact mem_take_iff_getElem.mpr ⟨place, by have := log.within; omega, rfl⟩
  exact Nat.not_lt_of_le (safe.past ev isPast).1 (safe.fresh ev isEmitted).1

theorem Tail.Safe.snapshot_durable {gate cursor} (isPending : (gate, cursor) ∈ tail.pendingCursors)
    (open_ : gate ≤ sinkProgress) : tail.began ≤ log.durableCount := by
  rcases (safe.pending _ isPending).2 with durable | ⟨ev, isEmitted, isGate⟩
  · exact durable
  · refine safe.began_le isEmitted ?_
    rcases safe.guarded ev isEmitted with durable | ⟨above, _⟩
    · exact durable
    · omega

theorem Tail.Safe.snapshots (durable : tail.began ≤ log.durableCount) (index : Nat)
    (isSnapshot : log.entries[index]? = some .snapshot) : index < log.durableCount := by
  by_contra beyond
  refine safe.plain ?_
  obtain ⟨inside, isEntry⟩ := List.getElem?_eq_some_iff.mp isSnapshot
  rw [Tail.emitted, mem_drop_iff_getElem]
  refine ⟨index - tail.began, by omega, ?_⟩
  rw [← isEntry]
  congr 1
  omega

end

theorem Tail.safe_begin {cursor} (past : ∀ ev, .change ev ∈ log.entries → ev.place ≤ cursor ∧
      .change ev ∈ log.settled) :
    Tail.Safe mode stream log sinkProgress
      ⟨cursor, log.entries.length, cursor, [], 0, false⟩ := by
  have nothing : Tail.emitted ⟨cursor, log.entries.length, cursor, [], 0, false⟩ log = [] :=
    drop_length
  constructor
  case inside => exact le_rfl
  case ahead => exact le_rfl
  case past => exact fun ev isPast => past ev (mem_of_mem_take isPast)
  case attained => exact .inl rfl
  all_goals simp [nothing]

section

variable (log : DurableLog Entry) (evs : List Emitted)

theorem entries_publish : (publish log evs).entries = log.entries ++ evs.map .change := by
  induction evs generalizing log with
  | nil => simp [publish]
  | cons ev rest ih =>
    have after := ih (log.push (.change ev))
    rw [publish] at after ⊢
    rw [foldl_cons, after]
    simp

theorem durableCount_publish : (publish log evs).durableCount = log.durableCount := by
  induction evs generalizing log with
  | nil => rfl
  | cons ev rest ih => exact ih (log.push (.change ev))

theorem settled_publish : (publish log evs).settled = log.settled := by
  rw [DurableLog.settled, entries_publish, durableCount_publish,
    take_append_of_le_length log.within, DurableLog.settled]

theorem Tail.emitted_publish (inside : tail.began ≤ log.entries.length) :
    tail.emitted (publish log evs) = tail.emitted log ++ evs.map .change := by
  rw [Tail.emitted, entries_publish, drop_append_of_le_length inside, Tail.emitted]

theorem mem_rawEvents : ev ∈ rawEvents stream cursor last ↔ cursor < ev.place ∧ ev.place ≤ last ∧
      stream.emits (ev.place - 1) ∧ ev.txId = stream.txId (ev.place - 1) ∧
      ev.content = 0 := by
  obtain ⟨place, txId, content⟩ := ev
  simp only [rawEvents, mem_map, mem_filter, mem_range'_1, Emitted.mk.injEq]
  constructor
  · rintro ⟨row, ⟨⟨low, high⟩, emits⟩, rfl, rfl, rfl⟩
    exact ⟨by omega, by omega, emits, rfl, rfl⟩
  · rintro ⟨low, high, emits, rfl, rfl⟩
    exact ⟨place - 1, ⟨⟨by omega, by omega⟩, emits⟩, by omega, rfl, rfl⟩

end

section

variable {last : Nat} {evs : List Emitted}

variable {ev : Emitted}

theorem Emits.placed (emits : Emits mode stream tail.cursor last evs)
    (advances : tail.cursor < last) (isEvent : ev ∈ evs) :
    tail.cursor < ev.place ∧ ev.place ≤ last ∧
      ev.txId = stream.txId (ev.place - 1) := by
  cases mode with
  | raw =>
    rw [emits] at isEvent
    obtain ⟨low, high, _, isTx, _⟩ := mem_rawEvents.mp isEvent
    exact ⟨low, high, isTx⟩
  | denormalize =>
    obtain ⟨isLast, isTx⟩ := emits ev isEvent
    exact ⟨by omega, by omega, by rw [isLast, isTx]⟩

/-- The gate of a poll is the highest id of its events. -/
theorem Emits.gate_spec (emits : Emits mode stream tail.cursor last evs) (lastEmitted : Nat) :
    (∀ ev ∈ evs, ev.txId ≤ (batchEmitTx mode stream last evs).getD lastEmitted) ∧
      ((evs = [] ∧ (batchEmitTx mode stream last evs).getD lastEmitted = lastEmitted) ∨
        ∃ ev ∈ evs, ev.txId = (batchEmitTx mode stream last evs).getD lastEmitted) := by
  cases mode with
  | raw =>
    rw [batchEmitTx]
    cases highest : (evs.map Emitted.txId).max? with
    | none =>
      obtain rfl : evs = [] := by simpa [max?_eq_none_iff] using highest
      exact ⟨nofun, .inl ⟨rfl, rfl⟩⟩
    | some txId =>
      obtain ⟨attained, above⟩ := max?_eq_some_iff.mp highest
      exact ⟨fun ev isEvent => above _ (mem_map_of_mem isEvent), .inr (mem_map.mp attained)⟩
  | denormalize =>
    cases evs with
    | nil => exact ⟨nofun, .inl ⟨rfl, rfl⟩⟩
    | cons head rest =>
      refine ⟨fun ev isEvent => le_of_eq (emits ev isEvent).2, .inr ⟨head, mem_cons_self, ?_⟩⟩
      exact (emits head mem_cons_self).2

section

variable (emitTx : Option Nat)

theorem Tail.queue_spec : (tail.queue emitTx last).pendingCursors =
      tail.pendingCursors ++ [(emitTx.getD tail.lastEmittedTx, last)] := by
  cases emitTx <;> rfl

theorem Tail.lastEmittedTx_queue : (tail.queue emitTx last).lastEmittedTx =
      max tail.lastEmittedTx (emitTx.getD tail.lastEmittedTx) := by
  cases emitTx <;> simp [Tail.queue]

theorem Tail.mem_emitted_queue (inside : tail.began ≤ log.entries.length) :
    .change ev ∈ (tail.queue emitTx last).emitted (publish log evs) ↔
      .change ev ∈ tail.emitted log ∨ ev ∈ evs := by
  change _ ∈ tail.emitted (publish log evs) ↔ _
  rw [Tail.emitted_publish log evs inside]
  simp

end

variable (safe : tail.Safe mode stream log sinkProgress)
  (emits : Emits mode stream tail.cursor last evs)

include safe emits

theorem Tail.Safe.queue_raised (isEmitted : .change ev ∈ tail.emitted log ∨ ev ∈ evs) :
    ev.txId ≤ (tail.queue (batchEmitTx mode stream last evs) last).lastEmittedTx := by
  rw [Tail.lastEmittedTx_queue]
  rcases isEmitted with isOld | isNew
  · exact le_max_of_le_left (safe.raised ev isOld)
  · exact le_max_of_le_right ((emits.gate_spec tail.lastEmittedTx).1 ev isNew)

theorem Tail.Safe.queue_attained :
    (tail.queue (batchEmitTx mode stream last evs) last).lastEmittedTx = 0 ∨
      ∃ ev, (.change ev ∈ tail.emitted log ∨ ev ∈ evs) ∧
        ev.txId = (tail.queue (batchEmitTx mode stream last evs) last).lastEmittedTx := by
  have old : tail.lastEmittedTx = 0 ∨ ∃ ev, (.change ev ∈ tail.emitted log ∨ ev ∈ evs) ∧
      ev.txId = tail.lastEmittedTx :=
    safe.attained.imp_right fun ⟨ev, isOld, isTx⟩ => ⟨ev, .inl isOld, isTx⟩
  rw [Tail.lastEmittedTx_queue]
  rcases max_choice tail.lastEmittedTx
    ((batchEmitTx mode stream last evs).getD tail.lastEmittedTx) with isLast | isGate
  · rw [isLast]
    exact old
  · rw [isGate]
    rcases (emits.gate_spec tail.lastEmittedTx).2 with ⟨_, isLast⟩ | ⟨ev, isNew, isTx⟩
    · rw [isLast]
      exact old
    · exact .inr ⟨ev, .inr isNew, isTx⟩

/-- Each cursor that waits after a poll is behind a durable snapshot or an emitted event. -/
theorem Tail.Safe.queue_pending (advances : tail.cursor < last)
    (silent : evs = [] → tail.lastEmittedTx = 0 → tail.began ≤ log.durableCount)
    (isPending : entry ∈ (tail.queue (batchEmitTx mode stream last evs) last).pendingCursors) :
    tail.since ≤ entry.2 ∧ (tail.began ≤ log.durableCount ∨
      ∃ ev, (.change ev ∈ tail.emitted log ∨ ev ∈ evs) ∧ ev.txId = entry.1) := by
  rw [Tail.queue_spec, mem_append, mem_singleton] at isPending
  rcases isPending with isOld | rfl
  · obtain ⟨early, covered⟩ := safe.pending entry isOld
    exact ⟨early, covered.imp_right fun ⟨ev, isOld, isTx⟩ => ⟨ev, .inl isOld, isTx⟩⟩
  · refine ⟨le_trans safe.ahead (Nat.le_of_lt advances), ?_⟩
    rcases (emits.gate_spec tail.lastEmittedTx).2 with ⟨isEmpty, isLast⟩ | ⟨ev, isNew, isTx⟩
    · rcases safe.attained with isZero | ⟨ev, isOld, isTx⟩
      · exact .inl (silent isEmpty isZero)
      · exact .inr ⟨ev, .inl isOld, isTx.trans isLast.symm⟩
    · exact .inr ⟨ev, .inr isNew, isTx⟩

variable (rises : ∀ row later, tail.since ≤ row → row ≤ later → later < last →
    stream.txId row ≤ stream.txId later)

include rises

/-- The gate of a poll is not below an event of the rows before its cursor that is not
    durable: in raw mode such a row is polled again, and in denormalize mode the ids do not
    fall. -/
theorem Tail.Safe.gate (isEmitted : .change ev ∈ tail.emitted log)
    (waits : .change ev ∉ log.settled) (before : ev.place ≤ last) :
    ev.txId ≤ (batchEmitTx mode stream last evs).getD tail.lastEmittedTx := by
  obtain ⟨recent, isTx⟩ := safe.fresh ev isEmitted
  obtain ⟨above, ⟨_, isLast⟩ | ⟨other, isOther, isHighest⟩⟩ := emits.gate_spec tail.lastEmittedTx
  · rw [isLast]
    exact safe.raised ev isEmitted
  · cases mode with
    | raw =>
      obtain ⟨reported, isPlain⟩ := safe.repeats rfl ev isEmitted
      have beyond : tail.cursor < ev.place := by
        by_contra early
        exact waits (safe.behind ev isEmitted (by omega))
      refine above ev ?_
      rw [emits]
      exact mem_rawEvents.mpr ⟨beyond, before, reported, isTx, isPlain⟩
    | denormalize =>
      obtain ⟨_, isOwn⟩ := emits other isOther
      rw [isTx]
      refine le_trans (rises _ (last - 1) (by omega) (by omega) (by omega)) ?_
      exact le_of_eq (isOwn.symm.trans isHighest)

variable (news : ∀ ev ∈ evs, .change ev ∉ tail.emitted log → sinkProgress < ev.txId ∧
    ∀ entry ∈ tail.pendingCursors, ev.place ≤ entry.2 → ev.txId ≤ entry.1)

include news

/-- An event that is not durable after a poll is above the watermark and not above the gate of
    any cursor at or past its rows. -/
theorem Tail.Safe.queue_guarded (isEmitted : .change ev ∈ tail.emitted log ∨ ev ∈ evs)
    (waits : .change ev ∉ log.settled) : sinkProgress < ev.txId ∧
      ∀ entry ∈ (tail.queue (batchEmitTx mode stream last evs) last).pendingCursors,
        ev.place ≤ entry.2 → ev.txId ≤ entry.1 := by
  have before : sinkProgress < ev.txId ∧
      ∀ entry ∈ tail.pendingCursors, ev.place ≤ entry.2 → ev.txId ≤ entry.1 := by
    by_cases isOld : .change ev ∈ tail.emitted log
    · exact (safe.guarded ev isOld).resolve_left waits
    · exact news ev (isEmitted.resolve_left isOld) isOld
  refine ⟨before.1, fun entry isEntry early => ?_⟩
  rw [Tail.queue_spec, mem_append, mem_singleton] at isEntry
  rcases isEntry with isOld | rfl
  · exact before.2 entry isOld early
  -- The poll's own gate: its events are all below it, and so are those that wait.
  · rcases isEmitted with isOld | isNew
    · exact safe.gate emits rises isOld waits early
    · exact (emits.gate_spec tail.lastEmittedTx).1 ev isNew

theorem Tail.Safe.poll (advances : tail.cursor < last)
    (silent : evs = [] → tail.lastEmittedTx = 0 → tail.began ≤ log.durableCount) :
    (tail.queue (batchEmitTx mode stream last evs) last).Safe mode stream
      (publish log evs) sinkProgress := by
  have members (ev : Emitted) :=
    @Tail.mem_emitted_queue log tail last evs ev (batchEmitTx mode stream last evs) safe.inside
  constructor
  case inside =>
    rw [entries_publish, length_append]
    exact Nat.le_add_right_of_le safe.inside
  case ahead => exact safe.ahead
  case past =>
    intro ev isPast
    rw [entries_publish] at isPast
    change _ ∈ (log.entries ++ _).take tail.began at isPast
    rw [take_append_of_le_length safe.inside] at isPast
    rw [settled_publish]
    exact safe.past ev isPast
  case fresh =>
    intro ev isEmitted
    rcases (members ev).mp isEmitted with isOld | isNew
    · exact safe.fresh ev isOld
    · obtain ⟨beyond, _, isTx⟩ := emits.placed advances isNew
      exact ⟨lt_of_le_of_lt safe.ahead beyond, isTx⟩
  case repeats =>
    intro isRaw ev isEmitted
    rcases (members ev).mp isEmitted with isOld | isNew
    · exact safe.repeats isRaw ev isOld
    · subst isRaw
      rw [Emits] at emits
      rw [emits] at isNew
      obtain ⟨_, _, reported, _, isPlain⟩ := mem_rawEvents.mp isNew
      exact ⟨reported, isPlain⟩
  case plain =>
    intro isSnapshot
    change _ ∈ tail.emitted (publish log evs) at isSnapshot
    rw [Tail.emitted_publish log evs safe.inside, mem_append] at isSnapshot
    rcases isSnapshot with isOld | isNew
    · exact safe.plain isOld
    · simp at isNew
  case guarded =>
    intro ev isEmitted
    rw [settled_publish]
    exact or_iff_not_imp_left.mpr
      (safe.queue_guarded emits rises news ((members ev).mp isEmitted))
  case queued =>
    intro ev isEmitted
    rw [settled_publish, Tail.queue_spec]
    rcases (members ev).mp isEmitted with isOld | isNew
    · refine (safe.queued ev isOld).imp_right ?_
      exact fun ⟨entry, isEntry, early⟩ => ⟨entry, mem_append_left _ isEntry, early⟩
    · exact .inr ⟨_, mem_append_right _ mem_cons_self, (emits.placed advances isNew).2.1⟩
  case behind =>
    intro ev isEmitted early
    rw [settled_publish]
    change ev.place ≤ tail.cursor at early
    rcases (members ev).mp isEmitted with isOld | isNew
    · exact safe.behind ev isOld early
    · exact absurd early (Nat.not_le_of_lt (emits.placed advances isNew).1)
  case raised => exact fun ev isEmitted => safe.queue_raised emits ((members ev).mp isEmitted)
  case attained =>
    simp only [members]
    exact safe.queue_attained emits
  case pending =>
    simp only [members, durableCount_publish]
    exact fun entry isPending => safe.queue_pending emits advances silent isPending

end

section

variable (safe : tail.Safe mode stream log sinkProgress)

include safe

theorem Tail.Safe.commit {count highest} (within : count ≤ log.entries.length)
    (grows : log.durableCount ≤ count)
    (honest : ∀ ev, .change ev ∈ tail.emitted log → ev.txId ≤ highest →
      .change ev ∈ log.entries.take count) :
    tail.Safe mode stream (log.settle count within) (max sinkProgress highest) := by
  have kept {entry : Entry} (durable : entry ∈ log.settled) :
      entry ∈ (log.settle count within).settled :=
    (log.settled_prefix_settle within grows).subset durable
  refine { safe with past := ?_, guarded := ?_, queued := ?_, behind := ?_, pending := ?_ }
  · exact fun ev isPast => (safe.past ev isPast).imp_right kept
  · intro ev isEmitted
    rcases safe.guarded ev isEmitted with durable | ⟨above, gated⟩
    · exact .inl (kept durable)
    · by_cases covered : ev.txId ≤ highest
      · exact .inl (honest ev isEmitted covered)
      · exact .inr ⟨by omega, gated⟩
  · exact fun ev isEmitted => (safe.queued ev isEmitted).imp_left kept
  · exact fun ev isEmitted early => kept (safe.behind ev isEmitted early)
  · intro entry isEntry
    obtain ⟨early, covered⟩ := safe.pending entry isEntry
    exact ⟨early, covered.imp_left fun durable => le_trans durable grows⟩

theorem Tail.Safe.drain {cursor}
    (isLatest : (drainGates sinkProgress tail.pendingCursors none).1 = some cursor) :
    Tail.Safe mode stream log sinkProgress
      { tail with
        cursor := cursor
        pendingCursors := (drainGates sinkProgress tail.pendingCursors none).2
        bootstrapConfirmed := true } := by
  obtain ⟨gate, reached, isPending⟩ :=
    (drainGates_latest isLatest).resolve_left (fun impossible => by cases impossible)
  obtain ⟨front, isQueue, areReached, _⟩ := drainGates_spec sinkProgress tail.pendingCursors none
  refine { safe with
    ahead := (safe.pending _ isPending).1, guarded := ?_, queued := ?_, behind := ?_,
    pending := ?_ }
  · intro ev isEmitted
    refine (safe.guarded ev isEmitted).imp_right fun ⟨above, gated⟩ => ⟨above, ?_⟩
    exact fun entry isEntry => gated entry (mem_of_mem_drainGates isEntry)
  · intro ev isEmitted
    rcases safe.queued ev isEmitted with durable | ⟨entry, isEntry, early⟩
    · exact .inl durable
    · have isEntry' := isEntry
      rw [isQueue, mem_append] at isEntry'
      rcases isEntry' with isFront | isRest
      · exact .inl (safe.reached isEntry (areReached entry isFront) ev isEmitted early)
      · exact .inr ⟨entry, isRest, early⟩
  · exact safe.reached isPending reached
  · exact fun entry isEntry => safe.pending entry (mem_of_mem_drainGates isEntry)

theorem Tail.Safe.idle (nothing : tail.pendingCursors = []) (ev : Emitted)
    (isEmitted : .change ev ∈ tail.emitted log) : .change ev ∈ log.settled := by
  rcases safe.queued ev isEmitted with durable | ⟨entry, isEntry, _⟩
  · exact durable
  · rw [nothing] at isEntry
    cases isEntry

end

section

variable {bootstrap : Bool}

def System.Safe (mode : Mode) (stream : Stream) (sys : System) : Prop :=
  ∀ session, sys.session = some session → session.Safe mode stream sys.written

variable {session : Session} {sys : System}

theorem Session.Safe.later
    (safe : session.Safe mode stream written) : session.Safe mode stream (written + 1) where
  places ev isEntry := Nat.le_succ_of_le (safe.places ev isEntry)
  scanning cursor isStage :=
    ⟨Nat.le_succ_of_le (safe.scanning cursor isStage).1, (safe.scanning cursor isStage).2⟩
  tailing := safe.tailing

section

variable (places : ∀ ev, .change ev ∈ session.log.entries → ev.place ≤ sys.written)

include places

theorem System.safe_beginTail {cursor file}
    (past : ∀ ev, .change ev ∈ session.log.entries → ev.place ≤ cursor)
    (settled : AdmitsBegin session) : (sys.beginTail session cursor file).Safe mode stream := by
  rintro _ ⟨⟩
  refine ⟨places, fun _ isStage => ?_, fun tail isStage => ?_⟩
  · cases isStage
  · cases isStage
    exact Tail.safe_begin fun ev isEntry => ⟨past ev isEntry, settled ev isEntry⟩

/-- A cursor is resolved only in a process that has published nothing, or with no cursor in the
    file. -/
theorem System.safe_resolveCursor (anew : sys.file.cursor = none ∨ session.log.entries = [])
    (settled : bootstrap = false → AdmitsBegin session) :
    (sys.resolveCursor session bootstrap).2.Safe mode stream := by
  rw [resolveCursor]
  split
  · rename_i cursor isCursor
    rcases anew with noCursor | noEntries
    · simp [noCursor] at isCursor
    · refine System.safe_beginTail places ?_ ?_ <;>
        exact fun ev isEntry => absurd isEntry (by simp [noEntries])
  · split
    · rintro _ ⟨⟩
      refine ⟨places, fun cursor isStage => ?_, fun tail isStage => ?_⟩
      · cases isStage
        exact ⟨le_rfl, places⟩
      · cases isStage
    · rename_i isOff
      exact System.safe_beginTail places places (settled (by simpa using isOff))

end

theorem System.Safe.step {before after : System} {cursor} (safe : before.Safe mode stream)
    (step : Step mode stream bootstrap truthful before cursor after) : after.Safe mode stream := by
  cases step with
  | write => exact fun session isSession => (safe session isSession).later
  | start =>
    refine System.safe_resolveCursor ?_ (.inr rfl) fun _ => ?_ <;>
      exact fun ev isEntry => by cases isEntry
  | scan session cursor isSession isStage =>
    rintro _ ⟨⟩
    have old := safe session isSession
    have isOld {ev : Emitted} (isEntry : .change ev ∈ session.log.entries ++ [.snapshot]) :
        .change ev ∈ session.log.entries := by simpa using isEntry
    refine ⟨fun ev isEntry => old.places ev (isOld isEntry), ?_, ?_⟩
    · intro fetched isFetched
      obtain ⟨within, past⟩ := old.scanning fetched isFetched
      exact ⟨within, fun ev isEntry => past ev (isOld isEntry)⟩
    · intro tail isTail
      exact absurd (isStage.symm.trans isTail) (by simp)
  | scanned session cursor isSession isStage admitted =>
    have old := safe session isSession
    exact System.safe_beginTail old.places (old.scanning cursor isStage).2 admitted
  | poll session tail last evs isSession isStage advances within rises emits admitted =>
    rintro _ ⟨⟩
    have old := safe session isSession
    refine ⟨?_, nofun, ?_⟩
    · intro ev isEntry
      rw [entries_publish, mem_append] at isEntry
      rcases isEntry with isOld | isNew
      · exact old.places ev isOld
      · have isEvent : ev ∈ evs := by simpa using isNew
        exact le_trans (emits.placed advances isEvent).2.1 within
    · intro next isNext
      cases isNext
      exact (old.tailing tail isStage).poll emits rises admitted.1 advances admitted.2
  | drain session tail isSession isStage =>
    rw [System.drain]
    split
    · exact safe
    · rename_i cursor isLatest
      rintro _ ⟨⟩
      have old := safe session isSession
      refine ⟨old.places, nofun, fun next isNext => ?_⟩
      cases isNext
      exact (old.tailing tail isStage).drain isLatest
  | idleAdvance => exact safe
  | commit session count within isSession grows admitted =>
    rintro _ ⟨⟩
    have old := safe session isSession
    exact ⟨old.places, old.scanning, fun tail isStage =>
      (old.tailing tail isStage).commit within grows (admitted tail isStage)⟩
  | invalidCursor session tail isSession isStage admitted =>
    exact System.safe_resolveCursor (safe session isSession).places (.inl rfl) admitted
  | stop =>
    rintro _ ⟨⟩

theorem Run.safe (run : Run mode stream bootstrap truthful sys) : sys.Safe mode stream := by
  induction run with
  | new =>
    rintro _ ⟨⟩
  | step _ step ih => exact ih.step step

/-- Every event for rows at or before a cursor is durable. -/
def System.SettledThrough (sys : System) (cursor : Nat) : Prop :=
  ∀ session, sys.session = some session → ∀ ev, .change ev ∈ session.log.entries →
    ev.place ≤ cursor → .change ev ∈ session.log.settled

/-- Every snapshot event is durable. -/
def System.SnapshotSettled (sys : System) : Prop :=
  ∀ session, sys.session = some session → ∀ index,
    session.log.entries[index]? = some .snapshot → index < session.log.durableCount

theorem System.settledThrough_of_emitted (isSession : sys.session = some session)
    (safe : tail.Safe mode stream session.log session.sinkProgress)
    (recent : ∀ ev, .change ev ∈ tail.emitted session.log → ev.place ≤ cursor →
      .change ev ∈ session.log.settled) : sys.SettledThrough cursor := by
  intro other isOther ev isEntry early
  cases isSession.symm.trans isOther
  rw [← take_append_drop tail.began session.log.entries, mem_append] at isEntry
  rcases isEntry with isPast | isEmitted
  · exact (safe.past ev isPast).2
  · exact recent ev isEmitted early

theorem System.settledThrough_of_begin (isSession : sys.session = some session)
    (isLog : session.log = log)
    (settled : ∀ ev, .change ev ∈ log.entries → .change ev ∈ log.settled) :
    sys.SettledThrough cursor := by
  intro other isOther ev isEntry _
  cases isSession.symm.trans isOther
  subst isLog
  exact settled ev isEntry

theorem System.settledThrough_resolveCursor (settled : bootstrap = false → AdmitsBegin session)
    (isWritten : (sys.resolveCursor session bootstrap).1 = some cursor) :
    (sys.resolveCursor session bootstrap).2.SettledThrough cursor := by
  rw [resolveCursor] at isWritten ⊢
  split at isWritten
  · cases isWritten
  · split at isWritten
    · cases isWritten
    · rename_i isOff
      simp only [if_neg isOff]
      exact System.settledThrough_of_begin rfl rfl (settled (by simpa using isOff))

theorem System.incomplete_resolveCursor (marked : sys.file.incomplete) :
    (sys.resolveCursor session bootstrap).2.file.incomplete := by
  rw [resolveCursor, if_pos marked]
  simp only
  split
  · rfl
  · exact marked

/-- A cursor is written only when all events for the rows before it are durable, and the marker
    is cleared only when all snapshot events are, in every run in which the watermark is
    truthful. -/
theorem cursor_written_settled {before after : System} {written : Option Nat}
    (run : Run mode stream bootstrap truthful before)
    (step : Step mode stream bootstrap truthful before written after) :
    (∀ cursor, written = some cursor → after.SettledThrough cursor) ∧
      (before.file.incomplete = true → after.file.incomplete = false →
        after.SnapshotSettled) := by
  have safe := run.safe
  cases step with
  | start =>
    refine ⟨fun cursor => System.settledThrough_resolveCursor fun _ _ isEntry => ?_, ?_⟩
    · cases isEntry
    · intro marked cleared
      exact absurd cleared (by simp [System.incomplete_resolveCursor marked])
  | scanned session cursor isSession isStage admitted =>
    refine ⟨fun _ _ => System.settledThrough_of_begin rfl rfl admitted, ?_⟩
    intro marked cleared
    exact absurd (marked.symm.trans cleared) (by simp)
  | drain session tail isSession isStage =>
    have old := (safe session isSession).tailing tail isStage
    rw [System.drain]
    split
    · constructor
      · rintro _ ⟨⟩
      · intro marked cleared
        exact absurd (marked.symm.trans cleared) (by simp)
    · rename_i cursor isLatest
      obtain ⟨gate, reached, isPending⟩ :=
        (drainGates_latest isLatest).resolve_left (fun impossible => by cases impossible)
      constructor
      · rintro _ ⟨⟩
        exact System.settledThrough_of_emitted rfl (old.drain isLatest)
          (old.reached isPending reached)
      · rintro _ _ _ ⟨⟩
        exact old.snapshots (old.snapshot_durable isPending reached)
  | idleAdvance session tail isSession isStage isEnd nothing =>
    have old := (safe session isSession).tailing tail isStage
    constructor
    · intro _ _
      exact System.settledThrough_of_emitted isSession old
        fun ev isEmitted _ => old.idle nothing ev isEmitted
    · intro marked cleared
      exact absurd (marked.symm.trans cleared) (by simp)
  | invalidCursor session tail isSession isStage admitted =>
    refine ⟨fun cursor => System.settledThrough_resolveCursor admitted, ?_⟩
    intro marked cleared
    exact absurd ((System.incomplete_resolveCursor (by exact marked)).symm.trans cleared) (by simp)
  | write | scan | poll | commit | stop =>
    constructor
    · rintro _ ⟨⟩
    · intro marked cleared
      exact absurd (marked.symm.trans cleared) (by simp)

end

def numbered : Stream := ⟨fun row => row + 7, fun _ => true⟩

theorem run_scanned (mode : Mode) (admits : Admission)
    (mayBegin : admits.begin ⟨DurableLog.empty.push .snapshot, 0, .bootstrapping 0⟩) :
    Run mode numbered true admits
      ⟨1, ⟨some 0, true⟩, some ⟨DurableLog.empty.push .snapshot, 0,
        .tailing ⟨0, 1, 0, [], 0, false⟩⟩⟩ :=
  (((Run.new.step (.start _ rfl)).step (.scan _ _ 0 rfl rfl)).step
    (.scanned _ _ 0 rfl rfl mayBegin)).step (.write _)

/-- A row is polled and its event made durable with the snapshot: the cursor is written and the
    marker cleared. -/
theorem cursor_written_settled_row :
    ∃ after : System, after.file = ⟨some 1, false⟩ ∧ after.SettledThrough 1 ∧
      after.SnapshotSettled := by
  have scanned := run_scanned .raw truthful (fun ev isEntry => by simp at isEntry)
  have polled := scanned.step (.poll _ _ _ 1 [⟨1, 7, 0⟩] rfl rfl (by decide) (by decide)
    (fun row later _ low _ => Nat.add_le_add_right low 7) rfl
    ⟨fun ev isEvent _ => by simp at isEvent; simp [isEvent], by simp⟩)
  have committed := polled.step (.commit _ _ 2 (by decide) rfl (by decide)
    (fun tail isTail ev isEmitted _ => by
      cases isTail
      exact mem_of_mem_drop isEmitted))
  obtain ⟨settled, snapshots⟩ := cursor_written_settled committed (.drain _ _ _ rfl rfl)
  exact ⟨_, rfl, settled 1 rfl, snapshots rfl rfl⟩

theorem Step.drained (isSession : sys.session = some session)
    (isStage : session.stage = .tailing tail)
    (isWritten : (sys.drain session tail).1 = some cursor) :
    Step mode stream bootstrap admits sys (some cursor) (sys.drain session tail).2 := by
  rw [← isWritten]
  exact .drain sys session tail isSession isStage

def unrestricted : Admission := ⟨fun _ _ _ => True, fun _ _ => True, fun _ => True⟩

/-- In denormalize mode a batch that ends among the events of a poll raises the watermark to the
    id that they all carry, and the cursor is written while the others wait. A first poll that
    emits nothing clears the marker while the snapshot waits. -/
theorem cursor_written_while_events_wait :
    (∃ before after : System, Run .denormalize numbered true unrestricted before ∧
      Step .denormalize numbered true unrestricted before (some 1) after ∧
      ¬ after.SettledThrough 1) ∧
    ∃ before after : System, Run .denormalize numbered true unrestricted before ∧
      Step .denormalize numbered true unrestricted before (some 1) after ∧
      before.file.incomplete = true ∧ after.file.incomplete = false ∧
      ¬ after.SnapshotSettled := by
  have scanned := run_scanned .denormalize unrestricted trivial
  constructor
  · have polled := scanned.step (.poll _ _ _ 1 [⟨1, 7, 0⟩, ⟨1, 7, 1⟩] rfl rfl (by decide) (by decide)
      (fun row later _ low _ => Nat.add_le_add_right low 7) (by simp [Emits, numbered]) trivial)
    have committed := polled.step (.commit _ _ 2 (by decide) rfl (by decide) trivial)
    refine ⟨_, _, committed, .drained rfl rfl rfl, fun settled => ?_⟩
    have impossible := settled _ rfl ⟨1, 7, 1⟩ (by decide) (by decide)
    exact absurd impossible (by decide)
  · have polled := scanned.step (.poll _ _ _ 1 [] rfl rfl (by decide) (by decide)
      (fun row later _ low _ => Nat.add_le_add_right low 7) (by simp [Emits]) trivial)
    refine ⟨_, _, polled, .drained rfl rfl rfl, rfl, rfl, fun settled => ?_⟩
    exact absurd (settled _ rfl 0 rfl) (by decide)

end Ventstream.Neo4j
