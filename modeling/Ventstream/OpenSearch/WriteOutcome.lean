import Ventstream.OpenSearch.SinkRules

/-! # What a write reports

The log of a write shows what became of every event: the last request that carried it
was answered for each of its actions. A write that succeeds has every event applied;
one that is rejected lists the refused events and no others, each once, so that the
dispatcher may acknowledge the rest.
-/

namespace Ventstream.OpenSearch

open Core Library Library.Program List

variable {Time : Type}

section

/-- The answers that an entry of the log has for the event at a place. -/
def answersAt (place : Nat) : Entry Time → List (Action × BulkResponseItem)
  | .answered answers => answersFor place answers
  | _ => []

/-- The answers for the event at a place in the last request that had any. -/
def lastAnswers (log : List (Entry Time)) (place : Nat) :
    Option (List (Action × BulkResponseItem)) :=
  ((log.map (answersAt place)).filter fun answers => !answers.isEmpty).getLast?

variable (cfg : Config Time) (targets : Option DeleteTargets) (log : List (Entry Time))
  (place : Nat) (ev : BatchEvent)

/-- The last of the requests with the event had all of its actions, as they are at this time,
    and got these answers. -/
def AnsweredAt (now : Time) (answers : List (Action × BulkResponseItem)) : Prop :=
  isTargetClear ev.toEvent = false ∧ lastAnswers log place = some answers ∧
    eventActions cfg.template targets now ev = .ok (answers.map (·.1))

/-- A slice read the clock, the last of its requests with the event had all of its actions and got
    these answers, and no later request had the event. -/
def Answered (answers : List (Action × BulkResponseItem)) : Prop :=
  ∃ before now requests later, log = before ++ .clock now :: (requests ++ later) ∧
    (∀ reading, Entry.clock reading ∉ requests) ∧
    (∀ entry ∈ later, answersAt place entry = []) ∧
    AnsweredAt cfg targets requests place ev now answers

/-- A clear was carried out; another event had every action accepted or counted as applied. -/
def Applied : Prop :=
  (isTargetClear ev.toEvent = true ∧ Entry.cleared place ∈ log) ∨
    ∃ answers, Answered cfg targets log place ev answers ∧
      ∀ answer ∈ answers, classify answer.2 = .applied

/-- An action was refused for good, or the event alone is above the limit of a request and no
    request with it was answered. -/
def Refused : Prop :=
  (∃ answers, Answered cfg targets log place ev answers ∧
      ∃ answer ∈ answers, classify answer.2 = .permanent) ∨
    (isTargetClear ev.toEvent = false ∧ lastAnswers log place = none ∧
      ∃ now actions, Entry.clock now ∈ log ∧
        eventActions cfg.template targets now ev = .ok actions ∧
        cfg.maxBytes < (actions.map cfg.bytes).sum)

end

variable {log : List (Entry Time)}

section

variable {place : Nat} {later : List (Entry Time)}

theorem lastAnswers_append :
    lastAnswers (log ++ later) place = (lastAnswers later place).or (lastAnswers log place) := by
  unfold lastAnswers
  rw [map_append, filter_append, getLast?_append]

theorem lastAnswers_eq_none (silent : ∀ entry ∈ log, answersAt place entry = []) :
    lastAnswers log place = none := by
  unfold lastAnswers
  rw [getLast?_eq_none_iff, filter_eq_nil_iff]
  intro answers mem
  obtain ⟨entry, isEntry, rfl⟩ := mem_map.mp mem
  simp [silent entry isEntry]

theorem lastAnswers_silent (silent : ∀ entry ∈ later, answersAt place entry = []) :
    lastAnswers (log ++ later) place = lastAnswers log place := by
  rw [lastAnswers_append, lastAnswers_eq_none silent, Option.none_or]

theorem lastAnswers_answered (nonempty : answersFor place answers ≠ []) :
    lastAnswers [(.answered answers : Entry Time)] place = some (answersFor place answers) := by
  simp [lastAnswers, answersAt, nonempty]

end

variable {cfg : Config Time} {targets : Option DeleteTargets} {evs : List Placed}
  {permanent : List FailedItem} {σ : Type} {cluster : Cluster σ Time}

section

variable {place : Nat} {ev : BatchEvent} {later : List (Entry Time)}
  {answers : List (Action × BulkResponseItem)}

theorem Answered.last (answered : Answered cfg targets log place ev answers) :
    isTargetClear ev.toEvent = false ∧ lastAnswers log place = some answers := by
  obtain ⟨before, now, requests, later, rfl, -, silent, notClear, last, -⟩ := answered
  refine ⟨notClear, ?_⟩
  rw [← cons_append, ← append_assoc, lastAnswers_silent silent, append_cons, lastAnswers_append,
    last, Option.some_or]

theorem Answered.silent (answered : Answered cfg targets log place ev answers)
    (silent : ∀ entry ∈ later, answersAt place entry = []) :
    Answered cfg targets (log ++ later) place ev answers := by
  obtain ⟨before, now, requests, others, rfl, noReading, quiet, whole⟩ := answered
  refine ⟨before, now, requests, others ++ later, by simp, noReading, ?_, whole⟩
  exact fun entry mem => (mem_append.mp mem).elim (quiet entry) (silent entry)

theorem Applied.not_refused (applied : Applied cfg targets log place ev) :
    ¬ Refused cfg targets log place ev := by
  intro refused
  obtain ⟨isClear, -⟩ | ⟨answers, answered, all⟩ := applied
  · obtain ⟨_, answered, -⟩ | ⟨notClear, -, -⟩ := refused
    · exact Bool.false_ne_true (answered.last.1.symm.trans isClear)
    · exact Bool.false_ne_true (notClear.symm.trans isClear)
  · obtain ⟨others, other, answer, mem, permanent⟩ | ⟨-, none, -⟩ := refused
    · cases answered.last.2.symm.trans other.last.2
      cases (all answer mem).symm.trans permanent
    · cases answered.last.2.symm.trans none

end

section

section

variable (cfg targets) (now : Time)

/-- The last answers to an event refused an action, or applied them all. -/
def Settled (log : List (Entry Time)) (placed : Placed) (refused : Prop) : Prop :=
  ∃ answers, AnsweredAt cfg targets log placed.place placed.event now answers ∧
    (refused → ∃ answer ∈ answers, classify answer.2 = .permanent) ∧
    (¬ refused → ∀ answer ∈ answers, classify answer.2 = .applied)

/-- How far a slice has come since it read the clock: the offsets still to be sent, the items that
    failed for good, and what the log shows of all other events. -/
structure Progress (evs : List Placed) (pending : List Nat) (permanent : List FailedItem)
    (log : List (Entry Time)) : Prop where
  pendingNodup : pending.Nodup
  pendingIn : ∀ offset ∈ pending, offset < evs.length
  permanentNodup : (permanent.map (·.offset)).Nodup
  permanentIn : ∀ offset ∈ permanent.map (·.offset), offset < evs.length ∧ offset ∉ pending
  settled : ∀ offset placed, evs[offset]? = some placed → offset ∉ pending →
    Settled cfg targets now log placed (offset ∈ permanent.map (·.offset))
  foreign : ∀ place, place ∉ evs.map (·.place) → ∀ entry ∈ log, answersAt place entry = []
  noReading : ∀ reading, Entry.clock reading ∉ log

variable (base : List (Entry Time)) (evs : List Placed)

/-- The log of a slice that ends with these items refused. -/
def Ended (permanent : List FailedItem) (log : List (Entry Time)) : Prop :=
  ∃ new, log = base ++ new ∧ Progress cfg targets now evs [] permanent new

/-- How a slice that does not succeed stops. Its actions may not fit into a request. -/
def Stopped : Halt Error → World σ Time → Prop
  | .failed (.partialFailure _ _ _ items), world =>
    Ended cfg targets now base evs items world.log
  | .failed (.requestTooLarge _ _), world => world.log = base ∧
    Planned cfg.template targets now evs ∧ ¬ Fits cfg targets now evs
  | _, _ => True

/-- Before an attempt, the slice is as far as it says. -/
def Current (pending : List Nat) (permanent : List FailedItem) (log : List (Entry Time)) : Prop :=
  ∃ new, log = base ++ new ∧ Progress cfg targets now evs pending permanent new ∧
    Begun cfg targets now evs pending (new = [])

end

variable {now : Time} {pending : List Nat} {answers : List (Requested × BulkResponseItem)}

theorem Settled.silent (settled : Settled cfg targets now log placed refused)
    (silent : ∀ entry ∈ later, answersAt placed.place entry = []) :
    Settled cfg targets now (log ++ later) placed refused := by
  obtain ⟨answers, ⟨notClear, last, whole⟩, fates⟩ := settled
  exact ⟨answers, ⟨notClear, (lastAnswers_silent silent).trans last, whole⟩, fates⟩

/-- After an answer without blocked items, the events that can be retried are what is left. -/
theorem Progress.answered (progress : Progress cfg targets now evs pending permanent log)
    (noClear : NoClear evs) (distinct : (evs.map (·.place)).Nodup)
    (built : Planned cfg.template targets now (pending.filterMap (evs[·]?)))
    (seen : Seen (pending.filterMap (evs[·]?)) (plan cfg.template targets now) answers)
    (free : (partitionBulkItems answers).blocked = []) :
    Progress cfg targets now evs
      ((mapBack pending (partitionBulkItems answers).transient).map (·.offset))
      (permanent ++ mapBack pending (partitionBulkItems answers).permanent)
      (log ++ [.answered answers]) := by
  have once := progress.pendingNodup
  have transient : ∀ inner offset, pending[inner]? = some offset →
      (offset ∈ (mapBack pending (partitionBulkItems answers).transient).map (·.offset) ↔
        HasItem answers .transient inner) :=
    fun inner offset found => (mem_mapBack_iff once found).trans mem_transient
  have refused : ∀ inner offset, pending[inner]? = some offset →
      (offset ∈ (mapBack pending (partitionBulkItems answers).permanent).map (·.offset) ↔
        HasItem answers .permanent inner ∧ ¬ HasItem answers .transient inner) :=
    fun inner offset found => (mem_mapBack_iff once found).trans mem_permanent
  refine ⟨?_, ?_, ?_, ?_, ?_, ?_, by simpa using progress.noReading⟩
  · exact nodup_mapBack once nodup_retainUnclaimed
  · exact fun offset member => progress.pendingIn offset (mem_of_mem_mapBack member)
  · rw [map_append]
    refine progress.permanentNodup.append (nodup_mapBack once nodup_retainUnclaimed) ?_
    intro offset old new
    exact (progress.permanentIn offset old).2 (mem_of_mem_mapBack new)
  · intro offset member
    rw [map_append, mem_append] at member
    rcases member with old | new
    · obtain ⟨inRange, notPending⟩ := progress.permanentIn offset old
      exact ⟨inRange, fun again => notPending (mem_of_mem_mapBack again)⟩
    · have isPending := mem_of_mem_mapBack new
      obtain ⟨inner, found⟩ := mem_iff_getElem?.mp isPending
      refine ⟨progress.pendingIn offset isPending, fun again => ?_⟩
      exact ((refused inner offset found).mp new).2 ((transient inner offset found).mp again)
  · intro offset placed found notNext
    by_cases isPending : offset ∈ pending
    · -- the request carried the event, and what it was answered is final
      obtain ⟨inner, atInner⟩ := mem_iff_getElem?.mp isPending
      have inAttempt : (pending.filterMap (evs[·]?))[inner]? = some placed := by
        rw [getElem?_subset progress.pendingIn, atInner, Option.bind_some, found]
      have member := mem_of_getElem? inAttempt
      have whole := seen.whole placed member
      have nonempty : answersFor placed.place answers ≠ [] := by
        intro none
        rw [none] at whole
        exact eventActions_ne_nil (built placed member) whole.symm
      have notTransient := mt (transient inner offset atInner).mpr notNext
      have notOld : offset ∉ permanent.map (·.offset) := fun old =>
        (progress.permanentIn offset old).2 isPending
      refine ⟨answersFor placed.place answers, ⟨?_, ?_, ?_⟩, ?_, ?_⟩
      · exact noClear placed (mem_of_getElem? found)
      · rw [lastAnswers_append, lastAnswers_answered nonempty, Option.some_or]
      · rw [whole, built placed member]
      · intro isRefused
        rw [map_append, mem_append, or_iff_right notOld, refused inner offset atInner]
          at isRefused
        exact (seen.hasItem inner placed inAttempt .permanent).mp isRefused.1
      · intro notRefused
        rw [map_append, mem_append, or_iff_right notOld, refused inner offset atInner]
          at notRefused
        have notPermanent : ¬ HasItem answers .permanent inner := fun has =>
          notRefused ⟨has, notTransient⟩
        have notBlocked := not_hasItem_blocked free notTransient notPermanent
        intro answer isAnswer
        have has : ∀ itemClass, classify answer.2 = itemClass → HasItem answers itemClass inner :=
          fun itemClass isClass =>
            (seen.hasItem inner placed inAttempt itemClass).mpr ⟨answer, isAnswer, isClass⟩
        cases isClass : classify answer.2 with
        | applied => rfl
        | transient => exact absurd (has _ isClass) notTransient
        | permanent => exact absurd (has _ isClass) notPermanent
        | blocked => exact absurd (has _ isClass) notBlocked
    · -- the request did not carry the event
      have same : offset ∈ (permanent ++
          mapBack pending (partitionBulkItems answers).permanent).map (·.offset) ↔
          offset ∈ permanent.map (·.offset) := by
        rw [map_append, mem_append]
        exact or_iff_left fun new => isPending (mem_of_mem_mapBack new)
      rw [same]
      refine (progress.settled offset placed found isPending).silent ?_
      intro entry isEntry
      cases mem_singleton.mp isEntry
      apply seen.foreign
      intro inside
      obtain ⟨other, isOther, samePlace⟩ := mem_map.mp inside
      obtain ⟨pos, isPosition, atPosition⟩ := mem_filterMap.mp isOther
      have first : (evs.map (·.place))[offset]? = some placed.place := by
        rw [getElem?_map, found, Option.map_some]
      have second : (evs.map (·.place))[pos]? = some placed.place := by
        rw [getElem?_map, atPosition, Option.map_some, samePlace]
      exact isPending (getElem?_inj_of_nodup distinct first second ▸ isPosition)
  · intro place foreign entry isEntry
    rcases mem_append.mp isEntry with old | new
    · exact progress.foreign place foreign entry old
    · cases mem_singleton.mp new
      apply seen.foreign
      intro inside
      obtain ⟨other, isOther, rfl⟩ := mem_map.mp inside
      exact foreign (mem_map_of_mem (mem_of_mem_subset isOther))

variable {base : List (Entry Time)}

theorem Progress.failed (progress : Progress cfg targets now evs pending permanent log)
    {request failure} :
    Progress cfg targets now evs pending permanent (log ++ [.failed request failure]) where
  pendingNodup := progress.pendingNodup
  pendingIn := progress.pendingIn
  permanentNodup := progress.permanentNodup
  permanentIn := progress.permanentIn
  settled offset placed found notPending :=
    (progress.settled offset placed found notPending).silent fun entry isEntry => by
      cases mem_singleton.mp isEntry
      rfl
  foreign place foreign :=
    forall_mem_append.mpr ⟨progress.foreign place foreign, forall_mem_singleton.mpr rfl⟩
  noReading := by simpa using progress.noReading

theorem settle_spec :
    Triple (fun world : World σ Time => Ended cfg targets now base evs permanent world.log)
      (settle size permanent) (fun _ world => Ended cfg targets now base evs [] world.log)
      (Stopped cfg targets now base evs) := by
  unfold settle
  split
  · rename_i empty
    rw [isEmpty_iff.mp empty]
    exact Triple.done _
  · exact Triple.throw fun _ ended => ended

theorem entryOf_ok (ok : classifyResponse request reply = .ok buckets) :
    ∃ answers, AnswersTo request answers ∧ buckets = partitionBulkItems answers ∧
      entryOf request reply = (.answered answers : Entry Time) := by
  have entry : entryOf request reply = (.answered (request.zip reply.entries) : Entry Time) := by
    simp [entryOf, ok]
  cases reply with
  | transport | unreadable | failure => cases ok
  | items items =>
    simp only [classifyResponse] at ok
    split at ok
    · rename_i counted
      cases ok
      exact ⟨_, ⟨items, counted, rfl⟩, rfl, entry⟩
    · cases ok

theorem entryOf_error {request reply failure}
    (failed : classifyResponse request reply = .error failure) :
    entryOf request reply = (.failed request failure : Entry Time) := by
  simp [entryOf, failed]

theorem exec_sendOnce (request : List Requested) (world : World σ Time) :
    exec (sendOnce cluster request) world =
      (.ok (classifyResponse request (cluster.bulk request world.cluster).1),
        ⟨(cluster.bulk request world.cluster).2,
          world.log ++ [entryOf request (cluster.bulk request world.cluster).1]⟩) :=
  rfl

section

variable (current : Current cfg targets now base evs pending permanent log)

include current

theorem Current.failed (fits : Fits cfg targets now evs) {request failure} :
    Current cfg targets now base evs pending permanent
      (log ++ [.failed request failure]) := by
  obtain ⟨new, rfl, progress, -⟩ := current
  exact ⟨new ++ [.failed request failure], append_assoc .., progress.failed, .inr fits⟩

variable (noClear : NoClear evs)

include noClear

theorem Current.tooLarge
    (failed : encodeAttempt cfg targets now (pending.filterMap (evs[·]?)) = .error error)
    (cluster : σ) : Stopped cfg targets now base evs (.failed error) ⟨cluster, log⟩ := by
  obtain ⟨new, isLog, progress, begun⟩ := current
  match error, failed with
  | .request _, _ => trivial
  | .transientItems _ _, _ => trivial
  | .blockedItems _ _, _ => trivial
  | .partialFailure _ _ _ _, failed => exact absurd failed encodeAttempt_ne_partialFailure
  | .requestTooLarge _ _, failed =>
    obtain ⟨planned, large⟩ := encodeAttempt_tooLarge (noClear_subset noClear) failed
    obtain ⟨rfl, rfl⟩ := begun.first progress.pendingNodup progress.pendingIn large
    rw [filterMap_range] at large planned
    exact ⟨by simpa using isLog, planned, large⟩

/-- The end of an attempt that was answered: the slice has ended, or it goes on with less. -/
theorem Current.answered (distinct : (evs.map (·.place)).Nodup)
    (planned : Planned cfg.template targets now (pending.filterMap (evs[·]?)))
    (fits : Fits cfg targets now evs)
    (isAnswers : AnswersTo (requestsFor (plan cfg.template targets now) 0
      (pending.filterMap (evs[·]?))) answers) (free : (partitionBulkItems answers).blocked = []) :
    Current cfg targets now base evs
      ((mapBack pending (partitionBulkItems answers).transient).map (·.offset))
      (permanent ++ mapBack pending (partitionBulkItems answers).permanent)
      (log ++ [.answered answers]) := by
  obtain ⟨new, rfl, progress, -⟩ := current
  have seen := seen_answers (nodup_subset distinct progress.pendingNodup) isAnswers
  exact ⟨new ++ [.answered answers], append_assoc .., progress.answered noClear distinct
    planned seen free, .inr fits⟩

end

theorem Current.ended (current : Current cfg targets now base evs [] permanent log) :
    Ended cfg targets now base evs permanent log := by
  obtain ⟨new, isLog, progress, -⟩ := current
  exact ⟨new, isLog, progress⟩

theorem attemptLoop_spec (noClear : NoClear evs) (distinct : (evs.map (·.place)).Nodup)
    (fuel attempt : Nat) (unfinished : pending ≠ []) :
    Triple (fun world => Current cfg targets now base evs pending permanent world.log)
      (attemptLoop cfg cluster targets now evs fuel attempt pending
        (pending.filterMap (evs[·]?)) permanent)
      (fun _ world => Ended cfg targets now base evs [] world.log)
      (Stopped cfg targets now base evs) := by
  induction fuel generalizing attempt pending permanent with
  | zero => exact Triple.throw fun _ _ => trivial
  | succ fuel ih =>
    intro world current
    rw [attemptLoop, exec_bind, exec_check]
    cases encoded : encodeAttempt cfg targets now (pending.filterMap (evs[·]?)) with
    | error error => exact current.tooLarge noClear encoded world.cluster
    | ok request =>
      obtain ⟨planned, rfl, fitting⟩ := encodeAttempt_ok (noClear_subset noClear) encoded
      obtain ⟨fits, inRange⟩ : Fits cfg targets now evs ∧
          ∀ offset ∈ pending, offset < evs.length := by
        obtain ⟨new, -, progress, begun⟩ := current
        exact ⟨begun.fits fitting, progress.pendingIn⟩
      simp only [Except.mapError, if_neg (bodyBytes_ne_zero inRange unfinished planned)]
      rw [exec_bind_ok (exec_sendOnce _ world)]
      cases outcome : classifyResponse _ (cluster.bulk _ world.cluster).1 with
      | error failure =>
        rw [entryOf_error outcome]
        refine Triple.run (fun later => Current cfg targets now base evs pending
          permanent later.log) (current.failed fits) ?_
        simp only
        split
        · split
          · exact ih _ unfinished
          · exact Triple.throw fun _ _ => trivial
        · exact Triple.throw fun _ _ => trivial
      | ok buckets =>
        obtain ⟨answers, isAnswers, rfl, isEntry⟩ := entryOf_ok outcome
        rw [isEntry]
        by_cases free : (partitionBulkItems answers).blocked = []
        · refine Triple.run (fun later => Current cfg targets now base evs _ _
            later.log) (current.answered noClear distinct planned fits isAnswers free) ?_
          simp only [free, isEmpty_nil, Bool.not_true, Bool.false_eq_true, if_false]
          split
          · rename_i finished
            rw [isEmpty_iff.mp finished]
            exact settle_spec.weaken (fun _ current => Current.ended current)
              (fun _ _ ended => ended) (fun _ _ stopped => stopped)
          · rename_i more
            split
            · exact ih _ (by simpa using more)
            · exact Triple.throw fun _ _ => trivial
        · have blocked : (!(partitionBulkItems answers).blocked.isEmpty) := by
            simpa using free
          simp only [blocked, if_true]
          trivial

end

variable {frontier : Nat}

section

theorem sendSliceWithRetry_spec (nonempty : attempt ≠ []) (noClear : NoClear attempt)
    (distinct : (attempt.map (·.place)).Nodup) (fuel : Nat) :
    Triple (fun world => world.log = base) (sendSliceWithRetry cfg cluster targets fuel attempt)
      (fun _ world => ∃ now, Ended cfg targets now (base ++ [.clock now]) attempt [] world.log)
      (fun halt world => ∃ now, Stopped cfg targets now (base ++ [.clock now]) attempt halt
        world) := by
  unfold sendSliceWithRetry
  rw [if_neg (by simpa using nonempty)]
  have clock : Triple (fun world => world.log = base) (readClock cluster)
      (fun now world => world.log = base ++ [.clock now])
      (fun halt world => ∃ now, Stopped cfg targets now (base ++ [.clock now]) attempt halt
        world) :=
    Triple.update fun _ same => same ▸ rfl
  refine clock.bind fun now => ?_
  have start : Progress cfg targets now attempt (range attempt.length) [] [] :=
    ⟨nodup_range, fun _ => mem_range.mp, nodup_nil, nofun, fun offset placed found out =>
      absurd (mem_range.mpr (List.getElem?_eq_some_iff.mp found).1) out, nofun, nofun⟩
  have loop : Triple (fun world => Current cfg targets now (base ++ [.clock now]) attempt
      (range attempt.length) [] world.log)
      (attemptLoop cfg cluster targets now attempt fuel 0 (range attempt.length)
        ((range attempt.length).filterMap (attempt[·]?)) [])
      (fun _ world => Ended cfg targets now (base ++ [.clock now]) attempt [] world.log)
      (Stopped cfg targets now (base ++ [.clock now]) attempt) :=
    attemptLoop_spec noClear distinct fuel 0 (by simpa using nonempty)
  rw [filterMap_range] at loop
  exact loop.weaken (fun world same => ⟨[], by simpa using same, start, .inl ⟨rfl, rfl⟩⟩)
    (fun _ _ ended => ⟨now, ended⟩) fun _ _ stopped => ⟨now, stopped⟩

/-- What is known once every event before the frontier has been dealt with and no other has. -/
structure Account (cfg : Config Time) (targets : Option DeleteTargets) (evs : List Placed)
    (frontier : Nat) (permanent : List FailedItem) (log : List (Entry Time)) : Prop where
  nodup : (permanent.map (·.offset)).Nodup
  below : ∀ offset ∈ permanent.map (·.offset), offset < frontier
  opened : ∀ place, frontier ≤ place → ∀ entry ∈ log, answersAt place entry = []
  refused : ∀ place placed, evs[place]? = some placed → place ∈ permanent.map (·.offset) →
    Refused cfg targets log place placed.event
  applied : ∀ place placed, evs[place]? = some placed → place < frontier →
    place ∉ permanent.map (·.offset) → Applied cfg targets log place placed.event

variable {placed : Placed}

variable (account : Account cfg targets evs frontier permanent log)
include account

/-- The frontier moves on when some of the next events are refused and the others applied. -/
theorem Account.extend (forward : frontier ≤ stop) (nodup : (items.map (·.offset)).Nodup)
    (inRange : ∀ offset ∈ items.map (·.offset), frontier ≤ offset ∧ offset < stop)
    (silent : ∀ place, place < frontier ∨ stop ≤ place → ∀ entry ∈ later,
      answersAt place entry = [])
    (fates : ∀ place placed, evs[place]? = some placed → frontier ≤ place → place < stop →
      (place ∈ items.map (·.offset) → Refused cfg targets (log ++ later) place placed.event) ∧
      (place ∉ items.map (·.offset) → Applied cfg targets (log ++ later) place placed.event)) :
    Account cfg targets evs stop (permanent ++ items) (log ++ later) where
  nodup := by
    rw [map_append]
    refine account.nodup.append nodup fun offset old new => ?_
    exact absurd (account.below offset old) (Nat.not_lt.mpr (inRange offset new).1)
  below offset member := by
    rw [map_append, mem_append] at member
    rcases member with old | new
    · exact lt_of_lt_of_le (account.below offset old) forward
    · exact (inRange offset new).2
  opened place beyond := forall_mem_append.mpr
    ⟨account.opened place (le_trans forward beyond), silent place (.inr beyond)⟩
  refused place placed found isRefused := by
    rw [map_append, mem_append] at isRefused
    rcases isRefused with old | new
    · have quiet := silent place (.inl (account.below place old))
      obtain ⟨answers, answered, permanent⟩ | ⟨notClear, unanswered, now, actions, read, large⟩ :=
        account.refused place placed found old
      · exact .inl ⟨answers, answered.silent quiet, permanent⟩
      · exact .inr ⟨notClear, (lastAnswers_silent quiet).trans unanswered, now, actions,
          mem_append_left later read, large⟩
    · exact (fates place placed found (inRange place new).1 (inRange place new).2).1 new
  applied place placed found inStop notRefused := by
    rw [map_append, mem_append, not_or] at notRefused
    by_cases below : place < frontier
    · obtain ⟨isClear, cleared⟩ | ⟨answers, answered, all⟩ :=
        account.applied place placed found below notRefused.1
      · exact .inl ⟨isClear, mem_append_left later cleared⟩
      · exact .inr ⟨answers, answered.silent (silent place (.inl below)), all⟩
    · exact (fates place placed found (Nat.le_of_not_lt below) inStop).2 notRefused.2

theorem Account.read (now : Time) :
    Account cfg targets evs frontier permanent (log ++ [.clock now]) := by
  rw [← append_nil permanent]
  refine account.extend le_rfl nodup_nil nofun ?_ ?_
  · intro place _ entry mem
    cases mem_singleton.mp mem
    rfl
  · exact fun _ _ _ here below => absurd here (Nat.not_le.mpr below)

/-- A slice that has ended moves the frontier to its end. -/
theorem Account.ended (inPlace : InPlace evs)
    (part : Part evs frontier stop attempt)
    (ended : Ended cfg targets now (log ++ [.clock now]) attempt items later) :
    Account cfg targets evs stop (permanent ++ shift frontier items) later := by
  obtain ⟨new, rfl, progress⟩ := ended
  have length := part.length
  have mapped : (shift frontier items).map (·.offset) =
      (items.map (·.offset)).map (frontier + ·) := by simp [shift, Function.comp_def]
  rw [← append_cons]
  refine account.extend (by omega) ?_ ?_ ?_ ?_
  · rw [mapped]
    exact progress.permanentNodup.map fun _ _ => Nat.add_left_cancel
  · intro offset mem
    rw [mapped] at mem
    obtain ⟨inner, isItem, rfl⟩ := mem_map.mp mem
    have below := (progress.permanentIn inner isItem).1
    omega
  · intro place outside entry mem
    rcases mem_cons.mp mem with rfl | mem
    · rfl
    · refine progress.foreign place (fun isPlace => ?_) entry mem
      have inside := part.mem_place inPlace isPlace
      omega
  · intro place placed found here below
    have isItem : place ∈ (shift frontier items).map (·.offset) ↔
        place - frontier ∈ items.map (·.offset) := by
      rw [mapped, mem_map]
      constructor
      · rintro ⟨inner, mem, rfl⟩
        rwa [Nat.add_sub_cancel_left]
      · exact fun mem => ⟨_, mem, Nat.add_sub_cancel' here⟩
    obtain ⟨answers, answeredAt, refused, applied⟩ :=
      progress.settled _ placed (part.getElem? found here below) not_mem_nil
    rw [inPlace place placed found] at answeredAt
    have answered : Answered cfg targets (log ++ .clock now :: new) place placed.event answers :=
      ⟨log, now, new, [], by rw [append_nil], progress.noReading, nofun, answeredAt⟩
    rw [isItem]
    exact ⟨fun listed => .inl ⟨answers, answered, refused listed⟩,
      fun free => .inr ⟨answers, answered, applied free⟩⟩

theorem Account.tooLarge (isPlaced : evs[frontier]? = some placed)
    (notClear : isTargetClear placed.event.toEvent = false)
    (planned : Planned cfg.template targets now [placed]) (large : ¬ Fits cfg targets now [placed])
    (error : String) : Account cfg targets evs (frontier + 1) (permanent ++ [⟨frontier, error⟩])
      (log ++ [.clock now]) := by
  have opened := (account.read now).opened frontier (Nat.le_refl frontier)
  refine account.extend (Nat.le_succ _) (nodup_singleton _) ?_ ?_ ?_
  · intro offset mem
    cases mem_singleton.mp mem
    exact ⟨le_rfl, Nat.lt_succ_self _⟩
  · intro place _ entry mem
    cases mem_singleton.mp mem
    rfl
  · intro place other found here below
    obtain rfl : frontier = place := by omega
    cases isPlaced.symm.trans found
    refine ⟨fun _ => ?_, fun free => absurd (mem_singleton_self _) free⟩
    refine .inr ⟨notClear, lastAnswers_eq_none opened, now, _,
      mem_append_right log (mem_singleton_self _), planned placed (mem_singleton_self placed), ?_⟩
    simpa [bodyBytes_requestsFor] using large

theorem Account.cleared (isPlaced : evs[frontier]? = some placed)
    (isClear : isTargetClear placed.event.toEvent) :
    Account cfg targets evs (frontier + 1) permanent (log ++ [.cleared frontier]) := by
  rw [← append_nil permanent]
  refine account.extend (Nat.le_succ _) nodup_nil nofun ?_ ?_
  · intro place _ entry mem
    cases mem_singleton.mp mem
    rfl
  · intro place other found here below
    obtain rfl : frontier = place := by omega
    cases isPlaced.symm.trans found
    exact ⟨nofun, fun _ => .inl ⟨isClear, mem_append_right log (mem_singleton_self _)⟩⟩

end

/-- What is known of a write with the targets that it resolved, as an invariant of its frontier. -/
def Accounted (cfg : Config Time) (cluster : Cluster σ Time) (batch : List BatchEvent) (state : σ)
    (frontier : Nat) (permanent : List FailedItem) (world : World σ Time) : Prop :=
  ∃ targets, (cluster.resolve batch state).1 = .ok targets ∧
    Account cfg targets (place batch) frontier permanent world.log

variable {batch : List BatchEvent} {state : σ}

theorem accounted_moves (resolved : (cluster.resolve batch state).1 = .ok targets) :
    Moves cfg cluster targets (place batch) (Accounted cfg cluster batch state) where
  onSlice fuel frontier stop attempt permanent part below quiet := by
    rintro world ⟨found, isFound, account⟩
    cases resolved.symm.trans isFound
    have inPlace := inPlace_place batch
    have length := part.length
    have spec := @sendSliceWithRetry_spec Time cfg targets σ cluster attempt world.log
      (part.ne_nil below) quiet (part.nodup inPlace) fuel world rfl
    cases ran : exec (sendSliceWithRetry cfg cluster targets fuel attempt) world with
    | mk result later =>
      rw [ran] at spec
      match result, spec with
      | .ok _, ⟨now, ended⟩ =>
        have moved := account.ended inPlace part ended
        exact ⟨targets, resolved, by simpa [shift] using moved⟩
      | .error .running, _ | .error (.failed (.request _)), _
      | .error (.failed (.transientItems _ _)), _ | .error (.failed (.blockedItems _ _)), _ => trivial
      | .error (.failed (.partialFailure _ _ _ items)), ⟨now, ended⟩ =>
        refine ⟨?_, targets, resolved, account.ended inPlace part ended⟩
        obtain ⟨new, -, progress⟩ := ended
        intro item mem
        have inRange := (progress.permanentIn item.offset (mem_map_of_mem mem)).1
        omega
      | .error (.failed (.requestTooLarge actual max)), ⟨now, same, planned, large⟩ =>
        refine ⟨⟨targets, resolved, same ▸ account.read now⟩, ?_⟩
        rintro rfl
        obtain ⟨placed, rfl⟩ : ∃ placed, attempt = [placed] :=
          length_eq_one_iff.mp (Nat.add_left_cancel length)
        exact ⟨targets, resolved, same ▸ account.tooLarge (part.sliced 0 Nat.one_pos).symm
          (quiet placed (mem_singleton_self placed)) planned large _⟩
  onClear frontier placed permanent isPlaced isClear := by
    refine applyTargetClear_rule
      (fun _ => Accounted cfg cluster batch state frontier permanent) ?_ ?_
    · rintro world ⟨targets, resolved, account⟩
      exact ⟨targets, resolved, account.read _⟩
    · rintro now world target cleared ⟨targets, resolved, account⟩ _ _
      rw [inPlace_place batch frontier placed isPlaced]
      exact ⟨targets, resolved, account.cleared isPlaced isClear⟩

section

/-- The dispatcher's check of a rejection: every offset lies in the batch and comes once. -/
def allUnseen : List Bool → List FailedItem → Bool
  | _, [] => true
  | seen, item :: rest =>
    match seen[item.offset]? with
    | some false => allUnseen (seen.set item.offset true) rest
    | _ => false

def isPrecise (batchSize rejectedCount : Nat) (items : List FailedItem) : Bool :=
  rejectedCount = items.length && 0 < rejectedCount &&
    allUnseen (replicate batchSize false) items

variable {items : List FailedItem}

theorem allUnseen_of_nodup (nodup : (items.map (·.offset)).Nodup)
    (unseen : ∀ offset ∈ items.map (·.offset), seen[offset]? = some false) :
    allUnseen seen items := by
  induction items generalizing seen with
  | nil => rfl
  | cons item rest ih =>
    obtain ⟨fresh, nodup⟩ := nodup_cons.mp nodup
    rw [allUnseen, unseen item.offset mem_cons_self]
    refine ih nodup fun offset mem => ?_
    have other : item.offset ≠ offset := by
      rintro rfl
      exact fresh mem
    rw [getElem?_set_ne other]
    exact unseen offset (mem_cons_of_mem item.offset mem)

theorem Account.start (cfg : Config Time) (evs : List Placed) : Account cfg targets evs 0 [] [] :=
  ⟨nodup_nil, nofun, nofun, nofun, nofun⟩

theorem Account.perm (account : Account cfg targets evs frontier items log)
    (perm : others.Perm items) : Account cfg targets evs frontier others log := by
  have same : ∀ offset, offset ∈ others.map (·.offset) ↔ offset ∈ items.map (·.offset) :=
    fun offset => (perm.map (·.offset)).mem_iff
  refine ⟨(perm.map _).nodup_iff.mpr account.nodup, ?_, account.opened, ?_, ?_⟩
  · exact fun offset mem => account.below offset ((same offset).mp mem)
  · exact fun pos placed found mem =>
      account.refused pos placed found ((same pos).mp mem)
  · exact fun pos placed found below out =>
      account.applied pos placed found below fun mem => out ((same pos).mpr mem)

theorem sendWithRetry_spec (fuel : Nat) :
    Triple (· = ⟨state, []⟩) (sendWithRetry cfg cluster fuel batch)
      (fun _ world => batch = [] ∨ Accounted cfg cluster batch state batch.length [] world)
      (Rejected (Accounted cfg cluster batch state) batch) := by
  refine (sendWithRetry_moves ?_ fuel).weaken (fun _ start => start)
    (fun _ _ sent => sent.imp_left And.left) fun _ _ rejected => rejected
  rintro _ rfl
  unfold resolveDeleteIndices
  rw [exec_bind, exec_update]
  cases resolved : (cluster.resolve batch state).1 with
  | ok targets => exact ⟨accounted_moves resolved, targets, resolved, .start cfg (place batch)⟩
  | error failure => trivial

variable (cfg cluster)

/-- A write that succeeds has applied every event. One that is rejected passes the dispatcher's
    check and lists exactly the refused events, while all others are applied. The actions of an
    event are those of the delete targets that the batch was resolved to. -/
theorem write_outcome_exact (fuel : Nat) (batch : List BatchEvent) (state : σ) :
    match write cfg cluster fuel batch state with
    | (.ok _, world) => ∀ (position : Nat) (event : BatchEvent), batch[position]? = some event →
        ∃ targets, (cluster.resolve batch state).1 = .ok targets ∧
          Applied cfg targets world.log position event
    | (.error (.failed (.rejected batchSize rejectedCount _ (some items))), world) =>
      (items.map (·.offset)).Nodup ∧ (∀ item ∈ items, item.offset < batch.length) ∧
        rejectedCount = items.length ∧ isPrecise batchSize rejectedCount items = true ∧
        ∃ targets, (cluster.resolve batch state).1 = .ok targets ∧
          ∀ (position : Nat) (event : BatchEvent), batch[position]? = some event →
            (position ∈ items.map (·.offset) ↔ Refused cfg targets world.log position event) ∧
              (position ∉ items.map (·.offset) ↔ Applied cfg targets world.log position event)
    | (.error (.failed (.rejected _ _ _ none)), _) => False
    | (.error (.failed (.connection _)), _) | (.error (.failed (.blocked _)), _)
    | (.error (.failed (.internal _)), _) | (.error .running, _) => True := by
  have spec := @sendWithRetry_spec Time cfg σ cluster batch state fuel ⟨state, []⟩ rfl
  unfold write
  cases ran : exec (sendWithRetry cfg cluster fuel batch) ⟨state, []⟩ with
  | mk result world =>
    rw [ran] at spec
    match result, spec with
    | .ok _, .inl empty =>
      subst empty
      exact nofun
    | .ok _, .inr ⟨targets, resolved, account⟩ =>
      intro position event found
      exact ⟨targets, resolved, account.applied position ⟨event, position⟩ (getElem?_place found)
        (List.getElem?_eq_some_iff.mp found).1 List.not_mem_nil⟩
    | .error .running, _ => trivial
    | .error (.failed (.request failure)), _ => cases failure <;> trivial
    | .error (.failed (.transientItems _ _)), _ => trivial
    | .error (.failed (.blockedItems _ _)), _ => trivial
    | .error (.failed (.requestTooLarge _ _)), _ => trivial
    | .error (.failed (.partialFailure size count _ items)),
        ⟨isSize, isCount, nonempty, permanent, sorted, targets, resolved, accounted⟩ =>
        have account := Account.perm accounted sorted
        have inBatch : ∀ item ∈ items, item.offset < batch.length := fun item member =>
          account.below item.offset (mem_map_of_mem member)
        refine ⟨account.nodup, inBatch, isCount, ?_, targets, resolved, ?_⟩
        · have unseen : allUnseen (replicate size false) items = true := by
            refine allUnseen_of_nodup account.nodup fun offset member => ?_
            rw [getElem?_replicate, if_pos (isSize ▸ account.below offset member)]
          have positive := length_pos_iff.mpr nonempty
          simp [isPrecise, isCount, unseen, positive]
        · intro position event found
          have below := (List.getElem?_eq_some_iff.mp found).1
          have refused := account.refused position _ (getElem?_place found)
          have applied := account.applied position _ (getElem?_place found) below
          refine ⟨⟨refused, fun isRefused => ?_⟩, ⟨applied, fun isApplied listed => ?_⟩⟩
          · by_contra unlisted
            exact (applied unlisted).not_refused isRefused
          · exact isApplied.not_refused (refused listed)

end

end Ventstream.OpenSearch
