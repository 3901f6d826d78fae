import Ventstream.OpenSearch.RetryOrder

/-! # Delaying an event past the last one

When the last events on a document do not settle, two of them can be made to fail until
everything else of their request has arrived, one longer than the other. With room for
a whole segment in one request and no end to the retries, such a write succeeds, and
the document ends as the event that was delayed longest leaves it.
-/

namespace Ventstream.OpenSearch

open Core Library Library.Program
open List hiding after all below length
open Json (Value)

variable {Time : Type} {cfg : Config Time} {now : Time} {targets : Option DeleteTargets}

section

variable {pattern : Pattern} {evs : List Placed}

section

variable (noClear : NoClear evs)
  (planned : Planned cfg.template targets now evs)
include noClear planned

theorem requestFrom_of_planned (isPrevious : cfg.template.previousPeriod now = .ok previous)
    (isStatic : ∀ index, static = some index → ∀ placed ∈ evs,
      cfg.template.render placed.event.toEvent now = .ok index) (offset : Nat) :
    requestFrom cfg.template targets now previous static offset evs =
      .ok (requestsFor (plan cfg.template targets now) offset evs) := by
  induction evs generalizing offset with
  | nil => rfl
  | cons first rest ih =>
    have firstActions : attemptActions cfg.template targets now previous static first.event =
        .ok (plan cfg.template targets now first) := by
      rw [attemptActions_eq isPrevious (fun index known => isStatic index known first mem_cons_self)
        (noClear first mem_cons_self), planned first mem_cons_self]
    have later := ih (fun other mem => noClear other (mem_cons_of_mem first mem))
      (fun other mem => planned other (mem_cons_of_mem first mem))
      (fun index known other mem =>
        isStatic index known other (mem_cons_of_mem first mem)) (offset + 1)
    rw [requestFrom, firstActions, later]
    rfl

theorem buildBulkBody_of_planned (nonempty : evs ≠ []) :
    buildBulkBody cfg.template targets now evs =
      .ok (requestsFor (plan cfg.template targets now) 0 evs) := by
  obtain ⟨first, rest, rfl⟩ := exists_cons_of_ne_nil nonempty
  obtain ⟨previous, isPrevious, built⟩ := ok_of_bind (planned first mem_cons_self)
  obtain ⟨index, isIndex, -⟩ := ok_of_bind built
  have known : ∃ static, staticIndex cfg.template now (first :: rest) = .ok static := by
    cases literal : cfg.template.isLiteral with
    | true => exact ⟨some index, by simp [staticIndex, literal, isIndex, Except.map]⟩
    | false => exact ⟨none, by simp [staticIndex, literal]⟩
  obtain ⟨static, isStatic⟩ := known
  have all := requestFrom_of_planned noClear planned isPrevious
    (fun name same placed mem => staticIndex_ok (same ▸ isStatic) mem) 0
  unfold buildBulkBody
  rw [isStatic]
  rw [isPrevious]
  exact all

end

/-- A write that cannot but succeed: every event can be rendered, any events of the batch fit
    into one request, retries do not end, and some event of every request gets through. -/
structure Assured (cfg : Config Time) (targets : Option DeleteTargets) (now : Time)
    (pattern : Pattern) (evs : List Placed) : Prop where
  planned : ∀ placed ∈ evs, isTargetClear placed.event.toEvent = false →
    eventActions cfg.template targets now placed.event = .ok (plan cfg.template targets now placed)
  cleared : ∀ placed ∈ evs, isTargetClear placed.event.toEvent = true →
    ∃ target, clearTarget cfg.template now placed.event = .ok target
  roomy : ∀ attempt, (∀ placed ∈ attempt, placed ∈ evs) → (attempt.map (·.place)).Nodup →
    Fits cfg targets now attempt
  patient : cfg.maxAttempts = 0
  lively : ∀ attempt answers, attempt ≠ [] → Exchange cfg targets now pattern attempt answers →
    ∃ placed ∈ attempt, ¬ Retried answers placed

variable {pending : List Nat} {world : World Server Time}

theorem length_next_lt (distinct : (evs.map (·.place)).Nodup) (once : pending.Nodup)
    (inRange : ∀ offset ∈ pending, offset < evs.length)
    (isAnswers : AnswersTo (requestsFor actions 0 (pending.filterMap (evs[·]?))) answers)
    (mem : placed ∈ pending.filterMap (evs[·]?)) (through : ¬ Retried answers placed) :
    (mapBack pending (partitionBulkItems answers).transient).length < pending.length := by
  obtain ⟨offset, isOffset, found⟩ := mem_filterMap.mp mem
  have gone : offset ∉ (mapBack pending (partitionBulkItems answers).transient).map
      (·.offset) := by
    intro again
    have inNext := mem_filterMap.mpr ⟨offset, again, found⟩
    exact through ((mem_next distinct once inRange isAnswers placed).mp inNext).2
  have others : ((mapBack pending (partitionBulkItems answers).transient).map (·.offset)).Subperm
      (pending.erase offset) := by
    refine subperm_of_subset (nodup_mapBack once nodup_retainUnclaimed) ?_
    intro other isOther
    refine (mem_erase_of_ne ?_).mpr (mem_of_mem_mapBack isOther)
    rintro rfl
    exact gone isOther
  have fewer := others.length_le
  rw [length_map, length_erase_of_mem isOffset] at fewer
  have positive := length_pos_of_mem isOffset
  omega

section

variable (assured : Assured cfg targets now pattern batch)
  (inBatch : ∀ placed ∈ evs, placed ∈ batch)
  (noClear : NoClear evs) (distinct : (evs.map (·.place)).Nodup)

include assured inBatch noClear distinct

theorem attemptLoop_total (fuel attempt : Nat) (once : pending.Nodup)
    (inRange : ∀ offset ∈ pending, offset < evs.length) (unfinished : pending ≠ [])
    (enough : pending.length ≤ fuel) (world : World Server Time) :
    ∃ later, exec (attemptLoop cfg (storeCluster now targets pattern) targets now evs fuel
      attempt pending (pending.filterMap (evs[·]?)) []) world = (.ok ⟨⟩, later) := by
  induction fuel generalizing attempt pending world with
  | zero => exact absurd (length_eq_zero_iff.mp (Nat.le_zero.mp enough)) unfinished
  | succ fuel ih =>
    have planned : Planned cfg.template targets now (pending.filterMap (evs[·]?)) :=
      fun placed mem => assured.planned placed (inBatch placed (mem_of_mem_subset mem))
        (noClear_subset noClear placed mem)
    have body := bodyBytes_ne_zero inRange unfinished planned
    have someEvent : pending.filterMap (evs[·]?) ≠ [] := by
      intro none
      rw [none] at body
      exact body rfl
    have encoded : encodeAttempt cfg targets now (pending.filterMap (evs[·]?)) =
        .ok (requestsFor (plan cfg.template targets now) 0
          (pending.filterMap (evs[·]?))) := by
      unfold encodeAttempt
      rw [buildBulkBody_of_planned (noClear_subset noClear) planned someEvent]
      refine if_neg (Nat.not_lt.mpr (assured.roomy _ ?_ (nodup_subset distinct once)))
      exact fun placed mem => inBatch placed (mem_of_mem_subset mem)
    obtain ⟨answers, number, served, sent⟩ := @exec_bulk _ now targets pattern
      (requestsFor (plan cfg.template targets now) 0 (pending.filterMap (evs[·]?))) world
    obtain ⟨noPermanent, noBlocked⟩ := served.buckets
    obtain ⟨placed, mem, through⟩ := assured.lively _ answers someEvent
      ⟨nodup_subset distinct once, planned, number, served⟩
    have fewer := length_next_lt distinct once inRange served.answersTo mem through
    have next : nextAttempt cfg.maxAttempts attempt = some (attempt + 1) := by
      simp [nextAttempt, assured.patient]
    rw [attemptLoop, exec_bind, exec_check, encoded]
    simp only [Except.mapError, if_neg body]
    rw [exec_bind_ok sent]
    simp only [noPermanent, noBlocked, isEmpty_nil, Bool.not_true, Bool.false_eq_true,
      if_false, next]
    by_cases finished : mapBack pending (partitionBulkItems answers).transient = []
    · rw [if_pos (isEmpty_iff.mpr finished)]
      exact ⟨_, rfl⟩
    · rw [if_neg (by simpa using finished)]
      have onceMore : ((mapBack pending (partitionBulkItems answers).transient).map
          (·.offset)).Nodup := nodup_mapBack once nodup_retainUnclaimed
      exact ih _ onceMore (fun offset isOffset => inRange offset (mem_of_mem_mapBack isOffset))
        (by simpa using finished) (by rw [length_map]; omega) _

theorem sendSlice_total (nonempty : evs ≠ []) (enough : evs.length ≤ fuel)
    (world : World Server Time) :
    ∃ later, exec (sendSliceWithRetry cfg (storeCluster now targets pattern) targets fuel evs)
      world = (.ok ⟨⟩, later) := by
  have loop := attemptLoop_total assured inBatch noClear distinct fuel 0 nodup_range
    (fun _ => mem_range.mp) (by simpa using nonempty) (by simpa using enough)
    ⟨world.cluster, world.log ++ [.clock now]⟩
  rw [filterMap_range] at loop
  rw [sendSliceWithRetry, if_neg (by simpa using nonempty), exec_bind_ok (exec_readClock world)]
  exact loop

end

variable {known : Nat → Store → Prop} {fuel frontier stop : Nat}

section

variable (segmented : Tracked cfg targets now pattern evs (Bounded evs) known)
  (assured : Assured cfg targets now pattern evs) (inPlace : InPlace evs)
  (enough : evs.length < fuel)

include segmented assured inPlace enough

theorem sendSegment_total (started : frontier ≤ stop) (inRange : stop ≤ evs.length)
    (noClear : NoClearIn evs frontier stop) (bounded : Bounded evs frontier stop) :
    Triple (fun world => permanent = [] ∧ known frontier world.cluster.store)
      (sendSegment cfg (storeCluster now targets pattern) targets evs fuel frontier stop permanent)
      (fun permanent world => permanent = [] ∧ known stop world.cluster.store)
      fun _ _ => False := by
  rintro world ⟨rfl, holds⟩
  unfold sendSegment
  by_cases more : frontier < stop
  · rw [if_pos more]
    obtain ⟨fuel, rfl⟩ := Nat.exists_eq_succ_of_ne_zero (Nat.ne_of_gt (Nat.zero_lt_of_lt enough))
    have sliced : slice evs frontier stop = some ((evs.take stop).drop frontier) :=
      if_pos ⟨started, inRange⟩
    have part := slice_part sliced
    generalize (evs.take stop).drop frontier = attempt at sliced part
    have length := part.length
    have nonempty := part.ne_nil more
    have quiet : NoClear attempt := by
      intro placed mem
      obtain ⟨pos, found, here, below⟩ := part.found mem
      exact noClear pos placed found here below
    obtain ⟨inner, carried, enter, leave⟩ := segmented.onSlice frontier stop attempt part quiet
      bounded
    have short : attempt.length ≤ fuel := by omega
    obtain ⟨later, ran⟩ := sendSlice_total assured
      (fun placed mem => mem_of_getElem? (part.found mem).choose_spec.1) quiet
      (part.nodup inPlace) nonempty short world
    have spec := sendSlice_carried carried quiet (part.nodup inPlace) nonempty fuel world
      ⟨rfl, enter _ holds⟩
    rw [ran] at spec
    rw [sendRanges, sliced]
    rw [exec_bind, exec_outcome, ran]
    cases fuel <;> exact ⟨rfl, leave _ spec⟩
  · rw [if_neg more]
    obtain rfl : frontier = stop := by omega
    exact ⟨rfl, holds⟩

theorem sendSegments_total (holds : known 0 world.cluster.store) :
    ∃ later, exec (sendSegments cfg (storeCluster now targets pattern) targets evs fuel evs
      0 []) world = (.ok [], later) ∧ known evs.length later.cluster.store := by
  have whole : Triple (fun world => ([] : List FailedItem) = [] ∧ known 0 world.cluster.store)
      (sendSegments cfg (storeCluster now targets pattern) targets evs fuel evs 0 [])
      (fun permanent world => permanent = [] ∧ known evs.length world.cluster.store)
      fun _ _ => False := by
    refine @sendSegments_rule _ Server Time _ _ _ (fun frontier permanent world =>
      permanent = [] ∧ known frontier world.cluster.store) _ _ inPlace
      (sendSegment_total segmented assured inPlace enough) ?_ _ _ _ _ (nil_append _).symm
      (Nat.le_refl 0) (fun _ _ _ _ below => absurd below (Nat.not_lt_zero _)) nofun
    rintro frontier placed permanent isPlaced isClear world ⟨rfl, holds⟩
    obtain ⟨target, scope⟩ := assured.cleared placed (mem_of_getElem? isPlaced) isClear
    rw [applyTargetClear, exec_bind_ok (exec_readClock world), scope]
    exact ⟨rfl, segmented.onClear frontier placed target isPlaced isClear scope _ holds⟩
  have spec := whole world ⟨rfl, holds⟩
  cases ran : exec (sendSegments cfg (storeCluster now targets pattern) targets evs fuel
      evs 0 []) world with
  | mk result later =>
    rw [ran] at spec
    cases result with
    | error halt => exact spec.elim
    | ok permanent =>
      obtain ⟨rfl, reached⟩ := spec
      exact ⟨later, rfl, reached⟩

end

theorem write_total
    (segmented : Tracked cfg targets now pattern (place batch) (Bounded (place batch)) known)
    (assured : Assured cfg targets now pattern (place batch)) (holds : known 0 start) :
    ∃ fuel world, write cfg (storeCluster now targets pattern) fuel batch ⟨start, 0⟩ =
      (.ok ⟨⟩, world) ∧ known batch.length world.cluster.store := by
  by_cases empty : batch = []
  · subst empty
    exact ⟨0, _, rfl, holds⟩
  · have holdsAtStart : known 0 (⟨⟨start, 0⟩, []⟩ : World Server Time).cluster.store := holds
    obtain ⟨later, ran, reached⟩ := sendSegments_total segmented assured (inPlace_place batch)
      (Nat.lt_succ_self _) holdsAtStart
    rw [length_place] at reached
    refine ⟨(place batch).length + 1, later, ?_, reached⟩
    have whole : exec (sendWithRetry cfg (storeCluster now targets pattern)
        ((place batch).length + 1) batch) ⟨⟨start, 0⟩, []⟩ = (.ok ⟨⟩, later) := by
      have resolved : exec (resolveDeleteIndices (storeCluster now targets pattern) batch)
          ⟨⟨start, 0⟩, []⟩ = (.ok targets, ⟨⟨start, 0⟩, []⟩) := rfl
      rw [sendWithRetry, if_neg (by simpa using empty), exec_bind_ok resolved, exec_bind_ok ran]
      rfl
    rw [write, whole]
    rfl

end

variable {batch : List BatchEvent} {start : Store} {steps : List Step}

section

/-- The event at the first place waits for all others, the one at the second place for all but
    that. -/
def Delayed (first second place : Nat) (places : List Nat) : Prop :=
  (place = first ∧ ∃ other ∈ places, other ≠ first) ∨
    (place = second ∧ ∃ other ∈ places, other ≠ first ∧ other ≠ second)

instance (first second place : Nat) (places : List Nat) :
    Decidable (Delayed first second place places) :=
  inferInstanceAs (Decidable (_ ∨ _))

def unavailable : Transient := ⟨⟨.index, 503, none⟩, rfl⟩

/-- Every action of the two events fails as long as they have to wait. -/
def delaying (first second : Nat) : Pattern := fun _ request pos =>
  match request[pos]? with
  | none => none
  | some requested =>
    if Delayed first second requested.place (request.map (·.place)) then some unavailable else none

variable {first second : Nat} {attempt : List Placed}
  {answers : List (Requested × BulkResponseItem)}

theorem Exchange.mem_places (exchange : Exchange cfg targets now pattern attempt answers) :
    pos ∈ (requestsFor (plan cfg.template targets now) 0 attempt).map (·.place) ↔
      pos ∈ attempt.map (·.place) := by
  constructor
  · intro mem
    obtain ⟨requested, isRequested, rfl⟩ := mem_map.mp mem
    obtain ⟨_, placed, found, -, isPlace, -⟩ := requestsFor_own isRequested
    exact mem_map.mpr ⟨placed, mem_of_getElem? found, isPlace.symm⟩
  · intro mem
    obtain ⟨placed, isPlaced, rfl⟩ := mem_map.mp mem
    have whole : ((requestsFor (plan cfg.template targets now) 0 attempt).filter fun requested =>
        requested.place = placed.place).map (·.action) = plan cfg.template targets now placed :=
      requestsFor_whole exchange.distinct isPlaced
    obtain ⟨action, isAction⟩ := exists_mem_of_ne_nil _
      (eventActions_ne_nil (exchange.planned placed isPlaced))
    rw [← whole] at isAction
    obtain ⟨requested, isRequested, -⟩ := mem_map.mp isAction
    obtain ⟨inRequest, isPlace⟩ := mem_filter.mp isRequested
    exact mem_map.mpr ⟨requested, inRequest, of_decide_eq_true isPlace⟩

theorem Delayed.congr {place places others} (same : ∀ pos, pos ∈ places ↔ pos ∈ others) :
    Delayed first second place places ↔ Delayed first second place others := by
  simp only [Delayed, same]

theorem classify_delaying
    (exchange : Exchange cfg targets now (delaying first second) attempt answers)
    (mem : answer ∈ answers) :
    classify answer.2 = .transient ↔
      Delayed first second answer.1.place (attempt.map (·.place)) := by
  obtain ⟨number, served⟩ := exchange.served
  obtain ⟨inner, found⟩ := mem_iff_getElem?.mp mem
  have requested : (requestsFor (plan cfg.template targets now) 0 attempt)[inner]? =
      some answer.1 := by
    rw [← served.answersTo.map_fst, getElem?_map, found, Option.map_some]
  rw [served.classes inner answer found, ← Delayed.congr fun _ => exchange.mem_places]
  simp only [delaying, Nat.zero_add, requested]
  split <;> simp_all

variable {placed : Placed}

section

variable (exchange : Exchange cfg targets now (delaying first second) attempt answers)
  (mem : placed ∈ attempt)

include exchange mem

theorem retried_iff :
    Retried answers placed ↔ Delayed first second placed.place (attempt.map (·.place)) := by
  constructor
  · rintro ⟨answer, isAnswer, isPlace, isTransient⟩
    exact isPlace ▸ (classify_delaying exchange isAnswer).mp isTransient
  · intro delayed
    obtain ⟨number, served⟩ := exchange.served
    obtain ⟨requested, isRequested, isPlace⟩ := mem_map.mp
      (exchange.mem_places.mpr (mem_map_of_mem mem))
    rw [← served.answersTo.map_fst] at isRequested
    obtain ⟨answer, isAnswer, rfl⟩ := mem_map.mp isRequested
    exact ⟨answer, isAnswer, isPlace, (classify_delaying exchange isAnswer).mpr (isPlace ▸ delayed)⟩

/-- When all events but one have to wait, the document sees the actions of that one. -/
theorem heldAfter_delaying
    (alone : ∀ other ∈ attempt, ¬ Delayed first second other.place (attempt.map (·.place)) ↔
      other.place = placed.place) (held : Option Action) :
    heldAfter doc answers held =
      (own doc (plan cfg.template targets now) placed).foldl (VersionedStore.take Conflicts)
        held := by
  obtain ⟨number, served⟩ := exchange.served
  have applied : (answers.filter fun answer => classify answer.2 ≠ .transient) =
      answers.filter fun answer => answer.1.place = placed.place := by
    refine filter_congr fun answer isAnswer => ?_
    obtain ⟨other, isOther, isPlace, -⟩ := exchange.own isAnswer
    rw [decide_eq_decide, Ne, classify_delaying exchange isAnswer, isPlace]
    exact alone other isOther
  have whole : ((answers.filter fun answer => answer.1.place = placed.place).map
      (·.1.action)) = plan cfg.template targets now placed := by
    have all : ((requestsFor (plan cfg.template targets now) 0 attempt).filter fun requested =>
        requested.place = placed.place).map (·.action) = plan cfg.template targets now placed :=
      requestsFor_whole exchange.distinct mem
    rw [← served.answersTo.map_fst, filter_map, map_map] at all
    exact all
  rw [heldAfter, applied, whole]
  rfl

end

theorem origin_kept (exchange : Exchange cfg targets now pattern attempt answers)
    (sent : ∀ placed ∈ attempt, Sent batch placed)
    (origin : ∀ action, held = some action → Old cfg targets now batch start doc action) :
    ∀ action, heldAfter doc answers held = some action →
      Old cfg targets now batch start doc action := by
  intro action isHeld
  rcases @VersionedStore.foldl_take_cases _ Conflicts _ _ held with same | ⟨write, mem, isWrite⟩
  · exact origin action (same.symm.trans isHeld)
  · cases isWrite.symm.trans isHeld
    obtain ⟨inApplied, isDoc⟩ := mem_filter.mp mem
    obtain ⟨answer, isAnswer, rfl⟩ := mem_map.mp inApplied
    obtain ⟨placed, isPlaced, -, isAction⟩ := exchange.own (mem_of_mem_filter isAnswer)
    exact .inr ⟨placed, sent placed isPlaced, mem_filter.mpr ⟨isAction, isDoc⟩⟩

/-- What a document holds while one event is delayed past another. -/
def Waiting (old : Action → Prop) (late early : Placed) (lateWrite earlyWrite : Action)
    (unfinished : Placed → Prop) (held : Option Action) : Prop :=
  (unfinished late ∧ unfinished early ∧ ∀ action, held = some action → old action) ∨
    ((∀ placed, unfinished placed ↔ placed = late) ∧ held = some earlyWrite) ∨
    ((∀ placed, ¬ unfinished placed) ∧ held = some lateWrite)

/-- Two events of one segment such that the write of the first is taken when it comes last. -/
structure Overtaken (cfg : Config Time) (targets : Option DeleteTargets) (now : Time)
    (batch : List BatchEvent) (start : Store) (doc : Doc) (late early : Placed)
    (lateWrite earlyWrite : Action) : Prop where
  distinct : late.place ≠ early.place
  setting : Setting doc (plan cfg.template targets now) early earlyWrite (Sent batch)
    (Old cfg targets now batch start doc)
  isWrite : lastOn doc (plan cfg.template targets now late) = some lateWrite
  fits : ¬ Conflicts earlyWrite lateWrite

variable {doc : Doc} {late early : Placed} {lateWrite earlyWrite : Action}

/-- One request moves the delayed events on: first all others arrive, then the early one, then
    the late one. -/
theorem Overtaken.carried
    (overtaken : Overtaken cfg targets now batch start doc late early lateWrite earlyWrite) {evs}
    (sent : ∀ placed ∈ evs, Sent batch placed) :
    Carried cfg targets now (delaying late.place early.place) evs fun unfinished store =>
      Waiting (Old cfg targets now batch start doc) late early lateWrite earlyWrite unfinished
        (store doc) := by
  intro attempt answers mem exchange store waiting
  simp only [replay_apply]
  obtain ⟨isLate, isEarly, origin⟩ | ⟨isLate, isHeld⟩ | ⟨none, isHeld⟩ := waiting
  · by_cases third : ∃ other ∈ attempt, other.place ≠ late.place ∧ other.place ≠ early.place
    · obtain ⟨other, isOther, notLate, notEarly⟩ := third
      have isPlace : other.place ∈ attempt.map (·.place) := mem_map_of_mem isOther
      refine .inl ⟨⟨isLate, ?_⟩, ⟨isEarly, ?_⟩, ?_⟩
      · exact (retried_iff exchange isLate).mpr (.inl ⟨rfl, other.place, isPlace, notLate⟩)
      · exact (retried_iff exchange isEarly).mpr
          (.inr ⟨rfl, other.place, isPlace, notLate, notEarly⟩)
      · exact origin_kept exchange (fun placed isPlaced => sent placed (mem placed isPlaced)) origin
    · have two : ∀ other ∈ attempt, other.place = late.place ∨ other.place = early.place := by
        intro other isOther
        by_contra neither
        exact third ⟨other, isOther, not_or.mp neither⟩
      have waits : ∀ other ∈ attempt, Delayed late.place early.place other.place
          (attempt.map (·.place)) ↔ other.place = late.place := by
        intro other isOther
        constructor
        · rintro (⟨isFirst, -⟩ | ⟨-, place, isPlace, notLate, notEarly⟩)
          · exact isFirst
          · obtain ⟨another, isAnother, rfl⟩ := mem_map.mp isPlace
            exact absurd ⟨another, isAnother, notLate, notEarly⟩ third
        · intro isFirst
          exact .inl ⟨isFirst, early.place, mem_map_of_mem isEarly, overtaken.distinct.symm⟩
      refine .inr (.inl ⟨fun placed => ?_, ?_⟩)
      · constructor
        · rintro ⟨isPlaced, retried⟩
          exact inj_on_of_nodup_map exchange.distinct isPlaced isLate
            ((waits placed isPlaced).mp ((retried_iff exchange isPlaced).mp retried))
        · rintro rfl
          exact ⟨isLate, (retried_iff exchange isLate).mpr ((waits placed isLate).mpr rfl)⟩
      · have isLast : (own doc (plan cfg.template targets now) early).getLast? =
            some earlyWrite := overtaken.setting.isLast
        rw [heldAfter_delaying exchange isEarly ?_, overtaken.setting.foldl_own
          (fun _ isOwn => isOwn) (mem_of_lastOn overtaken.setting.isLast) ?_, isLast,
          Option.some_or]
        · exact fun action isHeld => overtaken.setting.fresh action (origin action isHeld)
        · intro other isOther
          rw [waits other isOther]
          rcases two other isOther with same | same
          · simp [same, overtaken.distinct]
          · simp [same, overtaken.distinct.symm]
  · have isMember : late ∈ attempt := (isLate late).mpr rfl
    have onlyLate : ∀ other ∈ attempt, ¬ Delayed late.place early.place other.place
        (attempt.map (·.place)) := by
      intro other _ delayed
      have places : ∀ place ∈ attempt.map (·.place), place = late.place := by
        intro place isPlace
        obtain ⟨another, isAnother, rfl⟩ := mem_map.mp isPlace
        rw [(isLate another).mp isAnother]
      obtain ⟨-, place, isPlace, notLate⟩ | ⟨-, place, isPlace, notLate, -⟩ := delayed
      · exact notLate (places place isPlace)
      · exact notLate (places place isPlace)
    refine .inr (.inr ⟨?_, ?_⟩)
    · rintro placed ⟨isPlaced, retried⟩
      exact onlyLate placed isPlaced ((retried_iff exchange isPlaced).mp retried)
    · have isLast : (own doc (plan cfg.template targets now) late).getLast? =
          some lateWrite := overtaken.isWrite
      rw [heldAfter_delaying exchange isMember ?_, isHeld, overtaken.setting.foldl_own
        (fun _ isOwn => isOwn) (mem_of_lastOn overtaken.isWrite) ?_, isLast, Option.some_or]
      · rintro _ ⟨⟩
        exact overtaken.fits
      · intro other isOther
        exact iff_of_true (onlyLate other isOther)
          (congrArg Placed.place ((isLate other).mp isOther))
  · have empty : attempt = [] := eq_nil_iff_forall_not_mem.mpr none
    subst empty
    obtain ⟨number, served⟩ := exchange.served
    have noAnswers : answers = [] := map_eq_nil_iff.mp served.answersTo.map_fst
    subst noAnswers
    exact .inr (.inr ⟨fun placed isRetried => none placed isRetried.1, isHeld⟩)

theorem delaying_lively (nonempty : attempt ≠ [])
    (exchange : Exchange cfg targets now (delaying first second) attempt answers) :
    ∃ placed ∈ attempt, ¬ Retried answers placed := by
  by_contra all
  have waits : ∀ place ∈ attempt.map (·.place),
      Delayed first second place (attempt.map (·.place)) := by
    intro place isPlace
    obtain ⟨placed, isPlaced, rfl⟩ := mem_map.mp isPlace
    by_contra notDelayed
    exact all ⟨placed, isPlaced, mt (retried_iff exchange isPlaced).mp notDelayed⟩
  obtain ⟨placed, isPlaced⟩ := exists_mem_of_ne_nil _ nonempty
  have isPlace : placed.place ∈ attempt.map (·.place) := mem_map_of_mem isPlaced
  -- whoever the chain of waiting leads to has nobody to wait for
  have noThird : ∀ place ∈ attempt.map (·.place), place = first ∨ place = second := fun place there =>
    (waits place there).imp And.left And.left
  have noSecond : ∀ place ∈ attempt.map (·.place), place = first := by
    intro place there
    obtain ⟨isFirst, -⟩ | ⟨-, other, isOther, notFirst, notSecond⟩ := waits place there
    · exact isFirst
    · exact ((noThird other isOther).elim notFirst notSecond).elim
  obtain ⟨-, other, isOther, notFirst⟩ | ⟨-, other, isOther, notFirst, -⟩ := waits _ isPlace
  · exact notFirst (noSecond other isOther)
  · exact notFirst (noSecond other isOther)

section

variable {before after : List Step} {topActions : List Action}

/-- The two events arrive in the segment that ends the document's history, and the late one is
    what the document ends with. -/
theorem Overtaken.segmented
    (overtaken : Overtaken cfg targets now batch start doc late early lateWrite earlyWrite)
    (plans : Plans cfg.template targets now batch steps)
    (split : steps = before ++ .bulk topActions :: after)
    (untouched : ∀ later ∈ after, later.produces doc = none)
    (together : ∀ pos placed, (place batch)[pos]? = some placed → low ≤ pos →
      pos ≤ before.length → isTargetClear placed.event.toEvent = false)
    (isLate : (place batch)[late.place]? = some late) (lateAbove : low ≤ late.place)
    (lateBelow : late.place ≤ before.length) (isEarly : (place batch)[early.place]? = some early)
    (earlyAbove : low ≤ early.place) (earlyBelow : early.place ≤ before.length) :
    Tracked cfg targets now (delaying late.place early.place) (place batch) (Bounded (place batch))
      fun frontier store =>
        (frontier ≤ low → ∀ action, store doc = some action →
          Old cfg targets now batch start doc action) ∧
        (before.length < frontier → store doc = some lateWrite) where
  onSlice frontier stop attempt part quiet bounded := by
    have length := part.length
    have sent : ∀ placed ∈ attempt, Sent batch placed := fun placed mem =>
      ⟨mem_of_getElem? (part.found mem).choose_spec.1, quiet placed mem⟩
    -- the segment is before the two events, has both of them, or is after them
    have whole : ∀ pos, pos + 1 = frontier ∨ pos = stop → low ≤ pos →
        before.length < pos := by
      intro pos isEdge above
      by_contra below
      have inRange : pos < (place batch).length := by
        have isTop : before.length < steps.length := by simp [split]
        rw [length_place, plans.length_eq]
        omega
      have found := getElem?_eq_getElem inRange
      have quietHere := together pos _ found above (Nat.le_of_not_lt below)
      rw [bounded pos _ found isEdge] at quietHere
      cases quietHere
    have startsWhole : frontier ≤ low ∨ before.length < frontier := by
      by_cases above : frontier ≤ low
      · exact .inl above
      · have beyond := whole (frontier - 1) (by omega) (by omega)
        omega
    have stopsWhole : stop ≤ low ∨ before.length < stop := by
      by_cases above : stop ≤ low
      · exact .inl above
      · exact .inr (whole stop (.inr rfl) (by omega))
    rcases stopsWhole with ahead | reached
    · refine ⟨fun _ store => ∀ action, store doc = some action →
        Old cfg targets now batch start doc action, ?_, ?_, ?_⟩
      · intro others answers mem exchange store origin
        rw [replay_apply]
        exact origin_kept exchange (fun placed isPlaced => sent placed (mem placed isPlaced)) origin
      · exact fun store holds => holds.1 (by omega)
      · exact fun store origin => ⟨fun _ => origin, fun beyond => by omega⟩
    · rcases startsWhole with ahead | beyond
      · refine ⟨_, overtaken.carried sent, ?_, ?_⟩
        · intro store holds
          refine .inl ⟨?_, ?_, holds.1 ahead⟩
          · exact mem_of_getElem? (part.getElem? isLate (by omega) (by omega))
          · exact mem_of_getElem? (part.getElem? isEarly (by omega) (by omega))
        · rintro store (⟨impossible, -⟩ | ⟨more, -⟩ | ⟨-, isHeld⟩)
          · exact impossible.elim
          · exact ((more late).mpr rfl).elim
          · exact ⟨fun _ => by omega, fun _ => isHeld⟩
      · refine ⟨fun _ store => store doc = some lateWrite, ?_, fun _ holds => holds.2 beyond,
          fun _ isHeld => ⟨fun _ => by omega, fun _ => isHeld⟩⟩
        intro others answers mem exchange store isHeld
        rw [replay_of_untouched exchange ?_ store]
        · exact isHeld
        · intro placed isPlaced
          obtain ⟨pos, found, here, -⟩ := part.found (mem placed isPlaced)
          exact own_eq_nil_of_after plans split untouched found (by omega)
            (quiet placed (mem placed isPlaced))
  onClear frontier placed target found isClear scope store holds := by
    have outside : low ≤ frontier → before.length < frontier := by
      intro above
      by_contra below
      have quietHere := together frontier placed found above (Nat.le_of_not_lt below)
      rw [isClear] at quietHere
      cases quietHere
    constructor
    · intro ahead action isHeld
      unfold Store.clear at isHeld
      split at isHeld
      · cases isHeld
      · exact holds.1 (by omega) action isHeld
    · intro beyond
      have earlier : before.length < frontier := by
        omega
      rw [clear_of_after plans split untouched found earlier isClear scope]
      exact holds.2 earlier

end

end

section

/-- Among writes that do not settle, one that leaves another state than the last can come after
    one that takes the place of all others. -/
theorem exists_overtaking (unsettled : ¬ Settles writes) :
    ∃ last late early, writes.getLast? = some last ∧ late ∈ writes ∧ early ∈ writes ∧
      late.content ≠ last.content ∧ late.content ≠ early.content ∧ ¬ Conflicts early late ∧
      (early = last ∨ early.target.version = none) := by
  simp only [Settles, not_forall, not_or] at unsettled
  obtain ⟨last, isLast, ⟨odd, isOdd, differs⟩, ⟨free, isFree, unbounded⟩⟩ := unsettled
  have inWrites := mem_of_getLast? isLast
  cases top : last.target.version with
  | none =>
    refine ⟨last, odd, last, isLast, isOdd, inWrites, differs, differs, ?_, .inl rfl⟩
    simp [conflicts_iff, top]
  | some highest =>
    cases version : free.target.version with
    | none =>
      by_cases same : free.content = last.content
      · refine ⟨last, odd, free, isLast, isOdd, isFree, differs, same ▸ differs, ?_, .inr version⟩
        simp [conflicts_iff, version]
      · refine ⟨last, free, last, isLast, isFree, inWrites, same, same, ?_, .inl rfl⟩
        simp [conflicts_iff, version]
    | some own =>
      have above : ¬ (free.content = last.content ∨ own < highest) := fun bound =>
        unbounded ⟨own, highest, version, top, bound⟩
      obtain ⟨other, notBelow⟩ := not_or.mp above
      refine ⟨last, free, last, isLast, isFree, inWrites, other, other, ?_, .inl rfl⟩
      simpa [conflicts_iff, version, top] using notBelow

variable {template : Template Time}

/-- Room for a whole segment in one request, and no end to the retries. -/
def roomyConfig (template : Template Time) (targets : Option DeleteTargets) (now : Time)
    (batch : List BatchEvent) : Config Time where
  template := template
  bytes _ := 1
  bytes_pos _ := Nat.one_pos
  maxBytes := ((place batch).map fun placed => (plan template targets now placed).length).sum
  maxAttempts := 0

theorem assured_of_plans (plans : Plans template targets now batch steps) (first second : Nat) :
    Assured (roomyConfig template targets now batch) targets now (delaying first second)
      (place batch) where
  planned placed mem notClear := by
    obtain ⟨pos, found⟩ := mem_iff_getElem?.mp mem
    obtain ⟨step, isStep, planned⟩ := plans.step (getElem?_of_place found)
    cases isStep.symm.trans (plans.bulk found notClear)
    exact (planStep_bulk planned).2
  cleared placed mem isClear := by
    obtain ⟨pos, found⟩ := mem_iff_getElem?.mp mem
    obtain ⟨step, -, planned⟩ := plans.step (getElem?_of_place found)
    unfold planStep at planned
    rw [isClear] at planned
    cases scope : clearTarget template now placed.event with
    | ok target => exact ⟨target, scope⟩
    | error failure =>
      rw [scope] at planned
      cases planned
  roomy attempt inBatch distinct := by
    refine le_trans (bodyBytes_subperm_le
      (subperm_of_subset (List.Nodup.of_map _ distinct) inBatch)) (le_of_eq ?_)
    rw [bodyBytes_requestsFor]
    simp [roomyConfig]
  patient := rfl
  lively attempt answers nonempty exchange := delaying_lively nonempty exchange

variable {step : Step}

theorem produced_of_last (isState : step.produces doc = some state)
    (untouched : ∀ later ∈ after, later.produces doc = none) :
    produced doc (before ++ step :: after) = some state := by
  rw [produced, filterMap_append, filterMap_cons_some isState, filterMap_eq_nil_iff.mpr untouched]
  simp

theorem Plans.writer (plans : Plans template targets now batch steps)
    (found : steps[pos]? = some step) {doc write} (isWrite : step.writer doc = some write) :
    ∃ placed, placed.place = pos ∧ (place batch)[pos]? = some placed ∧
      lastOn doc (plan template targets now placed) = some write := by
  obtain ⟨ev, isEvent, planned⟩ := plans.event found
  cases step with
  | clear index idStart => cases isWrite
  | bulk actions =>
    refine ⟨⟨ev, pos⟩, rfl, getElem?_place isEvent, ?_⟩
    simpa [plan, (planStep_bulk planned).2, Step.writer] using isWrite

/-- When the last events on a document do not settle, some write succeeds and does not end with
    the last of them. -/
theorem exists_misordered_write (plans : Plans template targets now batch steps)
    (ordered : NonDecreasing start steps) (unkept : ¬ OrderKept steps) :
    ∃ cfg : Config Time, cfg.template = template ∧ ∃ pattern fuel world,
      write cfg (storeCluster now targets pattern) fuel batch ⟨start, 0⟩ = (.ok ⟨⟩, world) ∧
      ∃ doc state, produced doc steps = some state ∧ world.cluster.store.state doc ≠ state := by
  simp only [OrderKept, not_forall] at unkept
  obtain ⟨front, segment, rest, doc, whole, bulk, quiet, unsettled⟩ := unkept
  obtain ⟨last, lateWrite, earlyWrite, isLast, isLate, isEarly, differs, apart, fits, early⟩ :=
    exists_overtaking unsettled
  obtain ⟨before, step, after, rfl, isStep, unwritten⟩ := exists_last_of_filterMap isLast
  cases step with
  | clear index idStart => cases isStep
  | bulk topActions =>
    have split : steps = (front ++ before) ++ .bulk topActions :: (after ++ rest) := by
      simp [whole]
    have untouched : ∀ later ∈ after ++ rest, later.produces doc = none := by
      intro later mem
      rcases mem_append.mp mem with inAfter | inRest
      · have unwritten := unwritten later inAfter
        have isBulk := bulk later (mem_append_right _ (mem_cons_of_mem _ inAfter))
        cases later with
        | bulk actions => exact congrArg (Option.map Action.content) unwritten
        | clear index idStart => cases isBulk
      · exact quiet later inRest
    -- the events of the two writes, and where they stand
    have locate : ∀ write ∈ (before ++ .bulk topActions :: after).filterMap (·.writer doc),
        ∃ placed, (place batch)[placed.place]? = some placed ∧ front.length ≤ placed.place ∧
          placed.place ≤ (front ++ before).length ∧
          lastOn doc (plan template targets now placed) = some write := by
      intro write mem
      obtain ⟨step, isMember, isWrite⟩ := mem_filterMap.mp mem
      have inFront : ∃ inner, inner ≤ before.length ∧
          steps[front.length + inner]? = some step := by
        rcases mem_append.mp isMember with inBefore | others
        · obtain ⟨inner, found⟩ := mem_iff_getElem?.mp inBefore
          have below := (List.getElem?_eq_some_iff.mp found).1
          refine ⟨inner, le_of_lt below, ?_⟩
          rw [whole, append_assoc, getElem?_append_right (Nat.le_add_right _ _),
            Nat.add_sub_cancel_left, append_assoc, getElem?_append_left below, found]
        · rcases mem_cons.mp others with rfl | inAfter
          · exact ⟨before.length, le_rfl, by simp [whole]⟩
          · cases (unwritten step inAfter).symm.trans isWrite
      obtain ⟨inner, below, found⟩ := inFront
      obtain ⟨placed, isPlace, isPlaced, isLastOn⟩ := plans.writer found isWrite
      refine ⟨placed, isPlace ▸ isPlaced, by omega, ?_, isLastOn⟩
      rw [length_append]
      omega
    obtain ⟨late, lateFound, lateAbove, lateBelow, lateLast⟩ := locate lateWrite isLate
    obtain ⟨first, firstFound, firstAbove, firstBelow, firstLast⟩ := locate earlyWrite isEarly
    have together : ∀ pos placed, (place batch)[pos]? = some placed →
        front.length ≤ pos → pos ≤ (front ++ before).length →
        isTargetClear placed.event.toEvent = false := by
      intro pos placed found above below
      obtain ⟨step, isStep, planned⟩ := plans.step (getElem?_of_place found)
      have inSegment : step ∈ before ++ .bulk topActions :: after := by
        rw [whole, append_assoc, getElem?_append_right above,
          getElem?_append_left (by simp at below ⊢; omega)] at isStep
        exact mem_of_getElem? isStep
      cases step with
      | bulk actions => exact (planStep_bulk planned).1
      | clear index idStart => cases bulk _ inSegment
    have isTopStep : steps[(front ++ before).length]? = some (.bulk topActions) := by simp [split]
    obtain ⟨ev, isEvent, planned⟩ := plans.event isTopStep
    have isTop : plan template targets now ⟨ev, 0⟩ = topActions := by
      simp [plan, (planStep_bulk planned).2]
    let cfg := roomyConfig template targets now batch
    have plansHere : Plans cfg.template targets now batch steps := plans
    have topSetting := setting_of_plans plansHere ordered split untouched isStep isTop
    have overtaken : Overtaken cfg targets now batch start doc late first lateWrite
        earlyWrite := by
      refine ⟨?_, ⟨firstLast, ?_, topSetting.known, topSetting.sameVersion⟩, lateLast, fits⟩
      · intro same
        rw [same, firstFound] at lateFound
        cases lateFound
        cases lateLast.symm.trans firstLast
        exact apart rfl
      · rcases early with rfl | unversioned
        · exact topSetting.fresh
        · simp [conflicts_iff, unversioned]
    have segmented := overtaken.segmented plansHere split untouched together lateFound lateAbove
      lateBelow firstFound firstAbove firstBelow
    obtain ⟨fuel, world, ok, ended⟩ := write_total segmented (assured_of_plans plans _ _)
      ⟨fun _ _ => .inl, fun beyond => absurd beyond (Nat.not_lt_zero _)⟩
    refine ⟨cfg, rfl, _, fuel, world, ok, doc, last.content, ?_, ?_⟩
    · rw [split]
      exact produced_of_last (congrArg (Option.map Action.content) isStep) untouched
    · have isHeld := ended.2 (by rw [plans.length_eq, split]; simp)
      simpa [Store.state, isHeld] using differs

/-- Same-document order survives partial retries, whatever limits the sink has and whatever
    fails, exactly when the last events on every document settle. -/
theorem write_keeps_order_iff
    (ordered : ∀ steps, Plans template targets now batch steps → NonDecreasing start steps) :
    (∀ config : Config Time, config.template = template → ∀ pattern fuel world,
      write config (storeCluster now targets pattern) fuel batch ⟨start, 0⟩ = (.ok ⟨⟩, world) →
      ∀ steps, Plans template targets now batch steps →
      ∀ doc state, produced doc steps = some state → world.cluster.store.state doc = state) ↔
    ∀ steps, Plans template targets now batch steps → OrderKept steps := by
  constructor
  · intro kept steps plans
    by_contra unkept
    obtain ⟨config, isTemplate, pattern, fuel, world, ok, doc, state, isProduced, other⟩ :=
      exists_misordered_write plans (ordered steps plans) unkept
    exact other (kept config isTemplate pattern fuel world ok steps plans doc state isProduced)
  · rintro kept config rfl pattern fuel world ok steps plans doc state isProduced
    exact write_ends_with_last plans (ordered steps plans) (kept steps plans) ok isProduced

theorem nonDecreasing_of_version (plans : Plans template targets now batch steps)
    (same : ∀ ev ∈ batch, externalVersion ev.toEvent = version) :
    NonDecreasing (fun _ => none) steps where
  versions doc := by
    have versions : ∀ write ∈ steps.filterMap (·.writer doc), write.target.version = version := by
      intro write mem
      obtain ⟨step, isMember, isWrite⟩ := mem_filterMap.mp mem
      obtain ⟨pos, found⟩ := mem_iff_getElem?.mp isMember
      obtain ⟨ev, isEvent, planned⟩ := plans.event found
      cases step with
      | clear index idStart => cases isWrite
      | bulk actions =>
        rw [eventActions_version (planStep_bulk planned).2 write
          (mem_of_mem_filter (mem_of_getLast? isWrite))]
        exact same ev (mem_of_getElem? isEvent)
    refine pairwise_of_forall_mem_list fun earlier isEarlier later isLater => ?_
    exact not_conflicts_of_same ((versions earlier isEarlier).trans (versions later isLater).symm)
  fresh := nofun

theorem plans_of_rendered (quiet : ∀ ev ∈ batch, isTargetClear ev.toEvent = false)
    (rendered : ∀ ev ∈ batch, (eventActions template targets now ev).toBool) :
    Plans template targets now batch
      (batch.map fun ev => .bulk (plan template targets now ⟨ev, 0⟩)) := by
  refine forall₂_map_right_iff.mpr (forall₂_same.mpr fun ev mem => ?_)
  have isRendered := rendered ev mem
  unfold planStep plan
  rw [quiet ev mem]
  cases built : eventActions template targets now ev with
  | error failure =>
    rw [built] at isRendered
    cases isRendered
  | ok actions => rfl

def reEmitted (status : String) : BatchEvent where
  subject := ⟨"vs.public.orders.update", by decide⟩
  headers := (∅ : Headers)
    |>.insert "ventstream.doc.id" "public.orders:[\"1\"]"
    |>.insert "ventstream.cdc.lsn" "7"
  payload := .ok (.string status)
  id := "01"

def reEmissions : List BatchEvent := [reEmitted "paid", reEmitted "shipped"]

def literal (index : String) : Template Unit where
  render _ _ := .ok index
  previousPeriod _ := .ok none
  isLiteral := true
  render_literal _ _ _ _ := rfl

theorem plans_reEmissions : Plans (literal "orders") none () reEmissions
    (reEmissions.map fun ev => .bulk (plan (literal "orders") none () ⟨ev, 0⟩)) :=
  plans_of_rendered (by decide +kernel) (by decide +kernel)

theorem version_reEmissions : ∀ ev ∈ reEmissions, externalVersion ev.toEvent = some 7 := by
  decide +kernel

theorem write_keeps_order_iff_reEmissions :
    (∃ steps, Plans (literal "orders") none () reEmissions steps) ∧
    ((∀ config : Config Unit, config.template = literal "orders" → ∀ pattern fuel world,
      write config (storeCluster () none pattern) fuel reEmissions ⟨fun _ => none, 0⟩ =
        (.ok ⟨⟩, world) →
      ∀ steps, Plans (literal "orders") none () reEmissions steps →
      ∀ doc state, produced doc steps = some state → world.cluster.store.state doc = state) ↔
    ∀ steps, Plans (literal "orders") none () reEmissions steps → OrderKept steps) :=
  ⟨⟨_, plans_reEmissions⟩, write_keeps_order_iff fun _ plans =>
    nonDecreasing_of_version plans version_reEmissions⟩

/-- The first action of the first request fails, and nothing else does. -/
def failFirst : Pattern := fun number _ pos =>
  if number = 0 ∧ pos = 0 then some unavailable else none

def smallConfig : Config Unit := ⟨literal "orders", fun _ => 1, fun _ => Nat.one_pos, 10, 3⟩

theorem eq_ok_of_toBool {ε : Type} {result : Except ε PUnit} (isOk : result.toBool) :
    result = .ok ⟨⟩ := by
  cases result with
  | ok value => rfl
  | error error => cases isOk

/-- Two re-emissions of one trigger carry the same version. When the first of them fails once, it
    is sent again after the second, the store takes it, and the order stays as it was. -/
theorem equal_versions_are_swapped : ∃ (world : World Server Unit) (steps : List Step),
      write smallConfig (storeCluster () none failFirst) 5 reEmissions ⟨fun _ => none, 0⟩ =
        (.ok ⟨⟩, world) ∧
      Plans smallConfig.template none () reEmissions steps ∧
      NonDecreasing (fun _ => none) steps ∧
      (produced ("orders", "public.orders:[\"1\"]") steps).map (·.map (·.map Json.render)) =
        some (some (.ok "\"shipped\"")) ∧
      (world.cluster.store.state ("orders", "public.orders:[\"1\"]")).map (·.map Json.render) =
        some (.ok "\"paid\"") := by
  refine ⟨_, _, Prod.ext ?_ rfl, plans_reEmissions,
    nonDecreasing_of_version plans_reEmissions version_reEmissions, ?_, ?_⟩
  · exact eq_ok_of_toBool (by decide +kernel)
  · decide +kernel
  · decide +kernel

end

end Ventstream.OpenSearch
