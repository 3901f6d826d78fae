import Ventstream.Library.VersionedStore
import Ventstream.OpenSearch.WriteOutcome

/-! # Writing to a store that drops lower versions

A cluster that is a store: an action takes effect unless its version is below the one
held under its document, and any action may fail transiently instead. What a store
holds after a request follows from the answers to it, so that an invariant about the
events still to be sent is carried through the retries of a slice, the ranges and the
clears of a batch.
-/

namespace Ventstream.OpenSearch

open Core Library Library.Program List
open Json (Value)

abbrev Doc := String × String

def Action.doc (action : Action) : Doc := (action.target.index, action.target.id)

def Action.content : Action → Option (Except String Value)
  | .index _ document => some document
  | .delete _ => none

/-- The version of a write is below that of the write held. -/
def Conflicts (held write : Action) : Prop :=
  match held.target.version, write.target.version with
  | some stored, some version => version < stored
  | _, _ => False

instance : DecidableRel Conflicts := fun held write => by
  unfold Conflicts
  split <;> infer_instance

theorem conflicts_iff {held write : Action} :
    Conflicts held write ↔ ∃ stored version, held.target.version = some stored ∧
      write.target.version = some version ∧ version < stored := by
  unfold Conflicts
  cases held.target.version with
  | none => simp
  | some stored => cases write.target.version <;> simp

abbrev Store := Doc → Option Action

def Store.put : Store → Action → Store :=
  VersionedStore.put (fun action : Action => some action.doc) Conflicts

def covers (index idStart : String) (doc : Doc) : Bool :=
  doc.1 = index && idStart.toList.isPrefixOf doc.2.toList

def Store.clear (index idStart : String) (store : Store) : Store := fun doc =>
  if covers index idStart doc then none else store doc

def Store.state (store : Store) (doc : Doc) : Option (Except String Value) :=
  (store doc).bind Action.content

section

/-- An answer that asks for another attempt. -/
abbrev Transient := { item : BulkResponseItem // classify item = .transient }

/-- Which actions fail: by the number of the request, the request, and the place in it. -/
abbrev Pattern := Nat → List Requested → Nat → Option Transient

structure Server where
  store : Store
  requests : Nat

/-- The answer to an action that does not fail. -/
def answerTo (store : Store) (action : Action) : BulkResponseItem :=
  let kind := match action with
    | .index _ _ => ActionKind.index
    | .delete _ => ActionKind.delete
  match store action.doc with
  | some held =>
    if Conflicts held action then ⟨kind, 409, none⟩
    else match action, held with
      | .delete _, .delete _ => ⟨kind, 404, none⟩
      | _, _ => ⟨kind, 200, none⟩
  | none => match action with
      | .delete _ => ⟨kind, 404, none⟩
      | .index _ _ => ⟨kind, 201, none⟩

def serve (fails : Nat → Option Transient) : Nat → List Requested → Store →
    List BulkResponseItem × Store
  | _, [], store => ([], store)
  | pos, requested :: rest, store =>
    match fails pos with
    | some item =>
      let later := serve fails (pos + 1) rest store
      (item.1 :: later.1, later.2)
    | none =>
      let later := serve fails (pos + 1) rest (store.put requested.action)
      (answerTo store requested.action :: later.1, later.2)

variable {Time : Type} (now : Time) (targets : Option DeleteTargets) (pattern : Pattern)

def storeCluster : Cluster Server Time where
  now server := (now, server)
  resolve _ server := (.ok targets, server)
  bulk request server :=
    let served := serve (pattern server.requests request) 0 request server.store
    (.items served.1, ⟨served.2, server.requests + 1⟩)
  clear index idStart server := (.ok ⟨⟩, { server with store := server.store.clear index idStart })

def replay (answers : List (Requested × BulkResponseItem)) (store : Store) : Store :=
  ((answers.filter fun answer => classify answer.2 ≠ .transient).map (·.1.action)).foldl Store.put
    store

theorem classify_answerTo (store : Store) (action : Action) :
    classify (answerTo store action) = .applied := by
  unfold answerTo
  cases action with
  | index target document =>
    cases held : store (Action.index target document).doc with
    | none => rfl
    | some earlier =>
      simp only
      split
      · rfl
      · rfl
  | delete target =>
    cases held : store (Action.delete target).doc with
    | none => rfl
    | some earlier =>
      simp only
      split
      · rfl
      · split <;> rfl

/-- Every action is answered, as applied unless it failed, and those applied are in the store. -/
structure Served (fails : Nat → Option Transient) (pos : Nat) (request : List Requested)
    (answers : List (Requested × BulkResponseItem)) : Prop where
  answersTo : AnswersTo request answers
  classes : ∀ inner answer, answers[inner]? = some answer →
    classify answer.2 = if (fails (pos + inner)).isSome then .transient else .applied

theorem Served.cons (served : Served fails (pos + 1) rest answers)
    (first : classify item = if (fails pos).isSome then .transient else .applied) :
    Served fails pos (requested :: rest) ((requested, item) :: answers) := by
  obtain ⟨⟨items, counted, rfl⟩, classes⟩ := served
  refine ⟨⟨item :: items, by simp [counted], rfl⟩, fun inner answer found => ?_⟩
  cases inner with
  | zero =>
    cases found
    exact first
  | succ inner =>
    have tail := classes inner answer found
    rwa [Nat.add_right_comm] at tail

theorem serve_spec (fails : Nat → Option Transient) (pos : Nat) (request : List Requested)
    (store : Store) :
    Served fails pos request (request.zip (serve fails pos request store).1) ∧
      (serve fails pos request store).2 =
        replay (request.zip (serve fails pos request store).1) store ∧
      (serve fails pos request store).1.length = request.length := by
  induction request generalizing pos store with
  | nil => exact ⟨⟨⟨[], rfl, rfl⟩, nofun⟩, rfl, rfl⟩
  | cons requested rest ih =>
    cases failing : fails pos with
    | some item =>
      obtain ⟨served, stored, counted⟩ := ih (pos + 1) store
      simp only [serve, failing, zip_cons_cons]
      refine ⟨served.cons (by simpa [failing] using item.2), ?_, by simp [counted]⟩
      simpa [replay, item.2] using stored
    | none =>
      obtain ⟨served, stored, counted⟩ := ih (pos + 1) (store.put requested.action)
      simp only [serve, failing, zip_cons_cons]
      refine ⟨served.cons (by simpa [failing] using classify_answerTo _ _), ?_, by simp [counted]⟩
      simpa [replay, classify_answerTo] using stored

end

section

variable {Time : Type} {cfg : Config Time} {now : Time} {targets : Option DeleteTargets}
  {pattern : Pattern} {evs : List Placed}

/-- Some action of the event failed. -/
def Retried (answers : List (Requested × BulkResponseItem)) (placed : Placed) : Prop :=
  ∃ answer ∈ answers, answer.1.place = placed.place ∧ classify answer.2 = .transient

/-- A request for these events, and its answers. -/
structure Exchange (cfg : Config Time) (targets : Option DeleteTargets) (now : Time)
    (pattern : Pattern) (attempt : List Placed) (answers : List (Requested × BulkResponseItem)) :
    Prop where
  distinct : (attempt.map (·.place)).Nodup
  planned : Planned cfg.template targets now attempt
  served : ∃ number, Served
    (pattern number (requestsFor (plan cfg.template targets now) 0 attempt)) 0
    (requestsFor (plan cfg.template targets now) 0 attempt) answers

/-- An answer is for an action of an event of the attempt. -/
theorem Exchange.own (exchange : Exchange cfg targets now pattern attempt answers)
    (isAnswer : answer ∈ answers) : ∃ placed ∈ attempt, answer.1.place = placed.place ∧
      answer.1.action ∈ plan cfg.template targets now placed := by
  obtain ⟨number, served⟩ := exchange.served
  obtain ⟨_, placed, found, -, isPlace, isAction⟩ :=
    requestsFor_own (served.answersTo.map_fst ▸ mem_map_of_mem isAnswer)
  exact ⟨placed, mem_of_getElem? found, isPlace, isAction⟩

/-- What is known of the store, given the events still to be sent, survives every request. -/
def Carried (cfg : Config Time) (targets : Option DeleteTargets) (now : Time) (pattern : Pattern)
    (evs : List Placed) (known : (Placed → Prop) → Store → Prop) : Prop :=
  ∀ attempt answers, (∀ placed ∈ attempt, placed ∈ evs) →
    Exchange cfg targets now pattern attempt answers → ∀ store,
    known (· ∈ attempt) store →
      known (fun placed => placed ∈ attempt ∧ Retried answers placed) (replay answers store)

theorem Served.buckets (served : Served fails pos request answers) :
    (partitionBulkItems answers).permanent = [] ∧ (partitionBulkItems answers).blocked = [] := by
  have none : ∀ itemClass, itemClass ≠ .transient → itemClass ≠ .applied →
      itemsOf itemClass answers = [] := by
    intro itemClass notTransient notApplied
    rw [itemsOf, filterMap_eq_nil_iff]
    intro answer mem
    obtain ⟨inner, found⟩ := mem_iff_getElem?.mp mem
    have isClass := served.classes inner answer found
    rw [if_neg]
    rintro rfl
    split at isClass
    · exact notTransient isClass
    · exact notApplied isClass
  simp only [partitionBulkItems, dedupeByOffset]
  rw [none .permanent (by decide) (by decide), none .blocked (by decide) (by decide)]
  exact ⟨rfl, rfl⟩

theorem mem_next (distinct : (evs.map (·.place)).Nodup) (once : pending.Nodup)
    (inRange : ∀ offset ∈ pending, offset < evs.length)
    (isAnswers : AnswersTo (requestsFor actions 0 (pending.filterMap (evs[·]?))) answers)
    (placed : Placed) :
    placed ∈ ((mapBack pending (partitionBulkItems answers).transient).map (·.offset)).filterMap
        (evs[·]?) ↔
      placed ∈ pending.filterMap (evs[·]?) ∧ Retried answers placed := by
  have seen := seen_answers (nodup_subset distinct once) isAnswers
  have retried : ∀ inner offset, pending[inner]? = some offset → evs[offset]? = some placed →
      (HasItem answers .transient inner ↔ Retried answers placed) := by
    intro inner offset atInner found
    have inAttempt : (pending.filterMap (evs[·]?))[inner]? = some placed := by
      rw [getElem?_subset inRange, atInner, Option.bind_some, found]
    rw [seen.hasItem inner placed inAttempt]
    exact @exists_mem_answersFor _ _ fun item => classify item = .transient
  rw [mem_filterMap, mem_filterMap]
  constructor
  · rintro ⟨offset, mem, found⟩
    obtain ⟨inner, -, atInner⟩ := mem_mapBack.mp mem
    have isTransient := mem_transient.mp ((mem_mapBack_iff once atInner).mp mem)
    exact ⟨⟨offset, mem_of_getElem? atInner, found⟩,
      (retried inner offset atInner found).mp isTransient⟩
  · rintro ⟨⟨offset, mem, found⟩, isRetried⟩
    obtain ⟨inner, atInner⟩ := mem_iff_getElem?.mp mem
    refine ⟨offset, (mem_mapBack_iff once atInner).mpr ?_, found⟩
    exact mem_transient.mpr ((retried inner offset atInner found).mpr isRetried)

theorem exec_bulk {request : List Requested} (world : World Server Time) :
    ∃ answers number, Served (pattern number request) 0 request answers ∧
      exec (sendOnce (storeCluster now targets pattern) request) world =
        (.ok (.ok (partitionBulkItems answers)),
          ⟨⟨replay answers world.cluster.store, number + 1⟩, world.log ++ [.answered answers]⟩) := by
  obtain ⟨served, stored, counted⟩ := serve_spec (pattern world.cluster.requests request) 0 request
    world.cluster.store
  refine ⟨_, world.cluster.requests, served, ?_⟩
  rw [exec_sendOnce, ← stored]
  simp [storeCluster, classifyResponse, entryOf, counted, Reply.entries]

/-- How a slice that does not succeed stops: never with a refusal, and too large only when
    nothing was sent. -/
def Unsent (start : Store) : Halt Error → World Server Time → Prop
  | .failed (.partialFailure _ _ _ _), _ => False
  | .failed (.requestTooLarge _ _), world => world.cluster.store = start
  | _, _ => True

theorem exec_readClock (world : World Server Time) :
    exec (readClock (storeCluster now targets pattern)) world =
      (.ok now, ⟨world.cluster, world.log ++ [.clock now]⟩) :=
  rfl

section

variable {known : (Placed → Prop) → Store → Prop} {start : Store}
  (carried : Carried cfg targets now pattern evs known)
  (noClear : NoClear evs) (distinct : (evs.map (·.place)).Nodup)
include carried noClear distinct

theorem attemptLoop_carried (fuel attempt : Nat) {pending : List Nat} (once : pending.Nodup)
    (inRange : ∀ offset ∈ pending, offset < evs.length) (unfinished : pending ≠ []) :
    Triple (fun world => known (· ∈ pending.filterMap (evs[·]?)) world.cluster.store ∧
        Begun cfg targets now evs pending (world.cluster.store = start))
      (attemptLoop cfg (storeCluster now targets pattern) targets now evs fuel attempt pending
        (pending.filterMap (evs[·]?)) [])
      (fun _ world => known (fun _ => False) world.cluster.store) (Unsent start) := by
  induction fuel generalizing attempt pending with
  | zero => exact Triple.throw fun _ _ => trivial
  | succ fuel ih =>
    rintro world ⟨holds, begun⟩
    rw [attemptLoop, exec_bind, exec_check]
    cases encoded : encodeAttempt cfg targets now (pending.filterMap (evs[·]?)) with
    | error error =>
      cases error with
      | request | transientItems | blockedItems => trivial
      | partialFailure => exact absurd encoded encodeAttempt_ne_partialFailure
      | requestTooLarge =>
        obtain ⟨-, large⟩ := encodeAttempt_tooLarge (noClear_subset noClear) encoded
        exact (begun.first once inRange large).1
    | ok request =>
      obtain ⟨planned, rfl, fitting⟩ := encodeAttempt_ok (noClear_subset noClear) encoded
      simp only [Except.mapError, if_neg (bodyBytes_ne_zero inRange unfinished planned)]
      obtain ⟨answers, number, served, sent⟩ := @exec_bulk _ now targets pattern
        (requestsFor (plan cfg.template targets now) 0 (pending.filterMap (evs[·]?))) world
      obtain ⟨noPermanent, noBlocked⟩ := served.buckets
      have fits := begun.fits fitting
      have next := carried _ answers (fun placed => mem_of_mem_subset)
        ⟨nodup_subset distinct once, planned, number, served⟩ world.cluster.store holds
      simp only [← mem_next distinct once inRange served.answersTo] at next
      rw [exec_bind_ok sent]
      refine Triple.run (fun later => known _ later.cluster.store) next ?_
      simp only [noPermanent, noBlocked, isEmpty_nil, Bool.not_true, Bool.false_eq_true, if_false]
      split
      · rename_i finished
        rw [isEmpty_iff.mp finished]
        exact Triple.pure fun _ done => by simpa using done
      · rename_i more
        split
        · refine (ih _ ?_ ?_ (by simpa using more)).weaken (fun _ next => ⟨next, .inr fits⟩)
            (fun _ _ done => done) fun _ _ stopped => stopped
          · exact nodup_mapBack once nodup_retainUnclaimed
          · exact fun offset mem => inRange offset (mem_of_mem_mapBack mem)
        · exact Triple.throw fun _ _ => trivial

theorem sendSlice_carried (nonempty : evs ≠ []) (fuel : Nat) :
    Triple (fun world => world.cluster.store = start ∧ known (· ∈ evs) start)
      (sendSliceWithRetry cfg (storeCluster now targets pattern) targets fuel evs)
      (fun _ world => known (fun _ => False) world.cluster.store) (Unsent start) := by
  rintro world ⟨rfl, holds⟩
  rw [sendSliceWithRetry, if_neg (by simpa using nonempty), exec_bind_ok (exec_readClock world)]
  have loop := @attemptLoop_carried _ cfg now targets pattern evs known world.cluster.store
    carried noClear distinct fuel 0 (range evs.length) nodup_range
    (fun _ => mem_range.mp) (by simpa using nonempty)
  rw [filterMap_range] at loop
  exact loop _ ⟨holds, .inl ⟨rfl, rfl⟩⟩

end

/-- An invariant of the frontier that every slice of a kind and every clear of a batch move
    forward. -/
structure Tracked (cfg : Config Time) (targets : Option DeleteTargets) (now : Time)
    (pattern : Pattern) (evs : List Placed) (kind : Nat → Nat → Prop)
    (known : Nat → Store → Prop) : Prop where
  onSlice : ∀ frontier stop attempt, Part evs frontier stop attempt → NoClear attempt →
    kind frontier stop →
    ∃ inner, Carried cfg targets now pattern attempt inner ∧
      (∀ store, known frontier store → inner (· ∈ attempt) store) ∧
      ∀ store, inner (fun _ => False) store → known stop store
  onClear : ∀ frontier placed target, evs[frontier]? = some placed →
    isTargetClear placed.event.toEvent = true →
    clearTarget cfg.template now placed.event = .ok target →
    ∀ store, known frontier store → known (frontier + 1) (store.clear target.1 target.2)

theorem Tracked.moves (inPlace : InPlace evs)
    (tracked : Tracked cfg targets now pattern evs (fun _ _ => True) known) :
    Moves cfg (storeCluster now targets pattern) targets evs
      fun frontier permanent world => permanent = [] → known frontier world.cluster.store where
  onSlice fuel frontier stop attempt permanent part below quiet := by
    intro world holds
    obtain ⟨inner, carried, enter, leave⟩ := tracked.onSlice frontier stop attempt part quiet
      trivial
    -- what is known of the store matters only while nothing was refused
    have guarded : Carried cfg targets now pattern attempt
        fun unfinished store => permanent = [] → inner unfinished store :=
      fun others answers mem exchange store before empty =>
        carried others answers mem exchange store (before empty)
    have spec := sendSlice_carried guarded quiet (part.nodup inPlace) (part.ne_nil below) fuel world
      ⟨rfl, fun empty => enter _ (holds empty)⟩
    cases ran : exec (sendSliceWithRetry cfg (storeCluster now targets pattern) targets fuel
        attempt) world with
    | mk result later =>
      rw [ran] at spec
      match result, spec with
      | .ok _, done => exact fun empty => leave _ (done empty)
      | .error .running, _ | .error (.failed (.request _)), _
      | .error (.failed (.transientItems _ _)), _ | .error (.failed (.blockedItems _ _)), _ => trivial
      | .error (.failed (.requestTooLarge _ _)), same =>
        refine ⟨fun empty => ?_, fun _ empty => ?_⟩
        · exact (show later.cluster.store = world.cluster.store from same) ▸ holds empty
        · exact absurd empty (by simp)
  onClear frontier placed permanent isPlaced isClear := by
    refine applyTargetClear_rule
      (fun read world => read = now ∧ (permanent = [] → known frontier world.cluster.store))
      (fun _ holds => ⟨rfl, holds⟩) ?_
    rintro _ world target state ⟨rfl, holds⟩ scope cleared empty
    cases cleared
    exact tracked.onClear frontier placed target isPlaced isClear scope _ (holds empty)

theorem Tracked.write
    (tracked : Tracked cfg targets now pattern (place batch) (fun _ _ => True) known)
    (start : known 0 store)
    (ok : OpenSearch.write cfg (storeCluster now targets pattern) fuel batch ⟨store, 0⟩ =
      (.ok ⟨⟩, world)) : known batch.length world.cluster.store := by
  have spec := @sendWithRetry_moves Server Time cfg (storeCluster now targets pattern)
    (fun frontier permanent world => permanent = [] → known frontier world.cluster.store)
    (fun world => known 0 world.cluster.store) batch
    (fun world holds => ⟨tracked.moves (inPlace_place batch), fun _ => holds⟩) fuel
    ⟨⟨store, 0⟩, []⟩ start
  unfold OpenSearch.write at ok
  cases ran : exec (sendWithRetry cfg (storeCluster now targets pattern) fuel batch)
      ⟨⟨store, 0⟩, []⟩ with
  | mk result later =>
    rw [ran] at spec ok
    cases result with
    | error halt => cases halt <;> cases ok
    | ok value =>
      cases ok
      obtain ⟨rfl, holds⟩ | holds := spec
      · exact holds
      · exact holds rfl

end

end Ventstream.OpenSearch
