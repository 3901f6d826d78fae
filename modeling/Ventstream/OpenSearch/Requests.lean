import Ventstream.OpenSearch.Sink

/-! # Requests and the events they are for

How the actions of a request and the answers to it belong to the events of an attempt:
the buckets of an answer hold every event at most once, a request has all actions of
its events in order, and a retry has the events that an action failed of.
-/

namespace Ventstream.OpenSearch

open Core Library Library.Program Function
open List hiding count max

variable {answers : List (Requested × BulkResponseItem)}

section

variable {claimed : List Nat} {bucket : List FailedItem}

theorem mem_retainUnclaimed : offset ∈ (retainUnclaimed claimed bucket).map (·.offset) ↔
      offset ∈ bucket.map (·.offset) ∧ offset ∉ claimed := by
  induction bucket generalizing claimed with
  | nil => simp [retainUnclaimed]
  | cons item rest ih =>
    by_cases taken : item.offset ∈ claimed
    · simp only [retainUnclaimed, contains_eq_mem, taken, decide_true, if_true, ih,
        map_cons, mem_cons]
      constructor
      · exact fun found => ⟨.inr found.1, found.2⟩
      · rintro ⟨rfl | found, unclaimed⟩
        · exact absurd taken unclaimed
        · exact ⟨found, unclaimed⟩
    · simp only [retainUnclaimed, contains_eq_mem, taken, decide_false, Bool.false_eq_true,
        if_false, map_cons, mem_cons, ih, not_or]
      by_cases same : offset = item.offset
      · simp [same, taken]
      · simp [same]

theorem nodup_retainUnclaimed : ((retainUnclaimed claimed bucket).map (·.offset)).Nodup := by
  induction bucket generalizing claimed with
  | nil => exact nodup_nil
  | cons item rest ih =>
    unfold retainUnclaimed
    split
    · exact ih
    · refine nodup_cons.mpr ⟨?_, ih⟩
      intro again
      exact (mem_retainUnclaimed.mp again).2 mem_cons_self

/-- Some action of the event at an offset was answered with an item of this class. -/
def HasItem (answers : List (Requested × BulkResponseItem)) (itemClass : ItemClass)
    (offset : Nat) : Prop :=
  ∃ answer ∈ answers, answer.1.offset = offset ∧ classify answer.2 = itemClass

variable {offset : Nat}

theorem mem_itemsOf :
    offset ∈ (itemsOf itemClass answers).map (·.offset) ↔ HasItem answers itemClass offset := by
  rw [mem_map]
  constructor
  · rintro ⟨item, mem, rfl⟩
    obtain ⟨answer, isAnswer, found⟩ := mem_filterMap.mp mem
    split at found
    · cases found
      exact ⟨answer, isAnswer, rfl, by assumption⟩
    · cases found
  · rintro ⟨answer, isAnswer, rfl, isClass⟩
    exact ⟨⟨answer.1.offset, answer.2.message⟩,
      mem_filterMap.mpr ⟨answer, isAnswer, by rw [if_pos isClass]⟩, rfl⟩

theorem mem_transient : offset ∈ (partitionBulkItems answers).transient.map (·.offset) ↔
      HasItem answers .transient offset := by
  simp only [partitionBulkItems, dedupeByOffset]
  rw [mem_retainUnclaimed, mem_itemsOf]
  simp

theorem mem_permanent : offset ∈ (partitionBulkItems answers).permanent.map (·.offset) ↔
      HasItem answers .permanent offset ∧ ¬ HasItem answers .transient offset := by
  rw [← mem_transient]
  simp only [partitionBulkItems, dedupeByOffset]
  rw [mem_retainUnclaimed, mem_itemsOf]

theorem not_hasItem_blocked (free : (partitionBulkItems answers).blocked = [])
    (notTransient : ¬ HasItem answers .transient offset)
    (notPermanent : ¬ HasItem answers .permanent offset) : ¬ HasItem answers .blocked offset := by
  intro hasBlocked
  have blocked : offset ∈ (partitionBulkItems answers).blocked.map (·.offset) := by
    have noTransient := mt mem_transient.mp notTransient
    have noPermanent := mt mem_permanent.mp fun found => notPermanent found.1
    refine mem_retainUnclaimed.mpr ⟨mem_itemsOf.mpr hasBlocked, ?_⟩
    rw [mem_append]
    rintro (found | found)
    · exact noTransient found
    · exact noPermanent found
  rw [free] at blocked
  cases blocked

end

variable {Time : Type}

section

variable (template : Template Time) (targets : Option DeleteTargets) (now : Time)

/-- The actions of an event, none when they cannot be rendered. -/
def plan (placed : Placed) : List Action :=
  match eventActions template targets now placed.event with
  | .ok actions => actions
  | .error _ => []

/-- The actions of all these events can be rendered. -/
abbrev Planned (evs : List Placed) : Prop :=
  ∀ placed ∈ evs, eventActions template targets now placed.event =
    .ok (plan template targets now placed)

abbrev NoClear (evs : List Placed) : Prop :=
  ∀ placed ∈ evs, isTargetClear placed.event.toEvent = false

abbrev NoClearIn (evs : List Placed) (frontier stop : Nat) : Prop :=
  ∀ place placed, evs[place]? = some placed → frontier ≤ place → place < stop →
    isTargetClear placed.event.toEvent = false

/-- The request for a list of events, from the actions of each. -/
def requestsFor (actions : Placed → List Action) : Nat → List Placed → List Requested
  | _, [] => []
  | offset, placed :: rest =>
    (actions placed).map (fun action => ⟨placed.place, offset, action⟩) ++
      requestsFor actions (offset + 1) rest

variable {template targets now}

theorem deleteActions_ne_nil {previous index docId ev actions}
    (built : deleteActions template targets previous index docId ev = .ok actions) :
    actions ≠ [] := by
  obtain ⟨previousIndex, -, built⟩ := ok_of_bind built
  cases built
  -- the rendered index is there unless it is one of the resolved ones
  cases resolved : (targets.bind (· docId)).getD [] with
  | nil => simp [deleteIndices, resolved]
  | cons first others => simp [deleteIndices, resolved]

theorem eventActions_ne_nil
    (built : eventActions template targets now ev = .ok actions) : actions ≠ [] := by
  obtain ⟨previous, -, built⟩ := ok_of_bind built
  obtain ⟨index, -, built⟩ := ok_of_bind built
  unfold actionsIn at built
  split at built
  · split at built
    · cases built
    · exact deleteActions_ne_nil built
  · obtain ⟨moved, -, built⟩ := ok_of_bind built
    cases built
    exact append_ne_nil_of_right_ne_nil _ (cons_ne_nil _ _)

theorem attemptActions_eq (isPrevious : template.previousPeriod now = .ok previous)
    (isStatic : ∀ index, static = some index → template.render ev.toEvent now = .ok index)
    (notClear : isTargetClear ev.toEvent = false) :
    attemptActions template targets now previous static ev =
      eventActions template targets now ev := by
  have rendered : indexOf template now static ev.toEvent =
      template.render ev.toEvent now := by
    cases static with
    | none => rfl
    | some index => exact (isStatic index rfl).symm
  rw [attemptActions, eventActions, notClear, rendered, isPrevious]
  rfl

theorem requestFrom_ok (isPrevious : template.previousPeriod now = .ok previous)
    (isStatic : ∀ index, static = some index → ∀ placed ∈ evs,
      template.render placed.event.toEvent now = .ok index) (noClear : NoClear evs)
    (built : requestFrom template targets now previous static offset evs = .ok request) :
    Planned template targets now evs ∧
      request = requestsFor (plan template targets now) offset evs := by
  induction evs generalizing offset request with
  | nil =>
    cases built
    exact ⟨nofun, rfl⟩
  | cons placed rest ih =>
    obtain ⟨actions, first, built⟩ := ok_of_bind built
    obtain ⟨later, others, built⟩ := ok_of_bind built
    cases built
    rw [attemptActions_eq isPrevious (fun index known => isStatic index known placed mem_cons_self)
      (noClear placed mem_cons_self)] at first
    obtain ⟨restOk, isLater⟩ := ih
      (fun index known other mem =>
        isStatic index known other (mem_cons_of_mem placed mem))
      (fun other mem => noClear other (mem_cons_of_mem placed mem)) others
    have planned : plan template targets now placed = actions := by simp [plan, first]
    constructor
    · exact forall_mem_cons.mpr ⟨by rw [first, planned], restOk⟩
    · rw [requestsFor, planned, isLater]

theorem staticIndex_ok (known : staticIndex template now evs = .ok (some index))
    (mem : placed ∈ evs) : template.render placed.event.toEvent now = .ok index := by
  unfold staticIndex at known
  split at known
  · rename_i first others literal
    rw [template.render_literal literal placed.event.toEvent first.event.toEvent]
    cases rendered : template.render first.event.toEvent now with
    | error failure =>
      rw [rendered] at known
      cases known
    | ok name =>
      rw [rendered] at known
      cases known
      rfl
  · cases known

theorem buildBulkBody_ok (noClear : NoClear evs)
    (built : buildBulkBody template targets now evs = .ok request) :
    Planned template targets now evs ∧
      request = requestsFor (plan template targets now) 0 evs := by
  obtain ⟨static, isStatic, built⟩ := ok_of_bind built
  obtain ⟨previous, isPrevious, built⟩ := ok_of_bind built
  refine requestFrom_ok isPrevious ?_ noClear built
  rintro index rfl placed mem
  exact staticIndex_ok isStatic mem

end

variable {cfg : Config Time}

section

/-- The answers to a request that are for the event at a place. -/
def answersFor (place : Nat) (answers : List (Requested × BulkResponseItem)) :
    List (Action × BulkResponseItem) :=
  (answers.filter fun answer => answer.1.place = place).map fun answer =>
    (answer.1.action, answer.2)

variable {actions : Placed → List Action} {attempt : List Placed}

variable {requested : Requested} {placed : Placed}

theorem requestsFor_own (mem : requested ∈ requestsFor actions start attempt) :
    ∃ offset placed, attempt[offset]? = some placed ∧ requested.offset = start + offset ∧
      requested.place = placed.place ∧ requested.action ∈ actions placed := by
  induction attempt generalizing start with
  | nil => cases mem
  | cons placed rest ih =>
    rcases mem_append.mp mem with own | later
    · obtain ⟨action, isAction, rfl⟩ := mem_map.mp own
      exact ⟨0, placed, rfl, rfl, rfl, isAction⟩
    · obtain ⟨offset, other, found, isOffset, isPlace, isAction⟩ := ih later
      exact ⟨offset + 1, other, found, by omega, isPlace, isAction⟩

theorem requestsFor_foreign {start place} (foreign : place ∉ attempt.map (·.place)) :
    (requestsFor actions start attempt).filter (fun requested => requested.place = place) = [] := by
  rw [filter_eq_nil_iff]
  intro requested mem
  obtain ⟨offset, placed, found, -, isPlace, -⟩ := requestsFor_own mem
  have inside : requested.place ∈ attempt.map (·.place) :=
    mem_map.mpr ⟨placed, mem_of_getElem? found, isPlace.symm⟩
  intro same
  exact foreign (of_decide_eq_true same ▸ inside)

theorem requestsFor_whole (distinct : (attempt.map (·.place)).Nodup) (mem : placed ∈ attempt) :
    ((requestsFor actions start attempt).filter fun requested =>
      requested.place = placed.place).map (·.action) = actions placed := by
  induction attempt generalizing start with
  | nil => cases mem
  | cons first rest ih =>
    obtain ⟨fresh, distinct⟩ := nodup_cons.mp distinct
    rw [requestsFor, filter_append, map_append]
    rcases mem_cons.mp mem with rfl | later
    · rw [requestsFor_foreign fresh, map_nil, append_nil, filter_eq_self.mpr ?_]
      · simp [comp_def]
      · intro requested isFirst
        obtain ⟨action, -, rfl⟩ := mem_map.mp isFirst
        exact decide_eq_true rfl
    · have other : first.place ≠ placed.place := fun same =>
        fresh (mem_map.mpr ⟨placed, later, same.symm⟩)
      rw [ih distinct later, filter_eq_nil_iff.mpr ?_]
      · rfl
      · intro requested isFirst same
        obtain ⟨action, -, rfl⟩ := mem_map.mp isFirst
        exact other (of_decide_eq_true same)

theorem requestsFor_offset (distinct : (attempt.map (·.place)).Nodup)
    (mem : requested ∈ requestsFor actions 0 attempt) (found : attempt[offset]? = some placed) :
    requested.offset = offset ↔ requested.place = placed.place := by
  obtain ⟨own, other, isOther, isOffset, isPlace, -⟩ := requestsFor_own mem
  rw [Nat.zero_add] at isOffset
  rw [isOffset, isPlace]
  constructor
  · rintro rfl
    rw [Option.some.inj (isOther.symm.trans found)]
  · intro same
    have ownPlace : (attempt.map (·.place))[own]? = some placed.place := by
      rw [getElem?_map, isOther, Option.map_some, same]
    have samePlace : (attempt.map (·.place))[offset]? = some placed.place := by
      rw [getElem?_map, found, Option.map_some]
    exact (List.getElem?_inj (List.getElem?_eq_some_iff.mp ownPlace).1 distinct).mp
      (ownPlace.trans samePlace.symm)

/-- The answers to a request, seen from one event of the attempt. -/
structure Seen (attempt : List Placed) (actions : Placed → List Action)
    (answers : List (Requested × BulkResponseItem)) : Prop where
  whole : ∀ placed ∈ attempt,
    (answersFor placed.place answers).map (·.1) = actions placed
  foreign : ∀ place, place ∉ attempt.map (·.place) → answersFor place answers = []
  hasItem : ∀ offset placed, attempt[offset]? = some placed → ∀ itemClass,
    HasItem answers itemClass offset ↔
      ∃ answer ∈ answersFor placed.place answers, classify answer.2 = itemClass

theorem exists_mem_answersFor {answers : List (Requested × BulkResponseItem)} {place : Nat}
    {holds : BulkResponseItem → Prop} :
    (∃ answer ∈ answersFor place answers, holds answer.2) ↔
      ∃ answer ∈ answers, answer.1.place = place ∧ holds answer.2 := by
  constructor
  · rintro ⟨answer, mem, isHeld⟩
    obtain ⟨full, isFull, rfl⟩ := mem_map.mp mem
    obtain ⟨inAnswers, isPlace⟩ := mem_filter.mp isFull
    exact ⟨full, inAnswers, of_decide_eq_true isPlace, isHeld⟩
  · rintro ⟨answer, mem, isPlace, isHeld⟩
    exact ⟨(answer.1.action, answer.2), mem_map.mpr
      ⟨answer, mem_filter.mpr ⟨mem, decide_eq_true isPlace⟩, rfl⟩, isHeld⟩

/-- One answer for each action of a request, in order. -/
def AnswersTo (request : List Requested) (answers : List (Requested × BulkResponseItem)) : Prop :=
  ∃ items, items.length = request.length ∧ answers = request.zip items

theorem AnswersTo.map_fst
    (isAnswers : AnswersTo request answers) : answers.map Prod.fst = request := by
  obtain ⟨items, counted, rfl⟩ := isAnswers
  exact map_fst_zip (by omega)

theorem seen_answers (distinct : (attempt.map (·.place)).Nodup)
    (isAnswers : AnswersTo (requestsFor actions 0 attempt) answers) :
    Seen attempt actions answers := by
  have firsts := isAnswers.map_fst
  have filtered : ∀ place, (answersFor place answers).map (·.1) =
      ((requestsFor actions 0 attempt).filter fun requested => requested.place = place).map
        (·.action) := by
    intro place
    conv_rhs => rw [← firsts]
    simp [answersFor, filter_map, comp_def]
  refine ⟨?_, ?_, ?_⟩
  · intro placed mem
    rw [filtered, requestsFor_whole distinct mem]
  · intro place foreign
    have none := filtered place
    rw [requestsFor_foreign foreign] at none
    exact map_eq_nil_iff.mp none
  · intro offset placed found itemClass
    have own : ∀ answer ∈ answers, (answer.1.offset = offset ↔ answer.1.place = placed.place) := by
      intro answer mem
      exact requestsFor_offset distinct (firsts ▸ mem_map_of_mem mem) found
    refine Iff.trans ?_ (@exists_mem_answersFor _ _ fun item => classify item = itemClass).symm
    refine exists_congr fun answer => and_congr_right fun mem => ?_
    rw [own answer mem]

theorem bodyBytes_requestsFor : bodyBytes cfg (requestsFor actions start attempt) =
      (attempt.map fun placed => ((actions placed).map cfg.bytes).sum).sum := by
  induction attempt generalizing start with
  | nil => rfl
  | cons placed rest ih =>
    rw [map_cons, sum_cons, ← @ih (start + 1), requestsFor]
    simp [bodyBytes, comp_def]

theorem filterMap_range (evs : List Placed) :
    (range evs.length).filterMap (evs[·]?) = evs := by
  induction evs with
  | nil => rfl
  | cons placed rest ih =>
    rw [length_cons, range_succ_eq_map, filterMap_cons, filterMap_map]
    simpa [comp_def] using ih

theorem bodyBytes_subperm_le (part : attempt.Subperm evs) :
    bodyBytes cfg (requestsFor actions 0 attempt) ≤
      bodyBytes cfg (requestsFor actions 0 evs) := by
  obtain ⟨some, perm, sub⟩ := part
  rw [bodyBytes_requestsFor, bodyBytes_requestsFor]
  have fewer := (sub.map fun placed => ((actions placed).map cfg.bytes).sum).sum_le_sum
    fun _ _ => Nat.zero_le _
  exact (perm.map fun placed => ((actions placed).map cfg.bytes).sum).sum_eq ▸ fewer

section

variable (cfg) (targets : Option DeleteTargets) (now : Time)

/-- The request for these events is within the limit. -/
abbrev Fits (attempt : List Placed) : Prop :=
  bodyBytes cfg (requestsFor (plan cfg.template targets now) 0 attempt) ≤ cfg.maxBytes

/-- Before an attempt at a part of a slice: nothing was sent yet, or the whole slice fits into a
    request. -/
def Begun (evs : List Placed) (pending : List Nat) (unsent : Prop) : Prop :=
  (unsent ∧ pending = range evs.length) ∨ Fits cfg targets now evs

variable {cfg targets now} {pending : List Nat}

theorem Begun.fits (begun : Begun cfg targets now evs pending unsent)
    (fitting : Fits cfg targets now (pending.filterMap (evs[·]?))) : Fits cfg targets now evs := by
  obtain ⟨-, rfl⟩ | fits := begun
  · rwa [filterMap_range] at fitting
  · exact fits

theorem Begun.first (begun : Begun cfg targets now evs pending unsent) (distinct : pending.Nodup)
    (inRange : ∀ offset ∈ pending, offset < evs.length)
    (large : ¬ Fits cfg targets now (pending.filterMap (evs[·]?))) :
    unsent ∧ pending = range evs.length := by
  refine begun.resolve_right fun fits => large (le_trans ?_ fits)
  obtain ⟨some, perm, sub⟩ : pending.Subperm (range evs.length) :=
    subperm_of_subset distinct fun offset mem => mem_range.mpr (inRange offset mem)
  have part := sub.filterMap (evs[·]?)
  rw [filterMap_range] at part
  exact bodyBytes_subperm_le ⟨_, perm.filterMap (evs[·]?), part⟩

end

end

section

variable {pending : List Nat} {items : List FailedItem}

theorem mem_mapBack : offset ∈ (mapBack pending items).map (·.offset) ↔
      ∃ inner ∈ items.map (·.offset), pending[inner]? = some offset := by
  simp only [mapBack, mem_map, mem_filterMap, Option.map_eq_some_iff]
  constructor
  · rintro ⟨_, ⟨item, mem, found, isFound, rfl⟩, rfl⟩
    exact ⟨item.offset, ⟨item, mem, rfl⟩, isFound⟩
  · rintro ⟨_, ⟨item, mem, rfl⟩, isFound⟩
    exact ⟨⟨offset, item.error⟩, ⟨item, mem, offset, isFound, rfl⟩, rfl⟩

theorem mem_of_mem_mapBack (mem : offset ∈ (mapBack pending items).map (·.offset)) :
    offset ∈ pending := by
  obtain ⟨inner, -, found⟩ := mem_mapBack.mp mem
  exact mem_of_getElem? found

theorem getElem?_inj_of_nodup {list : List Nat} (distinct : list.Nodup) {first second value : Nat}
    (isFirst : list[first]? = some value) (isSecond : list[second]? = some value) :
    first = second :=
  (List.getElem?_inj (List.getElem?_eq_some_iff.mp isFirst).1 distinct).mp
    (isFirst.trans isSecond.symm)

theorem mem_mapBack_iff (distinct : pending.Nodup) {inner offset : Nat}
    (found : pending[inner]? = some offset) :
    offset ∈ (mapBack pending items).map (·.offset) ↔ inner ∈ items.map (·.offset) := by
  rw [mem_mapBack]
  constructor
  · rintro ⟨other, mem, isOther⟩
    exact getElem?_inj_of_nodup distinct found isOther ▸ mem
  · exact fun mem => ⟨inner, mem, found⟩

theorem nodup_mapBack (distinct : pending.Nodup)
    (once : (items.map (·.offset)).Nodup) : ((mapBack pending items).map (·.offset)).Nodup := by
  have mapped : (mapBack pending items).map (·.offset) =
      (items.map (·.offset)).filterMap (pending[·]?) := by
    simp [mapBack, map_filterMap, filterMap_map, comp_def]
  rw [mapped]
  exact once.filterMap fun first second value isFirst isSecond =>
    getElem?_inj_of_nodup distinct isFirst isSecond

theorem getElem?_subset {evs : List Placed} (inRange : ∀ offset ∈ pending, offset < evs.length)
    (inner : Nat) : (pending.filterMap (evs[·]?))[inner]? = pending[inner]?.bind (evs[·]?) := by
  induction pending generalizing inner with
  | nil => rfl
  | cons offset rest ih =>
    obtain ⟨placed, found⟩ : ∃ placed, evs[offset]? = some placed :=
      ⟨_, getElem?_eq_getElem (inRange offset mem_cons_self)⟩
    rw [filterMap_cons_some found]
    cases inner with
    | zero => simpa using found.symm
    | succ inner =>
      exact ih (fun other mem => inRange other (mem_cons_of_mem offset mem)) inner

variable {targets : Option DeleteTargets} {now : Time} {evs : List Placed} {pending : List Nat}

theorem mem_of_mem_subset (mem : placed ∈ pending.filterMap (evs[·]?)) : placed ∈ evs := by
  obtain ⟨offset, -, found⟩ := mem_filterMap.mp mem
  exact mem_of_getElem? found

theorem nodup_subset (distinct : (evs.map (·.place)).Nodup) (once : pending.Nodup) :
    ((pending.filterMap (evs[·]?)).map (·.place)).Nodup := by
  rw [map_filterMap]
  refine once.filterMap ?_
  intro first second value isFirst isSecond
  rw [Option.mem_def, ← getElem?_map] at isFirst isSecond
  exact getElem?_inj_of_nodup distinct isFirst isSecond

theorem encodeAttempt_ok (noClear : NoClear attempt)
    (encoded : encodeAttempt cfg targets now attempt = .ok request) :
    Planned cfg.template targets now attempt ∧
      request = requestsFor (plan cfg.template targets now) 0 attempt ∧
      Fits cfg targets now attempt := by
  unfold encodeAttempt at encoded
  split at encoded
  · cases encoded
  · rename_i built isBuilt
    split at encoded
    · cases encoded
    · rename_i fits
      cases encoded
      obtain ⟨planned, rfl⟩ := buildBulkBody_ok noClear isBuilt
      exact ⟨planned, rfl, Nat.le_of_not_lt fits⟩

theorem encodeAttempt_tooLarge {max} (noClear : NoClear attempt)
    (failed : encodeAttempt cfg targets now attempt = .error (.requestTooLarge actual max)) :
    Planned cfg.template targets now attempt ∧ ¬ Fits cfg targets now attempt := by
  unfold encodeAttempt at failed
  split at failed
  · cases failed
  · rename_i request isBuilt
    split at failed
    · rename_i large
      obtain ⟨planned, rfl⟩ := buildBulkBody_ok noClear isBuilt
      exact ⟨planned, Nat.not_le.mpr large⟩
    · cases failed

theorem noClear_subset (noClear : NoClear evs) : NoClear (pending.filterMap (evs[·]?)) :=
  fun placed mem => noClear placed (mem_of_mem_subset mem)

theorem encodeAttempt_ne_partialFailure : encodeAttempt cfg targets now attempt ≠ .error
    (.partialFailure size count sample items) := by
  intro failed
  unfold encodeAttempt at failed
  split at failed
  · cases failed
  · split at failed <;> cases failed

theorem bodyBytes_ne_zero (inRange : ∀ offset ∈ pending, offset < evs.length)
    (unfinished : pending ≠ [])
    (planned : Planned cfg.template targets now (pending.filterMap (evs[·]?))) :
    bodyBytes cfg (requestsFor (plan cfg.template targets now) 0
      (pending.filterMap (evs[·]?))) ≠ 0 := by
  obtain ⟨offset, rest, rfl⟩ := exists_cons_of_ne_nil unfinished
  obtain ⟨placed, found⟩ : ∃ placed, evs[offset]? = some placed :=
    ⟨_, getElem?_eq_getElem (inRange offset mem_cons_self)⟩
  have nonempty := eventActions_ne_nil
    (planned placed (mem_filterMap.mpr ⟨offset, mem_cons_self, found⟩))
  obtain ⟨action, others, isPlan⟩ := exists_cons_of_ne_nil nonempty
  have positive := cfg.bytes_pos action
  rw [bodyBytes_requestsFor, filterMap_cons_some found, map_cons, sum_cons, isPlan,
    map_cons, sum_cons]
  omega

end

end Ventstream.OpenSearch
