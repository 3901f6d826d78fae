import Ventstream.OpenSearch.StoreCluster

/-! # The order of writes to one document

A retry sends only what failed, so that an earlier event of a batch may reach the store
after a later one on the same document. The versions repair this when they increase.
Events with the same version, or with none, do not: the batch ends with its last event
on every document whatever fails exactly if, between two clears, every event that
leaves the document otherwise than the last one carries a version below it, and then
none on that document goes without a version.
-/

namespace Ventstream.OpenSearch

open Core Library Library.Program List
open Json (Value)

variable {Time : Type}

section

/-- What one event asks of the store. -/
inductive Step where
  | bulk (actions : List Action)
  | clear (index idStart : String)

variable (template : Template Time) (targets : Option DeleteTargets) (now : Time)

def planStep (ev : BatchEvent) : Except Failure Step :=
  if isTargetClear ev.toEvent then
    (clearTarget template now ev).map fun target => .clear target.1 target.2
  else (eventActions template targets now ev).map .bulk

/-- Every event of the batch can be rendered, to these steps. -/
def Plans (batch : List BatchEvent) (steps : List Step) : Prop :=
  List.Forall₂ (fun ev step => planStep template targets now ev = .ok step) batch steps

def lastOn (doc : Doc) (actions : List Action) : Option Action :=
  (actions.filter fun action => action.doc = doc).getLast?

namespace Step

def isBulk : Step → Bool
  | bulk _ => true
  | clear _ _ => false

/-- The action that a step leaves a document with. -/
def writer (doc : Doc) : Step → Option Action
  | bulk actions => lastOn doc actions
  | clear _ _ => none

/-- The state that a step leaves a document in, if it is about the document. -/
def produces (doc : Doc) : Step → Option (Option (Except String Value))
  | bulk actions => (lastOn doc actions).map Action.content
  | clear index idStart => if covers index idStart doc then some none else none

end Step

/-- The state that the last step about a document leaves it in. -/
def produced (doc : Doc) (steps : List Step) : Option (Option (Except String Value)) :=
  (steps.filterMap (·.produces doc)).getLast?

/-- Versions do not decrease from one event on a document to the next, and the store holds
    nothing newer. -/
structure NonDecreasing (store : Store) (steps : List Step) : Prop where
  versions : ∀ doc, (steps.filterMap (·.writer doc)).Pairwise fun earlier later =>
    ¬ Conflicts earlier later
  fresh : ∀ doc held, store doc = some held → ∀ write ∈ steps.filterMap (·.writer doc),
    ¬ Conflicts held write

/-- Writes to one document that end with the last one in whatever order they arrive: they all
    leave the same state, or all are versioned and those that leave another state lie below. -/
def Settles (writes : List Action) : Prop :=
  ∀ last, writes.getLast? = some last → (∀ write ∈ writes, write.content = last.content) ∨
      ∀ write ∈ writes, ∃ version top, write.target.version = some version ∧
        last.target.version = some top ∧ (write.content = last.content ∨ version < top)

/-- The last events on each document, back to a clear, settle. -/
def OrderKept (steps : List Step) : Prop :=
  ∀ before segment after doc, steps = before ++ segment ++ after →
    (∀ step ∈ segment, step.isBulk = true) → (∀ step ∈ after, step.produces doc = none) →
    Settles (segment.filterMap (·.writer doc))

end

variable {doc : Doc} {last : Action}

section

variable {actions : Placed → List Action}

def heldAfter (doc : Doc) (answers : List (Requested × BulkResponseItem)) (held : Option Action) :
    Option Action :=
  (((answers.filter fun answer => classify answer.2 ≠ .transient).map (·.1.action)).filter
    fun action => action.doc = doc).foldl (VersionedStore.take Conflicts) held

theorem replay_apply (answers : List (Requested × BulkResponseItem)) (store : Store) :
    replay answers store doc = heldAfter doc answers (store doc) := by
  unfold replay heldAfter Store.put
  rw [VersionedStore.foldl_put_apply]
  simp

theorem heldAfter_append (front back : List (Requested × BulkResponseItem)) (held : Option Action) :
    heldAfter doc (front ++ back) held = heldAfter doc back (heldAfter doc front held) := by
  simp [heldAfter]

def own (doc : Doc) (actions : Placed → List Action) (placed : Placed) : List Action :=
  (actions placed).filter fun action => action.doc = doc

/-- What the store holds of a document while events are resent: the last event is among those to
    be sent, or the document is as that event leaves it, or it was last written by an event that
    will be sent again. -/
structure Tending (doc : Doc) (actions : Placed → List Action) (top : Placed) (last : Action)
    (old : Action → Prop) (graded reached : Prop) (unfinished : Placed → Prop)
    (held : Option Action) : Prop where
  origin : ∀ action, held = some action → old action
  settled : reached → unfinished top ∨ ∃ action, held = some action ∧
    (action.content = last.content ∨ ∃ placed, unfinished placed ∧ action ∈ own doc actions placed) ∧
    (graded → action.target.version = last.target.version)

/-- An event that the last one can overtake and be overtaken by. -/
def Tame (doc : Doc) (actions : Placed → List Action) (last : Action) (graded : Prop)
    (placed : Placed) : Prop :=
  ∀ write, lastOn doc (actions placed) = some write → (¬ graded → write.content = last.content) ∧
    (graded → ∃ version top, write.target.version = some version ∧
      last.target.version = some top ∧ version ≤ top ∧
      (write.content = last.content ∨ version < top))

variable {top : Placed} {sent : Placed → Prop} {old : Action → Prop} {graded reached : Prop}
  {unfinished later : Placed → Prop} {held : Option Action}

theorem Tending.mono (tending : Tending doc actions top last old graded reached unfinished held)
    (more : ∀ placed, unfinished placed → later placed) :
    Tending doc actions top last old graded reached later held := by
  refine ⟨tending.origin, fun isReached => ?_⟩
  rcases tending.settled isReached with isTop | ⟨action, isHeld, state, version⟩
  · exact .inl (more top isTop)
  · refine .inr ⟨action, isHeld, state.imp_right ?_, version⟩
    rintro ⟨placed, isUnfinished, mem⟩
    exact ⟨placed, more placed isUnfinished, mem⟩

variable {action write other : Action} {applied : List Action}

theorem conflicts_congr (same : write.target.version = other.target.version) :
    Conflicts action write ↔ Conflicts action other := by
  rw [conflicts_iff, conflicts_iff, same]

theorem not_conflicts_of_same
    (same : action.target.version = other.target.version) : ¬ Conflicts action other := by
  rw [conflicts_iff]
  rintro ⟨stored, version, isStored, isVersion, below⟩
  cases isStored.symm.trans (same.trans isVersion)
  exact Nat.lt_irrefl _ below

/-- A tame event that does not conflict with a write of the last event's version leaves the
    document as the last event does. -/
theorem Tame.agrees (tame : Tame doc actions last graded placed)
    (isWrite : lastOn doc (actions placed) = some write)
    (sameVersion : graded → action.target.version = last.target.version)
    (fits : ¬ Conflicts action write) :
    write.content = last.content ∧ (graded → write.target.version = last.target.version) := by
  obtain ⟨plain, versioned⟩ := tame write isWrite
  by_cases isGraded : graded
  · obtain ⟨version, top, isVersion, isTop, below, state⟩ := versioned isGraded
    have notBelow : ¬ version < top := fun less =>
      fits (conflicts_iff.mpr ⟨top, version, (sameVersion isGraded).trans isTop, isVersion, less⟩)
    refine ⟨state.resolve_right notBelow, fun _ => ?_⟩
    rw [isVersion, isTop, Nat.le_antisymm below (Nat.le_of_not_lt notBelow)]
  · exact ⟨plain isGraded, fun isGraded' => absurd isGraded' isGraded⟩

/-- What stays the same for all events while a batch is sent. -/
structure Setting (doc : Doc) (actions : Placed → List Action) (top : Placed) (last : Action)
    (sent : Placed → Prop) (old : Action → Prop) : Prop where
  isLast : lastOn doc (actions top) = some last
  fresh : ∀ action, old action → ¬ Conflicts action last
  known : ∀ placed, sent placed → ∀ action ∈ own doc actions placed, old action
  sameVersion : ∀ placed, ∀ action ∈ actions placed, ∀ other ∈ actions placed,
    action.target.version = other.target.version

theorem mem_of_lastOn
    (isWrite : lastOn doc (actions placed) = some write) : write ∈ own doc actions placed :=
  mem_of_getLast? isWrite

theorem Setting.sameOwn (setting : Setting doc actions top last sent old)
    (mem : action ∈ own doc actions placed) (isOther : other ∈ own doc actions placed) :
    action.target.version = other.target.version :=
  setting.sameVersion placed action (mem_of_mem_filter mem) other
    (mem_of_mem_filter isOther)

theorem Setting.foldl_own (setting : Setting doc actions top last sent old)
    (part : ∀ action ∈ applied, action ∈ own doc actions placed)
    (isWrite : write ∈ own doc actions placed)
    (fits : ∀ action, held = some action → ¬ Conflicts action write) :
    applied.foldl (VersionedStore.take Conflicts) held = applied.getLast?.or held := by
  refine VersionedStore.foldl_take_of_fresh ?_ ?_
  · intro action isHeld other mem
    rw [conflicts_congr (setting.sameOwn (part other mem) isWrite)]
    exact fits action isHeld
  · intro action mem other isOther
    exact not_conflicts_of_same (setting.sameOwn (part action mem) (part other isOther))

/-- One event is sent, and some of its actions fail. It is still to be sent unless none did. -/
theorem Tending.event (tending : Tending doc actions top last old graded reached unfinished held)
    (setting : Setting doc actions top last sent old) (isSent : sent placed)
    (tame : reached → Tame doc actions last graded placed)
    (part : ∀ action ∈ applied, action ∈ own doc actions placed)
    (left : ∀ other, unfinished other → other ≠ placed → later other)
    (whole : later placed ∨ applied = own doc actions placed) :
    Tending doc actions top last old graded reached later
      (applied.foldl (VersionedStore.take Conflicts) held) := by
  have stillThere : ∀ other, unfinished other → later other ∨ other = placed := by
    intro other isUnfinished
    by_cases same : other = placed
    · exact .inr same
    · exact .inl (left other isUnfinished same)
  constructor
  · intro action isHeld
    rcases @VersionedStore.foldl_take_cases _ Conflicts _ applied held with
      same | ⟨write, member, isWrite⟩
    · exact tending.origin action (same.symm.trans isHeld)
    · cases isWrite.symm.trans isHeld
      exact setting.known placed isSent action (part action member)
  · intro isReached
    rcases tending.settled isReached with isTop | ⟨action, rfl, state, version⟩
    · rcases stillThere top isTop with stays | rfl
      · exact .inl stays
      · rcases whole with stays | rfl
        · exact .inl stays
        · -- the last event arrives, and nothing the document held is above it
          refine .inr ⟨last, ?_, .inl rfl, fun _ => rfl⟩
          rw [setting.foldl_own part (mem_of_lastOn setting.isLast) fun action isHeld =>
            setting.fresh action (tending.origin action isHeld)]
          have isLast : (own doc actions top).getLast? = some last := setting.isLast
          rw [isLast, Option.some_or]
    · -- what the document holds stays unless only the event that is sent had written it
      have stays (ifOwn : later placed ∨ action ∉ own doc actions placed) :
          action.content = last.content ∨
            ∃ other, later other ∧ action ∈ own doc actions other := by
        refine state.imp_right ?_
        rintro ⟨other, isUnfinished, member⟩
        rcases stillThere other isUnfinished with stays | rfl
        · exact ⟨other, stays, member⟩
        · exact ⟨other, ifOwn.resolve_right fun notOwn => notOwn member, member⟩
      refine .inr ?_
      cases isWrite : lastOn doc (actions placed) with
      | none =>
        have none : own doc actions placed = [] := getLast?_eq_none_iff.mp isWrite
        have nothing : applied = [] := eq_nil_iff_forall_not_mem.mpr fun other member => by
          have isOwn := part other member
          rw [none] at isOwn
          cases isOwn
        exact ⟨action, by rw [nothing]; rfl, stays (.inr (none ▸ not_mem_nil)), version⟩
      | some write =>
        have isOwn := mem_of_lastOn isWrite
        by_cases stale : Conflicts action write
        · exact ⟨action, VersionedStore.foldl_take_of_stale fun other member =>
            (conflicts_congr (setting.sameOwn (part other member) isOwn)).mpr stale,
            stays (.inr fun member => not_conflicts_of_same (setting.sameOwn member isOwn) stale),
            version⟩
        · obtain ⟨content, sameAsLast⟩ := (tame isReached).agrees isWrite version stale
          rw [setting.foldl_own part isOwn (by rintro _ ⟨⟩; exact stale)]
          cases final : applied.getLast? with
          | none =>
            refine ⟨action, rfl, ?_, version⟩
            rcases whole with again | rfl
            · exact stays (.inl again)
            · cases final.symm.trans isWrite
          | some other =>
            have member := part other (mem_of_getLast? final)
            refine ⟨other, rfl, ?_, fun isGraded =>
              (setting.sameOwn member isOwn).trans (sameAsLast isGraded)⟩
            rcases whole with stays | rfl
            · exact .inr ⟨placed, stays, member⟩
            · cases final.symm.trans isWrite
              exact .inl content

/-- A request is sent, and the events with an action that failed are still to be sent. -/
theorem Tending.attempt (setting : Setting doc actions top last sent old) {attempt}
    (isSent : ∀ placed ∈ attempt, sent placed)
    (tame : reached → ∀ placed ∈ attempt, Tame doc actions last graded placed)
    (request : answers.map Prod.fst = requestsFor actions start attempt)
    (tending : Tending doc actions top last old graded reached
      (fun placed => unfinished placed ∨ placed ∈ attempt) held) :
    Tending doc actions top last old graded reached
      (fun placed => unfinished placed ∨ (placed ∈ attempt ∧ Retried answers placed))
      (heldAfter doc answers held) := by
  induction attempt generalizing start answers unfinished held with
  | nil =>
    cases map_eq_nil_iff.mp request
    exact tending.mono fun placed => Or.imp_right fun mem => absurd mem not_mem_nil
  | cons first rest ih =>
    obtain ⟨front, back, rfl, isFront, isBack⟩ := map_eq_append_iff.mp request
    have actionsOf : front.map (·.1.action) = actions first := by
      have mapped := congrArg (map Requested.action) isFront
      simpa [Function.comp_def] using mapped
    have places : ∀ answer ∈ front, answer.1.place = first.place := by
      intro answer mem
      have isRequested : answer.1 ∈ (actions first).map fun action =>
          (⟨first.place, start, action⟩ : Requested) := isFront ▸ mem_map_of_mem mem
      obtain ⟨action, -, isAnswer⟩ := mem_map.mp isRequested
      rw [← isAnswer]
    have one : Tending doc actions top last old graded reached
        (fun placed => (unfinished placed ∨ (placed = first ∧ Retried front first)) ∨ placed ∈ rest)
        (heldAfter doc front held) := by
      refine tending.event setting (isSent first mem_cons_self)
        (fun isReached => tame isReached first mem_cons_self) ?_ ?_ ?_
      · intro action mem
        obtain ⟨inFront, isDoc⟩ := mem_filter.mp mem
        obtain ⟨answer, isAnswer, rfl⟩ := mem_map.mp inFront
        refine mem_filter.mpr ⟨actionsOf ▸ ?_, isDoc⟩
        exact mem_map_of_mem (mem_of_mem_filter isAnswer)
      · rintro other (kept | mem) isOther
        · exact .inl (.inl kept)
        · exact .inr ((mem_cons.mp mem).resolve_left isOther)
      · by_cases retried : Retried front first
        · exact .inl (.inl (.inr ⟨rfl, retried⟩))
        · right
          have all : (front.filter fun answer => classify answer.2 ≠ .transient) = front :=
            filter_eq_self.mpr fun answer mem => decide_eq_true fun isTransient =>
              retried ⟨answer, mem, places answer mem, isTransient⟩
          rw [all, actionsOf]
          rfl
    have rest := ih (fun placed mem => isSent placed (mem_cons_of_mem first mem))
      (fun isReached placed mem => tame isReached placed (mem_cons_of_mem first mem))
      isBack one
    rw [heldAfter_append]
    refine rest.mono ?_
    rintro placed ((kept | ⟨rfl, answer, mem, found⟩) | ⟨mem, answer, isAnswer, found⟩)
    · exact .inl kept
    · exact .inr ⟨mem_cons_self, answer, mem_append_left back mem, found⟩
    · exact .inr ⟨mem_cons_of_mem first mem, answer, mem_append_right front isAnswer, found⟩

end

section

variable {template : Template Time} {targets : Option DeleteTargets} {now : Time}

theorem eventActions_version (built : eventActions template targets now ev = .ok actions) :
    ∀ action ∈ actions, action.target.version = externalVersion ev.toEvent := by
  have deletes : ∀ {previous : Option Time} {index docId : String} {actions : List Action},
      deleteActions template targets previous index docId ev.toEvent = .ok actions →
      ∀ action ∈ actions, action.target.version = externalVersion ev.toEvent := by
    intro previous index docId actions built action mem
    obtain ⟨previousIndex, -, built⟩ := ok_of_bind built
    cases built
    obtain ⟨target, -, rfl⟩ := mem_map.mp mem
    rfl
  obtain ⟨previous, -, built⟩ := ok_of_bind built
  obtain ⟨index, -, built⟩ := ok_of_bind built
  unfold actionsIn at built
  split at built
  · split at built
    · cases built
    · exact deletes built
  · obtain ⟨moved, isMoved, built⟩ := ok_of_bind built
    cases built
    intro action mem
    rcases mem_append.mp mem with isMove | isIndex
    · unfold relocations at isMoved
      split at isMoved
      · cases isMoved
        cases isMove
      · exact deletes isMoved action isMove
    · cases mem_singleton.mp isIndex
      rfl

theorem plan_version (placed : Placed) : ∀ action ∈ plan template targets now placed,
    ∀ other ∈ plan template targets now placed,
    action.target.version = other.target.version := by
  unfold plan
  split
  · rename_i actions built
    intro action mem other isOther
    rw [eventActions_version built action mem, eventActions_version built other isOther]
  · exact nofun

variable {batch : List BatchEvent} {steps : List Step}

theorem planStep_bulk (isStep : planStep template targets now ev = .ok (.bulk actions)) :
    isTargetClear ev.toEvent = false ∧ eventActions template targets now ev = .ok actions := by
  unfold planStep at isStep
  split at isStep
  · cases scope : clearTarget template now ev <;> rw [scope] at isStep <;> cases isStep
  · rename_i notClear
    refine ⟨by simpa using notClear, ?_⟩
    cases built : eventActions template targets now ev <;> rw [built] at isStep <;> cases isStep
    rfl

section

variable (plans : Plans template targets now batch steps) {pos : Nat} {placed : Placed}

include plans

theorem Plans.step {ev : BatchEvent} (found : batch[pos]? = some ev) :
    ∃ step, steps[pos]? = some step ∧ planStep template targets now ev = .ok step :=
  forall₂_getElem? plans found

theorem Plans.event {step : Step} (found : steps[pos]? = some step) :
    ∃ ev, batch[pos]? = some ev ∧ planStep template targets now ev = .ok step :=
  forall₂_getElem? plans.flip found

theorem Plans.bulk (found : (place batch)[pos]? = some placed)
    (notClear : isTargetClear placed.event.toEvent = false) :
    steps[pos]? = some (.bulk (plan template targets now placed)) := by
  obtain ⟨step, isStep, planned⟩ := plans.step (getElem?_of_place found)
  unfold planStep at planned
  rw [notClear] at planned
  unfold plan
  cases built : eventActions template targets now placed.event with
  | error failure =>
    rw [built] at planned
    cases planned
  | ok actions =>
    rw [built] at planned
    cases planned
    exact isStep

theorem Plans.clear (found : (place batch)[pos]? = some placed)
    (isClear : isTargetClear placed.event.toEvent)
    (scope : clearTarget template now placed.event = .ok target) :
    steps[pos]? = some (.clear target.1 target.2) := by
  obtain ⟨step, isStep, planned⟩ := plans.step (getElem?_of_place found)
  unfold planStep at planned
  rw [isClear, scope] at planned
  cases planned
  exact isStep

end

theorem exists_last_of_filterMap {α β : Type} {look : α → Option β} {entries : List α} {value : β}
    (isLast : (entries.filterMap look).getLast? = some value) :
    ∃ before entry after, entries = before ++ entry :: after ∧ look entry = some value ∧
      ∀ later ∈ after, look later = none := by
  induction entries using reverseRecOn with
  | nil => cases isLast
  | append_singleton entries entry ih =>
    cases isValue : look entry with
    | none =>
      have earlier : (entries.filterMap look).getLast? = some value := by
        simpa [filterMap_append, isValue] using isLast
      obtain ⟨before, found, after, rfl, isFound, untouched⟩ := ih earlier
      exact ⟨before, found, after ++ [entry], by simp, isFound,
        forall_mem_append.mpr ⟨untouched, forall_mem_singleton.mpr isValue⟩⟩
    | some other =>
      have same : other = value := by
        simpa [filterMap_append, isValue] using isLast
      exact ⟨entries, entry, [], by simp, same ▸ isValue, nofun⟩

theorem own_eq_nil_of_produces (untouched : (Step.bulk actions).produces doc = none) :
    (actions.filter fun action => action.doc = doc) = [] := by
  simpa [Step.produces, lastOn] using untouched

section

variable {cfg : Config Time} {pattern : Pattern}

theorem replay_of_untouched (exchange : Exchange cfg targets now pattern attempt answers)
    (untouched : ∀ placed ∈ attempt, own doc (plan cfg.template targets now) placed = [])
    (store : Store) : replay answers store doc = store doc := by
  rw [replay_apply, heldAfter, filter_eq_nil_iff.mpr]
  · rfl
  · intro action mem isDoc
    obtain ⟨answer, isAnswer, rfl⟩ := mem_map.mp mem
    obtain ⟨placed, isPlaced, -, isAction⟩ := exchange.own (mem_of_mem_filter isAnswer)
    have isOwn : answer.1.action ∈ own doc (plan cfg.template targets now) placed :=
      mem_filter.mpr ⟨isAction, isDoc⟩
    rw [untouched placed isPlaced] at isOwn
    cases isOwn

variable {before after : List Step} {step : Step}

section

variable (plans : Plans cfg.template targets now batch steps)
  (split : steps = before ++ step :: after) (untouched : ∀ later ∈ after, later.produces doc = none)
  {pos : Nat} {placed : Placed} (found : (place batch)[pos]? = some placed)
  (beyond : before.length < pos)

include split untouched beyond

theorem produces_of_after (isStep : steps[pos]? = some later) : later.produces doc = none := by
  rw [split, getElem?_append_right (le_of_lt beyond), getElem?_cons,
    if_neg (by omega)] at isStep
  exact untouched _ (mem_of_getElem? isStep)

include plans found

theorem own_eq_nil_of_after (notClear : isTargetClear placed.event.toEvent = false) :
    own doc (plan cfg.template targets now) placed = [] :=
  own_eq_nil_of_produces (produces_of_after split untouched beyond (plans.bulk found notClear))

theorem clear_of_after (isClear : isTargetClear placed.event.toEvent)
    (scope : clearTarget cfg.template now placed.event = .ok target)
    (store : Store) : store.clear target.1 target.2 doc = store doc := by
  have uncovered := produces_of_after split untouched beyond (plans.clear found isClear scope)
  simp only [Step.produces] at uncovered
  split at uncovered
  · cases uncovered
  · rename_i notCovered
    exact if_neg notCovered

end

theorem tracked_clear (plans : Plans cfg.template targets now batch steps)
    (split : steps = before ++ .clear index idStart :: after) (isCovered : covers index idStart doc)
    (untouched : ∀ later ∈ after, later.produces doc = none) :
    Tracked cfg targets now pattern (place batch) (fun _ _ => True)
      fun frontier store => before.length < frontier → store doc = none where
  onSlice frontier stop attempt part quiet _ := by
    have notInside : before.length < stop → before.length < frontier := by
      intro below
      by_contra notBefore
      have isStep : steps[before.length]? = some (.clear index idStart) := by simp [split]
      obtain ⟨ev, isEvent, -⟩ := plans.event isStep
      have found := getElem?_place isEvent
      have inAttempt := part.getElem? found (Nat.le_of_not_lt notBefore) below
      have bulk := plans.bulk found (quiet _ (mem_of_getElem? inAttempt))
      cases isStep.symm.trans bulk
    refine ⟨fun _ store => before.length < stop → store doc = none, ?_, ?_, fun _ holds => holds⟩
    · intro others answers mem exchange store holds below
      rw [replay_of_untouched exchange ?_ store]
      · exact holds below
      · intro placed isPlaced
        obtain ⟨pos, found, here, -⟩ := part.found (mem placed isPlaced)
        exact own_eq_nil_of_after plans split untouched found
          (lt_of_lt_of_le (notInside below) here) (quiet placed (mem placed isPlaced))
    · exact fun store holds below => holds (notInside below)
  onClear frontier placed target found isClear scope store holds below := by
    have isStep := plans.clear found isClear scope
    unfold Store.clear
    by_cases same : before.length = frontier
    · have isThis : steps[before.length]? = some (.clear index idStart) := by simp [split]
      rw [same] at isThis
      cases isThis.symm.trans isStep
      rw [if_pos isCovered]
    · rw [holds (by omega), ite_self]

end

section

variable {cfg : Config Time} {pattern : Pattern} {before after : List Step}
  {topActions : List Action} {start : Store}

/-- Some event that may be sent together with the last one leaves the document otherwise. -/
def Graded (doc : Doc) (before : List Step) (last : Action) : Prop :=
  ∃ first, (∀ step ∈ before.drop first, step.isBulk = true) ∧
    ∃ write ∈ (before.drop first).filterMap (·.writer doc), write.content ≠ last.content

theorem writer_of_bulk {actions write}
    (isWrite : lastOn doc actions = some write) : (Step.bulk actions).writer doc = some write :=
  isWrite

/-- An event of the batch that goes into a request. -/
def Sent (batch : List BatchEvent) (placed : Placed) : Prop :=
  placed ∈ place batch ∧ isTargetClear placed.event.toEvent = false

/-- What a document may hold: what it held before, or an action of the batch. -/
def Old (cfg : Config Time) (targets : Option DeleteTargets) (now : Time) (batch : List BatchEvent)
    (start : Store) (doc : Doc) (action : Action) : Prop :=
  start doc = some action ∨
    ∃ placed, Sent batch placed ∧ action ∈ own doc (plan cfg.template targets now) placed

theorem exists_lastOn (mem : action ∈ actions.filter fun action => action.doc = doc) :
    ∃ write, lastOn doc actions = some write := by
  cases isWrite : lastOn doc actions with
  | some write => exact ⟨write, rfl⟩
  | none =>
    rw [getLast?_eq_none_iff.mp isWrite] at mem
    cases mem

section

variable (plans : Plans cfg.template targets now batch steps)
  (ordered : NonDecreasing start steps) (kept : OrderKept steps)
  (split : steps = before ++ .bulk topActions :: after)
  (untouched : ∀ later ∈ after, later.produces doc = none)
  (isLast : lastOn doc topActions = some last) {pos : Nat} {placed : Placed}
  (found : (place batch)[pos]? = some placed)
  (notClear : isTargetClear placed.event.toEvent = false) {write : Action}
  (isWrite : lastOn doc (plan cfg.template targets now placed) = some write)

include split isLast

include ordered in
theorem NonDecreasing.not_conflicts {write} (mem : write ∈ before.filterMap (·.writer doc)) :
    ¬ Conflicts write last := by
  have pairwise := ordered.versions doc
  rw [split, filterMap_append, filterMap_cons_some (writer_of_bulk isLast)] at pairwise
  exact (pairwise_append.mp pairwise).2.2 write mem last mem_cons_self

include untouched

include kept in
/-- The writes that may be sent together with the last one, once one of them differs. -/
theorem OrderKept.versioned (graded : Graded doc before last) {first}
    (bulk : ∀ step ∈ before.drop first, step.isBulk) {write : Action}
    (mem : write ∈ (before.drop first ++ [Step.bulk topActions]).filterMap (·.writer doc)) :
    ∃ version top, write.target.version = some version ∧ last.target.version = some top ∧
      (write.content = last.content ∨ version < top) := by
  obtain ⟨other, otherBulk, odd, isOdd, differs⟩ := graded
  -- the longer of the two segments has both writes
  obtain ⟨low, lowBulk, fromFirst, fromOther⟩ : ∃ low, (∀ step ∈ before.drop low, step.isBulk) ∧
      (before.drop first).Sublist (before.drop low) ∧
      (before.drop other).Sublist (before.drop low) := by
    rcases Nat.le_total first other with le | le
    · exact ⟨first, bulk, List.Sublist.refl _, drop_sublist_drop_left before le⟩
    · exact ⟨other, otherBulk, drop_sublist_drop_left before le, List.Sublist.refl _⟩
  have settles := kept (before.take low) (before.drop low ++ [Step.bulk topActions]) after doc
    (by rw [split, ← append_assoc, take_append_drop, append_assoc]; rfl)
    (forall_mem_append.mpr ⟨lowBulk, forall_mem_singleton.mpr rfl⟩) untouched last
    (by rw [filterMap_append, filterMap_cons_some (writer_of_bulk isLast)]; simp)
  have inLow : ∀ action, action ∈ (before.drop first ++ [Step.bulk topActions]).filterMap
      (·.writer doc) → action ∈ (before.drop low ++ [Step.bulk topActions]).filterMap
    (·.writer doc) :=
    fun action => (((fromFirst.append_right _).filterMap _).subset ·)
  rcases settles with same | versioned
  · refine absurd (same odd ?_) differs
    rw [filterMap_append]
    exact mem_append_left _ ((fromOther.filterMap _).subset isOdd)
  · exact versioned write (inLow write mem)

include plans

include found notClear isWrite in
omit isLast in
theorem mem_before_or_top : before[pos]? = some (.bulk (plan cfg.template targets now placed)) ∨
      (pos = before.length ∧ plan cfg.template targets now placed = topActions) := by
  have isStep := plans.bulk found notClear
  rcases Nat.lt_trichotomy pos before.length with earlier | same | beyond
  · left
    rwa [split, getElem?_append_left earlier] at isStep
  · right
    rw [split, same, getElem?_append_right le_rfl, Nat.sub_self] at isStep
    cases isStep
    exact ⟨same, rfl⟩
  · have none := own_eq_nil_of_after plans split untouched found beyond notClear
    have member := mem_of_lastOn isWrite
    rw [none] at member
    cases member

include ordered

include found notClear isWrite in
theorem write_not_conflicts : ¬ Conflicts write last := by
  rcases mem_before_or_top plans split untouched found notClear isWrite with earlier | ⟨-, same⟩
  · exact ordered.not_conflicts split isLast
      (mem_filterMap.mpr ⟨_, mem_of_getElem? earlier, writer_of_bulk isWrite⟩)
  · rw [same, isLast] at isWrite
    cases isWrite
    exact not_conflicts_of_same rfl

theorem setting_of_plans (isTop : plan cfg.template targets now top = topActions) :
    Setting doc (plan cfg.template targets now) top last (Sent batch)
      (Old cfg targets now batch start doc) where
  isLast := by rw [isTop, isLast]
  fresh := by
    rintro action (isStart | ⟨placed, ⟨mem, notClear⟩, isOwn⟩)
    · refine ordered.fresh doc action isStart last ?_
      rw [split, filterMap_append, filterMap_cons_some (writer_of_bulk isLast)]
      exact mem_append_right _ mem_cons_self
    · obtain ⟨pos, found⟩ := mem_iff_getElem?.mp mem
      obtain ⟨write, isWrite⟩ := exists_lastOn isOwn
      have sameVersion := plan_version placed action (mem_of_mem_filter isOwn) write
        (mem_of_mem_filter (mem_of_lastOn isWrite))
      have below := write_not_conflicts plans ordered split untouched isLast found notClear isWrite
      rw [conflicts_iff] at below ⊢
      rwa [sameVersion]
  known := fun placed isSent action isOwn => .inr ⟨placed, isSent, isOwn⟩
  sameVersion := plan_version

include kept

theorem tame_of_slice {frontier stop : Nat} (part : Part (place batch) frontier stop attempt)
    (quiet : NoClear attempt) (reached : before.length < stop) (mem : placed ∈ attempt) :
    Tame doc (plan cfg.template targets now) last (Graded doc before last) placed := by
  intro write isWrite
  obtain ⟨inner, atInner⟩ := mem_iff_getElem?.mp mem
  have inRange := (List.getElem?_eq_some_iff.mp atInner).1
  have found := (part.sliced inner inRange).symm.trans atInner
  -- the steps from this event to the last one are in one slice, so none of them is a clear
  have bulk : ∀ step ∈ before.drop (frontier + inner), step.isBulk := by
    intro step isStep
    obtain ⟨offset, isOffset⟩ := mem_iff_getElem?.mp isStep
    rw [getElem?_drop] at isOffset
    have below := (List.getElem?_eq_some_iff.mp isOffset).1
    have atStep : steps[frontier + inner + offset]? = some step := by
      rw [split, getElem?_append_left below, isOffset]
    obtain ⟨ev, isEvent, -⟩ := plans.event atStep
    have inAttempt := part.getElem? (getElem?_place isEvent) (by omega) (by omega)
    have isBulk := plans.bulk (getElem?_place isEvent) (quiet _ (mem_of_getElem? inAttempt))
    cases atStep.symm.trans isBulk
    rfl
  have inSegment : write ∈ (before.drop (frontier + inner) ++ [Step.bulk topActions]).filterMap
      (·.writer doc) := by
    refine mem_filterMap.mpr ⟨.bulk (plan cfg.template targets now placed), ?_, isWrite⟩
    rcases mem_before_or_top plans split untouched found (quiet placed mem) isWrite with
      earlier | ⟨-, same⟩
    · refine mem_append_left _ (mem_iff_getElem?.mpr ⟨0, ?_⟩)
      rw [getElem?_drop, Nat.add_zero, earlier]
    · rw [same]
      exact mem_append_right _ (mem_singleton_self _)
  constructor
  · intro plain
    by_contra differs
    rcases mem_before_or_top plans split untouched found (quiet placed mem) isWrite with
      earlier | ⟨-, same⟩
    · refine plain ⟨frontier + inner, bulk, write, ?_, differs⟩
      refine mem_filterMap.mpr ⟨_, mem_iff_getElem?.mpr ⟨0, ?_⟩, writer_of_bulk isWrite⟩
      rw [getElem?_drop, Nat.add_zero, earlier]
    · rw [same, isLast] at isWrite
      cases isWrite
      exact differs rfl
  · intro graded
    obtain ⟨version, above, isVersion, isAbove, state⟩ :=
      kept.versioned split untouched isLast graded bulk inSegment
    have below := write_not_conflicts plans ordered split untouched isLast found
      (quiet placed mem) isWrite
    refine ⟨version, above, isVersion, isAbove, Nat.le_of_not_lt fun less => ?_, state⟩
    exact below (conflicts_iff.mpr ⟨version, above, isVersion, isAbove, less⟩)

theorem tracked_writer :
    Tracked cfg targets now pattern (place batch) (fun _ _ => True) fun frontier store =>
      (∀ action, store doc = some action → Old cfg targets now batch start doc action) ∧
      (before.length < frontier → ∃ action, store doc = some action ∧
        action.content = last.content ∧
        (Graded doc before last → action.target.version = last.target.version)) := by
  have isStep : steps[before.length]? = some (.bulk topActions) := by simp [split]
  obtain ⟨ev, isEvent, planned⟩ := plans.event isStep
  obtain ⟨notClear, built⟩ := planStep_bulk planned
  have isTop : plan cfg.template targets now ⟨ev, before.length⟩ = topActions := by
    simp [plan, built]
  have setting := setting_of_plans plans ordered split untouched isLast isTop
  constructor
  · intro frontier stop attempt part quiet _
    refine ⟨fun unfinished store => Tending doc (plan cfg.template targets now)
      ⟨ev, before.length⟩ last (Old cfg targets now batch start doc)
      (Graded doc before last) (before.length < stop) unfinished (store doc), ?_, ?_, ?_⟩
    · intro others answers mem exchange store tending
      obtain ⟨number, served⟩ := exchange.served
      rw [replay_apply]
      have sent : ∀ placed ∈ others, Sent batch placed := by
        intro placed isPlaced
        obtain ⟨pos, found, -⟩ := part.found (mem placed isPlaced)
        exact ⟨mem_of_getElem? found, quiet placed (mem placed isPlaced)⟩
      have tame : before.length < stop → ∀ placed ∈ others,
          Tame doc (plan cfg.template targets now) last (Graded doc before last) placed :=
        fun reached placed isPlaced => tame_of_slice plans ordered kept split untouched isLast
          part quiet reached (mem placed isPlaced)
      have now_ : Tending doc (plan cfg.template targets now) ⟨ev, before.length⟩ last
          (Old cfg targets now batch start doc) (Graded doc before last)
          (before.length < stop) (fun placed => False ∨ placed ∈ others) (store doc) :=
        tending.mono fun _ => .inr
      refine (Tending.attempt setting sent tame served.answersTo.map_fst now_).mono ?_
      rintro placed (impossible | retried)
      · exact impossible.elim
      · exact retried
    · rintro store ⟨origin, settled⟩
      refine ⟨origin, fun reached => ?_⟩
      by_cases earlier : before.length < frontier
      · obtain ⟨action, isHeld, content, version⟩ := settled earlier
        exact .inr ⟨action, isHeld, .inl content, version⟩
      · exact .inl (mem_of_getElem? (part.getElem? (getElem?_place isEvent)
          (Nat.le_of_not_lt earlier) reached))
    · rintro store tending
      refine ⟨tending.origin, fun reached => ?_⟩
      obtain impossible | ⟨action, isHeld, content | ⟨_, impossible, -⟩, version⟩ :=
        tending.settled reached
      · exact impossible.elim
      · exact ⟨action, isHeld, content, version⟩
      · exact impossible.elim
  · rintro frontier placed target found isClear scope store ⟨origin, settled⟩
    have cleared := plans.clear found isClear scope
    constructor
    · intro action isHeld
      unfold Store.clear at isHeld
      split at isHeld
      · cases isHeld
      · exact origin action isHeld
    · intro below
      have earlier : before.length < frontier := by
        rcases Nat.lt_succ_iff_lt_or_eq.mp below with less | same
        · exact less
        · subst same
          cases isStep.symm.trans cleared
      rw [clear_of_after plans split untouched found earlier isClear scope]
      exact settled earlier

end

end

/-- A batch whose last events settle ends with them, whatever fails. -/
theorem write_ends_with_last (plans : Plans cfg.template targets now batch steps)
    (ordered : NonDecreasing start steps) (kept : OrderKept steps)
    (ok : write cfg (storeCluster now targets pattern) fuel batch ⟨start, 0⟩ = (.ok ⟨⟩, world))
    (isProduced : produced doc steps = some state) : world.cluster.store.state doc = state := by
  obtain ⟨before, step, after, split, isState, untouched⟩ := exists_last_of_filterMap isProduced
  have length : before.length < batch.length := by
    have same := plans.length_eq
    rw [same, split]
    simp
  cases step with
  | bulk actions =>
    simp only [Step.produces, Option.map_eq_some_iff] at isState
    obtain ⟨last, isLast, rfl⟩ := isState
    have tracked : Tracked cfg targets now pattern (place batch) _ _ :=
      tracked_writer plans ordered kept split untouched isLast
    obtain ⟨-, settled⟩ := tracked.write
      ⟨fun _ => .inl, fun below => absurd below (Nat.not_lt_zero _)⟩ ok
    obtain ⟨action, isHeld, content, -⟩ := settled length
    simp [Store.state, isHeld, content]
  | clear index idStart =>
    simp only [Step.produces] at isState
    split at isState
    · rename_i isCovered
      cases isState
      have tracked : Tracked cfg targets now pattern (place batch) _ _ :=
        tracked_clear plans split isCovered untouched
      have gone := tracked.write (fun below => absurd below (Nat.not_lt_zero _)) ok length
      simp [Store.state, gone]
    · cases isState

end

end Ventstream.OpenSearch
