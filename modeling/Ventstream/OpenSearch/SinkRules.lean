import Ventstream.OpenSearch.Requests

/-! # Rules for the loops of a write

An invariant of how far a write has come is kept by a whole write when it is kept by
one slice and by one clear: the ranges follow one another from the frontier on, and a
segment ends where a clear stands.
-/

namespace Ventstream.OpenSearch

open Core Library Library.Program
open List hiding after ranges

variable {evs : List Placed} {frontier : Nat}

section

/-- Every event knows its place. -/
def InPlace (evs : List Placed) : Prop :=
  ∀ (place : Nat) (placed : Placed), evs[place]? = some placed → placed.place = place

theorem inPlace_place (batch : List BatchEvent) : InPlace (place batch) := by
  intro pos placed found
  simp only [place, getElem?_map, getElem?_zipIdx, Option.map_map, Option.map_eq_some_iff] at found
  obtain ⟨ev, -, rfl⟩ := found
  exact Nat.zero_add pos

variable {batch : List BatchEvent} {pos : Nat} {attempt : List Placed}

theorem getElem?_place (found : batch[pos]? = some ev) : (place batch)[pos]? = some ⟨ev, pos⟩ := by
  simp [place, getElem?_zipIdx, found]

theorem getElem?_of_place
    (found : (place batch)[pos]? = some placed) : batch[pos]? = some placed.event := by
  simp only [place, getElem?_map, getElem?_zipIdx, Option.map_map, Option.map_eq_some_iff] at found
  obtain ⟨ev, isEvent, rfl⟩ := found
  exact isEvent

theorem length_place (batch : List BatchEvent) : (place batch).length = batch.length := by
  simp [place]

/-- A part of the events that starts at the frontier. -/
structure Part (evs : List Placed) (frontier stop : Nat) (attempt : List Placed) : Prop where
  length : frontier + attempt.length = stop
  sliced : ∀ inner < attempt.length, attempt[inner]? = evs[frontier + inner]?

theorem Part.getElem? {stop place placed}
    (part : Part evs frontier stop attempt) (found : evs[place]? = some placed)
    (here : frontier ≤ place)
    (below : place < stop) : attempt[place - frontier]? = some placed := by
  have length := part.length
  rw [part.sliced _ (by omega), Nat.add_sub_cancel' here, found]

theorem Part.ne_nil (part : Part evs frontier stop attempt) (below : frontier < stop) :
    attempt ≠ [] := by
  rintro rfl
  exact Nat.ne_of_lt below part.length

theorem Part.found (part : Part evs frontier stop attempt) (mem : placed ∈ attempt) :
    ∃ place, evs[place]? = some placed ∧ frontier ≤ place ∧ place < stop := by
  have length := part.length
  obtain ⟨inner, found⟩ := mem_iff_getElem?.mp mem
  have inRange := (List.getElem?_eq_some_iff.mp found).1
  exact ⟨frontier + inner, (part.sliced inner inRange).symm.trans found, by omega, by omega⟩

theorem Part.mem_place (inPlace : InPlace evs) {stop place} (part : Part evs frontier stop attempt)
    (mem : place ∈ attempt.map (·.place)) : frontier ≤ place ∧ place < stop := by
  obtain ⟨placed, isPlaced, rfl⟩ := mem_map.mp mem
  obtain ⟨pos, found, bounds⟩ := part.found isPlaced
  rwa [inPlace pos placed found]

theorem Part.nodup (inPlace : InPlace evs)
    (part : Part evs frontier stop attempt) : (attempt.map (·.place)).Nodup := by
  have places : attempt.map (·.place) = range' frontier attempt.length := by
    apply ext_getElem (by simp)
    intro inner inMap inRange
    have below : inner < attempt.length := by simpa using inMap
    have found := (part.sliced inner below).symm.trans (getElem?_eq_getElem below)
    simpa using inPlace (frontier + inner) _ found
  rw [places]
  exact nodup_range'

/-- A queue of ranges that follow one another from the frontier to the stop. -/
inductive Queue : Nat → List (Nat × Nat) → Nat → Prop
  | done (stop : Nat) : Queue stop [] stop
  | range {start mid stop : Nat} {rest : List (Nat × Nat)} (below : start < mid)
      (more : Queue mid rest stop) : Queue start ((start, mid) :: rest) stop

theorem Queue.le (queue : Queue start ranges stop) : start ≤ stop := by
  induction queue with
  | done stop => exact Nat.le_refl stop
  | range below more ih => omega

theorem slice_part
    (sliced : slice evs frontier stop = some attempt) : Part evs frontier stop attempt := by
  unfold slice at sliced
  split at sliced
  · rename_i bounds
    cases sliced
    have length : ((evs.take stop).drop frontier).length = stop - frontier := by
      rw [length_drop, length_take, Nat.min_eq_left bounds.2]
    refine ⟨by omega, fun inner below => ?_⟩
    rw [getElem?_drop, getElem?_take, if_pos (by omega)]
  · cases sliced

end

section

variable {σ Time : Type} {cfg : Config Time} {cluster : Cluster σ Time}
  {targets : Option DeleteTargets} {known : Nat → List FailedItem → World σ Time → Prop}

/-- A range does not pass the refusals of its slices on as an error. -/
def Aborted : Halt Error → World σ Time → Prop
  | .failed (.partialFailure _ _ _ _), _ => False
  | _, _ => True

/-- A clear reads the clock, then asks the cluster, and is in the log when it was carried out. -/
theorem applyTargetClear_rule (read : Time → World σ Time → Prop)
    (reads : ∀ world, before world → read (cluster.now world.cluster).1
      ⟨(cluster.now world.cluster).2, world.log ++ [.clock (cluster.now world.cluster).1]⟩)
    (clears : ∀ now world target state, read now world →
      clearTarget cfg.template now placed.event = .ok target →
      cluster.clear target.1 target.2 world.cluster = (.ok ⟨⟩, state) →
      after ⟨state, world.log ++ [.cleared placed.place]⟩) :
    Triple before (applyTargetClear cfg cluster placed) (fun _ => after) Aborted := by
  have clock : Triple before (readClock cluster) read Aborted := Triple.update reads
  refine clock.bind fun now => ?_
  intro world isRead
  rw [exec_bind, orFail, exec_check]
  cases scope : clearTarget cfg.template now placed.event with
  | error failure => trivial
  | ok target =>
    simp only [Except.mapError]
    rw [exec_bind, exec_update]
    cases answer : cluster.clear target.1 target.2 world.cluster with
    | mk result state =>
      cases result with
      | error failure => trivial
      | ok value => exact clears now world target state isRead scope answer

/-- A range between two clears, or an end of the batch. -/
abbrev Bounded (evs : List Placed) (frontier stop : Nat) : Prop :=
  ∀ place placed, evs[place]? = some placed → place + 1 = frontier ∨ place = stop →
    isTargetClear placed.event.toEvent = true

/-- The segments of a batch lie between its clears, and each starts where the last clear left. -/
theorem sendSegments_rule {stopped : Halt Error → World σ Time → Prop} (inPlace : InPlace evs)
    (onSegment : ∀ {frontier stop permanent}, frontier ≤ stop → stop ≤ evs.length →
      NoClearIn evs frontier stop → Bounded evs frontier stop →
      Triple (known frontier permanent)
        (sendSegment cfg cluster targets evs fuel frontier stop permanent)
        (fun permanent => known stop permanent) stopped)
    (onClear : ∀ {frontier placed permanent}, evs[frontier]? = some placed →
      isTargetClear placed.event.toEvent →
      Triple (known frontier permanent) (applyTargetClear cfg cluster placed)
        (fun _ => known (frontier + 1) permanent) stopped) {frontier permanent}
    {seen rest : List Placed} (split : evs = seen ++ rest) (started : frontier ≤ seen.length)
    (noClear : NoClearIn evs frontier seen.length)
    (afterClear : ∀ place placed, evs[place]? = some placed → place + 1 = frontier →
      isTargetClear placed.event.toEvent) :
    Triple (known frontier permanent)
      (sendSegments cfg cluster targets evs fuel rest frontier permanent)
      (fun permanent => known evs.length permanent) stopped := by
  induction rest generalizing seen frontier permanent with
  | nil =>
    rw [append_nil] at split
    subst split
    refine onSegment started le_rfl noClear ?_
    rintro place placed found (before | rfl)
    · exact afterClear place placed found before
    · simp at found
  | cons placed rest ih =>
    have isPlaced : evs[seen.length]? = some placed := by simp [split]
    have isPlace := inPlace seen.length placed isPlaced
    have longer : evs = (seen ++ [placed]) ++ rest := by rw [split, append_assoc]; rfl
    unfold sendSegments
    by_cases isClear : isTargetClear placed.event.toEvent
    · rw [if_pos isClear, isPlace]
      refine (onSegment started (by simp [split]) noClear ?_).bind fun permanent => ?_
      · rintro place other found (before | rfl)
        · exact afterClear place other found before
        · cases isPlaced.symm.trans found
          exact isClear
      refine (onClear isPlaced isClear).bind fun _ => ih longer (by simp) ?_ ?_
      · intro place other found here below
        rw [length_append, length_singleton] at below
        omega
      · intro place other found before
        cases Nat.succ.inj before
        cases isPlaced.symm.trans found
        exact isClear
    · rw [if_neg isClear]
      refine ih longer (by simp; omega) ?_ afterClear
      intro place other found here below
      rw [length_append, length_singleton] at below
      by_cases same : place = seen.length
      · subst same
        cases isPlaced.symm.trans found
        simpa using isClear
      · exact noClear place other found here (by omega)

/-- How a slice that does not succeed leaves an invariant. -/
def Leaves (known : Nat → List FailedItem → World σ Time → Prop) (frontier stop : Nat)
    (permanent : List FailedItem) : Halt Error → World σ Time → Prop
  | .failed (.partialFailure _ _ _ items), world =>
    (∀ item ∈ items, item.offset < stop - frontier) ∧
      known stop (permanent ++ shift frontier items) world
  | .failed (.requestTooLarge actual max), world => known frontier permanent world ∧
      (stop = frontier + 1 → known stop (permanent ++ [⟨frontier, tooLargeText actual max⟩]) world)
  | _, _ => True

/-- An invariant of the frontier that one slice and one clear move forward. -/
structure Moves (cfg : Config Time) (cluster : Cluster σ Time)
    (targets : Option DeleteTargets) (evs : List Placed)
    (known : Nat → List FailedItem → World σ Time → Prop) : Prop where
  onSlice : ∀ fuel frontier stop attempt permanent, Part evs frontier stop attempt →
    frontier < stop → NoClear attempt →
    Triple (known frontier permanent) (sendSliceWithRetry cfg cluster targets fuel attempt)
      (fun _ => known stop permanent) (Leaves known frontier stop permanent)
  onClear : ∀ frontier placed permanent, evs[frontier]? = some placed →
    isTargetClear placed.event.toEvent = true →
    Triple (known frontier permanent) (applyTargetClear cfg cluster placed)
      (fun _ => known (frontier + 1) permanent) Aborted

variable {permanent : List FailedItem}

section

variable (moves : Moves cfg cluster targets evs known)

include moves

theorem Moves.ranges (fuel : Nat) {stop ranges} (queue : Queue frontier ranges stop)
    (noClear : NoClearIn evs frontier stop) :
    Triple (known frontier permanent)
      (sendRanges cfg cluster targets evs fuel ranges permanent)
      (fun permanent => known stop permanent) Aborted := by
  induction fuel generalizing frontier ranges permanent with
  | zero =>
    cases queue with
    | done => exact Triple.pure fun _ holds => holds
    | range below more => exact Triple.throw fun _ _ => trivial
  | succ fuel ih =>
    cases queue with
    | done => exact Triple.pure fun _ holds => holds
    | @range _ mid _ rest below more =>
      have notClearLater : NoClearIn evs mid stop :=
        fun place placed found here => noClear place placed found (by omega)
      intro world holds
      rw [sendRanges]
      cases sliced : slice evs frontier mid with
      | none => trivial
      | some attempt =>
        have part := slice_part sliced
        have quiet : NoClear attempt := by
          intro placed mem
          obtain ⟨pos, found, here, inMid⟩ := part.found mem
          exact noClear pos placed found here (lt_of_lt_of_le inMid more.le)
        have spec := moves.onSlice fuel frontier mid attempt permanent part below quiet world holds
        rw [exec_bind, exec_outcome]
        cases ran : exec (sendSliceWithRetry cfg cluster targets fuel attempt) world with
        | mk result later =>
          rw [ran] at spec
          match result, spec with
          | .ok _, moved => exact ih more notClearLater later moved
          | .error .running, _ | .error (.failed (.request _)), _
          | .error (.failed (.transientItems _ _)), _ | .error (.failed (.blockedItems _ _)), _ =>
            trivial
          | .error (.failed (.partialFailure _ _ _ items)), ⟨inRange, moved⟩ =>
            have all : (items.filter fun item => item.offset < mid - frontier) = items :=
              filter_eq_self.mpr fun item mem =>
                decide_eq_true (inRange item mem)
            simp only [all]
            exact ih more notClearLater later moved
          | .error (.failed (.requestTooLarge actual max)), ⟨kept, single⟩ =>
            by_cases several : 1 < mid - frontier
            · simp only [several, if_true]
              exact ih (.range (by omega) (.range (by omega) more)) noClear later kept
            · simp only [several, if_false]
              exact ih more notClearLater later (single (by omega))

theorem Moves.segment (fuel : Nat) (started : frontier ≤ stop)
    (noClear : NoClearIn evs frontier stop) :
    Triple (known frontier permanent)
      (sendSegment cfg cluster targets evs fuel frontier stop permanent)
      (fun permanent => known stop permanent) Aborted := by
  unfold sendSegment
  by_cases more : frontier < stop
  · rw [if_pos more]
    exact moves.ranges fuel (.range more (.done stop)) noClear
  · rw [if_neg more]
    obtain rfl : frontier = stop := by omega
    exact Triple.pure fun _ holds => holds

theorem Moves.segments (inPlace : InPlace evs) (fuel : Nat) :
    Triple (known 0 []) (sendSegments cfg cluster targets evs fuel evs 0 [])
      (fun permanent => known evs.length permanent) Aborted :=
  sendSegments_rule inPlace (fun started _ noClear _ => moves.segment fuel started noClear)
    (fun isPlaced isClear => moves.onClear _ _ _ isPlaced isClear) (nil_append _).symm
    (Nat.le_refl 0) (fun _ _ _ _ below => absurd below (Nat.not_lt_zero _)) nofun

end

/-- How a batch that was not written leaves an invariant. -/
def Rejected (known : Nat → List FailedItem → World σ Time → Prop) (batch : List BatchEvent) :
    Halt Error → World σ Time → Prop
  | .failed (.partialFailure size count _ items), world => size = batch.length ∧
      count = items.length ∧ items ≠ [] ∧
      ∃ permanent, items.Perm permanent ∧ known batch.length permanent world
  | _, _ => True

theorem Aborted.rejected (aborted : Aborted halt world) : Rejected known batch halt world := by
  match halt, aborted with
  | .running, _ => trivial
  | .failed (.request _), _ => trivial
  | .failed (.transientItems _ _), _ => trivial
  | .failed (.blockedItems _ _), _ => trivial
  | .failed (.requestTooLarge _ _), _ => trivial

/-- A write keeps an invariant that the resolved targets let slices and clears move forward. -/
theorem sendWithRetry_moves {before : World σ Time → Prop} {batch : List BatchEvent}
    (resolved : Triple before (resolveDeleteIndices cluster batch)
      (fun targets world => Moves cfg cluster targets (place batch) known ∧ known 0 [] world)
      Aborted) (fuel : Nat) :
    Triple before (sendWithRetry cfg cluster fuel batch)
      (fun _ world => batch = [] ∧ before world ∨ known batch.length [] world)
      (Rejected known batch) := by
  unfold sendWithRetry
  split
  · rename_i empty
    exact Triple.pure fun _ holds => .inl ⟨isEmpty_iff.mp empty, holds⟩
  · have start : Triple before (resolveDeleteIndices cluster batch)
        (fun targets world => Moves cfg cluster targets (place batch) known ∧ known 0 [] world)
        (Rejected known batch) :=
      resolved.weaken (fun _ holds => holds) (fun _ _ holds => holds) fun _ _ => Aborted.rejected
    refine start.bind fun targets => Triple.assuming fun moves => ?_
    have segments := moves.segments (inPlace_place batch) fuel
    rw [length_place] at segments
    have sent : Triple (known 0 [])
        (sendSegments cfg cluster targets (place batch) fuel (place batch) 0 [])
        (fun permanent => known batch.length permanent) (Rejected known batch) :=
      segments.weaken (fun _ holds => holds) (fun _ _ holds => holds) fun _ _ => Aborted.rejected
    refine sent.bind fun permanent => ?_
    have sorted := perm_insertionSort
      (fun item other : FailedItem => item.offset ≤ other.offset) permanent
    unfold settle
    split
    · rename_i empty
      rw [isEmpty_iff.mp empty, nil_perm] at sorted
      subst sorted
      exact Triple.pure fun _ holds => .inr holds
    · rename_i nonempty
      exact Triple.throw fun _ holds =>
        ⟨rfl, rfl, by simpa using nonempty, permanent, sorted, holds⟩

end

end Ventstream.OpenSearch
