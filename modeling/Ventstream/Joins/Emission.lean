import Ventstream.Joins.RelatedRows

/-! # What the engine sends

The bus only ever gets more events. Re-emitting a set of primaries sends a
document for each of them that is stored under the definition's table, page by
page, and a route that finishes has re-emitted every primary in the buckets of
the keys it touched.
-/

namespace Ventstream.Joins

open Core Library Library.Program
open Std (ExtTreeMap ExtTreeSet)
open Json (Value Fields)
open List hiding after

/-- The primary tables are the same, and what was sent is still there. -/
structure Composed (before after : Engine) : Prop where
  same : SamePrimaries before after
  grown : ∃ fresh, after.sent = before.sent ++ fresh

instance : Std.Refl Composed := ⟨fun _ => ⟨refl_of SamePrimaries _, [], by simp⟩⟩

instance : IsTrans Engine Composed where
  trans first second third early late := by
    obtain ⟨fresh, sent⟩ := early.grown
    obtain ⟨more, grown⟩ := late.grown
    exact ⟨trans_of SamePrimaries early.same late.same, fresh ++ more, by simp [sent, grown]⟩

theorem exec_send (env : Env) (ev : Event) (engine : Engine) : exec (send env ev) engine =
      match env.refusal engine.sent.length with
      | some detail => (.error (.internal ("publish: " ++ detail)), engine)
      | none => (.ok ⟨⟩, { engine with sent := engine.sent ++ [ev] }) := rfl

/-- What survives composing steps survives composing, however it ends. -/
theorem composing_of_composed
    (kept : ∀ before after, Composed before after → inv before → inv after) :
    Composing inv fun _ => inv where
  send env ev engine holds := by
    rw [exec_send]
    cases env.refusal engine.sent.length with
    | some detail => exact holds
    | none => exact kept engine _ ⟨⟨rfl, rfl⟩, [ev], rfl⟩ holds
  backfill rel key rows engine holds :=
    kept engine _ ⟨samePrimaries_mutateAll (backfillRows_foreign rel key rows), [], by simp⟩ holds
  fetcher _ _ _ holds := holds
  embeddable := Or.inr fun _ _ holds => holds

theorem composing_composed (start : Engine) : Composing (Composed start) fun _ => Composed start :=
  composing_of_composed fun _ _ step composed => trans_of Composed composed step

theorem forall₂_exists {α β : Type} {relation : α → β → Prop} {left : List α} {right : List β}
    (related : List.Forall₂ relation left right) {item : α} (mem : item ∈ left) :
    ∃ other ∈ right, relation item other := by
  obtain ⟨pos, found⟩ := mem_iff_getElem?.mp mem
  obtain ⟨other, isOther, holds⟩ := forall₂_getElem? related found
  exact ⟨other, mem_of_getElem? isOther, holds⟩

theorem exec_send_ok (ran : exec (send env ev) before = (.ok ⟨⟩, after)) :
    after = { before with sent := before.sent ++ [ev] } := by
  rw [exec_send] at ran
  cases refused : env.refusal before.sent.length with
  | some detail => simp [refused] at ran
  | none =>
    rw [refused] at ran
    cases ran
    rfl

variable {before after : Engine}

theorem exec_each_send_ok {α : Type} {build : α → Event} {items : List α}
    (ran : exec (each (fun item => send env (build item)) items) before = (.ok ⟨⟩, after)) :
    after = { before with sent := before.sent ++ items.map build } := by
  induction items generalizing before with
  | nil =>
    cases ran
    simp
  | cons item rest ih =>
    obtain ⟨_, mid, first, ran⟩ := exec_bind_inv ran
    have sent := exec_send_ok first
    have later := ih ran
    simp [later, sent]

theorem SamePrimaries.primariesFor (same : SamePrimaries before after) :
    after.tables.primariesFor = before.tables.primariesFor := by
  funext relatedId key
  simp only [Tables.primariesFor, same.2]

theorem SamePrimaries.stored (same : SamePrimaries before after)
    (row : RowKey) : after.tables.primaryRows[row]? = before.tables.primaryRows[row]? := by
  rw [same.1]

variable {env : Env} {defn : JoinDefinition}

section

variable {triggering : Event}

theorem reEmitPrimaryChunk_composed (affected : List RowKey) :
    Ensures Composed (reEmitPrimaryChunk env defn triggering affected) :=
  Ensures.of_triple fun start =>
    (composing_composed start).reEmitPrimaryChunk env defn triggering affected

variable {row : RowKey} {before after engine : Engine} {stored : PrimaryRowState}

/-- Among what was sent is a document for the row. -/
def ReEmits (env : Env) (triggering : Event) (defn : JoinDefinition) (row : RowKey)
    (before after : Engine) : Prop :=
  ∃ fresh document, after.sent = before.sent ++ fresh ∧
    buildReEmit env triggering defn row document ∈ fresh

theorem ReEmits.between (emits : ReEmits env triggering defn row early late)
    (toEarly : ∃ fresh, early.sent = before.sent ++ fresh)
    (fromLate : ∃ fresh, after.sent = late.sent ++ fresh) :
    ReEmits env triggering defn row before after := by
  obtain ⟨fresh, document, grown, sent⟩ := emits
  obtain ⟨earlier, grownEarly⟩ := toEarly
  obtain ⟨later, grownLate⟩ := fromLate
  refine ⟨earlier ++ fresh ++ later, document, by simp [grownLate, grown, grownEarly], ?_⟩
  simp [sent]

theorem reEmitPrimaryChunkSize_pos : 0 < reEmitPrimaryChunkSize := by decide

theorem exec_reEmitPrimariesForKeys (relatedId : String) (key : PkValue)
    (secondary : Option PkValue) (engine : Engine) :
    exec (reEmitPrimariesForKeys env defn relatedId key secondary triggering) engine =
      exec (each (reEmitPrimaryChunk env defn triggering)
        (pages (engine.tables.primariesForKeysChunk relatedId key secondary
          reEmitPrimaryChunkSize) (linkCount engine) none)) engine := by
  unfold reEmitPrimariesForKeys
  rw [exec_bind, exec_read]
  apply exec_walk
  intro chunk engine
  have same := (@reEmitPrimaryChunk_composed env defn triggering chunk engine).same
  simp only [Tables.primariesForKeysChunk, same.primariesFor]

theorem exec_reEmitPrimariesForRelation (relatedId : String) (engine : Engine) :
    exec (reEmitPrimariesForRelation env defn relatedId triggering) engine =
      exec (each (reEmitPrimaryChunk env defn triggering)
        (pages (engine.tables.primariesForRelationChunk relatedId reEmitPrimaryChunkSize)
          (linkCount engine) none)) engine := by
  unfold reEmitPrimariesForRelation
  rw [exec_bind, exec_read]
  apply exec_walk
  intro chunk engine
  have same := (@reEmitPrimaryChunk_composed env defn triggering chunk engine).same
  simp only [Tables.primariesForRelationChunk, same.primariesFor, Tables.reverseKeys, same.2]

section

variable (ofTable : row.table = defn.primary.table)
  (isStored : before.tables.primaryRows[row]? = some stored)

include ofTable isStored

theorem reEmitPrimaryChunk_sends
    (ran : exec (reEmitPrimaryChunk env defn triggering affected) before = (.ok ⟨⟩, after))
    (mem : row ∈ affected) : ReEmits env triggering defn row before after := by
  have materialized : (⟨row, stored.raw, stored.fkValues⟩ : Materialized) ∈
      materialize defn before.tables affected := by
    apply mem_filterMap.mpr
    refine ⟨row, by simpa using ⟨mem, ofTable⟩, ?_⟩
    simp [Tables.getPrimary, isStored]
  unfold reEmitPrimaryChunk at ran
  rw [exec_bind, exec_read] at ran
  simp only at ran
  rw [if_neg (by simpa using ne_nil_of_mem materialized)] at ran
  obtain ⟨documents, mid, embedded, ran⟩ := exec_bind_inv ran
  obtain ⟨sameRows, composed⟩ := ((composing_composed before).embedBatch env defn
    defn.related (.inr fun _ _ composed => composed)).of_ok
    (refl_of Composed before) embedded
  obtain ⟨fresh, grown⟩ := composed.grown
  obtain ⟨primary, isDocument, sameRow⟩ := forall₂_exists sameRows materialized
  have sent := exec_each_send_ok ran
  refine ⟨fresh ++ documents.map fun primary =>
    buildReEmit env triggering defn primary.row primary.document,
    primary.document, by simp [sent, grown], ?_⟩
  apply mem_append_right
  exact mem_map.mpr ⟨primary, isDocument, by rw [sameRow.1]⟩

theorem each_chunk_sends (ran : exec (each (reEmitPrimaryChunk env defn triggering) chunks) before =
      (.ok ⟨⟩, after)) (isChunk : chunk ∈ chunks) (mem : row ∈ chunk) :
    ReEmits env triggering defn row before after := by
  have eachComposed : ∀ chunks,
      Ensures Composed (each (reEmitPrimaryChunk env defn triggering) chunks) :=
    fun chunks => Ensures.each fun chunk _ => reEmitPrimaryChunk_composed chunk
  obtain ⟨front, back, rfl⟩ := append_of_mem isChunk
  obtain ⟨early, late, ranFront, ranChunk, ranBack⟩ := exec_each_split ran
  have toEarly := (eachComposed front).ran ranFront
  have fromLate := (eachComposed back).ran ranBack
  have stillStored : early.tables.primaryRows[row]? = some stored := by
    rw [toEarly.same.1]
    exact isStored
  exact (reEmitPrimaryChunk_sends ofTable stillStored ranChunk mem).between toEarly.grown
    fromLate.grown

theorem reEmitPrimariesForKeys_sends
    (ran : exec (reEmitPrimariesForKeys env defn relatedId key secondary triggering) before =
      (.ok ⟨⟩, after)) (linked : row ∈ before.tables.primariesFor relatedId key ∨
      ∃ other ∈ secondary, row ∈ before.tables.primariesFor relatedId other) :
    ReEmits env triggering defn row before after := by
  rw [exec_reEmitPrimariesForKeys] at ran
  obtain ⟨chunk, isChunk, mem⟩ :=
    ((Tables.visitsOnce_keys reEmitPrimaryChunkSize_pos).mem_pages (Nat.lt_succ_self _)).mpr linked
  exact each_chunk_sends ofTable isStored ran isChunk mem

theorem reEmitPrimariesForRelation_sends
    (ran : exec (reEmitPrimariesForRelation env defn relatedId triggering) before =
      (.ok ⟨⟩, after)) (linked : row ∈ before.tables.primariesFor relatedId key) :
    ReEmits env triggering defn row before after := by
  rw [exec_reEmitPrimariesForRelation] at ran
  obtain ⟨chunk, isChunk, mem⟩ :=
    ((Tables.visitsOnce_relation reEmitPrimaryChunkSize_pos).mem_pages (Nat.lt_succ_self _)).mpr
      ⟨_, linked⟩
  exact each_chunk_sends ofTable isStored ran isChunk mem

end

theorem reEmitPrimariesForKeys_idle
    (unjoined : ∀ row, (row ∈ engine.tables.primariesFor relatedId key ∨
      ∃ other ∈ secondary, row ∈ engine.tables.primariesFor relatedId other) →
      row.table = defn.primary.table → engine.tables.primaryRows[row]? = none) :
    exec (reEmitPrimariesForKeys env defn relatedId key secondary triggering) engine =
      (.ok ⟨⟩, engine) := by
  rw [exec_reEmitPrimariesForKeys]
  apply exec_each_idle
  intro chunk isChunk
  have nothing : materialize defn engine.tables chunk = [] := by
    apply filterMap_eq_nil_iff.mpr
    intro row mem
    simp only [mem_filter, decide_eq_true_eq] at mem
    have linked := ((Tables.visitsOnce_keys reEmitPrimaryChunkSize_pos).mem_pages
      (Nat.lt_succ_self _)).mp ⟨chunk, isChunk, mem.1⟩
    simp [Tables.getPrimary, unjoined row linked mem.2]
  unfold reEmitPrimaryChunk
  rw [exec_bind, exec_read]
  simp [nothing]

end

variable {op : Op} {ev : Event}

section

variable {rel : RelatedDefinition}

theorem handleRelated_composed : Ensures Composed (handleRelated env defn rel op ev) := by
  refine Ensures.of_triple fun start => (composing_composed start).handleRelated_of_same ?_ ?_
  · exact fun engine state same composed => trans_of Composed composed ⟨same, [], by simp⟩
  · exact fun _ _ _ _ composed => composed

/-- The join keys that a related event touches: those of the row before and after it. -/
def Touches (env : Env) (tables : Tables) (rel : RelatedDefinition) (op : Op) (ev : Event)
    (key : PkValue) : Prop :=
  op = .truncate ∨ ∃ change, decodeRelated env rel op ev = .ok change ∧
    (listedUnder tables rel op change = key ∨
      op ≠ .insert ∧ (tables.getForeign rel.table change.pk).bind
        (extractPk · rel.joinOn.target.columns) = some key)

theorem touches_movedFrom (decoded : decodeRelated env rel op ev = .ok change)
    (moved : movedFrom tables rel op change = some old) : Touches env tables rel op ev old := by
  refine .inr ⟨change, decoded, .inr ?_⟩
  cases change with
  | store pk row lookup =>
    have prior := (Option.filter_eq_some_iff.mp moved).1
    by_cases isUpdate : op = .update
    · rw [priorOf, if_pos isUpdate] at prior
      exact ⟨by simp [isUpdate], prior⟩
    · simp [priorOf, isUpdate] at prior
  | remove pk lookup => cases moved

/-- The key of the row before the event is re-emitted as the one it has moved from, unless it
    is the row's key still. -/
theorem Touches.cases (touches : Touches env tables rel op ev key) (notTruncate : op ≠ .truncate)
    (decoded : decodeRelated env rel op ev = .ok change) :
    listedUnder tables rel op change = key ∨ movedFrom tables rel op change = some key := by
  obtain ⟨other, isOther, touched⟩ := touches.resolve_left notTruncate
  rw [decoded] at isOther
  cases isOther
  by_cases current : listedUnder tables rel op change = key
  · exact .inl current
  · obtain ⟨notInsert, prior⟩ := touched.resolve_left current
    cases change with
    | store pk row lookup =>
      have isUpdate := decodeRelated_store_update decoded notInsert
      have before : (priorOf op (tables.getForeign rel.table pk)).bind
          (extractPk · rel.joinOn.target.columns) = some key := by
        simpa [priorOf, isUpdate] using prior
      refine .inr (Option.filter_eq_some_iff.mpr ⟨before, ?_⟩)
      simpa using Ne.symm current
    | remove pk lookup =>
      refine absurd ?_ current
      have before : (tables.getForeign rel.table pk).bind
          (extractPk · rel.joinOn.target.columns) = some key := prior
      simp [listedUnder, before]

theorem handleRelated_sends (ran : exec (handleRelated env defn rel op ev) before = (.ok ⟨⟩, after))
    (touches : Touches env before.tables rel op ev key)
    (linked : row ∈ before.tables.primariesFor rel.id key)
    (ofTable : row.table = defn.primary.table)
    (isStored : before.tables.primaryRows[row]? = some stored) :
    ReEmits env ev defn row before after := by
  by_cases isTruncate : op = .truncate
  · unfold handleRelated at ran
    rw [if_pos isTruncate, exec_onState_bind] at ran
    have same : SamePrimaries before { before with state := (purgeRelated rel before.state).2 } :=
      samePrimaries_mutateAll (purgeRelatedTable_foreign _ rel.id rel.table)
    rw [← same.primariesFor] at linked
    have sends := reEmitPrimariesForRelation_sends ofTable ((same.stored row).trans isStored) ran
      linked
    exact sends
  · obtain ⟨change, decoded, _⟩ := touches.resolve_left isTruncate
    have same : SamePrimaries before (changedEngine rel op change before) :=
      samePrimaries_changedEngine change before
    rw [exec_handleRelated isTruncate decoded] at ran
    rw [← same.primariesFor] at linked
    have sends := reEmitPrimariesForKeys_sends ofTable ((same.stored row).trans isStored) ran
      ((touches.cases isTruncate decoded).imp (fun current => by rwa [current])
        fun moved => ⟨key, moved, linked⟩)
    exact sends

end

section

/-- What was sent is still there. -/
def Grown (before after : Engine) : Prop := before.sent <+: after.sent

instance : Std.Refl Grown := ⟨fun _ => prefix_rfl⟩

instance : IsTrans Engine Grown := ⟨fun _ _ _ first second => List.IsPrefix.trans first second⟩

variable {table : String}

theorem Composed.toGrown (composed : Composed before after) : Grown before after := by
  obtain ⟨fresh, grown⟩ := composed.grown
  exact ⟨fresh, grown.symm⟩

theorem handleRoute_grown (route : Route) : Ensures Grown (handleRoute env table op ev route) := by
  cases route with
  | related defn rel => exact handleRelated_composed.mono fun _ _ => Composed.toGrown
  | primary defn =>
    refine Ensures.of_triple fun start => ?_
    have composing : Composing (Grown start) fun _ => Grown start :=
      composing_of_composed fun _ _ step grown => trans_of Grown grown step.toGrown
    refine composing.handlePrimary ⟨?_, ?_, ?_, ?_⟩
    · exact fun _ _ _ _ grown => grown
    · exact fun _ _ _ _ grown => grown
    · exact fun _ _ _ grown => grown
    · exact fun _ _ grown => grown

theorem handlePrimary_sends (notTruncate : op ≠ .truncate)
    (ran : exec (handlePrimary env defn table op ev) before = (.ok ⟨⟩, after)) :
    after.sent ≠ before.sent := by
  have later : ∀ (sent : Event) (mid : Engine), exec (send env sent) mid = (.ok ⟨⟩, after) →
      Grown before mid → after.sent ≠ before.sent := by
    intro sent mid ranSend grown same
    rw [exec_send_ok ranSend] at same
    have bound := grown.length_le
    rw [← same] at bound
    simp at bound
  unfold handlePrimary at ran
  rw [if_neg notTruncate] at ran
  obtain ⟨change, start, decoded, ran⟩ := exec_bind_inv ran
  obtain rfl : before = start := congrArg Prod.snd decoded
  cases change with
  | store pk fields =>
    rw [exec_onState_bind] at ran
    obtain ⟨composed, mid, ranCompose, ranSend⟩ := exec_bind_inv ran
    have grown := (composing_composed _).composePrimary env defn
      (mergeOver_isObject _ _) _ |>.of_ok (refl_of Composed _) ranCompose
    exact later _ mid ranSend grown.toGrown
  | remove pk =>
    exact later _ _ ran prefix_rfl

end

end Ventstream.Joins
