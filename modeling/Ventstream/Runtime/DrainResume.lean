import Ventstream.OpenSearch.Reconcile

/-! # Drain and resume

After a drain the slot or cursor is gone, and with it the deletes that happen until a new
one exists. `run_cdc_loop` makes up for them with a reconciliation pass before it
bootstraps. The pass goes on to the next definition when one fails, and it lists the keys
of the source before the new slot exists. Where nothing fails and no listed row with a
document is deleted before the slot exists, no document outlives its row.
-/

namespace Ventstream.Runtime

open OpenSearch List Function
open Json (Value)

section

/-- The control plane's latest command. -/
structure AgentCommand where
  pause : Bool
  cursorInvalidated : Bool

/-- What the loop does about a command. -/
inductive Decision where
  | idle
  | drain
  | resume (drainFirst : Bool)
  | run
  deriving DecidableEq

def decideNext (cmd : AgentCommand) (alreadyDrainedLocally : Bool) : Decision :=
  if cmd.pause then
    if cmd.cursorInvalidated && !alreadyDrainedLocally then .drain else .idle
  else if alreadyDrainedLocally || cmd.cursorInvalidated then
    .resume (!alreadyDrainedLocally && cmd.cursorInvalidated)
  else .run

/-- A document, by the definition and the primary that it was written for. -/
structure Doc where
  definition : Definition
  primary : List String
  deriving DecidableEq

def Doc.id (doc : Doc) : String := doc.definition.docId doc.primary

/-- A change of a primary since the slot or cursor exists. -/
inductive Change where
  | upsert (relation : String) (primary : List String)
  | delete (relation : String) (primary : List String)
  deriving DecidableEq

def Change.row : Change → String × List String
  | upsert relation primary | delete relation primary => (relation, primary)

inductive BackendKind where
  | postgres
  | neo4j

/-- A source with what the loop reconciles for it, its joins or denormalize specs, and what it
    writes documents for: with neither joins nor specs those are the tables or labels themselves. -/
structure Backend where
  kind : BackendKind
  definitions : List Definition
  tracked : List Definition
  allowFullPurge : Bool
  fromStr : String → Option Value
  fromStr_strings : ∀ texts : List String,
    fromStr (Json.render (.array (texts.map .string))) = some (.array (texts.map .string))

inductive Phase where
  /-- At the top of the loop. -/
  | deciding
  /-- The loop has returned an error. -/
  | refused
  /-- The engine runs on without a drain. -/
  | running
  | reconciling (left : List Definition)
  /-- The keys of a definition are listed, its pass is next. -/
  | sweeping (definition : Definition) (validPks : List String) (left : List Definition)
  /-- Past the resume, with a bootstrap to come. -/
  | reconciled
  | bootstrapping
  | tailing

structure World where
  /-- The primaries of every table or label. -/
  live : String → List (List String)
  docs : List Doc
  /-- The changes since the slot exists that the tail has not applied. -/
  changes : List Change
  hasSlot : Bool
  alreadyDrainedLocally : Bool
  /-- The tables or labels whose keys the resume has listed. -/
  listed : List String
  phase : Phase

namespace World

def record (world : World) (change : Change) : List Change :=
  if world.hasSlot then world.changes ++ [change] else world.changes

/-- The slot or cursor is dropped. -/
def drain (world : World) : World := { world with hasSlot := false, changes := [] }

/-- A new row. -/
abbrev insert (world : World) (relation : String) (primary : List String) : World :=
  { world with
    live := update world.live relation (world.live relation ++ [primary])
    changes := world.record (.upsert relation primary) }

abbrev delete (world : World) (relation : String) (primary : List String) : World :=
  { world with
    live := update world.live relation ((world.live relation).filter (· ≠ primary))
    changes := world.record (.delete relation primary) }

/-- The documents after some bulk requests: what was confirmed is gone, and what was not may be. -/
def Removed (before : List Doc) (requests : List Request) (after : List Doc) : Prop :=
  after ⊆ before ∧ ∀ doc ∈ after, ∀ request ∈ requests, ∀ failed, request.answer = .ok failed →
    doc.id ∈ request.ids → doc.id ∈ failed.map (·.id)

def applyChange (tracked : List Definition) (docs : List Doc) : Change → List Doc
  | .upsert relation primary =>
    docs ++ (tracked.filter (·.relation = relation)).map fun defn => ⟨defn, primary⟩
  | .delete relation primary =>
    docs.filter fun doc => ∀ defn ∈ tracked, defn.relation = relation → defn.docId primary ≠ doc.id

end World

/-- What a run is spared. -/
structure Care where
  /-- No primary with a document is deleted between the listing of its table and the new slot. -/
  keepsRows : Prop
  /-- Every listing of keys succeeds. -/
  listsKeys : Prop
  /-- Nothing gets in the way of a pass. -/
  sweepsClean : Prop

def Care.full : Care := ⟨True, True, True⟩

variable (backend : Backend) (care : Care)

/-- What can happen next. -/
inductive Step : World → World → Prop
  | insert (world : World) (relation : String) (primary : List String)
      (isKey : ∀ defn ∈ backend.tracked, defn.relation = relation → defn.IsKey primary) :
      Step world { world with
        live := update world.live relation (world.live relation ++ [primary])
        changes := world.record (.upsert relation primary) }
  | update (world : World) (relation : String) (primary : List String)
      (isLive : primary ∈ world.live relation) :
      Step world { world with changes := world.record (.upsert relation primary) }
  | delete (world : World) (relation : String) (primary : List String)
      (outside : care.keepsRows → world.hasSlot = true ∨ relation ∉ world.listed ∨
        ∀ doc ∈ world.docs, doc.definition.relation = relation → doc.primary ≠ primary) :
      Step world { world with
        live := update world.live relation ((world.live relation).filter (· ≠ primary))
        changes := world.record (.delete relation primary) }
  | idle (world : World) (cmd : AgentCommand) (atTop : world.phase = .deciding)
      (decided : decideNext cmd world.alreadyDrainedLocally = .idle) : Step world world
  | run (world : World) (cmd : AgentCommand) (atTop : world.phase = .deciding)
      (decided : decideNext cmd world.alreadyDrainedLocally = .run) :
      Step world { world with phase := .running }
  | drain (world : World) (cmd : AgentCommand) (atTop : world.phase = .deciding)
      (decided : decideNext cmd world.alreadyDrainedLocally = .drain) :
      Step world { world.drain with alreadyDrainedLocally := true }
  | drainFails (world : World) (cmd : AgentCommand) (atTop : world.phase = .deciding)
      (decided : decideNext cmd world.alreadyDrainedLocally = .drain ∨
        decideNext cmd world.alreadyDrainedLocally = .resume true) :
      Step world { world with phase := .refused }
  | resume (world : World) (cmd : AgentCommand) (drainFirst : Bool)
      (atTop : world.phase = .deciding)
      (decided : decideNext cmd world.alreadyDrainedLocally = .resume drainFirst) :
      Step world { world.drain with listed := [], phase := .reconciling backend.definitions }
  | connectFails (world : World) (isPostgres : backend.kind = .postgres)
      (begins : world.phase = .reconciling backend.definitions)
      (some : backend.definitions ≠ []) : Step world { world with phase := .refused }
  | list (world : World) (defn : Definition) (left : List Definition)
      (next : world.phase = .reconciling (defn :: left)) :
      Step world { world with
        listed := defn.relation :: world.listed
        phase := .sweeping defn
          ((world.live defn.relation).filterMap defn.keyOf) left }
  | listFails (world : World) (defn : Definition) (left : List Definition)
      (next : world.phase = .reconciling (defn :: left)) (hindered : ¬ care.listsKeys) :
      Step world { world with phase := .reconciling left }
  | sweep (world : World) (defn : Definition) (validPks : List String)
      (left : List Definition) (answers : Answers) (outcome : Outcome) (after : List Doc)
      (next : world.phase = .sweeping defn validPks left)
      (ran : reconcileOrphans backend.fromStr backend.allowFullPurge defn.lead validPks
        defn.format answers = some outcome)
      (removed : World.Removed world.docs outcome.requests after)
      (clean : care.sweepsClean → Clean backend.fromStr backend.allowFullPurge defn.lead validPks
        defn.format answers
        ((world.docs.filter (·.definition = defn)).map (·.id))) :
      Step world { world with docs := after, phase := .reconciling left }
  | prepareBootstrap (world : World) (done : world.phase = .reconciling []) :
      Step world { world with alreadyDrainedLocally := false, phase := .reconciled }
  | createSlot (world : World) (next : world.phase = .reconciled) :
      Step world { world with hasSlot := true, changes := [], phase := .bootstrapping }
  | scan (world : World) (defn : Definition) (primary : List String)
      (next : world.phase = .bootstrapping) (isTracked : defn ∈ backend.tracked)
      (isLive : primary ∈ world.live defn.relation) :
      Step world { world with docs := world.docs ++ [⟨defn, primary⟩] }
  | finishBootstrap (world : World) (next : world.phase = .bootstrapping) :
      Step world { world with phase := .tailing }
  | apply (world : World) (change : Change) (rest : List Change)
      (next : world.phase = .tailing) (first : world.changes = change :: rest) :
      Step world { world with
        docs := World.applyChange backend.tracked world.docs change
        changes := rest }

/-- Rows and documents have the keys of their definitions. -/
structure WellFormed (world : World) : Prop where
  rows : ∀ defn ∈ backend.tracked, ∀ primary ∈ world.live defn.relation, defn.IsKey primary
  docs : ∀ doc ∈ world.docs, doc.definition ∈ backend.tracked ∧ doc.definition.IsKey doc.primary

/-- Every document has a primary that exists. -/
def NoOrphans (world : World) : Prop :=
  ∀ doc ∈ world.docs, doc.primary ∈ world.live doc.definition.relation

/-- The tail has applied every change since the slot exists. -/
def CaughtUp (world : World) : Prop := world.phase = .tailing ∧ world.changes = []

end

section

variable {backend : Backend}

/-- Before the slot exists: the definitions that are done have their keys listed and no orphan. -/
structure Swept (backend : Backend) (world : World) (left : List Definition) : Prop where
  wellFormed : WellFormed backend world
  noSlot : world.hasSlot = false
  listed : ∀ defn ∈ backend.definitions, defn ∉ left → defn.relation ∈ world.listed
  live : ∀ doc ∈ world.docs, doc.definition ∉ left → doc.primary ∈ world.live doc.definition.relation

def lastChange (changes : List Change) (relation : String) (primary : List String) :
    Option Change :=
  (changes.filter (·.row = (relation, primary))).getLast?

/-- Once the slot exists: a primary that is gone has a delete to come, or else no document and no
    change to come. -/
def Accounted (world : World) (defn : Definition) (primary : List String) : Prop :=
  primary ∈ world.live defn.relation ∨ lastChange world.changes defn.relation primary =
      some (.delete defn.relation primary) ∨
    (lastChange world.changes defn.relation primary = none ∧ ⟨defn, primary⟩ ∉ world.docs)

/-- While a definition is swept, a document whose key is in the list has its primary. -/
structure Sweeping (backend : Backend) (world : World) (defn : Definition)
    (validPks : List String) (left : List Definition) : Prop where
  swept : Swept backend world (defn :: left)
  isListed : defn.relation ∈ world.listed
  inList : ∀ doc ∈ world.docs, doc.definition = defn → ∀ pk ∈ validPks,
    defn.keyOf doc.primary = some pk → doc.primary ∈ world.live defn.relation

/-- Once the slot exists, every primary is accounted for. -/
structure Slotted (backend : Backend) (world : World) : Prop where
  hasSlot : world.hasSlot = true
  tracked : ∀ doc ∈ world.docs, doc.definition ∈ backend.tracked
  accounted : ∀ defn ∈ backend.tracked, ∀ primary, Accounted world defn primary

/-- What holds in the course of a careful resume. -/
structure Invariant (backend : Backend) (world : World) : Prop where
  deciding : world.phase = .deciding → WellFormed backend world
  reconciling : ∀ left, world.phase = .reconciling left → Swept backend world left
  sweeping : ∀ defn validPks left, world.phase = .sweeping defn validPks left →
    Sweeping backend world defn validPks left
  reconciled : world.phase = .reconciled → Swept backend world []
  slotted : world.phase = .bootstrapping ∨ world.phase = .tailing → Slotted backend world

variable {world : World} {relation : String} {primary : List String} {left : List Definition}

theorem mem_live_insert : row ∈ (world.insert relation primary).live other ↔
    row ∈ world.live other ∨ other = relation ∧ row = primary := by
  by_cases same : other = relation <;> simp [same]

theorem mem_live_delete : row ∈ (world.delete relation primary).live other ↔
    row ∈ world.live other ∧ (other = relation → row ≠ primary) := by
  by_cases same : other = relation <;> simp [same]

theorem lastChange_concat_of_ne (other : change.row ≠ (relation, primary)) :
    lastChange (changes ++ [change]) relation primary = lastChange changes relation primary := by
  simp [lastChange, filter_append, other]

theorem Slotted.recorded (slotted : Slotted backend world)
    (own : ∀ relation primary, change.row = (relation, primary) →
      primary ∈ live relation ∨ change = .delete relation primary)
    (kept : ∀ relation primary, change.row ≠ (relation, primary) →
      primary ∈ world.live relation → primary ∈ live relation) :
    Slotted backend { world with live := live, changes := world.record change } := by
  refine ⟨slotted.hasSlot, slotted.tracked, fun defn isTracked other => ?_⟩
  rw [Accounted, World.record, if_pos slotted.hasSlot]
  by_cases isOf : change.row = (defn.relation, other)
  · refine (own _ _ isOf).imp_right fun isDelete => .inl ?_
    simp [lastChange, filter_append, isDelete, Change.row]
  · rw [lastChange_concat_of_ne isOf]
    exact (slotted.accounted defn isTracked other).imp_left (kept _ _ isOf)

theorem Accounted.scan (accounted : ∀ defn ∈ backend.tracked, ∀ primary,
      Accounted world defn primary) (isLive : primary ∈ world.live scanned.relation) :
    ∀ defn ∈ backend.tracked, ∀ other, Accounted { world with
      docs := world.docs ++ [⟨scanned, primary⟩] } defn other := by
  intro defn isTracked other
  by_cases isOf : defn = scanned ∧ other = primary
  · obtain ⟨rfl, rfl⟩ := isOf
    exact .inl isLive
  · refine (accounted defn isTracked other).imp_right (Or.imp_right ?_)
    rintro ⟨noChange, noDoc⟩
    refine ⟨noChange, fun mem => ?_⟩
    rcases mem_append.mp mem with old | new
    · exact noDoc old
    · cases mem_singleton.mp new
      exact isOf ⟨rfl, rfl⟩

theorem not_mem_applyChange (notOf : change.row ≠ (defn.relation, primary))
    (noDoc : ⟨defn, primary⟩ ∉ docs) :
    ⟨defn, primary⟩ ∉ World.applyChange backend.tracked docs change := by
  cases change with
  | upsert relation changed =>
    intro mem
    rcases mem_append.mp mem with old | new
    · exact noDoc old
    · obtain ⟨_, isOf, same⟩ := mem_map.mp new
      cases same
      have isRelation := (mem_filter.mp isOf).2
      rw [decide_eq_true_eq] at isRelation
      exact notOf (by rw [isRelation]; rfl)
  | delete relation changed => exact fun mem => noDoc (mem_of_mem_filter mem)

theorem tracked_applyChange (tracked : ∀ doc ∈ docs, doc.definition ∈ backend.tracked)
    (mem : doc ∈ World.applyChange backend.tracked docs change) :
    doc.definition ∈ backend.tracked := by
  cases change with
  | upsert relation changed =>
    rcases mem_append.mp mem with old | new
    · exact tracked doc old
    · obtain ⟨_, isOf, rfl⟩ := mem_map.mp new
      exact mem_of_mem_filter isOf
  | delete relation changed => exact tracked doc (mem_of_mem_filter mem)

theorem Accounted.apply (accounted : ∀ defn ∈ backend.tracked, ∀ primary,
      Accounted world defn primary) (first : world.changes = change :: rest) :
    ∀ defn ∈ backend.tracked, ∀ other, Accounted { world with
      docs := World.applyChange backend.tracked world.docs change
      changes := rest } defn other := by
  intro defn isTracked other
  rcases accounted defn isTracked other with isLive | deletes | ⟨noChange, noDoc⟩
  · exact .inl isLive
  · rw [first, lastChange, filter_cons] at deletes
    split at deletes
    · cases isLast : lastChange rest defn.relation other with
      | some last =>
        unfold lastChange at isLast
        rw [getLast?_cons, isLast] at deletes
        exact .inr (.inl (isLast.trans deletes))
      | none =>
        have isChange : change = .delete defn.relation other := by
          unfold lastChange at isLast
          rw [getLast?_cons, isLast] at deletes
          exact Option.some.inj deletes
        refine .inr (.inr ⟨isLast, ?_⟩)
        subst isChange
        intro mem
        have kept := (mem_filter.mp mem).2
        rw [decide_eq_true_eq] at kept
        exact kept defn isTracked rfl rfl
    · exact .inr (.inl deletes)
  · rw [first, lastChange, filter_cons] at noChange
    split at noChange
    · simp at noChange
    · rename_i notOf
      rw [decide_eq_true_eq] at notOf
      exact .inr (.inr ⟨noChange, not_mem_applyChange notOf noDoc⟩)

section

variable (isKey : ∀ defn ∈ backend.tracked, defn.relation = relation → defn.IsKey primary)

include isKey

theorem WellFormed.insert (wellFormed : WellFormed backend world) :
    WellFormed backend (world.insert relation primary) where
  rows defn isTracked row isLive := by
    rcases mem_live_insert.mp isLive with old | ⟨same, rfl⟩
    · exact wellFormed.rows defn isTracked row old
    · exact isKey defn isTracked same
  docs := wellFormed.docs

theorem Swept.insert (swept : Swept backend world left) :
    Swept backend (world.insert relation primary) left where
  wellFormed := swept.wellFormed.insert isKey
  noSlot := swept.noSlot
  listed := swept.listed
  live doc mem isDone := mem_live_insert.mpr (.inl (swept.live doc mem isDone))

theorem Invariant.insert (inv : Invariant backend world) :
    Invariant backend (world.insert relation primary) where
  deciding isPhase := (inv.deciding isPhase).insert isKey
  reconciling left isPhase := (inv.reconciling left isPhase).insert isKey
  sweeping defn validPks left isPhase := by
    have sweeping := inv.sweeping defn validPks left isPhase
    exact ⟨sweeping.swept.insert isKey, sweeping.isListed, fun doc mem isOf pk isValid isKey =>
      mem_live_insert.mpr (.inl (sweeping.inList doc mem isOf pk isValid isKey))⟩
  reconciled isPhase := (inv.reconciled isPhase).insert isKey
  slotted isPhase := by
    refine (inv.slotted isPhase).recorded ?_ fun _ _ _ isLive =>
      mem_live_insert.mpr (.inl isLive)
    rintro _ _ ⟨⟩
    exact .inl (mem_live_insert.mpr (.inr ⟨rfl, rfl⟩))

end

variable (covered : ∀ defn ∈ backend.tracked, defn ∈ backend.definitions)

theorem Swept.update (swept : Swept backend world left) :
    Swept backend { world with changes := world.record (.upsert relation primary) } left :=
  ⟨⟨swept.wellFormed.rows, swept.wellFormed.docs⟩, swept.noSlot, swept.listed, swept.live⟩

theorem Invariant.update (inv : Invariant backend world) (isLive : primary ∈ world.live relation) :
    Invariant backend { world with changes := world.record (.upsert relation primary) } where
  deciding isPhase := ⟨(inv.deciding isPhase).rows, (inv.deciding isPhase).docs⟩
  reconciling left isPhase := (inv.reconciling left isPhase).update
  sweeping defn validPks left isPhase := by
    have sweeping := inv.sweeping defn validPks left isPhase
    exact ⟨sweeping.swept.update, sweeping.isListed, sweeping.inList⟩
  reconciled isPhase := (inv.reconciled isPhase).update
  slotted isPhase := by
    refine (inv.slotted isPhase).recorded ?_ fun _ _ _ => id
    rintro _ _ ⟨⟩
    exact .inl isLive

theorem WellFormed.delete (wellFormed : WellFormed backend world) :
    WellFormed backend (world.delete relation primary) where
  rows defn isTracked row isLive := wellFormed.rows defn isTracked row (mem_live_delete.mp isLive).1
  docs := wellFormed.docs

section

variable (outside : world.hasSlot = true ∨ relation ∉ world.listed ∨
    ∀ doc ∈ world.docs, doc.definition.relation = relation → doc.primary ≠ primary)

include outside

theorem kept_of_outside (noSlot : world.hasSlot = false) (mem : doc ∈ world.docs)
    (isListed : doc.definition.relation ∈ world.listed)
    (isLive : doc.primary ∈ world.live doc.definition.relation) :
    doc.primary ∈ (world.delete relation primary).live doc.definition.relation := by
  refine mem_live_delete.mpr ⟨isLive, fun isRelation => ?_⟩
  rcases outside with hasSlot | notListed | noDoc
  · cases noSlot.symm.trans hasSlot
  · exact absurd (isRelation ▸ isListed) notListed
  · exact noDoc doc mem isRelation

include covered

theorem Swept.delete (swept : Swept backend world left) :
    Swept backend (world.delete relation primary) left where
  wellFormed := swept.wellFormed.delete
  noSlot := swept.noSlot
  listed := swept.listed
  live doc mem isDone := by
    have isTracked := (swept.wellFormed.docs doc mem).1
    exact kept_of_outside outside swept.noSlot mem
      (swept.listed doc.definition (covered _ isTracked) isDone) (swept.live doc mem isDone)

theorem Invariant.delete (inv : Invariant backend world) :
    Invariant backend (world.delete relation primary) where
  deciding isPhase := (inv.deciding isPhase).delete
  reconciling left isPhase := (inv.reconciling left isPhase).delete covered outside
  sweeping defn validPks left isPhase := by
    have sweeping := inv.sweeping defn validPks left isPhase
    refine ⟨sweeping.swept.delete covered outside, sweeping.isListed, ?_⟩
    rintro doc mem rfl pk isValid isKey
    exact kept_of_outside outside sweeping.swept.noSlot mem sweeping.isListed
      (sweeping.inList doc mem rfl pk isValid isKey)
  reconciled isPhase := (inv.reconciled isPhase).delete covered outside
  slotted isPhase := by
    refine (inv.slotted isPhase).recorded ?_ fun _ _ notOf isLive =>
      mem_live_delete.mpr ⟨isLive, ?_⟩
    · rintro _ _ ⟨⟩
      exact .inr rfl
    · rintro rfl rfl
      exact notOf rfl

end

theorem live_of_listed (wellFormed : WellFormed backend world) {doc : Doc} (mem : doc ∈ world.docs)
    {pk} (isListed : pk ∈ (world.live doc.definition.relation).filterMap doc.definition.keyOf)
    (isKey : doc.definition.keyOf doc.primary = some pk) :
    doc.primary ∈ world.live doc.definition.relation := by
  obtain ⟨row, isLive, rowKey⟩ := mem_filterMap.mp isListed
  obtain ⟨isTracked, docKey⟩ := wellFormed.docs doc mem
  have same := keyOf_inj docKey (wellFormed.rows doc.definition isTracked row isLive)
    (isKey.trans rowKey.symm)
  rwa [same]

theorem Sweeping.sweep {after} (sweeping : Sweeping backend world defn validPks left)
    (ran : reconcileOrphans backend.fromStr backend.allowFullPurge defn.lead validPks
      defn.format answers = some outcome)
    (removed : World.Removed world.docs outcome.requests after)
    (clean : Clean backend.fromStr backend.allowFullPurge defn.lead validPks
      defn.format answers ((world.docs.filter (·.definition = defn)).map (·.id))) :
    Swept backend { world with docs := after, phase := .reconciling left } left where
  wellFormed := ⟨sweeping.swept.wellFormed.rows, fun doc mem =>
    sweeping.swept.wellFormed.docs doc (removed.1 mem)⟩
  noSlot := sweeping.swept.noSlot
  listed other isDefinition isDone := by
    by_cases same : other = defn
    · exact same ▸ sweeping.isListed
    · exact sweeping.swept.listed other isDefinition (by simp [same, isDone])
  live doc mem isDone := by
    have before := removed.1 mem
    by_cases same : doc.definition = defn
    · subst same
      have docKey := (sweeping.swept.wellFormed.docs doc before).2
      obtain ⟨pk, isKey⟩ := Option.isSome_iff_exists.mp (keyOf_isSome docKey)
      by_cases isValid : pk ∈ validPks
      · exact sweeping.inList doc before rfl pk isValid isKey
      · have isWanted : doc.id ∈ (world.docs.filter (·.definition = doc.definition)).map (·.id) :=
          mem_map_of_mem (mem_filter.mpr ⟨before, by simp⟩)
        have extracted := (extractPkFromDocId_docId backend.fromStr_strings docKey).trans isKey
        obtain ⟨request, isRequest, inRequest, answered⟩ :=
          clean.deletes_orphan ran isWanted extracted isValid
        cases removed.2 doc mem request isRequest [] answered inRequest
    · exact sweeping.swept.live doc before (by simp [same, isDone])

theorem Swept.list {defn} (swept : Swept backend world (defn :: left)) :
    Sweeping backend { world with
      listed := defn.relation :: world.listed
      phase := .sweeping defn
        ((world.live defn.relation).filterMap defn.keyOf) left }
      defn ((world.live defn.relation).filterMap defn.keyOf) left where
  swept := ⟨⟨swept.wellFormed.rows, swept.wellFormed.docs⟩, swept.noSlot,
    fun other isDefinition notLeft =>
      mem_cons_of_mem _ (swept.listed other isDefinition notLeft), swept.live⟩
  isListed := mem_cons_self
  inList := by
    rintro doc mem rfl pk isListed isKey
    exact live_of_listed swept.wellFormed mem isListed isKey

theorem Swept.createSlot (swept : Swept backend world []) :
    Slotted backend { world with hasSlot := true, changes := [], phase := .bootstrapping } where
  hasSlot := rfl
  tracked doc member := (swept.wellFormed.docs doc member).1
  accounted defn _ primary := by
    by_cases hasDoc : ⟨defn, primary⟩ ∈ world.docs
    · exact .inl (swept.live _ hasDoc not_mem_nil)
    · exact .inr (.inr ⟨rfl, hasDoc⟩)

theorem invariant_of_deciding (atTop : world.phase = .deciding)
    (wellFormed : WellFormed backend world) : Invariant backend world where
  deciding _ := wellFormed
  reconciling _ isPhase := by cases atTop.symm.trans isPhase
  sweeping _ _ _ isPhase := by cases atTop.symm.trans isPhase
  reconciled isPhase := by cases atTop.symm.trans isPhase
  slotted isPhase := by
    rcases isPhase with isPhase | isPhase <;> cases atTop.symm.trans isPhase

theorem invariant_of_slotted (isPhase : world.phase = .bootstrapping ∨ world.phase = .tailing)
    (slotted : Slotted backend world) : Invariant backend world := by
  refine ⟨?_, ?_, ?_, ?_, fun _ => slotted⟩
  all_goals
    intros
    rename_i other
    rcases isPhase with isPhase | isPhase <;> cases isPhase.symm.trans other

include covered

theorem swept_all (wellFormed : WellFormed backend world) :
    Swept backend { world.drain with
      listed := []
      phase := .reconciling backend.definitions } backend.definitions where
  wellFormed := ⟨wellFormed.rows, wellFormed.docs⟩
  noSlot := rfl
  listed _ isDefinition notLeft := absurd isDefinition notLeft
  live doc mem notLeft := absurd (covered _ (wellFormed.docs doc mem).1) notLeft

theorem Invariant.step {later} (step : Step backend .full world later)
    (inv : Invariant backend world) : Invariant backend later := by
  cases step with
  | insert relation primary isKey => exact inv.insert isKey
  | update relation primary isLive => exact inv.update isLive
  | delete relation primary outside => exact inv.delete covered (outside trivial)
  | idle cmd atTop decided => exact inv
  | run cmd atTop decided | drainFails cmd atTop decided
  | connectFails isPostgres begins some => exact ⟨nofun, nofun, nofun, nofun, nofun⟩
  | drain cmd atTop decided =>
    have wellFormed := inv.deciding atTop
    exact invariant_of_deciding atTop ⟨wellFormed.rows, wellFormed.docs⟩
  | resume cmd drainFirst atTop decided =>
    refine ⟨nofun, ?_, nofun, nofun, nofun⟩
    rintro _ ⟨⟩
    exact swept_all covered (inv.deciding atTop)
  | list defn left next =>
    refine ⟨nofun, nofun, ?_, nofun, nofun⟩
    rintro _ _ _ ⟨⟩
    exact (inv.reconciling _ next).list
  | listFails defn left next hindered => exact absurd trivial hindered
  | sweep defn validPks left answers outcome after next ran removed clean =>
    refine ⟨nofun, ?_, nofun, nofun, nofun⟩
    rintro _ ⟨⟩
    exact (inv.sweeping _ _ _ next).sweep ran removed (clean trivial)
  | prepareBootstrap done =>
    have swept := inv.reconciling [] done
    exact ⟨nofun, nofun, nofun, fun _ => ⟨⟨swept.wellFormed.rows, swept.wellFormed.docs⟩,
      swept.noSlot, swept.listed, swept.live⟩, nofun⟩
  | createSlot next =>
    exact ⟨nofun, nofun, nofun, nofun, fun _ => (inv.reconciled next).createSlot⟩
  | scan defn primary next isTracked isLive =>
    have slotted := inv.slotted (.inl next)
    exact invariant_of_slotted (.inl next) ⟨slotted.hasSlot, forall_mem_append.mpr
      ⟨slotted.tracked, forall_mem_singleton.mpr isTracked⟩,
        Accounted.scan slotted.accounted isLive⟩
  | finishBootstrap next =>
    have slotted := inv.slotted (.inl next)
    exact ⟨nofun, nofun, nofun, nofun,
      fun _ => ⟨slotted.hasSlot, slotted.tracked, slotted.accounted⟩⟩
  | apply change rest next first =>
    have slotted := inv.slotted (.inr next)
    exact invariant_of_slotted (.inr next) ⟨slotted.hasSlot,
      fun doc => tracked_applyChange slotted.tracked, Accounted.apply slotted.accounted first⟩

theorem Invariant.run (run : Relation.ReflTransGen (Step backend .full) start world)
    (inv : Invariant backend start) : Invariant backend world := by
  induction run with
  | refl => exact inv
  | tail _ step before => exact before.step covered step

end

theorem Slotted.noOrphans (slotted : Slotted backend world)
    (settled : world.changes = []) : NoOrphans world := by
  intro doc mem
  rcases slotted.accounted doc.definition (slotted.tracked doc mem) doc.primary with
    isLive | deletes | ⟨-, noDoc⟩
  · exact isLive
  · rw [settled] at deletes
    cases deletes
  · exact absurd mem noDoc

/-- Drain and resume leave no orphan where every table or label with documents is reconciled and
    the resume is careful. -/
theorem resume_leaves_no_orphan (backend : Backend)
    (covered : ∀ definition ∈ backend.tracked, definition ∈ backend.definitions) :
    ∀ start world : World, start.phase = .deciding → WellFormed backend start →
      Relation.ReflTransGen (Step backend .full) start world → CaughtUp world →
      NoOrphans world := by
  intro start world atTop wellFormed run caughtUp
  have inv := (invariant_of_deciding atTop wellFormed).run covered run
  exact (inv.slotted (.inr caughtUp.1)).noOrphans caughtUp.2

def orders : Definition := ⟨"public.orders", "public.orders", .jsonArray, 1, by decide, nofun⟩

def ordersBackend : Backend where
  kind := .postgres
  definitions := [orders]
  tracked := [orders]
  allowFullPurge := false
  fromStr text := (Json.stringArray text).map fun texts => .array (texts.map .string)
  fromStr_strings := Json.stringArray_map_render

def drainedOrders : World where
  live := update (fun _ => []) "public.orders" [["1"], ["2"]]
  docs := [⟨orders, ["1"]⟩, ⟨orders, ["2"]⟩]
  changes := []
  hasSlot := false
  alreadyDrainedLocally := true
  listed := []
  phase := .deciding

def bothListed : Answers where
  client := none
  pages := [.ok ⟨some "scroll", [orders.docId ["1"], orders.docId ["2"]]⟩, .ok ⟨some "scroll", []⟩]
  deletes := []

theorem sweep_nothing {backend : Backend} {care : Care} {world : World} {defn : Definition}
    {validPks left answers} (next : world.phase = .sweeping defn validPks left)
    (sendsNone : (reconcileOrphans backend.fromStr backend.allowFullPurge defn.lead validPks
      defn.format answers).map (·.requests.length) = some 0)
    (clean : care.sweepsClean → Clean backend.fromStr backend.allowFullPurge defn.lead
      validPks defn.format answers
      ((world.docs.filter (·.definition = defn)).map (·.id))) :
    Step backend care world { world with phase := .reconciling left } := by
  obtain ⟨outcome, ran, isEmpty⟩ := Option.map_eq_some_iff.mp sendsNone
  have none : outcome.requests = [] := length_eq_zero_iff.mp isEmpty
  refine .sweep world defn validPks left answers outcome world.docs next ran ⟨?_, ?_⟩ clean
  · exact List.Subset.refl _
  · rw [none]
    nofun

theorem wellFormed_drainedOrders : WellFormed ordersBackend drainedOrders where
  rows := by
    intro defn isTracked primary isLive
    obtain rfl := mem_singleton.mp isTracked
    rcases mem_pair.mp isLive with rfl | rfl <;> exact ⟨rfl, nofun⟩
  docs := by
    intro doc mem
    rcases mem_pair.mp mem with rfl | rfl <;>
      exact ⟨mem_singleton_self _, rfl, nofun⟩

theorem sweep_orders (next : world.phase = .sweeping orders ["1", "2"] [])
    (sameDocs : world.docs = drainedOrders.docs) :
    Step ordersBackend care world { world with phase := .reconciling [] } := by
  refine @sweep_nothing ordersBackend care world orders ["1", "2"] [] bothListed next
    (by decide +kernel) fun _ => ⟨rfl, ⟨_, rfl, ?_, .inr ⟨nofun, by decide +kernel⟩⟩, nofun⟩
  rw [sameDocs]
  exact List.Subset.refl _

/-- An order is deleted once the new slot exists. -/
theorem resume_leaves_no_orphan_orders : ∃ world,
    Relation.ReflTransGen (Step ordersBackend .full) drainedOrders world ∧
    world.docs = [⟨orders, ["2"]⟩] ∧ NoOrphans world := by
  have run : ∃ world, Relation.ReflTransGen (Step ordersBackend .full) drainedOrders world ∧
      CaughtUp world ∧ world.docs = [⟨orders, ["2"]⟩] :=
    ⟨_, .head (.resume drainedOrders ⟨false, true⟩ false rfl rfl) <|
      .head (.list _ orders [] rfl) <|
      .head (sweep_orders rfl rfl) <|
      .head (.prepareBootstrap _ rfl) <|
      .head (.createSlot _ rfl) <|
      .head (.delete _ "public.orders" ["1"] fun _ => .inl rfl) <|
      .head (.finishBootstrap _ rfl) <|
      .single (.apply _ (.delete "public.orders" ["1"]) [] rfl rfl), ⟨rfl, rfl⟩,
      by decide +kernel⟩
  obtain ⟨world, reaches, caughtUp, isDocs⟩ := run
  exact ⟨world, reaches, isDocs, resume_leaves_no_orphan ordersBackend (fun _ => id) drainedOrders
    world rfl wellFormed_drainedOrders reaches caughtUp⟩

/-- A resume with this care may end with an order's document while the order is gone. -/
def Outlives (backend : Backend) (care : Care) : Prop :=
  ∃ world, Relation.ReflTransGen (Step backend care) drainedOrders world ∧ CaughtUp world ∧
    ⟨orders, ["1"]⟩ ∈ world.docs ∧ ["1"] ∉ world.live "public.orders"

/-- An order is deleted between the listing and the new slot. -/
theorem outlives_window : Outlives ordersBackend ⟨False, True, True⟩ :=
  ⟨_, .head (.resume drainedOrders ⟨false, true⟩ false rfl rfl) <| .head (.list _ orders [] rfl) <|
    .head (sweep_orders rfl rfl) <|
    .head (.delete _ "public.orders" ["1"] nofun) <|
    .head (.prepareBootstrap _ rfl) <|
    .head (.createSlot _ rfl) <|
    .single (.finishBootstrap _ rfl), ⟨rfl, rfl⟩, by decide +kernel, by decide +kernel⟩

/-- The keys cannot be listed. -/
theorem outlives_listing : Outlives ordersBackend ⟨True, False, True⟩ :=
  ⟨_, .head (.delete drainedOrders "public.orders" ["1"] fun _ => .inr (.inl nofun)) <|
    .head (.resume _ ⟨false, true⟩ false rfl rfl) <|
    .head (.listFails _ orders [] rfl not_false) <|
    .head (.prepareBootstrap _ rfl) <|
    .head (.createSlot _ rfl) <|
    .single (.finishBootstrap _ rfl), ⟨rfl, rfl⟩, by decide +kernel, by decide +kernel⟩

/-- All orders are deleted, and the guard refuses the pass. -/
theorem outlives_guard : Outlives ordersBackend ⟨True, True, False⟩ :=
  ⟨_, .head (.delete drainedOrders "public.orders" ["1"] fun _ => .inr (.inl nofun)) <|
    .head (.delete _ "public.orders" ["2"] fun _ => .inr (.inl nofun)) <|
    .head (.resume _ ⟨false, true⟩ false rfl rfl) <|
    .head (.list _ orders [] rfl) <|
    .head (@sweep_nothing ordersBackend ⟨True, True, False⟩ _ orders [] [] bothListed rfl
      (by decide +kernel) nofun) <|
    .head (.prepareBootstrap _ rfl) <|
    .head (.createSlot _ rfl) <|
    .single (.finishBootstrap _ rfl), ⟨rfl, rfl⟩, by decide +kernel, by decide +kernel⟩

/-- Without joins there is nothing to reconcile. -/
theorem outlives_raw : Outlives { ordersBackend with definitions := [] } .full :=
  ⟨_, .head (.delete drainedOrders "public.orders" ["1"] fun _ => .inr (.inl nofun)) <|
    .head (.resume _ ⟨false, true⟩ false rfl rfl) <|
    .head (.prepareBootstrap _ rfl) <|
    .head (.createSlot _ rfl) <|
    .single (.finishBootstrap _ rfl), ⟨rfl, rfl⟩, by decide +kernel, by decide +kernel⟩

/-- Documents outlive their rows as soon as any one of the conditions is missing. -/
theorem documents_outlive_rows : WellFormed ordersBackend drainedOrders ∧
    Outlives ordersBackend ⟨False, True, True⟩ ∧ Outlives ordersBackend ⟨True, False, True⟩ ∧
    Outlives ordersBackend ⟨True, True, False⟩ ∧
    Outlives { ordersBackend with definitions := [] } .full :=
  ⟨wellFormed_drainedOrders, outlives_window, outlives_listing, outlives_guard, outlives_raw⟩

end Ventstream.Runtime
