import Ventstream.Library.Strands
import Ventstream.SurrealDb.Execution
import Ventstream.SurrealDb.Requests

/-! # What the executions of a batch leave of documents

The runs on a record are all in the lane of its table, and where a lane is executed at once at
most one of its runs is on the record. So the lanes, the failures and the limits make no
difference to documents: they end as the operations leave them one after another.
-/

namespace Ventstream.SurrealDb

open Core Library Library.Runs Library.Strands List
open Json (Value Fields)

variable {db later : Database} {key : RecordId}

def documents (db : Database) (key : RecordId) : Option Fields :=
  match db key with
  | some (.document fields) => some fields
  | _ => none

/-- What a command puts in the place of the document of a record. -/
def Command.effect (key : RecordId) : Command → Option (Option Fields)
  | .upsert target document => if target = key then some (some document) else none
  | .delete target => if target = key then some none else none
  | .deleteTable table => if table = key.1 then some none else none
  | .relate .. => none

theorem documents_remove (gone : RecordId → Bool) :
    documents (remove gone db) key = if gone key then none else documents db key := by
  cases isRecord : db key with
  | none => simp [documents, remove, isRecord]
  | some record =>
    cases record with
    | document fields =>
      simp only [documents, remove, isRecord, Option.filter_some, Record.ends, any_nil,
        Bool.or_false]
      cases gone key <;> rfl
    | edge a b =>
      have noDocument : ∀ stays : Bool, (match (if stays then some (Record.edge a b) else
          none) with | some (.document fields) => some fields | _ => none) = none := by
        intro stays
        cases stays <;> rfl
      simp only [documents, remove, isRecord, Option.filter_some]
      rw [noDocument, ite_self]

theorem documents_exec {cmd : Command} (runs : cmd.exec db = some later) :
    documents later key = (cmd.effect key).getD (documents db key) := by
  cases cmd with
  | upsert target document =>
    cases runs
    unfold documents Command.effect
    by_cases same : target = key
    · subst same
      simp
    · simp [same, Function.update_of_ne (Ne.symm same)]
  | delete target =>
    cases runs
    rw [documents_remove, Command.effect]
    by_cases same : target = key
    · simp [same]
    · simp [same, Ne.symm same]
  | deleteTable table =>
    cases runs
    rw [documents_remove, Command.effect]
    by_cases same : table = key.1
    · simp [same]
    · simp [same, Ne.symm same]
  | relate target a b =>
    simp only [Command.exec] at runs
    split at runs
    · cases runs
    · rename_i isFree
      cases runs
      unfold documents Command.effect
      by_cases same : target = key
      · subst same
        rw [Option.not_isSome_iff_eq_none] at isFree
        simp [isFree]
      · simp [Function.update_of_ne (Ne.symm same)]

theorem documents_commit {transaction : Transaction}
    (commits : transaction.commit db = some later) :
    documents later key = putAll (Command.effect key) (documents db key) transaction := by
  induction transaction generalizing db with
  | nil =>
    cases commits
    rfl
  | cons cmd rest ih =>
    unfold Transaction.commit at commits ih
    obtain ⟨between, first, further⟩ := Option.bind_eq_some_iff.mp commits
    rw [ih further, documents_exec first]
    rfl

theorem documents_attempt (transaction : Transaction) :
    documents (transaction.attempt db) key = documents db key ∨
      documents (transaction.attempt db) key =
        putAll (Command.effect key) (documents db key) transaction := by
  unfold Transaction.attempt
  cases commits : transaction.commit db with
  | none => exact .inl rfl
  | some later => exact .inr (documents_commit commits)

variable {sink : Sink} {run : Run Call Operation}

/-- A record that is not in the table of an edge. -/
def IsDocumentKey (cfg : Config) (key : RecordId) : Prop :=
  ∀ spec ∈ cfg.graphEdges, cfg.edgeTable spec ≠ key.1

/-- What an operation puts in the place of the document of a record. -/
def operationEffect (key : RecordId) (operation : Placed Call Operation) : Option (Option Fields) :=
  (operation.kind.command operation.item).effect key

def runEffect (key : RecordId) (run : Run Call Operation) : Option (Option Fields) :=
  overall (operationEffect key) run.placed

theorem effect_command_of_table {call : Call} (other : call.table ≠ key.1)
    (operation : Operation) : (call.command operation).effect key = none := by
  have apart : ∀ rid, ¬ (call.table, rid) = key := by
    rintro rid rfl
    exact other rfl
  cases operation <;> simp [Call.command, Command.effect, other, apart]

theorem runEffect_of_table (other : run.kind.table ≠ key.1) : runEffect key run = none := by
  refine overall_eq_none fun operation mem => ?_
  obtain ⟨entry, -, rfl⟩ := mem_map.mp mem
  exact effect_command_of_table other entry.2

theorem putAll_first (cell : Option Fields) :
    putAll (Command.effect key) cell (run.items.map fun entry => run.kind.command entry.2) =
      put (runEffect key) cell run := by
  rw [put, runEffect, overall_getD, Run.placed, putAll, putAll, foldl_map, foldl_map]
  rfl

theorem idle_relates : Idle (Command.effect key)
    (run.items.filterMap fun entry => run.kind.relate entry.2) := by
  intro cmd mem
  obtain ⟨entry, -, isRelate⟩ := mem_filterMap.mp mem
  unfold Call.relate at isRelate
  split at isRelate
  · split at isRelate
    · cases isRelate
      rfl
    · cases isRelate
  · cases isRelate

theorem documents_perform (performs : perform db run = some later) :
    documents later key = put (runEffect key) (documents db key) run := by
  unfold perform transactions at performs
  rw [← putAll_first]
  dsimp only at performs
  split at performs
  · obtain ⟨between, first, performs⟩ := Option.bind_eq_some_iff.mp performs
    rw [foldlM_cons] at performs
    obtain ⟨last, second, isLast⟩ := Option.bind_eq_some_iff.mp performs
    cases isLast
    rw [documents_commit second, putAll_idle idle_relates, documents_commit first]
  · rw [foldlM_cons] at performs
    obtain ⟨last, first, isLast⟩ := Option.bind_eq_some_iff.mp performs
    cases isLast
    exact documents_commit first

theorem documents_failed {taken : List Transaction} (isTaken : taken.Sublist (transactions run)) :
    documents (taken.foldl Transaction.attempt db) key = documents db key ∨
      documents (taken.foldl Transaction.attempt db) key =
        put (runEffect key) (documents db key) run := by
  have related : ∀ db : Database, documents
      (Transaction.attempt db (run.items.filterMap fun entry => run.kind.relate entry.2)) key =
        documents db key := by
    intro db
    rcases @documents_attempt db key _ with same | same
    · exact same
    · rw [same, putAll_idle idle_relates]
  have first : ∀ db : Database, documents (Transaction.attempt db
        (run.items.map fun entry => run.kind.command entry.2)) key = documents db key ∨
      documents (Transaction.attempt db (run.items.map fun entry => run.kind.command entry.2)) key =
          put (runEffect key) (documents db key) run := by
    intro db
    rw [← putAll_first]
    exact documents_attempt _
  unfold transactions at isTaken
  split at isTaken
  · cases isTaken with
    | cons _ isTaken =>
      rcases sublist_singleton.mp isTaken with rfl | rfl
      · exact .inl rfl
      · exact .inl (related db)
    | cons_cons _ isTaken =>
      rcases sublist_singleton.mp isTaken with rfl | rfl
      · exact first db
      · rw [foldl_cons, foldl_cons, foldl_nil, related]
        exact first db
  · rcases sublist_singleton.mp isTaken with rfl | rfl
    · exact .inl rfl
    · exact first db

section

variable {runs : List (Run Call Operation)}

theorem Step.advance {exec later : Exec} (step : Step exec later) : Advance (runEffect key)
    (exec.strands, documents exec.db key) (later.strands, documents later.db key) := by
  cases step with
  | answered front back run rest db later performs =>
    rw [documents_perform performs]
    exact .done front run rest back _
  | failed front back run rest db taken isTaken =>
    dsimp only
    rcases @documents_failed db key run _ isTaken with same | same
    · rw [same]
      exact .lost _
    · rw [same]
      exact .again front run rest back _

/-- Runs of upserts hold upserts. -/
def Sorted (runs : List (Run Call Operation)) : Prop :=
  ∀ run ∈ runs, run.kind.kind = .upsert → ∀ entry ∈ run.items, ∃ rid document,
    entry.2 = .upsert rid document

theorem sorted_translateBatch (sink : Sink) (evs : List SinkEvent) :
    Sorted (translateBatch sink.toConfig evs).runs := by
  intro run isRun isUpsert entry isEntry
  have isPlaced : (⟨run.kind, entry.1, entry.2⟩ : Placed Call Operation) ∈
      placed (translateBatch sink.toConfig evs).runs :=
    mem_flatMap.mpr ⟨run, isRun, mem_map.mpr ⟨entry, isEntry, rfl⟩⟩
  rw [placed_translateBatch] at isPlaced
  rcases mem_append.mp isPlaced with isDocument | isEdge
  · obtain ⟨ev, -, isAt⟩ := mem_flatMap.mp isDocument
    unfold documentsAt at isAt
    split at isAt
    · rename_i request _
      obtain ⟨operation, isOperation, isPlace⟩ := mem_map.mp isAt
      obtain ⟨sameCall, sameItem⟩ : operation.1 = run.kind ∧ operation.2 = entry.2 :=
        ⟨congrArg Placed.kind isPlace, congrArg Placed.item isPlace⟩
      rw [← sameCall] at isUpsert
      rw [← sameItem]
      cases request with
      | truncate | delete =>
        obtain rfl := mem_singleton.mp isOperation
        cases isUpsert
      | upsert table oldRid rid document =>
        rcases mem_append.mp isOperation with isOld | isNew
        · obtain ⟨old, -, rfl⟩ := Option.map_eq_some_iff.mp (Option.mem_toList.mp isOld)
          cases isUpsert
        · obtain rfl := mem_singleton.mp isNew
          exact ⟨rid, document, rfl⟩
    · cases isAt
  · obtain ⟨spec, -, isEdge⟩ := mem_flatMap.mp isEdge
    obtain ⟨op, -, isPlace⟩ := mem_map.mp isEdge
    have isKind : (edgeOperation sink.toConfig spec op.2).1.kind = .upsert := by
      rw [← isUpsert]
      exact congrArg (fun operation : Placed Call Operation => operation.kind.kind) isPlace
    cases isOp : op.2 with
    | truncate | delete =>
      rw [isOp] at isKind
      cases isKind
    | apply =>
      rw [isOp] at isKind
      simp only [edgeOperation, edgeCall, endTables] at isKind
      split at isKind <;> cases isKind

theorem mem_upsertedIds (fits : ∀ entry ∈ run.items, ∃ rid document, entry.2 = .upsert rid document)
    (touches : runEffect key run ≠ none) : Json.render key.2 ∈ upsertedIds run := by
  by_contra notThere
  refine touches (overall_eq_none fun operation mem => ?_)
  obtain ⟨entry, isEntry, rfl⟩ := mem_map.mp mem
  obtain ⟨rid, document, isItem⟩ := fits entry isEntry
  have other : ¬ (run.kind.table, rid) = key := by
    rintro rfl
    exact notThere (mem_filterMap.mpr ⟨entry, isEntry, by rw [isItem]⟩)
  simp [operationEffect, isItem, Call.command, Command.effect, other]

theorem solo_strandsOf (sorted : Sorted runs) (isLane : lane.2 ⊆ runs) :
    Solo (runEffect key) (strandsOf lane) := by
  unfold strandsOf
  split
  · rename_i isConcurrent
    obtain ⟨-, disjoint⟩ := (Bool.and_eq_true _ _).mp isConcurrent
    obtain ⟨allUpserts, distinct⟩ := (Bool.and_eq_true _ _).mp disjoint
    have apart := (nodup_flatMap.mp (of_decide_eq_true distinct)).2
    refine pairwise_map.mpr (apart.imp_of_mem fun {first second} isFirst isSecond away => ?_)
    have written : ∀ run ∈ lane.2, runEffect key run ≠ none →
        Json.render key.2 ∈ upsertedIds run := by
      intro run mem
      refine mem_upsertedIds (sorted run (isLane mem) ?_)
      exact eq_of_beq (all_eq_true.mp allUpserts run mem)
    by_cases leaves : runEffect key first = none
    · exact .inl fun run mem => mem_singleton.mp mem ▸ leaves
    · refine .inr fun run mem => ?_
      obtain rfl := mem_singleton.mp mem
      by_contra touches
      exact away (written first isFirst leaves) (written run isSecond touches)
  · exact pairwise_singleton _ _

section

variable (known : Known sink runs) (isKey : IsDocumentKey sink.toConfig key)
include known isKey

theorem laneKey_of_runEffect (mem : run ∈ runs) (touches : runEffect key run ≠ none) :
    run.kind.laneKey = key.1 := by
  have isTable := by_contra fun other => touches (@runEffect_of_table key run other)
  rcases known run mem with ⟨noLane, -⟩ | ⟨spec, isSpec, op, isCall⟩
  · rw [Call.laneKey, noLane]
    exact isTable
  · have isEdge : run.kind.table = sink.edgeTable spec := by
      rw [isCall]
      cases op <;> rfl
    exact absurd (isEdge.symm.trans isTable) (isKey spec isSpec)

theorem idle_lane {lane : Lane} (holds : lane.2 = runs.filter fun run => run.kind.laneKey = lane.1)
    (other : lane.1 ≠ key.1) : Idle (runEffect key) lane.2 := by
  intro run mem
  rw [holds] at mem
  obtain ⟨isRun, isLane⟩ := mem_filter.mp mem
  by_contra touches
  exact other ((of_decide_eq_true isLane).symm.trans
    (laneKey_of_runEffect known isKey isRun touches))

theorem solo_strands (sorted : Sorted runs) : Solo (runEffect key) (strands runs) := by
  have spread := spread_lanesOf runs
  refine pairwise_flatMap.mpr ⟨fun lane mem => ?_, ?_⟩
  · refine solo_strandsOf sorted ?_
    rw [spread.holds lane mem]
    exact filter_subset_self _
  · refine (pairwise_map.mp spread.distinct).imp_of_mem
      fun {first second} isFirst isSecond apart => ?_
    have spared : ∀ lane ∈ lanesOf runs, lane.1 ≠ key.1 → ∀ strand ∈ strandsOf lane,
        Idle (runEffect key) strand := by
      intro lane mem other strand isStrand run isRun
      refine idle_lane known isKey (spread.holds lane mem) other run ?_
      rw [← flatten_strandsOf]
      exact mem_flatten.mpr ⟨strand, isStrand, isRun⟩
    intro strand isStrand rest isRest
    by_cases other : first.1 = key.1
    · exact .inr (spared second isSecond (fun same => apart (other.trans same.symm)) rest isRest)
    · exact .inl (spared first isFirst other strand isStrand)

theorem putAll_strands (cell : Option Fields) : putAll (runEffect key) cell (strands runs).flatten =
      putAll (runEffect key) cell runs := by
  have spread := spread_lanesOf runs
  have lanes : (strands runs).flatten = (lanesOf runs).flatMap (·.2) := by
    rw [strands, flatMap_def, flatten_flatten, map_map, ← flatMap_def]
    exact flatMap_congr fun lane _ => flatten_strandsOf lane
  have inLane : ∀ run ∈ runs, runEffect key run ≠ none →
      decide (run.kind.laneKey = key.1) = true := fun run mem touches =>
    decide_eq_true (laneKey_of_runEffect known isKey mem touches)
  have others : ∀ some ⊆ lanesOf runs, (∀ lane ∈ some, lane.1 ≠ key.1) →
      ∀ strand ∈ some.map (·.2), Idle (runEffect key) strand := by
    intro some areLanes apart strand isStrand
    obtain ⟨lane, isLane, rfl⟩ := mem_map.mp isStrand
    exact idle_lane known isKey (spread.holds lane (areLanes isLane)) (apart lane isLane)
  rw [lanes, flatMap_def]
  by_cases isThere : ∃ lane ∈ lanesOf runs, lane.1 = key.1
  · obtain ⟨lane, isLane, isTable⟩ := isThere
    obtain ⟨front, back, isSplit⟩ := append_of_mem isLane
    have distinct := spread.distinct
    rw [isSplit, map_append, map_cons] at distinct
    have isFirst : lane.1 ∉ front.map (·.1) := fun mem =>
      (nodup_append.mp distinct).2.2 _ mem _ mem_cons_self rfl
    have isLast : lane.1 ∉ back.map (·.1) := (nodup_cons.mp (nodup_append.mp distinct).2.1).1
    have holds := spread.holds lane isLane
    rw [isTable] at isFirst isLast holds
    rw [isSplit, map_append, map_cons, putAll_flatten, holds, putAll_filter inLane]
    · refine others front (isSplit ▸ subset_append_left _ _) fun other mem same => ?_
      exact isFirst (mem_map.mpr ⟨other, mem, same⟩)
    · refine others back ?_ fun other mem same => ?_
      · rw [isSplit]
        exact fun other mem => mem_append_right _ (mem_cons_of_mem _ mem)
      · exact isLast (mem_map.mpr ⟨other, mem, same⟩)
  · have apart : ∀ lane ∈ lanesOf runs, lane.1 ≠ key.1 := fun lane mem same =>
      isThere ⟨lane, mem, same⟩
    rw [putAll_idle (idle_flatten (others _ (List.Subset.refl _) apart)), putAll_idle]
    intro run mem
    by_contra touches
    obtain ⟨lane, isLane, isKeyed⟩ := mem_map.mp (spread.covers run mem)
    exact apart lane isLane (isKeyed.trans (laneKey_of_runEffect known isKey mem touches))

end

theorem putAll_placed (runs : List (Run Call Operation)) (cell : Option Fields) :
    putAll (runEffect key) cell runs = putAll (operationEffect key) cell (placed runs) := by
  induction runs generalizing cell with
  | nil => rfl
  | cons run rest ih =>
    rw [putAll_cons, placed_cons, putAll_append, ih, put, runEffect, overall_getD]

theorem idle_edges (isKey : IsDocumentKey sink.toConfig key) (evs : List SinkEvent) :
    Idle (operationEffect key)
      (sink.graphEdges.flatMap fun spec => edgesOf sink.toConfig spec evs) := by
  intro operation mem
  obtain ⟨spec, isSpec, isEdge⟩ := mem_flatMap.mp mem
  obtain ⟨op, -, rfl⟩ := mem_map.mp isEdge
  refine effect_command_of_table ?_ _
  have isTable : (edgeOperation sink.toConfig spec op.2).1.table = sink.edgeTable spec := by
    cases op.2 <;> rfl
  rw [place, isTable]
  exact isKey spec isSpec

theorem documents_writes (isKey : IsDocumentKey sink.toConfig key)
    (writes : Writes sink.toConfig evs db later) :
    documents later key = putAll (operationEffect key) (documents db key)
      (evs.zipIdx.flatMap (documentsAt sink.toConfig)) := by
  obtain ⟨exec, ⟨-, executes⟩, finished, rfl⟩ := writes
  have known := known_translateBatch sink evs
  have advances := executes.lift (fun exec : Exec => (exec.strands, documents exec.db key))
    fun _ _ step => Step.advance step
  have settled : documents exec.db key = putAll (runEffect key) (documents db key)
      (strands (translateBatch sink.toConfig evs).runs).flatten :=
    settles (solo_strands known isKey (sorted_translateBatch sink evs)) advances finished
  rw [settled, putAll_strands known isKey, putAll_placed, placed_translateBatch, putAll_append,
    putAll_idle (idle_edges isKey evs)]

end

end Ventstream.SurrealDb
