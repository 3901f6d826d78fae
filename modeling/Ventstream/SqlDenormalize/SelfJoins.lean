import Ventstream.SqlDenormalize.Convergence

/-! # Relations that join the primary table to itself

A delete of the primary table notes the key of the deleted row and nothing else. The relations
are not looked at, also not one over the same table, whose documents embedded the row. They are
written if another event of the batch asks for them.
-/

namespace Ventstream.SqlDenormalize

open List
open Core (Event)
open Joins (JoinDefinition RelatedDefinition)

variable {V : Type} [LinearOrder V] {catalog : Catalog V} {defn : JoinDefinition}
  {settings : Settings} {see : Query → Database} {row : Row} {id : String} {ev : Event}
  {batch : List Event} {outputs : List Output} {fuel : Nat}

section

variable (catalog defn see)

/-- A deleted child without its parent's key, by the fields that embed it. -/
def orphan (parsed : Parsed) (rel : RelatedDefinition) : List (List String × Key) :=
  if relationOf rel.table = parsed.relation ∧ parsed.op = .delete ∧
      extractCols parsed.row rel.joinOn.target.columns = none then
    match reverseLookupFields defn rel with
    | none => []
    | some (fields, columns) => (extractCols parsed.row columns).toList.map (fields, ·)
  else []

def orphans (parsed : Parsed) : List (List String × Key) :=
  if relationOf defn.primary.table = parsed.relation then []
  else defn.related.flatMap (orphan defn parsed)

/-- The batch asks for the document of a row: it truncates a table, an event has the row's key,
    before or after it, or a join key by which the row is found, or the sink finds the row by
    deleted children that came without their parent's key. -/
def Asked (settings : Settings) (batch : List Parsed) (row : Row) : Prop :=
  truncates batch defn.primary.table ∨ (defn.related.any fun rel => truncates batch rel.table) ∨
    ∃ key, hasKey catalog defn key row ∧
      ((∃ parsed ∈ batch, ∃ hint, Tells defn parsed hint ∧ hint.Reaches catalog defn see key) ∨
      ∃ fields ∈ (batch.flatMap (orphans defn)).map (·.1), key ∈ settings.reverseLookup fields
        (childrenOf (batch.flatMap (orphans defn)) fields))

end

section

variable {parsed : Parsed} {gathered : Gathered}

theorem lookups_foldl {α : Type} {take : Gathered → α → Gathered} {adds}
    (step : ∀ gathered item, (take gathered item).lookups = gathered.lookups ++ adds item)
    (items : List α) (gathered : Gathered) :
    (items.foldl take gathered).lookups = gathered.lookups ++ items.flatMap adds := by
  induction items generalizing gathered with
  | nil => simp
  | cons item rest ih => simp [ih, step]

theorem lookups_noteJoinKey {rel : RelatedDefinition} {index : Nat} (key : Key) :
    (noteJoinKey defn rel index gathered key).lookups = gathered.lookups := by
  unfold noteJoinKey
  split <;> rfl

theorem lookups_noteRelated (gathered : Gathered) (numbered : RelatedDefinition × Nat) :
    (noteRelated defn parsed gathered numbered).lookups =
      gathered.lookups ++ orphan defn parsed numbered.1 := by
  have kept : ∀ keys : List Key, (keys.foldl (noteJoinKey defn numbered.1 numbered.2)
      gathered).lookups = gathered.lookups := by
    intro keys
    have nothing := @lookups_foldl Key (noteJoinKey defn numbered.1 numbered.2) (fun _ => [])
      (fun gathered key => by simp [lookups_noteJoinKey]) keys gathered
    rwa [flatMap_eq_nil_iff.mpr (fun _ _ => rfl), append_nil] at nothing
  unfold noteRelated orphan
  dsimp only
  by_cases named : relationOf numbered.1.table = parsed.relation
  · rw [if_neg (not_not.mpr named)]
    cases extractCols parsed.row numbered.1.joinOn.target.columns with
    | some key => simp only [kept, reduceCtorEq, and_false, if_false, append_nil]
    | none =>
      unfold noteLookup
      by_cases isDelete : parsed.op = .delete
      · simp only [named, isDelete, and_self, if_true]
        cases reverseLookupFields defn numbered.1 with
        | none => simp
        | some lookup =>
          obtain ⟨fields, columns⟩ := lookup
          dsimp only
          cases extractCols parsed.row columns <;> simp
      · simp only [isDelete, kept, false_and, and_false, if_false, append_nil]
  · simp [named]

theorem lookups_noteEvent (gathered : Gathered) (parsed : Parsed) :
    (noteEvent defn gathered parsed).lookups = gathered.lookups ++ orphans defn parsed := by
  unfold noteEvent orphans
  by_cases named : relationOf defn.primary.table = parsed.relation
  · by_cases isDelete : parsed.op = .delete
    · cases extractCols parsed.row (pkColumns defn) <;> simp [named, isDelete]
    · have nothing : ∀ rel, orphan defn parsed rel = [] := by simp [orphan, isDelete]
      have early : (notePrimary defn gathered parsed).lookups = gathered.lookups := by
        unfold notePrimary
        split <;> rfl
      simp [named, isDelete, lookups_foldl lookups_noteRelated, nothing, early]
  · have unnumbered := @flatMap_map _ _ _ Prod.fst (orphan defn parsed) defn.related.zipIdx
    rw [zipIdx_map_fst] at unnumbered
    simp [named, lookups_foldl lookups_noteRelated, unnumbered]

theorem lookups_gather (batch : List Parsed) :
    (gather defn batch).lookups = batch.flatMap (orphans defn) := by
  rw [gather, lookups_foldl lookups_noteEvent, nil_append]

end

theorem settles_iff_asked {batch : List Parsed} (keyed : ∀ query, Keyed catalog defn (see query))
    (positive : 0 < settings.chunkSize)
    (ran : batchOutputs catalog defn settings see fuel batch = some outputs)
    (remains : Remains catalog defn see id) (isId : idOf catalog defn row = some id) :
    Settles defn id outputs ↔ Asked catalog defn see settings batch row := by
  rw [batch_settles_iff keyed positive ran remains isId, Asked]
  refine or_congr_right (or_congr_right (exists_congr fun key => ?_))
  rw [and_comm, mem_affectedKeys, lookups_gather]
  refine and_congr_right fun _ => or_congr_left ?_
  simp only [has_gather]
  constructor
  · rintro ⟨hint, ⟨parsed, mem, tells⟩, reaches⟩
    exact ⟨parsed, mem, hint, tells, reaches⟩
  · rintro ⟨parsed, mem, hint, tells, reaches⟩
    exact ⟨hint, ⟨parsed, mem, tells⟩, reaches⟩

/-- The document of a row shows another row through a relation. -/
def Embeds (catalog : Catalog V) (database : Database) (rel : RelatedDefinition)
    (row other : Row) : Prop :=
  match rel.cardinality with
  | .one => (matching catalog database rel row).head? = some other
  | .many => other ∈ matching catalog database rel row

/-- A row that stays, and whose document has shown the deleted row through a self join. -/
structure Showed (catalog : Catalog V) (defn : JoinDefinition) (see : Query → Database)
    (before : Database) (row other : Row) (id : String) : Prop where
  there : other ∈ primaryRows defn before
  embeds : ∃ rel ∈ defn.related, rel.table = defn.primary.table ∧
    Embeds catalog before rel other row
  isId : idOf catalog defn other = some id
  remains : Remains catalog defn see id

/-- Of a deleted row of a self-joined table only its own key is noted. The remaining documents
    that embedded the row are all written if and only if the batch asks for each of them
    otherwise. -/
theorem self_join_fresh {before : Database} {deleted : Key}
    (isNamed : relationOf defn.primary.table = (qualified defn.primary.table).2)
    (positive : 0 < settings.chunkSize) (keyed : ∀ query, Keyed catalog defn (see query))
    (describes : Describes (.delete (qualified defn.primary.table) row) ev)
    (isKey : keyOf defn row = some deleted) (member : ev ∈ batch)
    (ran : batchOutputs catalog defn settings see fuel (batch.map parse) = some outputs) :
    (∀ gathered, noteEvent defn gathered (parse ev) =
      { gathered with deletes := gathered.deletes.insert deleted }) ∧
    deleted ∈ (gather defn (batch.map parse)).deletes ∧
    ((∀ other id, Showed catalog defn see before row other id → Settles defn id outputs) ↔
      ∀ other id, Showed catalog defn see before row other id →
        Asked catalog defn see settings (batch.map parse) other) := by
  refine ⟨noteEvent_delete describes isNamed isKey,
    mem_deletes_of_primary describes isNamed isKey member, ?_⟩
  refine forall_congr' fun other => forall_congr' fun id => forall_congr' fun showed => ?_
  exact settles_iff_asked keyed positive ran showed.remains showed.isId

def selfJoined : JoinDefinition := ordersWithLines "public.orders"

/-- The line is an order that belongs to another one, in the same table. -/
def linkedOrders : Database := fun table =>
  if table = ("public", "orders") then [orderRow, lineRow] else []

/-- What the batch sees once the line is deleted. -/
def lineGone : Query → Database := fun _ => oneLine (qualified "public.orders")

theorem wellFormed_ordersUpdate :
    (Core.segments "postgres.public.orders.update").all Core.isSegment = true := by decide

def orderUpdated : Event where
  subject := ⟨"postgres.public.orders.update", wellFormed_ordersUpdate⟩
  headers := (∅ : Core.Headers).insert "ventstream.cdc.relation" "orders"
  payload := .ok (.object [("new", rowValue orderRow), ("old", rowValue orderRow)])

/-- The order is updated in the batch that deletes its line, and is composed again. -/
theorem self_join_fresh_updated : ∃ outputs,
    batchOutputs plainCatalog selfJoined lineSettings lineGone 1
        ([lineEvent "public.orders", orderUpdated].map parse) = some outputs ∧
      Settles selfJoined "public.orders:[\"1\"]" outputs := by
  have fresh := @self_join_fresh _ _ plainCatalog selfJoined lineSettings lineGone lineRow _
    [lineEvent "public.orders", orderUpdated] _ 1 linkedOrders _ (by decide +kernel) (by decide)
    (fun _ => keyed_oneLine "public.orders") (describes_lineEvent "public.orders") rfl
    mem_cons_self rfl
  refine ⟨_, rfl, fresh.2.2.mpr ?_ orderRow _ ⟨by decide +kernel, ⟨_, mem_cons_self, rfl, ?_⟩,
    by decide +kernel, fun _ => ⟨orderRow, ?_, by decide +kernel⟩⟩⟩
  · intro other id showed
    obtain ⟨now, there, isNow⟩ := showed.remains (.page 0)
    have isOrder : now = orderRow := by
      have rows : primaryRows selfJoined (lineGone (.page 0)) = [orderRow] := by decide +kernel
      rw [rows] at there
      exact mem_singleton.mp there
    obtain ⟨name, isName, rfl⟩ := Option.map_eq_some_iff.mp showed.isId
    have isKey : keyText plainCatalog selfJoined orderRow = some name :=
      idOf_docId.mp (isOrder ▸ isNow)
    cases isKey
    exact .inr (.inr ⟨["1"], hasKey_of_keyText isName, .inl ⟨parse orderUpdated, by simp,
      .affected ["1"], .written rfl (by decide +kernel) ⟨_, rfl, .inl rfl⟩, rfl⟩⟩)
  · unfold Embeds
    decide +kernel
  · unfold lineGone
    decide +kernel

/-- The order that the line belongs to has embedded it, and is not written. -/
theorem self_joined_parent_stays_stale :
    (∀ rel ∈ selfJoined.related, rel.table = selfJoined.primary.table ∧
      Embeds plainCatalog linkedOrders rel orderRow lineRow) ∧
    (∀ query, orderRow ∈ primaryRows selfJoined (lineGone query)) ∧
    batchOutputs plainCatalog selfJoined lineSettings lineGone 1
        ([lineEvent "public.orders"].map parse) = some [.tombstone ["5"]] := by
  refine ⟨fun rel member => ?_, fun _ => ?_, rfl⟩
  · obtain rfl := mem_singleton.mp member
    refine ⟨rfl, ?_⟩
    unfold Embeds
    decide +kernel
  · unfold lineGone
    decide +kernel

end Ventstream.SqlDenormalize
