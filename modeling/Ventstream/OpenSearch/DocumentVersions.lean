import Ventstream.Joins.Publishing
import Ventstream.Joins.ReEmission
import Ventstream.Library.VersionedStore
import Ventstream.OpenSearch.Bulk
import Ventstream.Postgres.SlotAck

/-! # The versions of joined documents

The sink writes each document with the LSN of the event that caused it as an
external version, and counts the store's refusal of a lower version as applied. Row
locks order the changes of one row. They do not order the changes of the rows that
a document embeds, which carry the LSN of their record too unless they end their
transaction. So versions stay in order unless an event on an embedded table lies on
one side of an inversion.
-/

namespace Ventstream.Postgres

open List

variable {Event : Type}

/-- The events of a transaction with the LSN of the record each comes from. -/
def recorded (records : List (WalRecord Event)) : List (Event × Nat) :=
  records.flatMap fun record => record.events.map fun ev => (ev, record.walStart)

/-- The events of a transaction with the LSN each is published under: that of its record, and
    for the last one the end of the commit. -/
def Transaction.stamps (txn : Transaction Event) : List (Event × Nat) :=
  (recorded txn.records).dropLast ++
    ((recorded txn.records).getLast?.map fun last => (last.1, txn.endLsn)).toList

variable {records : List (WalRecord Event)} {entry : Event × Nat} {txn : Transaction Event}
  {replay : Replay Event}

theorem mem_recorded : entry ∈ recorded records ↔
      ∃ record ∈ records, entry.1 ∈ record.events ∧ record.walStart = entry.2 := by
  obtain ⟨ev, lsn⟩ := entry
  simp [recorded]

theorem recorded_sorted (increasing : records.Pairwise (·.walStart < ·.walStart)) :
    (recorded records).Pairwise (·.2 ≤ ·.2) := by
  refine pairwise_flatMap.mpr ⟨fun record _ => ?_, increasing.imp ?_⟩
  · exact pairwise_map.mpr (pairwise_of_forall fun _ _ => le_rfl)
  · intro earlier later below entry mem other isOther
    obtain ⟨ev, -, rfl⟩ := mem_map.mp mem
    obtain ⟨event', -, rfl⟩ := mem_map.mp isOther
    exact le_of_lt below

theorem mem_stamps (mem : entry ∈ txn.stamps) : entry.2 ≤ txn.endLsn ∧
      ∃ record ∈ txn.records, entry.1 ∈ record.events ∧ record.walStart ≤ entry.2 := by
  cases mem_append.mp mem with
  | inl early =>
    obtain ⟨record, isRecord, isEvent, pos⟩ := mem_recorded.mp (dropLast_subset _ early)
    have below := txn.below record isRecord
    exact ⟨by omega, record, isRecord, isEvent, pos.le⟩
  | inr atEnd =>
    obtain ⟨last, isLast, rfl⟩ := Option.map_eq_some_iff.mp (Option.mem_toList.mp atEnd)
    obtain ⟨record, isRecord, isEvent, -⟩ := mem_recorded.mp (mem_of_getLast? isLast)
    exact ⟨le_rfl, record, isRecord, isEvent, le_of_lt (txn.below record isRecord)⟩

theorem stamps_sorted (increasing : txn.records.Pairwise (·.walStart < ·.walStart)) :
    txn.stamps.Pairwise (·.2 ≤ ·.2) := by
  refine pairwise_append.mpr ⟨?_, ?_, ?_⟩
  · exact (recorded_sorted increasing).sublist (dropLast_sublist _)
  · cases (recorded txn.records).getLast? with
    | none => exact List.Pairwise.nil
    | some last => exact pairwise_singleton _ _
  · intro entry early other atEnd
    obtain ⟨last, -, rfl⟩ := Option.map_eq_some_iff.mp (Option.mem_toList.mp atEnd)
    exact (mem_stamps (mem_append_left _ early)).1

/-- The replay after some records: what it has published and what it holds back are the events
    so far, and it holds back the events of a record if there are any. -/
structure Replay.Keeps (seen : List (Event × Nat)) (replay : Replay Event) : Prop where
  entries :
    replay.published ++ (replay.pending.map fun held => publishEvents held.1 held.2).getD [] =
      seen.map fun entry => stampLsn entry.2 entry.1
  held : ∀ evs lsn, replay.pending = some (evs, lsn) → evs ≠ []
  silent : replay.pending = none → replay.published = []

theorem Replay.Keeps.next (keeps : replay.Keeps seen)
    (record : WalRecord Event) : (replay.next record).Keeps (seen ++ recorded [record]) := by
  have stamped : (recorded [record]).map (fun entry => stampLsn entry.2 entry.1) =
      publishEvents record.events record.walStart := by
    simp [recorded, publishEvents, Function.comp_def]
  unfold Replay.next
  cases empty : record.events with
  | nil =>
    have none : recorded [record] = [] := by simp [recorded, empty]
    simpa [none] using keeps
  | cons first others =>
    cases pending : replay.pending with
    | none =>
      have nothing := keeps.silent pending
      have entries := keeps.entries
      simp only [pending, nothing, Option.map_none, Option.getD_none, append_nil] at entries
      refine ⟨?_, ?_, by simp⟩
      · simp [← entries, stamped, nothing, empty]
      · rintro evs lsn ⟨⟩
        exact cons_ne_nil _ _
    | some held =>
      have entries := keeps.entries
      simp only [pending, Option.map_some, Option.getD_some] at entries
      refine ⟨?_, ?_, by simp⟩
      · simp [← entries, stamped, empty]
      · rintro evs lsn ⟨⟩
        exact cons_ne_nil _ _

theorem Replay.Keeps.foldl (records : List (WalRecord Event)) (keeps : replay.Keeps seen) :
    (records.foldl Replay.next replay).Keeps (seen ++ recorded records) := by
  induction records generalizing seen replay with
  | nil => simpa [recorded] using keeps
  | cons record rest ih =>
    have all := ih (keeps.next record)
    simpa [recorded, append_assoc] using all

theorem replayTransaction_stamps (txn : Transaction Event) :
    (replayTransaction txn.records txn.endLsn).1 =
      txn.stamps.map fun entry => stampLsn entry.2 entry.1 := by
  have start : Replay.Keeps [] (⟨[], none, false⟩ : Replay Event) := ⟨rfl, nofun, fun _ => rfl⟩
  have keeps := start.foldl txn.records
  have entries := keeps.entries
  unfold replayTransaction Replay.finish
  cases pending : (txn.records.foldl Replay.next ⟨[], none, false⟩).pending with
  | none =>
    have nothing := keeps.silent pending
    have noEntry : recorded txn.records = [] := by
      simpa [pending, nothing] using entries.symm
    simp [nothing, Transaction.stamps, noEntry]
  | some held =>
    obtain ⟨evs, lsn⟩ := held
    simp only [pending, Option.map_some, Option.getD_some] at entries
    obtain ⟨front, last, rfl⟩ := (eq_nil_or_concat evs).resolve_left (keeps.held evs lsn pending)
    cases eq_nil_or_concat (recorded txn.records) with
    | inl noEntry => simp [noEntry, publishEvents] at entries
    | inr some =>
      obtain ⟨before, final, isConcat⟩ := some
      have apart : (txn.records.foldl Replay.next ⟨[], none, false⟩).published ++
          publishEvents front lsn = before.map (fun entry => stampLsn entry.2 entry.1) ∧
          stampLsn lsn last = stampLsn final.2 final.1 := by
        simpa [isConcat, publishEvents, ← append_assoc] using entries
      obtain ⟨sameFront, sameLast⟩ := apart
      cases sameLast
      have stamps : txn.stamps = before ++ [(final.1, txn.endLsn)] := by
        simp [Transaction.stamps, isConcat]
      rw [stamps, map_append, ← sameFront]
      simp [publishEvents]

end Ventstream.Postgres

namespace Ventstream.OpenSearch

open Core Joins Library Library.Program
open Postgres (CommitLog Stamped Transaction WalRecord replayTransaction)

/-- The store answers 409 to a write below the version it holds. -/
def IsVersionConflict (held ev : Event) : Prop :=
  match externalVersion held, externalVersion ev with
  | some stored, some version => version < stored
  | _, _ => False

instance : DecidableRel IsVersionConflict := fun held ev => by
  unfold IsVersionConflict
  split <;> infer_instance

theorem externalVersion_of_follows (follows : Follows env defn ev published) :
    externalVersion published = externalVersion ev := by
  unfold externalVersion
  rw [follows.headers _ (by decide), follows.headers _ (by decide), follows.headers _ (by decide)]

section

def stampLsn (ev : Event) (lsn : Nat) : Event :=
  { ev with headers := ev.headers.insert "ventstream.cdc.lsn" (toString lsn) }

def onBus (entry : Stamped Event) : Event :=
  match entry.lsn with
  | some lsn => stampLsn entry.event lsn
  | none => entry.event

/-- What the source publishes: one committed transaction after the other. -/
def published (log : CommitLog Event) : List (Stamped Event) :=
  log.transactions.flatMap fun txn =>
    (replayTransaction txn.records txn.endLsn).1

variable {env : Env} {defn : JoinDefinition} {ev : Event} {lsn : Nat}

theorem externalVersion_stampLsn (positive : 0 < lsn) (bounded : lsn < 2 ^ 64) :
    externalVersion (stampLsn ev lsn) = some lsn := by
  unfold externalVersion stampLsn
  rw [Std.ExtTreeMap.getElem?_insert_self, Option.some_or, Option.some_or, Option.bind_some,
    parseU64_toString bounded]
  simp [positive]

theorem stampLsn_header (other : name ≠ "ventstream.cdc.lsn") :
    (stampLsn ev lsn).headers[name]? = ev.headers[name]? :=
  getElem?_insert_of_ne _ other

theorem sourceTable_stampLsn : sourceTable (stampLsn ev lsn) = sourceTable ev := by
  unfold sourceTable
  rw [stampLsn_header (by decide), stampLsn_header (by decide)]
  rfl

theorem decodePrimary_stampLsn : decodePrimary env defn table op (stampLsn ev lsn) =
      decodePrimary env defn table op ev := by
  unfold decodePrimary resolvePk pkFromDocId
  rw [stampLsn_header (by decide)]
  rfl

theorem onRelated_stampLsn : onRelated defn (stampLsn ev lsn) = onRelated defn ev := by
  rw [onRelated, onRelated, sourceTable_stampLsn]

theorem changes_of_stampLsn {id} (changes : Changes env defn (stampLsn ev lsn) id) :
    Changes env defn ev id := by
  cases changes with
  | named isId => exact .named ((stampLsn_header (by decide)).symm.trans isId)
  | row ofTable named decoded isId =>
    exact .row (sourceTable_stampLsn.symm.trans ofTable) named
      (decodePrimary_stampLsn.symm.trans decoded) isId
  | truncated ofTable named isId =>
    exact .truncated (sourceTable_stampLsn.symm.trans ofTable) named isId

end

section

/-- A delivery that Postgres can make: positions grow within a transaction, and a transaction
    changes a row only after the previous one to change it has committed. -/
structure Legal (env : Env) (defn : JoinDefinition) (log : CommitLog Event) : Prop where
  increasing : ∀ txn ∈ log.transactions, txn.records.Pairwise (·.walStart < ·.walStart)
  positive : ∀ txn ∈ log.transactions, ∀ record ∈ txn.records, 0 < record.walStart
  bounded : ∀ txn ∈ log.transactions, txn.endLsn < 2 ^ 64
  locked : log.transactions.Pairwise fun earlier later => ∀ ev ∈ earlier.events,
    ∀ record ∈ later.records, ∀ other ∈ record.events, ∀ id,
      Changes env defn ev id → Changes env defn other id → earlier.endLsn ≤ record.walStart

/-- An event that carries a lower position than one of an earlier commit is not on a table the
    definition embeds, and neither is that one. -/
def Apart (defn : JoinDefinition) (log : CommitLog Event) : Prop :=
  log.transactions.Pairwise fun earlier later => ∀ entry ∈ earlier.stamps, ∀ other ∈ later.stamps,
    other.2 < entry.2 → onRelated defn entry.1 = false ∧ onRelated defn other.1 = false

/-- The engine takes events off the bus. Whatever an event ends in, it may go on with the next. -/
inductive Run (env : Env) (defn : JoinDefinition) : List Event → Engine → Engine → Prop
  | done (engine : Engine) : Run env defn [] engine engine
  | next {ev : Event} {rest : List Event} {surroundings : Env}
      {result : Except JoinError PUnit} {engine middle later : Engine} :
      surroundings.fromStr = env.fromStr →
      exec (handle surroundings [defn] ev) engine = (result, middle) →
      Run env defn rest middle later → Run env defn (ev :: rest) engine later

theorem published_eq (log : CommitLog Event) :
    (published log).map onBus = (log.transactions.flatMap (·.stamps)).map fun entry =>
      stampLsn entry.1 entry.2 := by
  rw [published, List.map_flatMap, List.map_flatMap]
  congr 1
  funext txn
  rw [Postgres.replayTransaction_stamps, List.map_map]
  rfl

variable {env : Env} {defn : JoinDefinition} {log : CommitLog Event}

/-- Two entries of a delivery are in order, or else they are on the primary's side and change
    different rows. -/
def InOrder (env : Env) (defn : JoinDefinition) (entry other : Event × Nat) : Prop :=
  entry.2 ≤ other.2 ∨ onRelated defn entry.1 = false ∧ onRelated defn other.1 = false ∧
    ∀ id, Changes env defn entry.1 id → ¬ Changes env defn other.1 id

/-- Within a transaction the stamps are in order. Across two of them an inversion rules out
    related tables, and so does a row that both change. -/
theorem Legal.inOrder (legal : Legal env defn log) (apart : Apart defn log) :
    (log.transactions.flatMap (·.stamps)).Pairwise (InOrder env defn) := by
  refine List.pairwise_flatMap.mpr ⟨?_, ?_⟩
  · intro txn mem
    exact (Postgres.stamps_sorted (legal.increasing txn mem)).imp Or.inl
  · refine (legal.locked.and apart).imp ?_
    rintro earlier later ⟨locked, apart⟩ entry isEntry other isOther
    by_cases sorted : entry.2 ≤ other.2
    · exact .inl sorted
    · obtain ⟨entryOwn, otherOwn⟩ := apart entry isEntry other isOther (Nat.lt_of_not_le sorted)
      refine .inr ⟨entryOwn, otherOwn, fun id changes changesToo => sorted ?_⟩
      obtain ⟨before, record, isRecord, isEvent, -⟩ := Postgres.mem_stamps isEntry
      obtain ⟨-, record', isRecord', isEvent', after⟩ := Postgres.mem_stamps isOther
      have committed := locked entry.1 (List.mem_flatMap.mpr ⟨record, isRecord, isEvent⟩) record'
        isRecord' other.1 isEvent' id changes changesToo
      omega

theorem Legal.stamp_bounds (legal : Legal env defn log)
    (mem : entry ∈ log.transactions.flatMap (·.stamps)) : 0 < entry.2 ∧ entry.2 < 2 ^ 64 := by
  obtain ⟨txn, isTransaction, isEntry⟩ := List.mem_flatMap.mp mem
  obtain ⟨upTo, record, isRecord, -, after⟩ := Postgres.mem_stamps isEntry
  have positive := legal.positive txn isTransaction record isRecord
  have bounded := legal.bounded txn isTransaction
  omega

end

section

variable {env : Env} {defn : JoinDefinition} {log : CommitLog Event}

/-- What a run publishes comes in the order of its events, each part because of its event. -/
theorem Run.emitted (run : Run env defn evs start later)
    (within : ∀ ev ∈ evs, ∀ first second, Follows env defn ev first →
      Follows env defn ev second → inOrder first second)
    (across : evs.Pairwise fun ev other => ∀ first second,
      Follows env defn ev first → Follows env defn other second → inOrder first second) :
    ∃ emitted, later.sent = start.sent ++ emitted ∧ emitted.Pairwise inOrder ∧
      ∀ publication ∈ emitted, ∃ ev ∈ evs, Follows env defn ev publication := by
  induction run with
  | done engine => exact ⟨[], by simp, List.Pairwise.nil, by simp⟩
  | @next ev rest surroundings result engine middle later same ran _ ih =>
    obtain ⟨acrossHere, acrossRest⟩ := List.pairwise_cons.mp across
    obtain ⟨fresh, sent, follow⟩ := handle_followed.ran ran
    obtain ⟨emitted, sentRest, ordered, followRest⟩ :=
      ih (fun other mem => within other (List.mem_cons_of_mem ev mem)) acrossRest
    have followHere : ∀ publication ∈ fresh, Follows env defn ev publication :=
      fun publication mem => (follow publication mem).congr same
    refine ⟨fresh ++ emitted, by rw [sentRest, sent, List.append_assoc],
      List.pairwise_append.mpr ⟨?_, ordered, ?_⟩, ?_⟩
    · refine List.pairwise_iff_forall_sublist.mpr fun {first second} sub => ?_
      exact within ev List.mem_cons_self first second
        (followHere first (sub.subset (by simp))) (followHere second (sub.subset (by simp)))
    · intro first isFirst second isSecond
      obtain ⟨other, isOther, follows⟩ := followRest second isSecond
      exact acrossHere other isOther first second (followHere first isFirst) follows
    · intro publication mem
      cases List.mem_append.mp mem with
      | inl here => exact ⟨ev, List.mem_cons_self, followHere publication here⟩
      | inr there =>
        obtain ⟨other, isOther, follows⟩ := followRest publication there
        exact ⟨other, List.mem_cons_of_mem ev isOther, follows⟩

/-- The versions of two publications for one document do not decrease. -/
def VersionsKept (first second : Event) : Prop :=
  ∀ id, docIdOf first = some id → docIdOf second = some id → ∃ version next,
    externalVersion first = some version ∧ externalVersion second = some next ∧ version ≤ next

theorem versionsKept_of_inOrder (inOrder : InOrder env defn entry other)
    (entryBounds : 0 < entry.2 ∧ entry.2 < 2 ^ 64) (otherBounds : 0 < other.2 ∧ other.2 < 2 ^ 64)
    (follows : Follows env defn (stampLsn entry.1 entry.2) first)
    (followsToo : Follows env defn (stampLsn other.1 other.2) second) :
    VersionsKept first second := by
  intro id isId isIdToo
  have version := externalVersion_of_follows follows
  have next := externalVersion_of_follows followsToo
  rw [externalVersion_stampLsn entryBounds.1 entryBounds.2] at version
  rw [externalVersion_stampLsn otherBounds.1 otherBounds.2] at next
  refine ⟨entry.2, other.2, version, next, ?_⟩
  cases inOrder with
  | inl sorted => exact sorted
  | inr own =>
    obtain ⟨entryOwn, otherOwn, differ⟩ := own
    have changes := (follows.document id isId).resolve_left (by simp [onRelated_stampLsn, entryOwn])
    have changesToo := (followsToo.document id isIdToo).resolve_left
      (by simp [onRelated_stampLsn, otherOwn])
    exact absurd (changes_of_stampLsn changesToo) (differ id (changes_of_stampLsn changes))

theorem not_conflict_of_versionsKept {id}
    (kept : VersionsKept first second) (isId : docIdOf first = some id)
    (isIdToo : docIdOf second = some id) : ¬ IsVersionConflict first second := by
  obtain ⟨version, next, isVersion, isNext, grows⟩ := kept id isId isIdToo
  simp [IsVersionConflict, isVersion, isNext, grows]

/-- In a legal delivery whose inversions spare the embedded tables, the versions of a document
    never decrease, and the store ends with what was published last for each document. -/
theorem versions_never_decrease (legal : Legal env defn log) (apart : Apart defn log)
    {delivered : List Event} (upTo : delivered <+: (published log).map onBus) {start later : Engine}
    (run : Run env defn delivered start later) :
    ∃ emitted, later.sent = start.sent ++ emitted ∧ emitted.Pairwise VersionsKept ∧
      ∀ id, VersionedStore.run docIdOf IsVersionConflict emitted id =
        VersionedStore.lastWrite docIdOf id emitted := by
  rw [published_eq] at upTo
  have within : ∀ ev ∈ delivered, ∀ first second, Follows env defn ev first →
      Follows env defn ev second → VersionsKept first second := by
    intro ev member first second follows followsToo
    obtain ⟨entry, isEntry, rfl⟩ := List.mem_map.mp (upTo.subset member)
    have bounds := legal.stamp_bounds isEntry
    exact versionsKept_of_inOrder (Or.inl le_rfl) bounds bounds follows followsToo
  have across : ((log.transactions.flatMap (·.stamps)).map fun entry =>
      stampLsn entry.1 entry.2).Pairwise fun ev other => ∀ first second,
        Follows env defn ev first → Follows env defn other second →
          VersionsKept first second := by
    refine List.pairwise_map.mpr ((legal.inOrder apart).imp_of_mem ?_)
    intro entry other isEntry isOther inOrder first second
    exact versionsKept_of_inOrder inOrder (legal.stamp_bounds isEntry) (legal.stamp_bounds isOther)
  obtain ⟨emitted, sent, ordered, -⟩ := run.emitted within (across.sublist upTo.sublist)
  refine ⟨emitted, sent, ordered, fun id => VersionedStore.run_eq_lastWrite ?_ id⟩
  exact ordered.imp fun kept id isId isIdToo => not_conflict_of_versionsKept kept isId isIdToo

end

def orders : JoinDefinition := ordersWith "orders" [customerOf]

def orderUpdated : Event where
  subject := ⟨"postgres.public.orders.update", by decide⟩
  headers := ∅
  payload := .ok (.object [("new", .object [("id", number 1), ("customer_id", number 7)])])

theorem customers_isSegment :
    (segments "postgres.public.customers.update").all isSegment := by decide

def customerUpdated (id : Nat) : Event where
  subject := ⟨"postgres.public.customers.update", customers_isSegment⟩
  headers := ∅
  payload := .ok (.object [("new", .object [("id", number id)])])

def single (ev : Event) (walStart endLsn : Nat) (below : walStart < endLsn) : Transaction Event :=
  ⟨[⟨walStart, [ev]⟩], endLsn, by simpa using below⟩

/-- One transaction writes the order, the next one its customer. -/
def sequentialLog : CommitLog Event where
  transactions := [single orderInserted 5 6 (by decide),
    single (customerUpdated 7) 20 30 (by decide)]
  increasing := by decide

/-- While a transaction that changes two customers is open, another one changes the order. -/
def overlappingLog : CommitLog Event where
  transactions := [single orderInserted 5 6 (by decide), single orderUpdated 20 30 (by decide),
    ⟨[⟨10, [customerUpdated 7]⟩, ⟨12, [customerUpdated 8]⟩], 50, by decide⟩]
  increasing := by decide

def feedAll (defn : JoinDefinition) (evs : List Event) (engine : Engine) : Engine :=
  evs.foldl (fun engine ev => feed [defn] ev engine) engine

theorem run_feedAll (defn : JoinDefinition) (evs : List Event) (engine : Engine) :
    Run .calm defn evs engine (feedAll defn evs engine) := by
  induction evs generalizing engine with
  | nil => exact .done engine
  | cons ev rest ih => exact .next rfl rfl (ih (feed [defn] ev engine))

theorem sourceTable_customerUpdated (id : Nat) :
    sourceTable (customerUpdated id) = .ok "public.customers" := by
  -- The id is in the payload, which is not looked at.
  have table : sourceTable (customerUpdated 0) = .ok "public.customers" := by decide +kernel
  simp only [sourceTable, customerUpdated] at table ⊢
  exact table

theorem not_changes_customerUpdated {id} : ¬ Changes env orders (customerUpdated customer) id := by
  intro changes
  cases changes with
  | named isId => simp [customerUpdated] at isId
  | row ofTable =>
    exact absurd ((sourceTable_customerUpdated customer).symm.trans ofTable) (by decide)
  | truncated ofTable =>
    exact absurd ((sourceTable_customerUpdated customer).symm.trans ofTable) (by decide)

theorem legal_sequentialLog : Legal .calm orders sequentialLog where
  increasing := by simp [sequentialLog, single]
  positive := by simp [sequentialLog, single]
  bounded := by simp [sequentialLog, single]
  locked := by simp [sequentialLog, single]

theorem legal_overlappingLog : Legal .calm orders overlappingLog where
  increasing := by simp [overlappingLog, single]
  positive := by simp [overlappingLog, single]
  bounded := by simp [overlappingLog, single]
  locked := by
    simp [overlappingLog, single, Transaction.events, not_changes_customerUpdated]

theorem versions_never_decrease_sequential :
    Legal .calm orders sequentialLog ∧ Apart orders sequentialLog ∧ ∃ emitted,
        (feedAll orders ((published sequentialLog).map onBus) .new).sent = [] ++ emitted ∧
        emitted.Pairwise VersionsKept ∧ ∀ id,
          VersionedStore.run docIdOf IsVersionConflict emitted id =
            VersionedStore.lastWrite docIdOf id emitted := by
  have apart : Apart orders sequentialLog := by
    simp [Apart, sequentialLog, single, Transaction.stamps, Postgres.recorded]
  exact ⟨legal_sequentialLog, apart, versions_never_decrease legal_sequentialLog apart
    List.prefix_rfl (run_feedAll orders _ .new)⟩

/-- The order's own change commits first, at 30. The customer's change at 10 commits after it
    and sends the order again, with the new customer and the version 10: the store turns it
    away and keeps the order with the old customer. -/
theorem embedded_change_is_turned_away : ∃ (log : CommitLog Event) (later : Engine),
      Legal .calm orders log ∧ Run .calm orders ((published log).map onBus) .new later ∧
      (VersionedStore.run docIdOf IsVersionConflict later.sent "public.orders:[\"1\"]").map
        externalVersion = some (some 30) ∧
      (VersionedStore.lastWrite docIdOf "public.orders:[\"1\"]" later.sent).map
        externalVersion = some (some 10) := by
  refine ⟨overlappingLog, feedAll orders ((published overlappingLog).map onBus) .new,
    legal_overlappingLog, run_feedAll orders _ .new, ?_, ?_⟩
  · decide +kernel
  · decide +kernel

end Ventstream.OpenSearch
