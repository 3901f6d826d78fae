import Ventstream.OpenSearch.DocumentVersions
import Ventstream.Postgres.Bootstrap

/-! # The version floor of a scan

A snapshot or resync scan asks the server for its write position before it reads and
stamps every row with it. A live event is stamped with the start of its WAL record, or
with the end of the commit when it is the last of its transaction. The definitions follow
`snapshot.rs`. A transaction may have records before the floor and become visible after
the read, and a record may start right at the floor, where a store that takes equal
versions lets the later write win.
-/

namespace Ventstream.Postgres

open Core Library List Function
open Joins (getElem?_insert_of_ne)
open Json (Value)
open Postgres.Bootstrap (SnapshotTable)
open OpenSearch (IsVersionConflict docIdOf externalVersion onBus)

def hexValue (char : Char) : Option Nat :=
  if '0' ≤ char ∧ char ≤ '9' then some (char.toNat - '0'.toNat)
  else if 'a' ≤ char ∧ char ≤ 'f' then some (char.toNat - 'a'.toNat + 10)
  else if 'A' ≤ char ∧ char ≤ 'F' then some (char.toNat - 'A'.toNat + 10)
  else none

/-- `u64::from_str_radix` in base 16. -/
def parseHex (text : List Char) : Option Nat := do
  let digits := match text with
    | '+' :: rest => rest
    | chars => chars
  if digits.isEmpty then none
  else
    let values ← digits.mapM hexValue
    let value := values.foldl (fun value digit => 16 * value + digit) 0
    if value < 2 ^ 64 then some value else none

/-- An LSN from the text form `XXXXXXXX/XXXXXXXX`. -/
def parseLsn (text : String) : Option Nat :=
  match text.toList.dropWhile (· != '/') with
  | [] => none
  | _ :: low => do
      let high ← parseHex (text.toList.takeWhile (· != '/'))
      let low ← parseHex low
      some ((high <<< 32) % 2 ^ 64 ||| low)

def renderHex (value : Nat) : List Char := (Nat.toDigits 16 value).map Char.toUpper

/-- How the server writes an LSN. -/
def renderLsn (lsn : Nat) : String :=
  String.ofList (renderHex (lsn / 2 ^ 32) ++ '/' :: renderHex (lsn % 2 ^ 32))

theorem hexValue_digit : ∀ digit < 16, hexValue (Nat.digitChar digit).toUpper = some digit := by
  decide

theorem renderHex_of_lt (isDigit : value < 16) :
    renderHex value = [(Nat.digitChar value).toUpper] := by
  rw [renderHex, Nat.toDigits_of_lt_base isDigit, map_singleton]

theorem renderHex_of_le (longer : 16 ≤ value) :
    renderHex value = renderHex (value / 16) ++ [(Nat.digitChar (value % 16)).toUpper] := by
  rw [renderHex, Nat.toDigits_of_base_le (by decide) longer, map_append, map_singleton, ← renderHex]

theorem mapM_renderHex (value : Nat) : ∃ digits, (renderHex value).mapM hexValue = some digits ∧
      digits.foldl (fun value digit => 16 * value + digit) 0 = value := by
  induction value using Nat.strongRecOn with
  | ind value ih =>
    by_cases isDigit : value < 16
    · refine ⟨[value], ?_, by simp⟩
      simp [renderHex_of_lt isDigit, hexValue_digit value isDigit]
    · obtain ⟨digits, reads, folds⟩ := ih (value / 16) (by omega)
      refine ⟨digits ++ [value % 16], ?_, ?_⟩
      · rw [renderHex_of_le (not_lt.mp isDigit), mapM_append, reads]
        simp [hexValue_digit _ (Nat.mod_lt value (by decide))]
      · rw [foldl_append, folds]
        simp only [foldl_cons, foldl_nil]
        omega

theorem hexValue_of_mem (mem : char ∈ renderHex value) : (hexValue char).isSome := by
  induction value using Nat.strongRecOn with
  | ind value ih =>
    by_cases isDigit : value < 16
    · rw [renderHex_of_lt isDigit, mem_singleton] at mem
      rw [mem, hexValue_digit value isDigit]
      rfl
    · rw [renderHex_of_le (not_lt.mp isDigit), mem_append, mem_singleton] at mem
      rcases mem with early | rfl
      · exact ih (value / 16) (by omega) early
      · rw [hexValue_digit _ (Nat.mod_lt value (by decide))]
        rfl

theorem parseHex_renderHex (bounded : value < 2 ^ 64) :
    parseHex (renderHex value) = some value := by
  obtain ⟨digits, reads, folds⟩ := mapM_renderHex value
  have notEmpty : renderHex value ≠ [] := by simp [renderHex, Nat.toDigits_ne_nil]
  unfold parseHex
  split
  · rename_i rest isPlus
    have plus := hexValue_of_mem (isPlus ▸ mem_cons_self : '+' ∈ renderHex value)
    exact absurd plus (by decide)
  · rw [if_neg (by simpa using notEmpty), reads]
    simpa [folds] using bounded

theorem parseLsn_renderLsn (bounded : lsn < 2 ^ 64) : parseLsn (renderLsn lsn) = some lsn := by
  have noSlash : ∀ char ∈ renderHex (lsn / 2 ^ 32), (char != '/') := by
    intro char mem
    rw [bne_iff_ne]
    rintro rfl
    exact absurd (hexValue_of_mem mem) (by decide)
  have high : parseHex (renderHex (lsn / 2 ^ 32)) = some (lsn / 2 ^ 32) :=
    parseHex_renderHex (by omega)
  have low : parseHex (renderHex (lsn % 2 ^ 32)) = some (lsn % 2 ^ 32) :=
    parseHex_renderHex (by omega)
  unfold parseLsn
  rw [renderLsn, String.toList_ofList, dropWhile_append_of_pos noSlash,
    takeWhile_append_of_pos noSlash, dropWhile_cons_of_neg (by decide),
    takeWhile_cons_of_neg (by decide), append_nil]
  simp only [high, low, Option.bind_eq_bind, Option.bind_some]
  have small : lsn % 2 ^ 32 < 2 ^ 32 := Nat.mod_lt _ (by decide)
  rw [Nat.mod_eq_of_lt (by rw [Nat.shiftLeft_eq]; omega), ← Nat.shiftLeft_add_eq_or_of_lt small,
    Nat.shiftLeft_eq, Nat.div_add_mod']

section

/-- Characters that a subject does not take become underscores. -/
def sanitizeSegment (input : String) : String :=
  let chars := input.toList.map fun char =>
    if char.isAlphanum || char == '_' || char == '-' then char else '_'
  if chars.isEmpty then "_" else String.ofList chars

/-- `YYYY-MM-DDTHH:MM:SS` at the start of a text. -/
def looksIso (chars : List Char) : Bool :=
  19 ≤ chars.length && (chars.zip "0000-00-00T00:00:00".toList).all fun (char, shape) =>
    if shape.isDigit then char.isDigit else char == shape

/-- A timestamp gets a space in place of the `T`, as on the replication path. -/
def normalizeIsoTimestamp (text : String) : String :=
  if looksIso text.toList then
    String.ofList (text.toList.take 10 ++ ' ' :: text.toList.drop 11)
  else text

def stringify : Value → Value
  | .null => .null
  | .bool value => .string (if value then "t" else "f")
  | .string text => .string (normalizeIsoTimestamp text)
  | other => .string (Json.render other)

/-- The values of a row as texts. -/
def stringifyTopLevel : Value → Value
  | .object fields => .object (fields.map fun (name, value) => (name, stringify value))
  | other => other

/-- The text of a primary-key column; none for one that is missing or null. -/
def keyComponent (row : Value) (column : String) : Option String :=
  match row.get? column with
  | none | some .null => none
  | some value => some (componentText value)

def snapshotHeaders (publication : String) (table : SnapshotTable) (versionFloor : Nat) : Headers :=
  let headers := (((∅ : Headers).insert "ventstream.cdc.namespace" table.schema).insert
    "ventstream.cdc.relation" table.name).insert "ventstream.cdc.publication" publication
  let headers := headers.insert "ventstream.cdc.bootstrap" "snapshot"
  if 0 < versionFloor then headers.insert "ventstream.cdc.source_version" (toString versionFloor)
  else headers

/-- The event of a row that the scan reads; none when its subject is refused. -/
def buildSyntheticInsert (publication : String) (table : SnapshotTable) (row : Value)
    (versionFloor : Nat) : Option Event := do
  let subject ← Subject.ofText ("postgres." ++ sanitizeSegment table.schema ++ "." ++
    sanitizeSegment table.name ++ ".insert")
  let payload := stringifyTopLevel row
  let headers := snapshotHeaders publication table versionFloor
  let headers := match table.primaryKey.mapM (keyComponent payload) with
    | some components => headers.insert "ventstream.doc.id"
        (docId (table.schema ++ "." ++ table.name) components)
    | none => headers
  some ⟨subject, headers, .ok payload⟩

variable {publication : String} {table : SnapshotTable} {row : Value} {versionFloor : Nat}
  {ev : Event}

theorem snapshotHeaders_eq_none
    (other : name ∉ ["ventstream.cdc.namespace", "ventstream.cdc.relation",
      "ventstream.cdc.publication", "ventstream.cdc.bootstrap", "ventstream.cdc.source_version"]) :
    (snapshotHeaders publication table versionFloor)[name]? = none := by
  simp only [mem_cons, not_mem_nil, or_false, not_or] at other
  obtain ⟨notNamespace, notRelation, notPublication, notBootstrap, notVersion⟩ := other
  unfold snapshotHeaders
  split
  · rw [getElem?_insert_of_ne _ notVersion, getElem?_insert_of_ne _ notBootstrap,
      getElem?_insert_of_ne _ notPublication, getElem?_insert_of_ne _ notRelation,
      getElem?_insert_of_ne _ notNamespace]
    rfl
  · rw [getElem?_insert_of_ne _ notBootstrap, getElem?_insert_of_ne _ notPublication,
      getElem?_insert_of_ne _ notRelation, getElem?_insert_of_ne _ notNamespace]
    rfl

variable (built : buildSyntheticInsert publication table row versionFloor = some ev)
include built

theorem header_of_buildSyntheticInsert (other : name ≠ "ventstream.doc.id") :
    ev.headers[name]? = (snapshotHeaders publication table versionFloor)[name]? := by
  obtain ⟨subject, -, built⟩ := Option.bind_eq_some_iff.mp built
  cases built
  split
  · exact getElem?_insert_of_ne _ other
  · rfl

theorem lsn_of_buildSyntheticInsert : ev.headers["ventstream.cdc.lsn"]? = none := by
  rw [header_of_buildSyntheticInsert built (by decide)]
  exact snapshotHeaders_eq_none (by decide)

theorem externalVersion_of_buildSyntheticInsert (positive : 0 < versionFloor)
    (bounded : versionFloor < 2 ^ 64) : externalVersion ev = some versionFloor := by
  have noTx : ev.headers["ventstream.cdc.tx_id"]? = none := by
    rw [header_of_buildSyntheticInsert built (by decide)]
    exact snapshotHeaders_eq_none (by decide)
  have isVersion : ev.headers["ventstream.cdc.source_version"]? = some (toString versionFloor) := by
    rw [header_of_buildSyntheticInsert built (by decide), snapshotHeaders]
    simp only [positive, if_true]
    exact Std.ExtTreeMap.getElem?_insert_self
  rw [externalVersion, lsn_of_buildSyntheticInsert built, noTx, isVersion, Option.none_or,
    Option.none_or, Option.bind_some, parseU64_toString bounded]
  simp [positive]

end

/-- The server while a scan runs: how far the WAL is inserted and written, the records of every
    transaction, which of them have committed and which of those a read sees, and the scan's floor
    and the transactions that its read of a row saw. -/
structure Server where
  inserted : Nat
  written : Nat
  records : Nat → List (WalRecord Event)
  committed : Nat → Option (Transaction Event)
  visible : List Nat
  floor : Option Nat
  seen : Option (List Nat)
  written_pos : 0 < written
  written_le : written ≤ inserted
  inserted_lt : inserted < 2 ^ 64
  records_lt : ∀ xid, ∀ record ∈ records xid, 0 < record.walStart ∧ record.walStart < inserted
  committed_le : ∀ xid txn, committed xid = some txn →
    txn.endLsn ≤ inserted ∧ ∀ record ∈ txn.records, 0 < record.walStart
  floor_le : ∀ pos, floor = some pos → 0 < pos ∧ pos ≤ inserted

namespace Server

/-- A server whose scan has not begun. -/
def start (pos : Nat) (positive : 0 < pos) (bounded : pos < 2 ^ 64) : Server where
  inserted := pos
  written := pos
  records _ := []
  committed _ := none
  visible := []
  floor := none
  seen := none
  written_pos := positive
  written_le := le_refl _
  inserted_lt := bounded
  records_lt := nofun
  committed_le := nofun
  floor_le := nofun

variable (server : Server)

def insert (xid : Nat) (evs : List Event) (size : Nat)
    (fits : server.inserted + size + 1 < 2 ^ 64) : Server :=
  { server with
    inserted := server.inserted + size + 1
    records := update server.records xid
      (server.records xid ++ [⟨server.inserted, evs⟩])
    written_le := by have := server.written_le; omega
    inserted_lt := fits
    records_lt := by
      intro other record member
      have positive : 0 < server.inserted := server.written_pos.trans_le server.written_le
      by_cases same : other = xid
      · rw [same, update_self] at member
        rcases mem_append.mp member with old | new
        · have := server.records_lt xid record old
          omega
        · obtain rfl := mem_singleton.mp new
          exact ⟨positive, by simp only; omega⟩
      · rw [update_of_ne same] at member
        have := server.records_lt other record member
        omega
    committed_le := fun other txn isCommitted =>
      ⟨by have := (server.committed_le other txn isCommitted).1; omega,
        (server.committed_le other txn isCommitted).2⟩
    floor_le := fun pos isFloor => by have := server.floor_le pos isFloor; omega }

/-- A transaction writes its commit. Reads do not see it yet. -/
def commit (xid size : Nat) (fits : server.inserted + size + 1 < 2 ^ 64) : Server :=
  { server with
    inserted := server.inserted + size + 1
    committed := update server.committed xid
      (some ⟨server.records xid, server.inserted + size + 1, fun record member => by
        have := server.records_lt xid record member; omega⟩)
    written_le := by have := server.written_le; omega
    inserted_lt := fits
    records_lt := fun other record member => by
      have := server.records_lt other record member
      omega
    committed_le := by
      intro other txn isCommitted
      by_cases same : other = xid
      · rw [same, update_self] at isCommitted
        cases isCommitted
        exact ⟨le_refl _, fun record member => (server.records_lt xid record member).1⟩
      · rw [update_of_ne same] at isCommitted
        have before := server.committed_le other txn isCommitted
        exact ⟨by omega, before.2⟩
    floor_le := fun pos isFloor => by have := server.floor_le pos isFloor; omega }

/-- `capture_version_floor`: the write position, by way of its text. -/
def captureVersionFloor : Option Nat := parseLsn (renderLsn server.written)

theorem captureVersionFloor_eq : server.captureVersionFloor = some server.written :=
  parseLsn_renderLsn (server.written_le.trans_lt server.inserted_lt)

def capture : Server :=
  { server with
    floor := server.captureVersionFloor
    floor_le := by
      intro pos isFloor
      cases server.captureVersionFloor_eq.symm.trans isFloor
      exact ⟨server.written_pos, server.written_le⟩ }

def flush (pos : Nat) (later : server.written ≤ pos) (inserted : pos ≤ server.inserted) : Server :=
  { server with
    written := pos
    written_pos := server.written_pos.trans_le later
    written_le := inserted }

def appear (xid : Nat) : Server :=
  { server with visible := xid :: server.visible }

def read : Server := { server with seen := some server.visible }

/-- What can happen next. A committed transaction becomes visible some time after its commit is in
    the WAL, and the scan reads a row some time after it captured its floor. -/
inductive Step : Server → Server → Prop
  | insert (server : Server) (xid : Nat) (evs : List Event) (size : Nat)
      (running : server.committed xid = none) (fits : server.inserted + size + 1 < 2 ^ 64) :
      Step server (server.insert xid evs size fits)
  | commit (server : Server) (xid size : Nat) (running : server.committed xid = none)
      (fits : server.inserted + size + 1 < 2 ^ 64) : Step server (server.commit xid size fits)
  | flush (server : Server) (pos : Nat) (later : server.written ≤ pos)
      (inserted : pos ≤ server.inserted) : Step server (server.flush pos later inserted)
  | appear (server : Server) (xid : Nat) (isCommitted : (server.committed xid).isSome) :
      Step server (server.appear xid)
  | capture (server : Server) (first : server.floor = none) : Step server server.capture
  | read (server : Server) (captured : server.floor.isSome) (first : server.seen = none) :
      Step server server.read

/-- A scan on a server that has written some WAL. -/
def Reached : Prop :=
  ∃ pos positive bounded, Relation.ReflTransGen Step (start pos positive bounded) server

end Server

section

/-- What the source publishes of a committed transaction. -/
def liveEvents (txn : Transaction Event) : List Event :=
  (replayTransaction txn.records txn.endLsn).1.map onBus

/-- A store that drops lower versions, after some writes. -/
def heldAfter (writes : List Event) (id : String) : Option Event :=
  VersionedStore.run docIdOf IsVersionConflict writes id

/-- No live event for a row is below the snapshot of the row, and the live event is what the store
    ends with whichever of the two arrives first. -/
def LiveWins (id : String) (snapshot : Event) (live : List Event) : Prop :=
  ∀ ev ∈ live, docIdOf ev = some id → (∃ stamp version, externalVersion snapshot = some stamp ∧
      externalVersion ev = some version ∧ stamp ≤ version) ∧
    heldAfter [snapshot, ev] id = some ev ∧ heldAfter [ev, snapshot] id = some ev

/-- The records of a transaction for a row start beyond the floor. For the last event of the
    transaction it is the commit that ends beyond the floor. -/
def BeyondFloor (floor : Nat) (id : String) (txn : Transaction Event) : Prop :=
  (∀ entry ∈ (recorded txn.records).dropLast, docIdOf entry.1 = some id → floor < entry.2) ∧
  ∀ last ∈ (recorded txn.records).getLast?, docIdOf last.1 = some id → floor < txn.endLsn

variable {txn : Transaction Event} {floor lsn : Nat} {id : String} {snapshot ev : Event}

theorem beyondFloor_iff : BeyondFloor floor id txn ↔
    ∀ entry ∈ txn.stamps, docIdOf entry.1 = some id → floor < entry.2 := by
  unfold BeyondFloor Transaction.stamps
  rw [forall_mem_append]
  refine and_congr_right fun _ => ?_
  cases (recorded txn.records).getLast? with
  | none => simp
  | some last => simp

theorem liveEvents_eq : liveEvents txn =
    txn.stamps.map fun entry => OpenSearch.stampLsn entry.1 entry.2 := by
  rw [liveEvents, replayTransaction_stamps, map_map]
  rfl

theorem docIdOf_stampLsn : docIdOf (OpenSearch.stampLsn ev lsn) = docIdOf ev :=
  OpenSearch.stampLsn_header (by decide)

theorem heldAfter_two (firstId : docIdOf first = some id) (secondId : docIdOf second = some id) :
    heldAfter [first, second] id =
      if IsVersionConflict first second then some first else some second := by
  rw [heldAfter, VersionedStore.run, VersionedStore.foldl_put_apply]
  simp [firstId, secondId, VersionedStore.take]

theorem wins_iff (isSnapshot : docIdOf snapshot = some id) (isEvent : docIdOf ev = some id)
    (isStamp : externalVersion snapshot = some stamp)
    (isVersion : externalVersion ev = some version) (apart : snapshot ≠ ev) :
    ((∃ stamp version, externalVersion snapshot = some stamp ∧
        externalVersion ev = some version ∧ stamp ≤ version) ∧
      heldAfter [snapshot, ev] id = some ev ∧ heldAfter [ev, snapshot] id = some ev) ↔
      stamp < version := by
  have snapshotFirst : IsVersionConflict snapshot ev ↔ version < stamp := by
    rw [IsVersionConflict, isStamp, isVersion]
  have eventFirst : IsVersionConflict ev snapshot ↔ stamp < version := by
    rw [IsVersionConflict, isStamp, isVersion]
  rw [heldAfter_two isSnapshot isEvent, heldAfter_two isEvent isSnapshot]
  constructor
  · rintro ⟨-, -, last⟩
    by_contra notHigher
    rw [if_neg (eventFirst.not.mpr notHigher)] at last
    exact apart (Option.some.inj last)
  · intro higher
    exact ⟨⟨stamp, version, isStamp, isVersion, higher.le⟩,
      if_neg (snapshotFirst.not.mpr (by omega)), if_pos (eventFirst.mpr higher)⟩

theorem liveWins_iff (positive : 0 < floor) (bounded : floor < 2 ^ 64)
    (recordsPositive : ∀ record ∈ txn.records, 0 < record.walStart)
    (endBounded : txn.endLsn < 2 ^ 64)
    (built : buildSyntheticInsert publication table row floor = some snapshot)
    (isSnapshot : docIdOf snapshot = some id) :
    LiveWins id snapshot (liveEvents txn) ↔ BeyondFloor floor id txn := by
  rw [beyondFloor_iff, LiveWins, liveEvents_eq, forall_mem_map]
  refine forall₂_congr fun entry mem => ?_
  rw [docIdOf_stampLsn]
  refine imp_congr_right fun isEvent => ?_
  obtain ⟨upTo, record, isRecord, -, after⟩ := mem_stamps mem
  have recordPositive := recordsPositive record isRecord
  have isVersion : externalVersion (OpenSearch.stampLsn entry.1 entry.2) = some entry.2 :=
    OpenSearch.externalVersion_stampLsn (by omega) (by omega)
  have apart : snapshot ≠ OpenSearch.stampLsn entry.1 entry.2 := by
    intro same
    have noLsn := lsn_of_buildSyntheticInsert built
    rw [same, OpenSearch.stampLsn, Std.ExtTreeMap.getElem?_insert_self] at noLsn
    cases noLsn
  exact wins_iff isSnapshot (docIdOf_stampLsn.trans isEvent)
    (externalVersion_of_buildSyntheticInsert built positive bounded) isVersion apart

/-- A transaction that the scan's read of a row does not see wins over the snapshot of the row just
    when its records for the row lie beyond the floor. -/
theorem live_change_wins_iff : ∀ server : Server, server.Reached →
    ∀ floor seen xid transaction, server.floor = some floor → server.seen = some seen →
    server.committed xid = some transaction → xid ∉ seen →
    ∀ publication table row snapshot id,
    buildSyntheticInsert publication table row floor = some snapshot → docIdOf snapshot = some id →
    (LiveWins id snapshot (liveEvents transaction) ↔ BeyondFloor floor id transaction) := by
  intro server _ floor _ xid transaction captured _ committed _ publication table row snapshot id
    built isSnapshot
  have atFloor := server.floor_le floor captured
  have atEnd := server.committed_le xid transaction committed
  have bounded := server.inserted_lt
  exact liveWins_iff atFloor.1 (by omega) atEnd.2 (by omega) built isSnapshot

theorem id_ne_nil : ["id"] ≠ [] := by decide

def accounts : SnapshotTable := ⟨"public", "accounts", ["id"], id_ne_nil⟩

def accountUpdated (id : String) : Event where
  subject := ⟨"postgres.public.accounts.update", by decide⟩
  headers := (∅ : Headers).insert "ventstream.doc.id" (docId "public.accounts" [id])
  payload := .ok (.object [("id", .string id), ("balance", .string "70")])

def oldAccount : Value := .object [("id", .string "1"), ("balance", .string "100")]

/-- A transaction with a single update that begins once the scan has read. -/
def alone : Server :=
  ((Server.start 10 (by decide) (by decide)).capture.read.insert 1 [accountUpdated "1"] 9
    (by decide)).commit 1 9 (by decide)

theorem reached_alone : alone.Reached :=
  ⟨10, by decide, by decide, .tail (.tail (.tail (.tail .refl (.capture _ rfl))
    (.read _ (by decide +kernel) rfl)) (.insert _ 1 _ 9 rfl _)) (.commit _ 1 9 rfl _)⟩

theorem live_change_wins_iff_alone : ∃ transaction snapshot, alone.committed 1 = some transaction ∧
    buildSyntheticInsert "ventstream" accounts oldAccount 10 = some snapshot ∧
    LiveWins (docId "public.accounts" ["1"]) snapshot (liveEvents transaction) := by
  have isRow : (buildSyntheticInsert "ventstream" accounts oldAccount 10).bind docIdOf =
      some (docId "public.accounts" ["1"]) := by decide +kernel
  obtain ⟨snapshot, built, isSnapshot⟩ := Option.bind_eq_some_iff.mp isRow
  refine ⟨_, snapshot, rfl, built, ?_⟩
  refine (live_change_wins_iff alone reached_alone 10 [] 1 _ (by decide +kernel) rfl rfl
    not_mem_nil _ _ _ snapshot _ built isSnapshot).mpr ⟨nofun, fun last isLast _ => ?_⟩
  decide

/-- A scan after which the store may end with the snapshot of a row that the scan read before a
    live change of it was visible. -/
def Overwritten (server : Server) : Prop :=
  server.Reached ∧ ∃ floor seen xid txn, server.floor = some floor ∧
    server.seen = some seen ∧ server.committed xid = some txn ∧ xid ∉ seen ∧
    ∃ snapshot id, buildSyntheticInsert "ventstream" accounts oldAccount floor = some snapshot ∧
      docIdOf snapshot = some id ∧ ¬ LiveWins id snapshot (liveEvents txn)

theorem overwritten_of (reached : server.Reached) (captured : server.floor = some floor)
    (hasRead : server.seen = some []) (committed : server.committed 1 = some txn)
    (isRow : (buildSyntheticInsert "ventstream" accounts oldAccount floor).bind docIdOf =
      some (docId "public.accounts" ["1"])) (early : ∃ entry ∈ (recorded txn.records).dropLast,
      docIdOf entry.1 = some (docId "public.accounts" ["1"]) ∧ entry.2 ≤ floor) :
    Overwritten server := by
  obtain ⟨snapshot, built, isSnapshot⟩ := Option.bind_eq_some_iff.mp isRow
  obtain ⟨entry, mem, isEntry, below⟩ := early
  have atFloor := server.floor_le floor captured
  have atEnd := server.committed_le 1 txn committed
  have bounded := server.inserted_lt
  refine ⟨reached, floor, [], 1, txn, captured, hasRead, committed, not_mem_nil,
    snapshot, _, built, isSnapshot, fun wins => ?_⟩
  have beyond := (liveWins_iff atFloor.1 (by omega) atEnd.2 (by omega) built isSnapshot).mp wins
  have := beyond.1 entry mem isEntry
  omega

/-- A transaction has updated one account when the scan captures its floor and reads, and then
    updates another one and commits. -/
def straddled : Server :=
  (((((Server.start 10 (by decide) (by decide)).insert 1 [accountUpdated "1"] 9 (by decide)).flush 20
    (by decide) (by decide)).capture.read).insert 1 [accountUpdated "2"] 9 (by decide)).commit 1 9
    (by decide)

/-- The first record after the floor starts at the floor. -/
def adjacent : Server :=
  ((((Server.start 10 (by decide) (by decide)).capture.insert 1 [accountUpdated "1"] 9
    (by decide)).read).insert 1 [accountUpdated "2"] 9 (by decide)).commit 1 9 (by decide)

theorem reached_straddled : straddled.Reached :=
  ⟨10, by decide, by decide, .tail (.tail (.tail (.tail (.tail (.tail .refl
    (.insert _ 1 _ 9 rfl _)) (.flush _ 20 _ _)) (.capture _ rfl))
    (.read _ (by decide +kernel) rfl))
    (.insert _ 1 _ 9 rfl _)) (.commit _ 1 9 rfl _)⟩

theorem reached_adjacent : adjacent.Reached :=
  ⟨10, by decide, by decide, .tail (.tail (.tail (.tail (.tail .refl
    (.capture _ rfl)) (.insert _ 1 _ 9 rfl _))
    (.read _ (by decide +kernel) rfl))
    (.insert _ 1 _ 9 rfl _)) (.commit _ 1 9 rfl _)⟩

/-- The snapshot of a row may beat a newer live write: one of a transaction with a record below the
    floor, and one whose record starts at the floor, when it arrives first. -/
theorem snapshot_row_beats_newer_write : Overwritten straddled ∧ Overwritten adjacent := by
  have isAccount : docIdOf (accountUpdated "1") = some (docId "public.accounts" ["1"]) := by
    decide +kernel
  constructor
  · have captured : straddled.floor = some 20 := by decide +kernel
    exact overwritten_of reached_straddled captured rfl rfl (by decide +kernel)
      ⟨(accountUpdated "1", 10), mem_cons_self, isAccount, by decide⟩
  · have captured : adjacent.floor = some 10 := by decide +kernel
    exact overwritten_of reached_adjacent captured rfl rfl (by decide +kernel)
      ⟨(accountUpdated "1", 10), mem_cons_self, isAccount, by decide⟩

end

end Ventstream.Postgres
