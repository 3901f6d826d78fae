import Ventstream.Postgres.Bootstrap

/-! # When a bootstrap survives the stops of its process

A row that stays in its table is on its way to the sink as long as the process
that scans it lives. Only a stop can lose it, because the next process finds
the slot and skips the scan: the row is safe exactly when stops wait for the
snapshot to be durable.
-/

namespace Ventstream.Postgres.Bootstrap

open Library List

variable {Key Value : Type} [LinearOrder Key]

namespace World

variable {cfg : Config Key} {table : SnapshotTable} {row : Row Key Value}
variable {world later : World Key Value}

/-- The scan has still to publish the row. -/
def Pending (table : SnapshotTable) (row : Row Key Value) : Phase Key Value → Prop
  | .stopped | .tailing | .selecting [] _ => False
  | .selecting (current :: rest) lastPk =>
    current = table ∧ Past lastPk row.key ∨ table ∈ rest
  | .publishing current rest rows nextPk short =>
    current = table ∧ (row ∈ rows ∨ short = false ∧ nextPk < row.key) ∨ table ∈ rest

/-- The row is in the sink, on the bus or ahead of the scan. -/
def OnItsWay (table : SnapshotTable) (row : Row Key Value) (world : World Key Value) : Prop :=
  Landed table row world ∨ BusEvent.snapshot table row ∈ world.bus ∨ Pending table row world.phase

theorem pending_selecting_none (mem : table ∈ tables) :
    Pending table row (.selecting tables none) := by
  cases tables with
  | nil => cases mem
  | cons current rest =>
    rcases mem_cons.mp mem with rfl | later
    · exact .inl ⟨rfl, past_none _⟩
    · exact .inr later

variable {database : Database Key Value}

theorem selectChunk_eq (castsBack : cfg.CastsBack) : selectChunk cfg database table lastPk =
    page (·.key) (database.rows table) lastPk cfg.chunkSize := by
  have same : lastPk.map (cfg.recast table) = lastPk := by
    cases lastPk <;> simp [castsBack table]
  rw [selectChunk, same]

theorem pending_select (castsBack : cfg.CastsBack) (present : row ∈ database.rows table)
    (pending : Pending table row (.selecting (current :: rest) lastPk))
    (atEnd : (selectChunk cfg database current lastPk).getLast? = some last) :
    Pending table row (.publishing current rest (selectChunk cfg database current lastPk)
      last.key ((selectChunk cfg database current lastPk).length < cfg.chunkSize)) := by
  rw [selectChunk_eq castsBack] at atEnd ⊢
  rcases pending with ⟨rfl, past⟩ | waiting
  · refine .inl ⟨rfl, ?_⟩
    rcases mem_page_or_past cfg.chunkSize (database.sorted current) present past
      with onPage | ⟨full, beyond⟩
    · exact .inl onPage
    · exact .inr ⟨by simp [full], beyond last (mem_of_getLast? atEnd)⟩
  · exact .inr waiting

theorem not_past_of_empty_chunk (castsBack : cfg.CastsBack) (positive : 0 < cfg.chunkSize)
    (present : row ∈ database.rows table) (empty : selectChunk cfg database table lastPk = []) :
    ¬ Past lastPk row.key := by
  intro past
  rw [selectChunk_eq castsBack] at empty
  rcases mem_page_or_past cfg.chunkSize (database.sorted table) present past
    with onPage | ⟨full, -⟩
  · rw [empty] at onPage
    cases onPage
  · rw [empty, length_nil] at full
    omega

/-- What one move of the source task can be. -/
inductive Advanced (cfg : Config Key) (world : World Key Value) : World Key Value → Prop
  | resume (stopped : world.phase = .stopped)
      (skipped : maybeBootstrap cfg world.slotExists false = none) :
      Advanced cfg world { world with phase := .tailing }
  | begin {tables : List SnapshotTable} (stopped : world.phase = .stopped)
      (scanned : maybeBootstrap cfg world.slotExists false = some tables) :
      Advanced cfg world { world with slotExists := true, phase := .selecting tables none }
  | complete {lastPk : Option Key} (phase : world.phase = .selecting [] lastPk) : Advanced cfg world
        { world with bus := world.bus ++ [.snapshotComplete], phase := .tailing }
  | exhaust {current : SnapshotTable} {rest : List SnapshotTable} {lastPk : Option Key}
      (phase : world.phase = .selecting (current :: rest) lastPk)
      (empty : selectChunk cfg world.database current lastPk = []) :
      Advanced cfg world { world with phase := .selecting rest none }
  | select {current : SnapshotTable} {rest : List SnapshotTable} {lastPk : Option Key}
      {last : Row Key Value} (phase : world.phase = .selecting (current :: rest) lastPk)
      (atEnd : (selectChunk cfg world.database current lastPk).getLast? = some last) :
      Advanced cfg world { world with
        phase := .publishing current rest (selectChunk cfg world.database current lastPk)
          last.key
          ((selectChunk cfg world.database current lastPk).length < cfg.chunkSize) }
  | publish {current : SnapshotTable} {rest : List SnapshotTable} {first : Row Key Value}
      {rows : List (Row Key Value)} {nextPk : Key} {short : Bool}
      (phase : world.phase = .publishing current rest (first :: rows) nextPk short) :
      Advanced cfg world { world with
        bus := world.bus ++ [.snapshot current first]
        phase := .publishing current rest rows nextPk short }
  | turn {current : SnapshotTable} {rest : List SnapshotTable} {nextPk : Key} {short : Bool}
      (phase : world.phase = .publishing current rest [] nextPk short) :
      Advanced cfg world { world with
        phase := if short then .selecting rest none
          else .selecting (current :: rest) (some nextPk) }

theorem advance_cases (moved : world.advance cfg = some later) : Advanced cfg world later := by
  unfold World.advance at moved
  split at moved
  · rename_i stopped
    split at moved
    · rename_i skipped
      cases moved
      exact .resume stopped skipped
    · rename_i scanned
      cases moved
      exact .begin stopped scanned
  · rename_i phase
    cases moved
    exact .complete phase
  · rename_i phase
    split at moved
    · rename_i empty
      cases moved
      exact .exhaust phase (getLast?_eq_none_iff.mp empty)
    · rename_i atEnd
      cases moved
      exact .select phase atEnd
  · rename_i phase
    cases moved
    exact .publish phase
  · rename_i phase
    cases moved
    exact .turn phase
  · cases moved

theorem OnItsWay.advance (castsBack : cfg.CastsBack) (positive : 0 < cfg.chunkSize)
    (present : row ∈ world.database.rows table) (way : OnItsWay table row world)
    (moved : world.advance cfg = some later) : OnItsWay table row later := by
  rcases way with landed | onBus | pending
  · left
    cases advance_cases moved <;> exact landed
  · right; left
    cases advance_cases moved with
    | resume | begin | exhaust | select | turn => exact onBus
    | complete | publish => exact mem_append_left _ onBus
  · right
    cases advance_cases moved with
    | resume stopped | begin stopped =>
      rw [stopped] at pending
      exact pending.elim
    | complete phase =>
      rw [phase] at pending
      exact pending.elim
    | exhaust phase empty =>
      rw [phase] at pending
      rcases pending with ⟨rfl, past⟩ | waiting
      · exact absurd past (not_past_of_empty_chunk castsBack positive present empty)
      · exact .inr (pending_selecting_none waiting)
    | select phase atEnd =>
      rw [phase] at pending
      exact .inr (pending_select castsBack present pending atEnd)
    | publish phase =>
      rw [phase] at pending
      rcases pending with ⟨rfl, onPage | beyond⟩ | waiting
      · rcases mem_cons.mp onPage with rfl | later
        · exact .inl (by simp)
        · exact .inr (.inl ⟨rfl, .inl later⟩)
      · exact .inr (.inl ⟨rfl, .inr beyond⟩)
      · exact .inr (.inr waiting)
    | @turn current rest nextPk short phase =>
      rw [phase] at pending
      right
      rcases pending with ⟨rfl, onPage | ⟨long, beyond⟩⟩ | waiting
      · cases onPage
      · simp only [long]
        exact .inl ⟨rfl, (past_some _ _).mpr beyond⟩
      · cases short with
        | true => exact pending_selecting_none waiting
        | false => exact .inr waiting

theorem settle_inv (moved : world.settle = some later) : ∃ ev bus, world.bus = ev :: bus ∧
    later = { world with bus := bus, sink := world.sink ++ [ev] } := by
  unfold World.settle at moved
  split at moved
  · cases moved
  · rename_i ev bus queued
    cases moved
    exact ⟨ev, bus, queued, rfl⟩

theorem OnItsWay.settle (way : OnItsWay table row world) (moved : world.settle = some later) :
    OnItsWay table row later := by
  obtain ⟨ev, bus, queued, rfl⟩ := settle_inv moved
  rcases way with landed | onBus | pending
  · exact .inl (mem_append_left _ landed)
  · rw [queued] at onBus
    rcases mem_cons.mp onBus with rfl | later
    · exact .inl (by simp [Landed])
    · exact .inr (.inl later)
  · exact .inr (.inr pending)

/-- How many rows of the table lie past the cursor. -/
def remaining (database : Database Key Value) (table : SnapshotTable) (lastPk : Option Key) : Nat :=
  ((database.rows table).filter fun row => Past lastPk row.key).length

/-- Enough moves to scan the tables and to make every row durable. -/
def tablesWork (database : Database Key Value) : List SnapshotTable → Nat
  | [] => 2
  | table :: rest => 4 * remaining database table none + 2 + tablesWork database rest

def phaseWork (cfg : Config Key) (database : Database Key Value) (slotExists : Bool) :
    Phase Key Value → Nat
  | .stopped =>
    match maybeBootstrap cfg slotExists false with
    | none => 1
    | some tables => 1 + tablesWork database tables
  | .selecting [] _ => 2
  | .selecting (table :: rest) lastPk =>
    4 * remaining database table lastPk + 2 + tablesWork database rest
  | .publishing table rest rows nextPk short =>
    2 * rows.length + 1 + if short then tablesWork database rest
      else 4 * remaining database table (some nextPk) + 2 + tablesWork database rest
  | .tailing => 0

/-- Bounds the moves left to the process and the sink while the tables rest. -/
def work (cfg : Config Key) (world : World Key Value) : Nat :=
  world.bus.length + phaseWork cfg world.database world.slotExists world.phase

theorem phaseWork_selecting_none (database : Database Key Value) (slotExists : Bool)
    (tables : List SnapshotTable) :
    phaseWork cfg database slotExists (.selecting tables none) = tablesWork database tables := by
  cases tables <;> rfl

theorem work_select (castsBack : cfg.CastsBack)
    (atEnd : (selectChunk cfg database current lastPk).getLast? = some last) :
    0 < (selectChunk cfg database current lastPk).length ∧
    remaining database current (some last.key) +
      (selectChunk cfg database current lastPk).length ≤ remaining database current lastPk := by
  rw [selectChunk_eq castsBack] at atEnd ⊢
  exact ⟨length_pos_of_mem (mem_of_getLast? atEnd),
    length_past_last (database.sorted current) atEnd⟩

theorem work_advance (castsBack : cfg.CastsBack) (moved : world.advance cfg = some later) :
    work cfg later < work cfg world := by
  unfold work
  cases advance_cases moved with
  | resume stopped skipped => simp [stopped, phaseWork, skipped]
  | begin stopped scanned =>
    rw [phaseWork_selecting_none]
    simp only [stopped, phaseWork, scanned]
    omega
  | complete phase => simp [phase, phaseWork]
  | exhaust phase empty =>
    rw [phaseWork_selecting_none]
    simp only [phase, phaseWork]
    omega
  | @select current rest lastPk last phase atEnd =>
    obtain ⟨nonempty, shrinks⟩ := work_select castsBack atEnd
    simp only [phase, phaseWork]
    split <;> omega
  | publish phase =>
    simp only [phase, phaseWork, length_append, length_cons, length_nil]
    omega
  | @turn current rest nextPk short phase =>
    cases short with
    | true =>
      rw [if_pos rfl, phaseWork_selecting_none]
      simp [phase, phaseWork]
    | false => simp [phase, phaseWork]

theorem work_settle (moved : world.settle = some later) : work cfg later < work cfg world := by
  obtain ⟨ev, bus, queued, rfl⟩ := settle_inv moved
  simp [work, queued]

theorem Calm.bounded (castsBack : cfg.CastsBack) (calm : Calm cfg moves world later) :
    moves + work cfg later ≤ work cfg world := by
  induction calm with
  | refl world => omega
  | advance moved rest ih =>
    have less := work_advance castsBack moved
    omega
  | @settle moves world next later moved rest ih =>
    have less := @work_settle _ _ _ cfg _ _ moved
    omega

theorem database_settle (moved : world.settle = some later) : later.database = world.database := by
  obtain ⟨_, _, _, rfl⟩ := settle_inv moved
  rfl

theorem phase_of_quiescent (quiet : Quiescent cfg world) :
    world.phase = .tailing ∧ world.bus = [] := by
  obtain ⟨idle, drained⟩ := quiet
  constructor
  · unfold World.advance at idle
    split at idle
    · split at idle <;> cases idle
    · cases idle
    · split at idle <;> cases idle
    · cases idle
    · cases idle
    · assumption
  · unfold World.settle at drained
    split at drained
    · assumption
    · cases drained

/-- What holds of the row in every state of a run that stops only when settled. -/
structure Safe (table : SnapshotTable) (row : Row Key Value) (world : World Key Value) : Prop where
  way : world.slotExists = true → OnItsWay table row world
  emptied : world.phase = .stopped → world.bus = []
  slotted : world.phase ≠ .stopped → world.slotExists = true

section

variable {chunkSize : Nat} (castsBack : cfg.CastsBack) (flat : cfg.bootstrap = some ⟨[], chunkSize⟩)
  (positive : 0 < chunkSize) (mem : table ∈ fetchPublicationSnapshotTables cfg.publication)
include castsBack flat positive mem

theorem Safe.advance (safe : Safe table row world)
    (present : world.slotExists → row ∈ world.database.rows table)
    (moved : world.advance cfg = some later) : Safe table row later := by
  have chunk : 0 < cfg.chunkSize := by simpa [Config.chunkSize, flat] using positive
  refine ⟨fun _ => ?_, ?_, ?_⟩
  · cases slot : world.slotExists with
    | true => exact (safe.way slot).advance castsBack chunk (present slot) moved
    | false =>
      have stopped : world.phase = .stopped := by
        by_contra running
        rw [safe.slotted running] at slot
        cases slot
      have scanned : maybeBootstrap cfg world.slotExists false =
          some (fetchPublicationSnapshotTables cfg.publication) := by
        simp [maybeBootstrap, flat, slot]
      simp only [World.advance, stopped, scanned, Option.some.injEq] at moved
      subst moved
      exact .inr (.inr (pending_selecting_none mem))
  · cases advance_cases moved with
    | resume | begin | complete | exhaust | select | publish => exact nofun
    | @turn _ _ _ short _ => cases short <;> exact nofun
  · intro _
    cases advance_cases moved with
    | resume stopped skipped =>
      cases slot : world.slotExists with
      | true => rfl
      | false => simp [maybeBootstrap, flat, slot] at skipped
    | begin => rfl
    | complete phase | exhaust phase | select phase | publish phase | turn phase =>
      exact safe.slotted (by simp [phase])

omit castsBack flat positive mem in
theorem Safe.settle (safe : Safe table row world) (moved : world.settle = some later) :
    Safe table row later := by
  have way := fun slot => (safe.way slot).settle moved
  obtain ⟨ev, bus, queued, rfl⟩ := settle_inv moved
  refine ⟨way, fun stopped => ?_, safe.slotted⟩
  rw [safe.emptied stopped] at queued
  cases queued

omit castsBack flat positive mem in
theorem Safe.landed_of_stopped (safe : Safe table row world) (stopped : world.phase = .stopped)
    (slot : world.slotExists) : Landed table row world := by
  rcases safe.way slot with landed | onBus | pending
  · exact landed
  · rw [safe.emptied stopped] at onBus
    cases onBus
  · rw [stopped] at pending
    exact pending.elim

/-- A stop in a settled state leaves nothing of the row behind. -/
theorem Run.safe (run : Run cfg SnapshotSettled table row world) :
    Safe table row world ∧ (world.slotExists → row ∈ world.database.rows table) := by
  induction run with
  | start database => exact ⟨⟨nofun, fun _ => rfl, fun running => absurd rfl running⟩, nofun⟩
  | step run move kept ih =>
    obtain ⟨safe, present⟩ := ih
    refine ⟨?_, kept⟩
    cases move with
    | advance moved => exact safe.advance castsBack flat positive mem present moved
    | settle moved => exact safe.settle moved
    | wal lsn tailing =>
      refine ⟨fun slot => ?_, fun stopped => ?_, safe.slotted⟩
      · exact (safe.way slot).imp id (Or.imp (mem_append_left _) id)
      · rw [tailing] at stopped
        cases stopped
    | change database => exact ⟨safe.way, safe.emptied, safe.slotted⟩
    | stop running may =>
      refine ⟨fun slot => ?_, fun _ => rfl, fun still => absurd rfl still⟩
      rcases safe.way slot with landed | onBus | pending
      · exact .inl landed
      · exact absurd onBus (may.2 table row)
      · rw [may.1] at pending
        exact pending.elim

theorem Safe.calm (calm : Calm cfg moves world later) (safe : Safe table row world)
    (present : row ∈ world.database.rows table) : Safe table row later := by
  induction calm with
  | refl world => exact safe
  | advance moved rest ih =>
    exact ih (safe.advance castsBack flat positive mem (fun _ => present) moved)
      (by cases advance_cases moved <;> exact present)
  | settle moved rest ih =>
    exact ih (safe.settle moved) (by rw [database_settle moved]; exact present)

end

theorem Safe.landed_of_quiescent (safe : Safe table row world)
    (quiet : Quiescent cfg world) : Landed table row world := by
  obtain ⟨tailing, drained⟩ := phase_of_quiescent quiet
  rcases safe.way (safe.slotted (by simp [tailing])) with landed | onBus | pending
  · exact landed
  · rw [drained] at onBus
    cases onBus
  · rw [tailing] at pending
    exact pending.elim

/-- In every run over keys that the cast gives back, and whose stops all wait
    for the snapshot to be durable: a process that skips the scan finds the row
    in the sink, and once stops and table changes cease, the process and the
    sink come to rest with the row in the sink after a bounded number of moves. -/
theorem bootstrap_not_lost (config : Config Key) {chunkSize : Nat}
    (castsBack : config.CastsBack) (flat : config.bootstrap = some ⟨[], chunkSize⟩)
    (positive : 0 < chunkSize) {table : SnapshotTable}
    (member : table ∈ fetchPublicationSnapshotTables config.publication)
    {row : Row Key Value} {world : World Key Value}
    (run : Run config SnapshotSettled table row world) :
    (world.phase = .stopped → world.slotExists = true → Landed table row world) ∧
    (row ∈ world.database.rows table → ∃ bound, ∀ moves later, Calm config moves world later →
      moves ≤ bound ∧ (Quiescent config later → Landed table row later)) := by
  obtain ⟨safe, -⟩ := run.safe castsBack flat positive member
  refine ⟨safe.landed_of_stopped, fun present => ⟨work config world, fun moves later calm => ?_⟩⟩
  have bounded := calm.bounded castsBack
  refine ⟨by omega, fun quiet => ?_⟩
  exact (Safe.calm castsBack flat positive member calm safe present).landed_of_quiescent quiet

/-- A publication with one table, bootstrapped with the default chunk size. -/
def showsConfig : Config Nat where
  publication := [⟨"public", "shows", ["id"]⟩]
  bootstrap := some ⟨[], 10000⟩
  recast _ key := key

def shows : SnapshotTable := ⟨"public", "shows", ["id"], by decide⟩

def show1 : Row Nat String := ⟨1, "pilot"⟩

def showsDatabase : Database Nat String := ⟨fun _ => [show1], by simp⟩

/-- The scan runs to its end, the sink settles it, and only then the process stops. -/
theorem bootstrap_not_lost_shows :
    ∃ world, Run showsConfig SnapshotSettled shows show1 world ∧ world.phase = .stopped ∧
      world.slotExists = true ∧ Landed shows show1 world := by
  have kept : true = true → show1 ∈ showsDatabase.rows shows := fun _ => mem_singleton_self _
  have fresh : Run showsConfig SnapshotSettled shows show1 _ := .start showsDatabase
  have begun := Run.step fresh (.advance rfl) kept
  have selected := Run.step begun (.advance rfl) kept
  have published := Run.step selected (.advance rfl) kept
  have turned := Run.step published (.advance rfl) kept
  have completed := Run.step turned (.advance rfl) kept
  have settled := Run.step completed (.settle rfl) kept
  have stopped := Run.step settled (.stop (by simp) ⟨rfl, by simp⟩) kept
  exact ⟨_, stopped, rfl, rfl,
    (bootstrap_not_lost showsConfig (fun _ _ => rfl) rfl (by decide) (by decide) stopped).1 rfl rfl⟩

/-- The process stops right after it created the slot. The next one skips the
    scan and comes to rest, and the row, which never changed, is in no sink. -/
theorem stop_after_create_slot_loses_row :
    ∃ stopped later, Run showsConfig (fun _ => True) shows show1 stopped ∧
      stopped.phase = .stopped ∧ stopped.slotExists = true ∧ ¬ Landed shows show1 stopped ∧
      Calm showsConfig 1 stopped later ∧ Quiescent showsConfig later ∧
      ¬ Landed shows show1 later := by
  have kept : true = true → show1 ∈ showsDatabase.rows shows := fun _ => mem_singleton_self _
  have fresh : Run showsConfig (fun _ => True) shows show1 _ := .start showsDatabase
  have begun := Run.step fresh (.advance rfl) kept
  have stopped := Run.step begun (.stop (by simp) trivial) kept
  exact ⟨_, _, stopped, rfl, rfl, by simp [Landed, World.stop], .advance rfl (.refl _),
    ⟨rfl, rfl⟩, by simp [Landed, World.stop]⟩

end World

end Ventstream.Postgres.Bootstrap
