import Ventstream.Joins.State

/-! # What a durability boundary commits

The handlers change memory and, unless a snapshot has suspended it, the open transaction. A boundary
between events commits a full batch, `flush_state` commits or, after a snapshot, dumps the whole of
memory. The engine ends with the first of these calls that fails.
-/

namespace Ventstream.Joins.JoinState

def flushState (dump : Bool) (state : JoinState) : Except String Unit × JoinState :=
  if dump then
    match state.dumpToPersistent with
    | (.ok (), dumped) => (.ok (), { dumped with persistEnabled := true })
    | (.error detail, failed) => (.error ("snapshot state dump: " ++ detail), failed)
  else
    match state.flushPersistent with
    | (.ok (), flushed) => (.ok (), flushed)
    | (.error detail, failed) => (.error ("persistence flush: " ++ detail), failed)

/-- A step of an engine that goes on. A `commit_boundary` with a full batch is a flush. -/
inductive Persists (state : JoinState) : JoinState → Prop where
  | mutate (scope : String) (mutation : Mutation) : Persists state (state.mutate scope mutation)
  | suspend : Persists state { state with persistEnabled := false }
  | boundary : state.flushPersistent = (.ok (), later) → Persists state later
  | flush (dump : Bool) : state.flushState dump = (.ok (), later) → Persists state later

variable {state later : JoinState}

/-- While no write failed and none was suspended, the transaction has what memory has. -/
def Mirrored (state : JoinState) : Prop :=
  state.persistFailure = none → state.persistEnabled = true → ∀ backend,
    state.backend = some backend → backend.pending.getD backend.committed = state.tables

/-- The database has what memory has, and nothing is left to commit. -/
def Committed (state : JoinState) : Prop :=
  ∀ backend, state.backend = some backend →
    backend.pending = none ∧ backend.committed = state.tables

theorem Committed.mirrored (committed : Committed state) : Mirrored state := by
  intro _ _ backend isBackend
  obtain ⟨nothing, same⟩ := committed backend isBackend
  rw [nothing, same]
  rfl

theorem Mirrored.mutate (mirrored : Mirrored state) (scope : String) (mutation : Mutation) :
    Mirrored (state.mutate scope mutation) := by
  unfold Mirrored JoinState.mutate Backend.write at *
  grind

theorem Mirrored.flushPersistent (mirrored : Mirrored state)
    (flushed : state.flushPersistent = (.ok (), later)) :
    (state.persistEnabled = true → Committed later) ∧ Mirrored later := by
  have commits : later.persistEnabled = state.persistEnabled ∧
      (state.persistEnabled = true → Committed later) := by
    unfold Mirrored Committed JoinState.flushPersistent ensurePersistenceHealthy Backend.flush at *
    grind
  refine ⟨commits.2, ?_⟩
  intro healthy enabled
  exact (commits.2 (commits.1 ▸ enabled)).mirrored healthy enabled

theorem committed_of_dump (dumped : state.dumpToPersistent = (.ok (), later)) :
    Committed later := by
  unfold Committed dumpToPersistent ensurePersistenceHealthy Backend.dumpState Backend.flush at *
  grind

theorem Mirrored.flushState (mirrored : Mirrored state)
    (flushed : state.flushState dump = (.ok (), later)) :
    (state.persistEnabled = true ∨ dump = true → Committed later) ∧ Mirrored later := by
  unfold JoinState.flushState at flushed
  split at flushed
  · split at flushed
    · rename_i dumped
      cases flushed
      have committed := committed_of_dump dumped
      exact ⟨fun _ => committed, Committed.mirrored committed⟩
    · cases flushed
  · split at flushed
    · rename_i notDump _ _ isFlushed
      cases flushed
      obtain ⟨commits, kept⟩ := mirrored.flushPersistent isFlushed
      exact ⟨fun whole => commits (whole.resolve_right notDump), kept⟩
    · cases flushed

theorem Persists.mirrored (persists : Persists state later) (mirrored : Mirrored state) :
    Mirrored later := by
  cases persists with
  | mutate scope mutation => exact mirrored.mutate scope mutation
  | suspend => exact nofun
  | boundary flushed => exact (mirrored.flushPersistent flushed).2
  | flush dump flushed => exact (mirrored.flushState flushed).2

/-- Whatever the handlers change and wherever the database fails, a `flush_state` that succeeds has
    committed exactly what memory holds, unless a snapshot is under way. -/
theorem flush_commits_memory {start state later : JoinState} {dump : Bool}
    (loaded : Committed start) (run : Relation.ReflTransGen Persists start state)
    (flushed : state.flushState dump = (.ok (), later))
    (whole : state.persistEnabled = true ∨ dump = true) : Committed later := by
  have mirrored : Mirrored state := by
    clear flushed whole
    induction run with
    | refl => exact loaded.mirrored
    | tail _ step ih => exact step.mirrored ih
  exact (mirrored.flushState flushed).1 whole

/-- A first row in an empty database. -/
theorem flush_commits_memory_row :
    let start : JoinState := { new with backend := some ⟨.empty, none, none, fun _ => none, 0⟩ }
    let changed := start.mutate "" (.setForeign ⟨"users", ⟨"[1]"⟩⟩ .null)
    Committed (changed.flushState false).2 := by
  intro start changed
  have loaded : Committed start := by
    rintro _ ⟨⟩
    exact ⟨rfl, rfl⟩
  exact @flush_commits_memory start changed _ false loaded (.single (.mutate _ _)) rfl (.inl rfl)

end Ventstream.Joins.JoinState
