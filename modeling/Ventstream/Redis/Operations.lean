import Ventstream.Redis.Prepare
import Ventstream.Redis.Views

/-! # Running the operations of a batch

The operations of a batch run one after another. Whatever way the commands were packed into
pipelines, a run that succeeds goes through the keyspace that the operations of the earlier
events alone leave, and then through the commands of the later ones in their order. A
command on views may have been found stale and is then passed over.
-/

namespace Ventstream.Redis

open Core Library Library.Program Library.Redis List

section

variable (cfg : Config) (leases : String → WriterFence)

/-- The fences of a pipeline: one for each of its targets. -/
def fencesFor (targets : List String) : List WriterFence := targets.eraseDups.map leases

def cleared (patterns : List String) (space : Keyspace) : Keyspace := fun name =>
  if patterns.any (matchesPattern · name) then none else space name

/-- A clear that came to its end: it scans until nothing matches any more. -/
def clearTarget (target : String) (patterns : List String) : Script PUnit := do
  verifyWriterFence cfg.keys (leases target)
  update fun space => (⟨⟩, cleared patterns space)

def runOperation : Operation → Script PUnit
  | .pipeline cmds => do
      let _ ← executeFencedPipeline cfg.keys cfg.contract
        (fencesFor leases (cmds.map (·.target))) cmds
      pure ⟨⟩
  | .viewPipeline cmds => do
      let _ ← executeFencedViewPipeline cfg.keys cfg.contract
        (fencesFor leases (cmds.map (·.target))) cmds
      pure ⟨⟩
  | .clearTarget target patterns => clearTarget cfg leases target patterns

def runOperations (operations : List Operation) : Script PUnit :=
  each (runOperation cfg leases) operations

/-- What is known of the keyspace while the scripts run, and of the commands on views that a script
    has accepted and not yet carried out. -/
structure Regime where
  Fits : Keyspace → Prop
  Known : Keyspace → List ViewCommand → Prop
  Allows : Operation → Prop
  admitted : ∀ {space fences cmds verdicts}, Fits space →
    exec (accept cfg.keys cfg.contract fences cmds) space = (.ok verdicts, space) →
    Known space (accepted cmds verdicts)
  carried : ∀ {space later cmd rest}, Known space (cmd :: rest) →
    exec (carryOut cfg.keys cfg.contract cmd) space = (.ok ⟨⟩, later) → Known later rest
  done : ∀ {space}, Known space [] → Fits space
  direct : ∀ {cmds space later}, Allows (.pipeline cmds) → Fits space → Fits later
  clear : ∀ {target patterns space}, Allows (.clearTarget target patterns) → Fits space →
    Fits (cleared patterns space)

/-- Nothing is known. -/
def Regime.loose : Regime cfg where
  Fits _ := True
  Known _ _ := True
  Allows _ := True
  admitted _ _ := trivial
  carried _ _ := trivial
  done _ := trivial
  direct _ _ := trivial
  clear _ _ := trivial

variable {cfg} (regime : Regime cfg)

/-- A run through operations of one command each. -/
inductive Ran : List Operation → Keyspace → Keyspace → Prop
  | done (space : Keyspace) : Ran [] space space
  | direct {cmd : DirectCommand} {rest : List Operation} {outcome : Outcome}
      {space between later : Keyspace}
      (ran : exec (runDirect cfg.keys cfg.contract cmd) space = (.ok outcome, between))
      (further : Ran rest between later) : Ran (.pipeline [cmd] :: rest) space later
  | passed {cmd : ViewCommand} {rest : List Operation} {space later : Keyspace}
      (further : Ran rest space later) : Ran (.viewPipeline [cmd] :: rest) space later
  | carried {cmd : ViewCommand} {others : List ViewCommand} {rest : List Operation}
      {space between later : Keyspace} (known : regime.Known space (cmd :: others))
      (ran : exec (carryOut cfg.keys cfg.contract cmd) space = (.ok ⟨⟩, between))
      (further : Ran rest between later) : Ran (.viewPipeline [cmd] :: rest) space later
  | cleared {target : String} {patterns : List String} {rest : List Operation}
      {space later : Keyspace} (further : Ran rest (cleared patterns space) later) :
      Ran (.clearTarget target patterns :: rest) space later

end

variable {cfg : Config} {leases : String → WriterFence} {regime : Regime cfg}
  {space later : Keyspace}

section

variable {between : Keyspace} {front back : List Operation}

theorem Ran.append (first : Ran regime front space between)
    (second : Ran regime back between later) : Ran regime (front ++ back) space later := by
  induction first with
  | done => exact second
  | direct ran _ ih => exact .direct ran (ih second)
  | passed _ ih => exact .passed (ih second)
  | carried known ran _ ih => exact .carried known ran (ih second)
  | cleared _ ih => exact .cleared (ih second)

theorem verifyFences_subset (verified : exec (verifyFences cfg.keys fences) space = (.ok ⟨⟩, later))
    (subset : fewer ⊆ fences) : exec (verifyFences cfg.keys fewer) space = (.ok ⟨⟩, space) := by
  refine exec_each_idle fun fence mem => ?_
  obtain ⟨before, after, isAll⟩ := append_of_mem (subset mem)
  rw [isAll] at verified
  obtain ⟨mid, next, earlier, here, -⟩ := exec_each_split verified
  have unchanged : space = mid := (verifyFences_reads before).ran earlier
  have still : mid = next := (verifyWriterFence_reads fence).ran here
  rw [← still, ← unchanged] at here
  exact here

theorem fencesFor_subset (subset : fewer ⊆ targets) :
    fencesFor leases fewer ⊆ fencesFor leases targets := by
  intro fence mem
  obtain ⟨target, isTarget, rfl⟩ := mem_map.mp mem
  exact mem_map.mpr ⟨target, by simpa using subset (by simpa using isTarget), rfl⟩

theorem ran_directs
    (ran : exec (runDirects cfg.keys cfg.contract cmds) space = (.ok outcomes, later)) :
    Ran regime (cmds.map fun cmd => .pipeline [cmd]) space later := by
  induction cmds generalizing space outcomes with
  | nil =>
    cases ran
    exact .done _
  | cons cmd rest ih =>
    obtain ⟨outcome, between, first, further⟩ := exec_bind_inv ran
    obtain ⟨others, last, rested, ends⟩ := exec_bind_inv further
    cases ends
    exact .direct first (ih rested)

theorem runDirects_append (ran : exec (runDirects cfg.keys cfg.contract (cmds ++ more)) space =
      (.ok outcomes, later)) :
    ∃ earlier others between,
      exec (runDirects cfg.keys cfg.contract cmds) space = (.ok earlier, between) ∧
      exec (runDirects cfg.keys cfg.contract more) between = (.ok others, later) := by
  induction cmds generalizing space outcomes with
  | nil => exact ⟨[], outcomes, space, rfl, ran⟩
  | cons cmd rest ih =>
    obtain ⟨outcome, mid, first, further⟩ := exec_bind_inv ran
    obtain ⟨remaining, last, rested, ends⟩ := exec_bind_inv further
    cases ends
    obtain ⟨earlier, others, between, ranFirst, ranRest⟩ := ih rested
    refine ⟨outcome :: earlier, others, between, ?_, ranRest⟩
    rw [runDirects, exec_bind_ok first, exec_bind_ok ranFirst]
    rfl

variable {cmds more : List ViewCommand}

theorem simulateAll_append {verdicts}
    (ran : exec (simulateAll cfg.keys cfg.contract tables (cmds ++ more)) space =
      (.ok verdicts, later)) :
    ∃ earlier others, verdicts = earlier ++ others ∧ earlier.length = cmds.length ∧
      exec (simulateAll cfg.keys cfg.contract tables cmds) space =
        (.ok earlier, space) := by
  induction cmds generalizing tables verdicts with
  | nil => exact ⟨[], verdicts, rfl, rfl, rfl⟩
  | cons cmd rest ih =>
    obtain ⟨⟨verdict, trial⟩, first, further⟩ := (simulate_reads tables cmd).bind_inv ran
    obtain ⟨remaining, last, rested, ends⟩ := exec_bind_inv further
    cases ends
    obtain ⟨earlier, others, rfl, sameLength, ranFirst⟩ := ih rested
    refine ⟨verdict :: earlier, others, rfl, by simp [sameLength], ?_⟩
    rw [simulateAll, exec_bind_ok first]
    exact exec_bind_ok ranFirst

theorem accepted_append (sameLength : earlier.length = cmds.length) :
    accepted (cmds ++ more) (earlier ++ others) =
      accepted cmds earlier ++ accepted more others := by
  unfold accepted
  rw [zip_append sameLength.symm, filter_append, map_append]

theorem ran_carries {verdicts} (known : regime.Known space (accepted cmds verdicts ++ others))
    (ran : exec (each (carryOut cfg.keys cfg.contract) (accepted cmds verdicts)) space =
      (.ok ⟨⟩, later)) :
    Ran regime (cmds.map fun cmd => .viewPipeline [cmd]) space later ∧
      regime.Known later others := by
  induction cmds generalizing space verdicts with
  | nil =>
    cases ran
    exact ⟨.done _, known⟩
  | cons cmd rest ih =>
    cases verdicts with
    | nil =>
      obtain ⟨ranOn, knownOn⟩ := @ih space [] (by simpa [accepted] using known)
        (by simpa [accepted] using ran)
      exact ⟨.passed ranOn, knownOn⟩
    | cons verdict verdicts =>
      cases verdict with
      | false =>
        obtain ⟨ranOn, knownOn⟩ := ih known ran
        exact ⟨.passed ranOn, knownOn⟩
      | true =>
        obtain ⟨_, between, first, further⟩ := exec_bind_inv ran
        obtain ⟨ranOn, knownOn⟩ := ih (regime.carried known first) further
        exact ⟨.carried known first ranOn, knownOn⟩

theorem viewPipeline_inv
    (ran : exec (runOperation cfg leases (.viewPipeline cmds)) space = (.ok ⟨⟩, later)) :
    ∃ verdicts, exec (accept cfg.keys cfg.contract (fencesFor leases (cmds.map (·.target))) cmds)
        space = (.ok verdicts, space) ∧
      exec (each (carryOut cfg.keys cfg.contract) (accepted cmds verdicts)) space =
        (.ok ⟨⟩, later) := by
  obtain ⟨counts, _, whole, ends⟩ := exec_bind_inv ran
  cases ends
  obtain ⟨verdicts, admits, further⟩ := (admit_reads _ cmds).bind_inv whole
  obtain ⟨_, last, carries, ends⟩ := exec_bind_inv further
  cases ends
  exact ⟨verdicts, admits, carries⟩

/-- A pipeline that succeeds also succeeds without its last commands, which then follow. -/
theorem exec_viewPipeline_append (fits : regime.Fits space)
    (ran : exec (runOperation cfg leases (.viewPipeline (cmds ++ more))) space = (.ok ⟨⟩, later)) :
    ∃ between, exec (runOperation cfg leases (.viewPipeline cmds)) space = (.ok ⟨⟩, between) ∧
      Ran regime (more.map fun cmd => .viewPipeline [cmd]) between later ∧
      regime.Fits later := by
  obtain ⟨verdicts, admits, carries⟩ := viewPipeline_inv ran
  have known := regime.admitted fits admits
  obtain ⟨_, verified, simulates⟩ := (verifyFences_reads _).bind_inv admits
  obtain ⟨earlier, others, rfl, sameLength, simulated⟩ := simulateAll_append simulates
  rw [accepted_append sameLength] at carries known
  rw [each_append] at carries
  obtain ⟨_, between, first, rest⟩ := exec_bind_inv carries
  have verifiedFirst := @verifyFences_subset cfg space space _
    (fencesFor leases (cmds.map (·.target))) verified (fencesFor_subset (by simp))
  have admitsFirst : exec (accept cfg.keys cfg.contract
      (fencesFor leases (cmds.map (·.target))) cmds) space = (.ok earlier, space) := by
    rw [accept, exec_bind_ok verifiedFirst, simulated]
  obtain ⟨-, knownRest⟩ := ran_carries known first
  rw [← append_nil (accepted more others)] at knownRest
  obtain ⟨ranRest, knownEnd⟩ := ran_carries knownRest rest
  refine ⟨between, ?_, ranRest, regime.done knownEnd⟩
  rw [runOperation, executeFencedViewPipeline, bind_assoc, exec_bind_ok admitsFirst,
    bind_assoc, exec_bind_ok first]
  rfl

theorem exec_pipeline_append {cmds more : List DirectCommand}
    (ran : exec (runOperation cfg leases (.pipeline (cmds ++ more))) space = (.ok ⟨⟩, later)) :
    ∃ between, exec (runOperation cfg leases (.pipeline cmds)) space = (.ok ⟨⟩, between) ∧
      Ran regime (more.map fun cmd => .pipeline [cmd]) between later := by
  obtain ⟨outcomes, last, whole, ends⟩ := exec_bind_inv ran
  cases ends
  obtain ⟨_, verified, directs⟩ := (verifyFences_reads _).bind_inv whole
  obtain ⟨earlier, others, between, first, second⟩ := runDirects_append directs
  have verifiedFirst := @verifyFences_subset cfg space space _
    (fencesFor leases (cmds.map (·.target))) verified (fencesFor_subset (by simp))
  refine ⟨between, ?_, ran_directs second⟩
  rw [runOperation, executeFencedPipeline, bind_assoc, exec_bind_ok verifiedFirst,
    exec_bind_ok first]
  rfl

theorem ran_operation (allowed : regime.Allows operation) (fits : regime.Fits space)
    (ran : exec (runOperation cfg leases operation) space = (.ok ⟨⟩, later)) :
    Ran regime operation.singles space later ∧ regime.Fits later := by
  cases operation with
  | pipeline cmds =>
    obtain ⟨outcomes, last, whole, ends⟩ := exec_bind_inv ran
    cases ends
    obtain ⟨_, -, directs⟩ := (verifyFences_reads _).bind_inv whole
    exact ⟨ran_directs directs, regime.direct allowed fits⟩
  | viewPipeline cmds =>
    obtain ⟨verdicts, admits, carries⟩ := viewPipeline_inv ran
    have known := regime.admitted fits admits
    rw [← append_nil (accepted cmds verdicts)] at known
    obtain ⟨ranAll, knownEnd⟩ := ran_carries known carries
    exact ⟨ranAll, regime.done knownEnd⟩
  | clearTarget target patterns =>
    obtain ⟨_, -, clears⟩ := (verifyWriterFence_reads _).bind_inv ran
    cases clears
    exact ⟨.cleared (.done _), regime.clear allowed fits⟩

theorem ran_operations (allowed : ∀ operation ∈ operations, regime.Allows operation)
    (fits : regime.Fits space)
    (ran : exec (runOperations cfg leases operations) space = (.ok ⟨⟩, later)) :
    Ran regime (operations.flatMap Operation.singles) space later ∧ regime.Fits later := by
  induction operations generalizing space with
  | nil =>
    cases ran
    exact ⟨.done _, fits⟩
  | cons operation rest ih =>
    obtain ⟨_, between, first, further⟩ := exec_bind_inv ran
    obtain ⟨here, fitsThen⟩ := ran_operation (allowed operation mem_cons_self) fits first
    obtain ⟨beyond, fitsLater⟩ := ih (fun other mem =>
      allowed other (mem_cons_of_mem operation mem)) fitsThen further
    exact ⟨here.append beyond, fitsLater⟩

theorem runOperations_append {operations more}
    (ran : exec (runOperations cfg leases (operations ++ more)) space = (.ok ⟨⟩, later)) :
    ∃ between, exec (runOperations cfg leases operations) space = (.ok ⟨⟩, between) ∧
      exec (runOperations cfg leases more) between = (.ok ⟨⟩, later) := by
  rw [runOperations, each_append] at ran
  obtain ⟨_, between, first, second⟩ := exec_bind_inv ran
  exact ⟨between, first, second⟩

end

section

variable {α : Type} {planner : Planner α}

theorem commands_flush (builder : Builder α) : (builder.flush planner.wrap).commands = [] := by
  unfold Builder.flush
  split
  · rename_i isEmpty
    exact isEmpty_iff.mp isEmpty
  · rfl

theorem operations_flush (builder : Builder α) : (builder.flush planner.wrap).operations =
    builder.operations ++ planner.wrapped builder.commands := by
  unfold Builder.flush Planner.wrapped
  split <;> simp_all

/-- That a pipeline which succeeds also succeeds without its last commands. -/
def Splits (leases : String → WriterFence) (regime : Regime cfg) (planner : Planner α) : Prop :=
  ∀ {cmds more : List α} {space later : Keyspace}, regime.Fits space →
    exec (runOperation cfg leases (planner.wrap (cmds ++ more))) space = (.ok ⟨⟩, later) →
    ∃ between, exec (runOperation cfg leases (planner.wrap cmds)) space = (.ok ⟨⟩, between) ∧
      Ran regime (more.map fun cmd => planner.wrap [cmd]) between later ∧
      regime.Fits later

section

variable (splits : Splits leases regime planner)
  (allowed : ∀ cmds, regime.Allows (planner.wrap cmds))

include splits allowed

theorem Splits.wrapped (fits : regime.Fits space)
    (ran : exec (runOperations cfg leases (planner.wrapped (cmds ++ more))) space =
      (.ok ⟨⟩, later)) :
    ∃ between, exec (runOperations cfg leases (planner.wrapped cmds)) space = (.ok ⟨⟩, between) ∧
      Ran regime (more.map fun cmd => planner.wrap [cmd]) between later ∧
      regime.Fits later := by
  have alone : ∀ {operation : Operation} {start ends : Keyspace},
      exec (runOperations cfg leases [operation]) start = (.ok ⟨⟩, ends) ↔
        exec (runOperation cfg leases operation) start = (.ok ⟨⟩, ends) := by
    intro operation start ends
    rw [runOperations, exec_each_cons]
    cases exec (runOperation cfg leases operation) start with
    | mk result state => cases result <;> simp
  cases cmds with
  | nil =>
    obtain ⟨through, fitsLater⟩ := ran_operations (by
      intro operation mem
      unfold Planner.wrapped at mem
      split at mem
      · cases mem
      · rw [mem_singleton.mp mem]
        exact allowed _) fits ran
    rw [Planner.singles_wrapped] at through
    exact ⟨space, rfl, through, fitsLater⟩
  | cons cmd rest =>
    have isWrapped : ∀ others, planner.wrapped (cmd :: rest ++ others) =
        [planner.wrap (cmd :: rest ++ others)] := fun others => rfl
    rw [isWrapped, alone] at ran
    obtain ⟨between, first, through, fitsLater⟩ := splits fits ran
    exact ⟨between, alone.mpr first, through, fitsLater⟩

/-- The run of a batch goes through what the operations of its first events leave. -/
theorem cut_run {after : List SinkEvent}
    (isPrepared : planner.prepare (before ++ ev :: after) = .ok prepared)
    (allAllowed : ∀ operation ∈ prepared.operations, regime.Allows operation)
    (fits : regime.Fits space)
    (ran : exec (runOperations cfg leases prepared.operations) space = (.ok ⟨⟩, later)) :
    ∃ cut mid plan, planner.prepare before = .ok cut ∧ planner.plan ev = .ok plan ∧
      (∀ message, plan = .reject message → before.length ∈ prepared.rejected.map (·.1)) ∧
      exec (runOperations cfg leases cut.operations) space = (.ok ⟨⟩, mid) ∧
      Ran regime (planner.asked ev ++ after.flatMap planner.asked) mid later := by
  obtain ⟨last, folds, isFinish⟩ := ok_of_bind isPrepared
  cases isFinish
  rw [foldlM_append] at folds
  obtain ⟨progress, foldsBefore, foldsRest⟩ := ok_of_bind folds
  have isCut : planner.prepare before = .ok (planner.finish progress) := by
    rw [Planner.prepare, foldsBefore]
    rfl
  obtain ⟨-, counted, -⟩ := Planner.foldlM_take_spec foldsBefore
  obtain ⟨grown, -, -⟩ := Planner.foldlM_take_spec foldsRest
  obtain ⟨next, takes, foldsAfter⟩ := ok_of_bind foldsRest
  obtain ⟨plan, isPlan, -⟩ := ok_of_bind takes
  obtain ⟨-, -, noted⟩ := Planner.take_spec takes
  obtain ⟨-, -, kept⟩ := Planner.foldlM_take_spec foldsAfter
  have isNoted : ∀ message, plan = .reject message →
      before.length ∈ (planner.finish last).rejected.map (·.1) := by
    rintro message rfl
    rw [isPlan] at noted
    refine mem_map.mpr ⟨(progress.offset, message), kept.subset (by simp [noted]), ?_⟩
    simpa [Planner.start] using counted
  have flushed := grown.trans Planner.Grown.flush
  rw [append_nil, flatMap_cons] at flushed
  have emptied := @commands_flush α planner last.builder
  have isEnd : (planner.finish last).operations =
    (last.builder.flush planner.wrap).operations := rfl
  rw [isEnd] at ran allAllowed
  have isStart : (planner.finish progress).operations =
      progress.builder.operations ++ planner.wrapped progress.builder.commands :=
    operations_flush progress.builder
  -- the commands of the later events either went into the open pipeline or came after it
  generalize last.builder.flush planner.wrap = ended at flushed emptied ran allAllowed
  cases flushed with
  | open_ more bytes isAdded =>
    obtain ⟨noCommands, rfl⟩ := append_eq_nil_iff.mp emptied
    refine ⟨_, later, plan, isCut, isPlan, isNoted, ?_, ?_⟩
    · rw [isStart, noCommands, Planner.wrapped, isEmpty_nil, if_pos rfl, append_nil]
      exact ran
    · rw [isAdded]
      exact .done later
  | closed more tail final bytes isAdded =>
    obtain rfl := emptied
    obtain ⟨through, ranFront, ranTail⟩ := runOperations_append ran
    obtain ⟨opened, ranFirst, ranWrapped⟩ := runOperations_append ranFront
    obtain ⟨-, fitsOpened⟩ := ran_operations (fun operation mem =>
      allAllowed operation (mem_append_left _ (mem_append_left _ mem))) fits ranFirst
    obtain ⟨mid, ranCut, ranMore, fitsThrough⟩ := splits.wrapped allowed fitsOpened ranWrapped
    obtain ⟨ranLater, -⟩ := ran_operations (fun operation mem =>
      allAllowed operation (mem_append_right _ mem)) fitsThrough ranTail
    refine ⟨_, mid, plan, isCut, isPlan, isNoted, ?_, ?_⟩
    · rw [isStart, runOperations, each_append]
      exact (exec_bind_ok ranFirst).trans ranCut
    · rw [isAdded, map_nil, append_nil]
      exact ranMore.append ranLater

end

theorem splits_direct : Splits leases (Regime.loose cfg) (directPlanner cfg limits) :=
  fun _ ran => by
    obtain ⟨between, first, further⟩ := exec_pipeline_append ran
    exact ⟨between, first, further, trivial⟩

variable {progress : Progress α}

theorem splits_view {regime : Regime cfg} {views : List View} :
    Splits leases regime (viewPlanner cfg limits views) :=
  fun fits ran => exec_viewPipeline_append fits ran

/-- An operation of a batch is a pipeline, or a clear that an event asks for. -/
def Expected (planner : Planner α) (evs : List SinkEvent) (operation : Operation) : Prop :=
  (∃ cmds, operation = planner.wrap cmds) ∨ ∃ ev ∈ evs, operation ∈ planner.asked ev ∧
      ∃ target patterns, operation = .clearTarget target patterns

theorem mem_flush {builder : Builder α}
    (mem : operation ∈ (builder.flush planner.wrap).operations) :
    operation ∈ builder.operations ∨ ∃ cmds, operation = planner.wrap cmds := by
  rw [operations_flush, Planner.wrapped] at mem
  rcases mem_append.mp mem with old | new
  · exact .inl old
  · split at new
    · cases new
    · exact .inr ⟨_, mem_singleton.mp new⟩

theorem mem_take {next : Progress α} (takes : planner.take progress ev = .ok next)
    (mem : operation ∈ next.builder.operations) :
    operation ∈ progress.builder.operations ∨ Expected planner [ev] operation := by
  obtain ⟨plan, isPlan, takes⟩ := ok_of_bind takes
  cases plan with
  | skip | reject =>
    cases takes
    exact .inl mem
  | clear targets bytes =>
    obtain ⟨spent, -, takes⟩ := ok_of_bind takes
    cases takes
    rcases mem_append.mp mem with old | new
    · exact (mem_flush old).imp_right .inl
    · obtain ⟨entry, isEntry, rfl⟩ := mem_map.mp new
      refine .inr (.inr ⟨ev, mem_singleton_self ev, ?_, entry.1, entry.2, rfl⟩)
      rw [Planner.asked, isPlan]
      exact mem_map.mpr ⟨entry, isEntry, rfl⟩
  | commands cmds bytes =>
    obtain ⟨spent, -, takes⟩ := ok_of_bind takes
    cases takes
    have room : operation ∈ (planner.makeRoom progress.builder cmds bytes).operations := mem
    unfold Planner.makeRoom at room
    split at room
    · exact (mem_flush room).imp_right .inl
    · exact .inl room

theorem mem_foldlM_take (folds : evs.foldlM planner.take progress = .ok last)
    (mem : operation ∈ last.builder.operations) :
    operation ∈ progress.builder.operations ∨ Expected planner evs operation := by
  induction evs generalizing progress with
  | nil =>
    cases folds
    exact .inl mem
  | cons ev rest ih =>
    obtain ⟨next, takes, folds⟩ := ok_of_bind folds
    rcases ih folds with earlier | isWrap | ⟨other, isOther, isAsked⟩
    · rcases mem_take takes earlier with old | isWrap | ⟨other, isOther, isAsked⟩
      · exact .inl old
      · exact .inr (.inl isWrap)
      · obtain rfl := mem_singleton.mp isOther
        exact .inr (.inr ⟨other, mem_cons_self, isAsked⟩)
    · exact .inr (.inl isWrap)
    · exact .inr (.inr ⟨other, mem_cons_of_mem ev isOther, isAsked⟩)

theorem mem_operations (isPrepared : planner.prepare evs = .ok prepared)
    (mem : operation ∈ prepared.operations) : Expected planner evs operation := by
  obtain ⟨last, folds, isFinish⟩ := ok_of_bind isPrepared
  cases isFinish
  rcases mem_flush mem with built | isWrap
  · exact (mem_foldlM_take folds built).resolve_left not_mem_nil
  · exact .inl isWrap

theorem ran_append_inv (ran : Ran regime (front ++ back) space final) :
    ∃ between, Ran regime front space between ∧ Ran regime back between final := by
  induction front generalizing space with
  | nil => exact ⟨space, .done space, ran⟩
  | cons operation rest ih =>
    cases ran with
    | direct first further =>
      obtain ⟨between, ranRest, ranBack⟩ := ih further
      exact ⟨between, .direct first ranRest, ranBack⟩
    | passed further =>
      obtain ⟨between, ranRest, ranBack⟩ := ih further
      exact ⟨between, .passed ranRest, ranBack⟩
    | carried known first further =>
      obtain ⟨between, ranRest, ranBack⟩ := ih further
      exact ⟨between, .carried known first ranRest, ranBack⟩
    | cleared further =>
      obtain ⟨between, ranRest, ranBack⟩ := ih further
      exact ⟨between, .cleared ranRest, ranBack⟩

end

end Ventstream.Redis
