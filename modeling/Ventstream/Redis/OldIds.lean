import Ventstream.Redis.DirectOrder
import Ventstream.Redis.Operations

/-! # What a key-changing update leaves behind

An update that moved its document names the old id in a header. On single documents the
sink plans a delete of the old id next to the upsert, and the delete is ordered like any
other command: it is skipped when a higher version is stored. On views the header is never
read, and what the old id has in a view stays there.
-/

namespace Ventstream.Redis

open Core Library Library.Program Library.Redis
open List hiding after tail

/-- A key of a view that holds an entry of a source. -/
def OwnedEntry (keys : KeyPrefix) (space : Keyspace) (target keyId sourceId : String) : Prop :=
  (∃ volatile, space (ownerKey keys target keyId) = some ⟨.string sourceId, volatile⟩) ∧
    (space (keyFromParts keys target keyId)).isSome

/-- Something that was written for the old id of an event is still there. -/
def Remains (cfg : Config) (ev : SinkEvent) (oldId : String) (space : Keyspace) : Prop :=
  match cfg.routing with
  | .views _ => ∃ target keyId, OwnedEntry cfg.keys space target keyId oldId
  | _ => ∃ target docId, keyParts cfg ev = .ok (target, docId) ∧
      (space (keyFromParts cfg.keys target oldId)).isSome

def Concerns (oldId : String) (ev : SinkEvent) : Prop :=
  ev.headers["ventstream.doc.id"]? = some oldId ∨ ev.headers["ventstream.doc.old_id"]? = some oldId

/-- What an event asks for under the routing of the sink. -/
def askedOf (cfg : Config) (limits : Limits) : SinkEvent → List Operation :=
  match cfg.routing with
  | .views views => (viewPlanner cfg limits views).asked
  | _ => (directPlanner cfg limits).asked

def Clears (cfg : Config) (limits : Limits) (target : String) (ev : SinkEvent) : Prop :=
  ∃ patterns, .clearTarget target patterns ∈ askedOf cfg limits ev

/-- When nothing is left for the old id: on views nothing was there. On single documents nothing
    was there, or the old id fits into keys and its stored version is not above that of the event.
    What a later truncate empties does not count. -/
def Spared (cfg : Config) (limits : Limits) (space : Keyspace) (ev : SinkEvent) (oldId : String)
    (after : List SinkEvent) : Prop :=
  match cfg.routing with
  | .views _ => ∀ target keyId, OwnedEntry cfg.keys space target keyId oldId →
      ∃ later ∈ after, Clears cfg limits target later
  | _ => ∀ target docId version, keyParts cfg ev = .ok (target, docId) →
      durableSourceVersion ev = .ok version →
      (space (keyFromParts cfg.keys target oldId)).isSome →
      (∃ later ∈ after, Clears cfg limits target later) ∨
      cfg.fits (keyFromParts cfg.keys target oldId) ∧
      cfg.fits (versionKey cfg.keys target oldId) ∧
      isStale (storedText (space (versionKey cfg.keys target oldId))) version = false

/-- Where it is also known what becomes of what was there: single documents, and strings in views
    that do not expire and that only scripts have written. -/
def Trusted (cfg : Config) (space : Keyspace) : Prop :=
  match cfg.routing with
  | .views _ => cfg.contract.format = .string ∧ cfg.contract.ttl = 0 ∧
      ∃ latest, Mirrors cfg.keys .string space latest
  | _ => True

variable {cfg : Config} {limits : Limits} {space later : Keyspace} {ev : SinkEvent}
  {target docId oldId : String}

section

variable {version : Option Nat}

theorem header_of_documentId (isId : documentId ev = .ok docId) :
    ev.headers["ventstream.doc.id"]? = some docId := by
  unfold documentId SinkEvent.stableId at isId
  split at isId
  · cases isId
  · rename_i found isFound
    split at isId
    · cases isId
    · cases isId
      exact isFound

theorem header_of_keyParts (isKey : keyParts cfg ev = .ok (target, docId)) :
    ev.headers["ventstream.doc.id"]? = some docId := by
  obtain ⟨_, -, isKey⟩ := ok_of_bind isKey
  obtain ⟨_, -, isKey⟩ := ok_of_bind isKey
  obtain ⟨_, isId, isPair⟩ := ok_of_bind isKey
  cases isPair
  exact header_of_documentId isId

theorem acceptDirect_inv (isAccepted : acceptDirect cfg ev = .ok (cmds, bytes)) :
    ∃ target docId version, keyParts cfg ev = .ok (target, docId) ∧
      durableSourceVersion ev = .ok version ∧
      cmds = directCommands cfg target docId version ev := by
  obtain ⟨_, -, isAccepted⟩ := ok_of_bind isAccepted
  obtain ⟨⟨target, docId⟩, isKey, isAccepted⟩ := ok_of_bind isAccepted
  obtain ⟨version, isVersion, isAccepted⟩ := ok_of_bind isAccepted
  obtain ⟨_, -, isAccepted⟩ := ok_of_bind isAccepted
  obtain ⟨_, -, isAccepted⟩ := ok_of_bind isAccepted
  refine ⟨target, docId, version, isKey, isVersion, ?_⟩
  dsimp only at isAccepted
  split at isAccepted
  · obtain ⟨_, -, isAccepted⟩ := ok_of_bind isAccepted
    split at isAccepted <;> cases isAccepted
    rfl
  · split at isAccepted <;> cases isAccepted
    rfl

/-- An operation of another event: a command on another document, or a clear. -/
def Harmless (cfg : Config) (oldId : String) (operation : Operation) : Prop :=
  (∃ cmd : DirectCommand, operation = .pipeline [cmd] ∧ cmd.docId ≠ oldId) ∨
    ∃ target, operation = .clearTarget target (directClearPatterns cfg.keys target)

theorem Harmless.patterns {patterns}
    (harmless : Harmless cfg oldId (.clearTarget target patterns)) :
    patterns = directClearPatterns cfg.keys target := by
  rcases harmless with ⟨_, isCommand, _⟩ | ⟨_, isClear⟩
  · cases isCommand
  · cases isClear
    rfl

theorem planDirect_inv (isPlan : planDirect cfg ev = .ok plan) : (∃ target, isTruncateEvent ev ∧
      plan = .clear [(target, directClearPatterns cfg.keys target)] 0) ∨
    (∃ message, plan = .reject message) ∨
    ∃ target docId version bytes, isTruncateEvent ev = false ∧
      keyParts cfg ev = .ok (target, docId) ∧ durableSourceVersion ev = .ok version ∧
      plan = .commands (directCommands cfg target docId version ev) bytes := by
  unfold planDirect at isPlan
  split at isPlan
  · rename_i isTruncate
    split at isPlan
    · cases isPlan
    · obtain ⟨target, -, isPlan⟩ := ok_of_bind isPlan
      obtain ⟨_, -, isPlan⟩ := ok_of_bind isPlan
      cases isPlan
      exact .inl ⟨target, isTruncate, rfl⟩
  · rename_i notTruncate
    split at isPlan
    · cases isPlan
      exact .inr (.inl ⟨_, rfl⟩)
    · rename_i cmds bytes isAccepted
      cases isPlan
      obtain ⟨target, docId, version, isKey, isVersion, rfl⟩ := acceptDirect_inv isAccepted
      exact .inr (.inr ⟨target, docId, version, bytes, by simpa using notTruncate, isKey,
        isVersion, rfl⟩)

variable {cmd : DirectCommand}

theorem mem_oldDelete (mem : cmd ∈ oldDelete cfg target version ev) :
    ev.headers["ventstream.doc.old_id"]? = some cmd.docId := by
  unfold oldDelete at mem
  split at mem
  · cases mem
  · rename_i oldId isOld
    split at mem
    · rw [mem_singleton.mp mem]
      exact isOld
    · cases mem

theorem harmless_of_not_concerns (unconcerned : ¬ Concerns oldId ev)
    (mem : operation ∈ (directPlanner cfg limits).asked ev) : Harmless cfg oldId operation := by
  unfold Planner.asked at mem
  split at mem
  · rename_i targets bytes isPlan
    obtain ⟨⟨target, patterns⟩, isTarget, rfl⟩ := mem_map.mp mem
    rcases planDirect_inv isPlan with ⟨other, -, isClear⟩ | ⟨_, isReject⟩ | ⟨_, _, _, _, _, _, _, h⟩
    · cases isClear
      cases mem_singleton.mp isTarget
      exact .inr ⟨_, rfl⟩
    · cases isReject
    · cases h
  · rename_i cmds bytes isPlan
    obtain ⟨cmd, isCommand, rfl⟩ := mem_map.mp mem
    refine .inl ⟨cmd, rfl, fun isOld => unconcerned ?_⟩
    rcases planDirect_inv isPlan with ⟨_, _, h⟩ | ⟨_, h⟩ |
      ⟨target, docId, version, _, -, isKey, -, isCommands⟩
    · cases h
    · cases h
    · cases isCommands
      unfold directCommands at isCommand
      split at isCommand
      · rw [mem_singleton.mp isCommand] at isOld
        exact .inl (isOld ▸ header_of_keyParts isKey)
      · rcases mem_append.mp isCommand with isDelete | isUpsert
        · exact .inr (isOld ▸ mem_oldDelete isDelete)
        · rw [mem_singleton.mp isUpsert] at isOld
          exact .inl (isOld ▸ header_of_keyParts isKey)
  · cases mem

theorem cleared_key {kinds : List Kind} (listed : kind ∈ kinds) :
    cleared (kinds.map (clearPattern cfg.keys · other)) space
        (key cfg.keys kind target tail) =
      if other = target then none else space (key cfg.keys kind target tail) := by
  unfold cleared
  split
  · rename_i isAny
    obtain ⟨pattern, isPattern, isMatch⟩ := any_eq_true.mp isAny
    obtain ⟨found, -, rfl⟩ := mem_map.mp isPattern
    rw [if_pos (of_matchesPattern isMatch).2]
  · rename_i nothing
    rw [if_neg]
    rintro rfl
    exact nothing (any_eq_true.mpr ⟨_, mem_map_of_mem listed, matchesPattern_key⟩)

theorem cleared_direct :
    cleared (directClearPatterns cfg.keys other) space (keyFromParts cfg.keys target oldId) =
      if other = target then none else space (keyFromParts cfg.keys target oldId) :=
  cleared_key (show Kind.data ∈ [Kind.data, .stage, .version] by decide)

theorem frame_other (other : cmd.docId ≠ oldId) :
    Ensures (Frame (· = keyFromParts cfg.keys target oldId))
      (runDirect cfg.keys cfg.contract cmd) := by
  refine frame_runDirect ⟨?_, ?_, ?_, ?_⟩
  · exact fun same => other (keyFromParts_inj same).2
  · exact fun same => absurd (key_inj same).1 (by decide)
  · exact fun same => absurd (key_inj same).1 (by decide)
  · exact fun same => absurd (key_inj same).1 (by decide)

theorem ran_harmless (harmless : ∀ operation ∈ operations, Harmless cfg oldId operation)
    (ran : Ran (Regime.loose cfg) operations space later) :
    (∃ patterns, .clearTarget target patterns ∈ operations) ∧
      later (keyFromParts cfg.keys target oldId) = none ∨
    (¬ ∃ patterns, .clearTarget target patterns ∈ operations) ∧
      later (keyFromParts cfg.keys target oldId) =
        space (keyFromParts cfg.keys target oldId) := by
  induction ran with
  | done space => exact .inr ⟨by simp, rfl⟩
  | @direct cmd rest outcome space between later first further ih =>
    obtain ⟨own, harmless⟩ := forall_mem_cons.mp harmless
    have same : between (keyFromParts cfg.keys target oldId) =
        space (keyFromParts cfg.keys target oldId) := by
      rcases own with ⟨_, isCommand, other⟩ | ⟨_, isClear⟩
      · cases isCommand
        exact (frame_other other).ran first _ rfl
      · cases isClear
    simpa [same] using ih harmless
  | passed | carried =>
    rcases harmless _ mem_cons_self with ⟨_, isCommand, _⟩ | ⟨_, isClear⟩
    · cases isCommand
    · cases isClear
  | @cleared other patterns rest space later further ih =>
    obtain rfl := (harmless _ mem_cons_self).patterns
    have later := ih (forall_mem_cons.mp harmless).2
    rw [cleared_direct] at later
    by_cases same : other = target
    · subst same
      rw [if_pos rfl] at later
      exact .inl ⟨⟨_, mem_cons_self⟩, later.elim And.right And.right⟩
    · simpa [same, Ne.symm same] using later

theorem storedText_of_textOf
    (seen : textOf name space = .ok stored) : storedText (space name) = stored := by
  unfold textOf at seen
  split at seen
  · rename_i absent
    cases seen
    rw [absent]
    rfl
  · rename_i text volatile there
    cases seen
    rw [there]
    rfl
  · cases seen

theorem frame_recordVersion_data : Ensures (Frame (· = keyFromParts cfg.keys target oldId))
      (recordVersion cfg.keys cfg.contract cmd) := by
  have other : ¬ versionKey cfg.keys cmd.target cmd.docId =
      keyFromParts cfg.keys target oldId := fun same => absurd (key_inj same).1 (by decide)
  unfold recordVersion
  split
  · exact Ensures.pure _
  · simp only
    split
    · exact frame_setPx _ _ other
    · exact frame_set _ other

theorem runDirect_delete {outcome}
    (ran : exec (runDirect cfg.keys cfg.contract ⟨target, oldId, version, none⟩) space =
      (.ok outcome, later)) :
    later (keyFromParts cfg.keys target oldId) =
      if isStale (storedText (space (versionKey cfg.keys target oldId))) version then
        space (keyFromParts cfg.keys target oldId) else none := by
  obtain ⟨stored, seen, ran⟩ := exec_examine_inv ran
  rw [storedText_of_textOf seen]
  split at ran
  · cases ran
  · split at ran
    · rename_i stale
      cases ran
      rw [if_pos stale]
    · rename_i fresh
      rw [if_neg fresh]
      unfold applyDirect at ran
      split at ran
      · obtain ⟨_, between, puts, ran⟩ := exec_bind_inv ran
        obtain ⟨_, last, records, ends⟩ := exec_bind_inv ran
        cases ends
        cases puts
        refine (frame_recordVersion_data.ran records _ rfl).trans ?_
        exact if_pos (mem_singleton_self _)
      · obtain ⟨result, between, puts, ran⟩ := exec_bind_inv ran
        cases puts
        obtain ⟨_, last, records, ends⟩ := exec_bind_inv ran
        cases ends
        refine (frame_recordVersion_data.ran records _ rfl).trans ?_
        exact if_pos (mem_singleton_self _)

theorem ran_moved (isOld : ev.headers["ventstream.doc.old_id"]? = some oldId)
    (isUpsert : isDeleteEvent ev = false) (other : docId ≠ oldId)
    (ran : Ran (Regime.loose cfg) ((directCommands cfg target docId version ev).map
      fun cmd => .pipeline [cmd]) space later) :
    later (keyFromParts cfg.keys target oldId) = if cfg.fits (keyFromParts cfg.keys target oldId) &&
          cfg.fits (versionKey cfg.keys target oldId) &&
          !isStale (storedText (space (versionKey cfg.keys target oldId))) version
      then none else space (keyFromParts cfg.keys target oldId) := by
  unfold directCommands oldDelete at ran
  rw [isUpsert, if_neg (by simp), isOld] at ran
  simp only at ran
  split at ran
  · rename_i isFit
    cases ran with
    | direct deletes further =>
      cases further with
      | direct writes ends =>
        cases ends
        rw [(frame_other other).ran writes _ rfl, runDirect_delete deletes, isFit]
        cases isStale (storedText (space (versionKey cfg.keys target oldId))) version <;> rfl
  · rename_i notFit
    cases ran with
    | direct writes ends =>
      cases ends
      rw [(frame_other other).ran writes _ rfl, if_neg]
      rw [Bool.and_eq_true]
      exact fun both => notFit both.1

end

section

variable {views : List View}

/-- No entry of the source has come to a view. -/
def Dwindles (keys : KeyPrefix) (target sourceId : String) (before after : Keyspace) : Prop :=
  ∀ keyId, OwnedEntry keys after target keyId sourceId → OwnedEntry keys before target keyId sourceId

instance {keys : KeyPrefix} {target sourceId : String} : Std.Refl (Dwindles keys target sourceId) :=
  ⟨fun _ _ owned => owned⟩

instance {keys : KeyPrefix} {target sourceId : String} :
    IsTrans Keyspace (Dwindles keys target sourceId) :=
  ⟨fun _ _ _ first second keyId owned => first keyId (second keyId owned)⟩

theorem dwindles_of_le (fewer : ∀ name, later name = none ∨ later name = space name) :
    Dwindles cfg.keys target oldId space later := by
  rintro keyId ⟨⟨volatile, isOwner⟩, isThere⟩
  have same : ∀ name, (later name).isSome → later name = space name := by
    intro name isSome
    rcases fewer name with isNone | same
    · rw [isNone] at isSome
      cases isSome
    · exact same
  refine ⟨⟨volatile, (same _ (by rw [isOwner]; rfl)).symm.trans isOwner⟩, ?_⟩
  rw [← same _ isThere]
  exact isThere

theorem dwindles_of_frame (frame : Frame kept space later)
    (data : ∀ keyId, kept (keyFromParts cfg.keys target keyId))
    (owner : ∀ keyId, kept (ownerKey cfg.keys target keyId)) :
    Dwindles cfg.keys target oldId space later := by
  intro keyId owned
  unfold OwnedEntry at owned ⊢
  rwa [frame _ (data keyId), frame _ (owner keyId)] at owned

theorem dwindles_del (names : List String) :
    Ensures (Dwindles cfg.keys target oldId) (del names) := by
  refine Ensures.update fun space => dwindles_of_le fun name => ?_
  by_cases mem : name ∈ names
  · exact .inl (if_pos mem)
  · exact .inr (if_neg mem)

theorem dwindles_removeOld (cmd : ViewCommand) :
    Ensures (Dwindles cfg.keys target oldId) (removeOld cfg.keys cmd) := by
  refine (Ensures.examine _).bind fun oldKey => (Ensures.examine _).bind fun oldOwner => ?_
  split
  · exact Ensures.pure _
  · exact Ensures.throw _
  · exact (Ensures.examine _).bind fun held => (dwindles_del _).bind fun _ => Ensures.pure _

/-- The keys of documents and of their owners. -/
def IsEntryKey (keys : KeyPrefix) (name : String) : Prop :=
  ∃ target tail, name = key keys .data target tail ∨ name = key keys .owner target tail

theorem dwindles_of_entryFrame {α : Type} {script : Script α}
    (frame : Ensures (Frame (IsEntryKey cfg.keys)) script) :
    Ensures (Dwindles cfg.keys target oldId) script :=
  frame.mono fun _ _ same => dwindles_of_frame same (fun _ => ⟨_, _, .inl rfl⟩)
    fun _ => ⟨_, _, .inr rfl⟩

theorem manifestName_not_isEntryKey (cmd : ViewCommand) :
    ¬ IsEntryKey cfg.keys (cmd.manifestName cfg.keys) := by
  rintro ⟨target, tail, same | same⟩
  · exact absurd (key_inj same).1 (by decide)
  · exact absurd (key_inj same).1 (by decide)

theorem dwindles_storeVersion (cmd : ViewCommand) :
    Ensures (Dwindles cfg.keys target oldId) (storeVersion cfg.keys cmd) := by
  refine dwindles_of_entryFrame ?_
  unfold storeVersion
  split
  · exact Ensures.pure _
  · exact frame_hset _ _ (manifestName_not_isEntryKey cmd)

theorem dwindles_nameEntry (cmd : ViewCommand) (name owner : String) :
    Ensures (Dwindles cfg.keys target oldId) (do
      hset (cmd.manifestName cfg.keys) "key" name
      hset (cmd.manifestName cfg.keys) "owner" owner) := by
  refine dwindles_of_entryFrame ((frame_hset _ _ ?_).bind fun _ => frame_hset _ _ ?_)
  · exact manifestName_not_isEntryKey cmd
  · exact manifestName_not_isEntryKey cmd

theorem dwindles_expireManifest (cmd : ViewCommand) : Ensures (Dwindles cfg.keys target oldId)
      (expireManifest cfg.keys cfg.contract cmd) := by
  refine dwindles_of_entryFrame ?_
  unfold expireManifest
  split
  · exact Ensures.pure _
  · exact frame_pexpire _ (manifestName_not_isEntryKey cmd)

variable {cmd : ViewCommand}

theorem putEntry_owner
    (ran : exec (putEntry cfg.keys cfg.contract cmd entry) space = (.ok ⟨⟩, later)) :
    ∃ volatile, later (ownerKey cfg.keys cmd.target entry.keyId) =
      some ⟨.string cmd.sourceId, volatile⟩ := by
  unfold putEntry at ran
  simp only at ran
  split at ran
  iterate 3
    · obtain ⟨_, between, -, sets⟩ := exec_bind_inv ran
      cases sets
      exact ⟨_, Function.update_self _ _ _⟩
  · obtain ⟨_, _, -, ran⟩ := exec_bind_inv ran
    obtain ⟨_, _, -, ran⟩ := exec_bind_inv ran
    obtain ⟨_, _, -, ran⟩ := exec_bind_inv ran
    obtain ⟨_, _, -, sets⟩ := exec_bind_inv ran
    cases sets
    exact ⟨true, Function.update_self _ _ _⟩

theorem dwindles_putEntry (other : cmd.sourceId ≠ oldId)
    (ran : exec (putEntry cfg.keys cfg.contract cmd entry) space = (.ok ⟨⟩, later)) :
    Dwindles cfg.keys target oldId space later := by
  intro keyId owned
  by_cases same : target = cmd.target ∧ keyId = entry.keyId
  · obtain ⟨rfl, rfl⟩ := same
    obtain ⟨volatile, isOwner⟩ := putEntry_owner ran
    obtain ⟨⟨_, isOld⟩, -⟩ := owned
    rw [isOwner] at isOld
    cases isOld
    exact absurd rfl other
  · have apart : Apart cfg.keys (fun name => name = keyFromParts cfg.keys target keyId ∨
        name = ownerKey cfg.keys target keyId) cmd.target entry.keyId := by
      constructor
      · rintro (isData | isOwner)
        · obtain ⟨rfl, rfl⟩ := keyFromParts_inj isData
          exact same ⟨rfl, rfl⟩
        · exact absurd (key_inj isOwner).1 (by decide)
      iterate 2
        · rintro (isData | isOwner)
          · exact absurd (key_inj isData).1 (by decide)
          · exact absurd (key_inj isOwner).1 (by decide)
      · rintro (isData | isOwner)
        · exact absurd (key_inj isData).1 (by decide)
        · obtain ⟨rfl, rfl⟩ := ownerKey_inj isOwner
          exact same ⟨rfl, rfl⟩
    have frame := (frame_putEntry apart).ran ran
    unfold OwnedEntry at owned ⊢
    rwa [frame _ (.inl rfl), frame _ (.inr rfl)] at owned

theorem dwindles_carryOut (other : cmd.sourceId ≠ oldId)
    (ran : exec (carryOut cfg.keys cfg.contract cmd) space = (.ok ⟨⟩, later)) :
    Dwindles cfg.keys target oldId space later := by
  obtain ⟨_, removed, removes, ran⟩ := exec_bind_inv ran
  obtain ⟨_, bare, dels, ran⟩ := exec_bind_inv ran
  obtain ⟨_, placed, stores, ran⟩ := exec_bind_inv ran
  obtain ⟨_, stamped, versions, expires⟩ := exec_bind_inv ran
  have first := (@dwindles_removeOld cfg target oldId cmd).ran removes
  have second := (@dwindles_del cfg target oldId _).ran dels
  have third : Dwindles cfg.keys target oldId bare placed := by
    unfold storeDesired at stores
    split at stores
    · cases stores
      exact refl_of (Dwindles cfg.keys target oldId) bare
    · obtain ⟨_, put, puts, stores⟩ := exec_bind_inv stores
      exact trans_of (Dwindles cfg.keys target oldId) (dwindles_putEntry other puts)
        ((dwindles_nameEntry cmd _ _).ran stores)
  have fourth := (@dwindles_storeVersion cfg target oldId cmd).ran versions
  have fifth := (@dwindles_expireManifest cfg target oldId cmd).ran expires
  exact fun keyId owned => first keyId (second keyId (third keyId (fourth keyId (fifth keyId owned))))

/-- An operation of an event of another source: a command on a view, or a clear. -/
def Foreign (cfg : Config) (oldId : String) (operation : Operation) : Prop :=
  (∃ cmd : ViewCommand, operation = .viewPipeline [cmd] ∧ cmd.sourceId ≠ oldId) ∨
    ∃ target, operation = .clearTarget target (viewClearPatterns cfg.keys target)

theorem Foreign.patterns {patterns} (foreign : Foreign cfg oldId (.clearTarget target patterns)) :
    patterns = viewClearPatterns cfg.keys target := by
  rcases foreign with ⟨_, isCommand, _⟩ | ⟨_, isClear⟩
  · cases isCommand
  · cases isClear
    rfl

theorem Foreign.source_ne (foreign : Foreign cfg oldId (.viewPipeline (cmd :: others))) :
    cmd.sourceId ≠ oldId := by
  rcases foreign with ⟨_, isCommand, other⟩ | ⟨_, isClear⟩
  · cases isCommand
    exact other
  · cases isClear

theorem not_foreign_pipeline : ¬ Foreign cfg oldId (.pipeline cmds) := by
  rintro (⟨_, isCommand, _⟩ | ⟨_, isClear⟩)
  · cases isCommand
  · cases isClear

theorem cleared_view (isView : IsViewKind kind) :
    cleared (viewClearPatterns cfg.keys other) space (key cfg.keys kind target tail) =
      if other = target then none else space (key cfg.keys kind target tail) := by
  refine cleared_key (show kind ∈ [Kind.data, .stage, .owner, .manifest] from ?_)
  rcases isView with rfl | rfl | rfl <;> decide

theorem ran_foreign {regime : Regime cfg} {operations : List Operation}
    (foreign : ∀ operation ∈ operations, Foreign cfg oldId operation)
    (ran : Ran regime operations space later) :
    Dwindles cfg.keys target oldId space later ∧
    ((∃ patterns, .clearTarget target patterns ∈ operations) →
      ∀ keyId, ¬ OwnedEntry cfg.keys later target keyId oldId) := by
  induction ran with
  | done space => exact ⟨fun _ owned => owned, fun ⟨_, mem⟩ => absurd mem not_mem_nil⟩
  | direct => exact absurd (foreign _ mem_cons_self) not_foreign_pipeline
  | passed further ih =>
    obtain ⟨own, foreign⟩ := forall_mem_cons.mp foreign
    obtain ⟨dwindles, ifCleared⟩ := ih foreign
    exact ⟨dwindles, fun ⟨patterns, mem⟩ => ifCleared ⟨patterns, by simpa using mem⟩⟩
  | carried known first further ih =>
    obtain ⟨own, foreign⟩ := forall_mem_cons.mp foreign
    obtain ⟨dwindles, ifCleared⟩ := ih foreign
    refine ⟨fun keyId owned => ?_, fun ⟨patterns, mem⟩ =>
      ifCleared ⟨patterns, by simpa using mem⟩⟩
    exact dwindles_carryOut own.source_ne first keyId (dwindles keyId owned)
  | @cleared other patterns rest space later further ih =>
    obtain ⟨own, foreign⟩ := forall_mem_cons.mp foreign
    obtain ⟨dwindles, ifCleared⟩ := ih foreign
    obtain rfl := own.patterns
    have fewer : Dwindles cfg.keys target oldId space
        (cleared (viewClearPatterns cfg.keys other) space) := by
      refine dwindles_of_le fun name => ?_
      unfold cleared
      split
      · exact .inl rfl
      · exact .inr rfl
    refine ⟨fun keyId owned => fewer keyId (dwindles keyId owned), fun ⟨patterns, mem⟩ => ?_⟩
    rcases mem_cons.mp mem with isHead | mem
    · cases isHead
      intro keyId owned
      obtain ⟨-, isThere⟩ := dwindles keyId owned
      rw [keyFromParts, cleared_view (.inr (.inl rfl)), if_pos rfl] at isThere
      cases isThere
    · exact ifCleared ⟨patterns, mem⟩

theorem mem_viewCommands (isOk : viewCommands cfg sourceId version ev document spent views = .ok
    (cmds, total)) : ∀ cmd ∈ cmds, cmd.sourceId = sourceId := by
  induction views generalizing spent cmds total with
  | nil =>
    cases isOk
    exact nofun
  | cons view rest ih =>
    obtain ⟨_, -, isOk⟩ := ok_of_bind isOk
    obtain ⟨desired, -, isOk⟩ := ok_of_bind isOk
    dsimp only at isOk
    split at isOk
    · cases isOk
    · obtain ⟨⟨others, last⟩, isRest, isPair⟩ := ok_of_bind isOk
      cases isPair
      exact forall_mem_cons.mpr ⟨rfl, ih isRest⟩

theorem mem_clearViews (isOk : clearViews cfg views = .ok (targets, bytes)) :
    ∀ entry ∈ targets, entry.2 = viewClearPatterns cfg.keys entry.1 := by
  induction views generalizing targets bytes with
  | nil =>
    cases isOk
    exact nofun
  | cons view rest ih =>
    obtain ⟨_, -, isOk⟩ := ok_of_bind isOk
    obtain ⟨⟨others, last⟩, isRest, isPair⟩ := ok_of_bind isOk
    cases isPair
    exact forall_mem_cons.mpr ⟨rfl, ih isRest⟩

theorem planView_inv (isPlan : planView cfg views ev = .ok plan) : plan = .skip ∨
    (∃ targets bytes, plan = .clear targets bytes ∧ isTruncateEvent ev ∧
      ∀ entry ∈ targets, entry.2 = viewClearPatterns cfg.keys entry.1) ∨
    ∃ cmds bytes, plan = .commands cmds bytes ∧
      ∀ cmd ∈ cmds, ev.headers["ventstream.doc.id"]? = some cmd.sourceId := by
  unfold planView at isPlan
  dsimp only at isPlan
  split at isPlan
  · cases isPlan
    exact .inl rfl
  · split at isPlan
    · rename_i isTruncate
      split at isPlan
      · cases isPlan
      · obtain ⟨⟨targets, bytes⟩, isClear, isPlan⟩ := ok_of_bind isPlan
        cases isPlan
        exact .inr (.inl ⟨targets, bytes, rfl, isTruncate, mem_clearViews isClear⟩)
    · obtain ⟨⟨cmds, bytes⟩, isAccepted, isPlan⟩ := ok_of_bind isPlan
      cases isPlan
      refine .inr (.inr ⟨cmds, bytes, rfl, fun cmd mem => ?_⟩)
      obtain ⟨sourceId, isSource, isAccepted⟩ := ok_of_bind isAccepted
      obtain ⟨version, -, isAccepted⟩ := ok_of_bind isAccepted
      have isHeader : ev.headers["ventstream.doc.id"]? = some sourceId := by
        unfold sourceIdentity at isSource
        split at isSource
        · rename_i found isFound
          cases isSource
          exact (Option.filter_eq_some_iff.mp isFound).1
        · cases isSource
      have isCommands : ∃ document, viewCommands cfg sourceId version ev document 0
          (views.filter (·.sourceMatches ev)) = .ok (cmds, bytes) := by
        dsimp only at isAccepted
        split at isAccepted
        · cases isAccepted
        · obtain ⟨document, -, isAccepted⟩ := ok_of_bind isAccepted
          exact ⟨document, isAccepted⟩
      obtain ⟨document, isCommands⟩ := isCommands
      rw [mem_viewCommands isCommands cmd mem]
      exact isHeader

theorem asked_view_cases (mem : operation ∈ (viewPlanner cfg limits views).asked ev) :
    (∃ cmd : ViewCommand, operation = .viewPipeline [cmd] ∧
      ev.headers["ventstream.doc.id"]? = some cmd.sourceId) ∨
    ∃ target, operation = .clearTarget target (viewClearPatterns cfg.keys target) := by
  unfold Planner.asked at mem
  split at mem
  · rename_i targets bytes isPlan
    obtain ⟨⟨target, patterns⟩, isTarget, rfl⟩ := mem_map.mp mem
    rcases planView_inv isPlan with h | ⟨_, _, isClear, -, isPatterns⟩ | ⟨_, _, h, _⟩
    · cases h
    · cases isClear
      exact .inr ⟨target, by rw [← isPatterns _ isTarget]⟩
    · cases h
  · rename_i cmds bytes isPlan
    obtain ⟨cmd, isCommand, rfl⟩ := mem_map.mp mem
    rcases planView_inv isPlan with h | ⟨_, _, h, _, _⟩ | ⟨_, _, isCommands, isHeader⟩
    · cases h
    · cases h
    · cases isCommands
      exact .inl ⟨cmd, rfl, isHeader cmd isCommand⟩
  · cases mem

theorem foreign_of_other (other : ev.headers["ventstream.doc.id"]? ≠ some oldId)
    (mem : operation ∈ (viewPlanner cfg limits views).asked ev) : Foreign cfg oldId operation := by
  rcases asked_view_cases mem with ⟨cmd, rfl, isHeader⟩ | isClear
  · refine .inl ⟨cmd, rfl, ?_⟩
    rintro rfl
    exact other isHeader
  · exact .inr isClear

end

section

variable {complaint : String → Option String} {latest : Latest} {keyId : String}

/-- The last commands of the sources of the other views. -/
def Latest.without (latest : Latest) (target : String) : Latest := fun other sourceId =>
  if target = other then none else latest other sourceId

theorem entry_without : (latest.without target).entry other sourceId =
    if target = other then none else latest.entry other sourceId := by
  unfold Latest.entry Latest.without
  split <;> rfl

theorem mirrors_clear (mirrors : Mirrors cfg.keys .string space latest) (target : String) :
    Mirrors cfg.keys .string (cleared (viewClearPatterns cfg.keys target) space)
      (latest.without target) where
  manifest other sourceId := by
    by_cases same : target = other
    · have gone : cleared (viewClearPatterns cfg.keys target) space
          (manifestKey cfg.keys other sourceId) = none := by
        rw [manifestKey, cleared_view (.inl rfl), if_pos same]
      have nothing : (latest.without target).manifest cfg.keys other sourceId =
          ⟨none, none, none⟩ := by
        simp [Latest.manifest, entry_without, same, Latest.without]
      rw [nothing]
      constructor <;> rw [fieldOf, gone]
    · have kept : (latest.without target).manifest cfg.keys other sourceId =
          latest.manifest cfg.keys other sourceId := by
        simp [Latest.manifest, entry_without, same, Latest.without]
      rw [kept]
      refine (mirrors.manifest other sourceId).congr ?_
      rw [manifestKey, cleared_view (.inl rfl), if_neg same]
  lasting other sourceId entry there := by
    rw [manifestKey, cleared_view (.inl rfl)] at there
    split at there
    · cases there
    · exact mirrors.lasting other sourceId entry there
  document other sourceId entry isEntry := by
    rw [entry_without] at isEntry
    split at isEntry
    · cases isEntry
    · rename_i apart
      rw [keyFromParts, cleared_view (.inr (.inl rfl)), if_neg apart]
      exact mirrors.document other sourceId entry isEntry
  owner other sourceId entry isEntry := by
    rw [entry_without] at isEntry
    split at isEntry
    · cases isEntry
    · rename_i apart
      rw [ownerKey, cleared_view (.inr (.inr rfl)), if_neg apart]
      exact mirrors.owner other sourceId entry isEntry
  free other keyId nobody := by
    rw [keyFromParts, ownerKey, cleared_view (.inr (.inl rfl)), cleared_view (.inr (.inr rfl))]
    by_cases same : target = other
    · rw [if_pos same, if_pos same]
      exact ⟨rfl, rfl⟩
    · rw [if_neg same, if_neg same]
      refine mirrors.free other keyId fun sourceId entry isEntry => ?_
      exact nobody sourceId entry (by rw [entry_without, if_neg same, isEntry])

theorem storable_string (cmd : ViewCommand) : Storable .string complaint cmd := by
  unfold Storable
  intros
  trivial

/-- The views are exact, and the accepted commands take no key from another source. -/
def Regime.mirrored (isMaterialized : cfg.contract = .materialized complaint) : Regime cfg where
  Fits space := ∃ latest, Mirrors cfg.keys .string space latest
  Known space cmds := ∃ latest, Mirrors cfg.keys .string space latest ∧ AdmissibleAll latest cmds
  Allows
    | .pipeline _ => False
    | .viewPipeline _ => True
    | .clearTarget target patterns => patterns = viewClearPatterns cfg.keys target
  admitted := by
    rintro space fences cmds verdicts ⟨latest, mirrors⟩ admits
    rw [isMaterialized] at admits
    obtain ⟨_, -, simulates⟩ := (verifyFences_reads fences).bind_inv admits
    exact ⟨latest, mirrors, simulateAll_spec mirrors (agrees_new mirrors) simulates⟩
  carried := by
    rintro space later cmd rest ⟨latest, mirrors, admissible, admissibleRest⟩ ran
    have runs := exec_carryOut mirrors admissible (@storable_string complaint cmd)
    rw [isMaterialized, Contract.materialized, runs] at ran
    cases ran
    exact ⟨_, mirrors.carried admissible, admissibleRest⟩
  done := fun ⟨latest, mirrors, _⟩ => ⟨latest, mirrors⟩
  direct := False.elim
  clear := by
    rintro target patterns space rfl ⟨latest, mirrors⟩
    exact ⟨_, mirrors_clear mirrors target⟩

/-- What a source owns is what its last accepted command gave it. -/
theorem Mirrors.owned_iff (mirrors : Mirrors cfg.keys .string space latest) :
    OwnedEntry cfg.keys space target keyId oldId ↔
      ∃ entry, latest.entry target oldId = some entry ∧ entry.keyId = keyId := by
  constructor
  · rintro ⟨⟨volatile, isOwner⟩, isThere⟩
    obtain ⟨sourceId, entry, isEntry, rfl⟩ := mirrors.taken isThere
    have held := mirrors.owner target sourceId entry isEntry
    rw [isOwner] at held
    cases held
    exact ⟨entry, isEntry, rfl⟩
  · rintro ⟨entry, isEntry, rfl⟩
    exact ⟨⟨false, mirrors.owner target oldId entry isEntry⟩,
      by rw [mirrors.document target oldId entry isEntry]; rfl⟩

theorem owned_of_ran {isMaterialized : cfg.contract = .materialized complaint}
    (foreign : ∀ operation ∈ operations, Foreign cfg oldId operation)
    (ran : Ran (Regime.mirrored isMaterialized) operations space later)
    (notCleared : ∀ patterns, .clearTarget target patterns ∉ operations)
    (owned : OwnedEntry cfg.keys space target keyId oldId) :
    OwnedEntry cfg.keys later target keyId oldId := by
  induction ran with
  | done => exact owned
  | direct => exact absurd (foreign _ mem_cons_self) not_foreign_pipeline
  | passed further ih =>
    exact ih (forall_mem_cons.mp foreign).2 (fun _ => mt (mem_cons_of_mem _) (notCleared _)) owned
  | @carried cmd others rest space between later known first further ih =>
    obtain ⟨own, foreign⟩ := forall_mem_cons.mp foreign
    refine ih foreign (fun _ => mt (mem_cons_of_mem _) (notCleared _)) ?_
    obtain ⟨latest, mirrors, admissible, -⟩ := known
    have runs := exec_carryOut mirrors admissible (@storable_string complaint cmd)
    rw [isMaterialized, Contract.materialized, runs] at first
    cases first
    obtain ⟨entry, isEntry, isKey⟩ := mirrors.owned_iff.mp owned
    refine (mirrors.carried admissible).owned_iff.mpr ⟨entry, ?_, isKey⟩
    rw [entry_accept_of_ne (by rintro ⟨-, same⟩; exact own.source_ne same.symm), isEntry]
  | @cleared cleared patterns rest space later further ih =>
    obtain ⟨own, foreign⟩ := forall_mem_cons.mp foreign
    refine ih foreign (fun _ => mt (mem_cons_of_mem _) (notCleared _)) ?_
    have apart : cleared ≠ target := by
      rintro rfl
      exact notCleared patterns mem_cons_self
    obtain rfl := own.patterns
    unfold OwnedEntry at owned ⊢
    rw [keyFromParts, ownerKey, cleared_view (.inr (.inl rfl)), cleared_view (.inr (.inr rfl)),
      if_neg apart, if_neg apart]
    exact owned

end

section

variable {leases : String → WriterFence} {final : Keyspace} {before after : List SinkEvent}
  {prepared : Prepared}

theorem clear_of_later (notTruncate : isTruncateEvent ev = false)
    (mem : .clearTarget target patterns ∈ (viewPlanner cfg limits views).asked ev ++
      after.flatMap (viewPlanner cfg limits views).asked) :
    .clearTarget target patterns ∈ after.flatMap (viewPlanner cfg limits views).asked := by
  refine (mem_append.mp mem).resolve_left fun own => ?_
  unfold Planner.asked at own
  split at own
  · rename_i targets bytes isPlan
    rcases planView_inv isPlan with h | ⟨_, _, -, isTruncate, -⟩ | ⟨_, _, h, _⟩
    · cases h
    · rw [notTruncate] at isTruncate
      cases isTruncate
    · cases h
  · obtain ⟨cmd, -, isClear⟩ := mem_map.mp own
    cases isClear
  · cases own

theorem mirrored_allows (isMaterialized : cfg.contract = .materialized complaint)
    (isPrepared : (viewPlanner cfg limits views).prepare evs = .ok prepared) :
    ∀ operation ∈ prepared.operations, (Regime.mirrored isMaterialized).Allows operation := by
  intro operation mem
  rcases mem_operations isPrepared mem with ⟨cmds, rfl⟩ | ⟨ev, -, isAsked, target, patterns, rfl⟩
  · trivial
  · rcases asked_view_cases isAsked with ⟨_, isCommand, _⟩ | ⟨_, isClear⟩
    · cases isCommand
    · cases isClear
      rfl

section

variable (isId : ev.headers["ventstream.doc.id"]? = some docId) (moved : docId ≠ oldId)
  (quiet : ∀ later ∈ after, ¬ Concerns oldId later) (notTruncate : isTruncateEvent ev = false)
  (isOld : ev.headers["ventstream.doc.old_id"]? = some oldId)
  (isUpsert : isDeleteEvent ev = false)

include isId moved quiet

theorem foreign_of_moved (mem : operation ∈ (viewPlanner cfg limits views).asked ev ++
      after.flatMap (viewPlanner cfg limits views).asked) : Foreign cfg oldId operation := by
  rcases mem_append.mp mem with own | others
  · refine foreign_of_other ?_ own
    rw [isId]
    rintro ⟨⟩
    exact moved rfl
  · obtain ⟨later, isLater, isOperation⟩ := mem_flatMap.mp others
    exact foreign_of_other (fun isHeader => quiet later isLater (.inl isHeader)) isOperation

include notTruncate

theorem view_leaves_nothing
    (isPrepared : (viewPlanner cfg limits views).prepare (before ++ ev :: after) = .ok prepared)
    (ran : exec (runOperations cfg leases prepared.operations) space = (.ok ⟨⟩, final)) :
    ∃ cut mid, (viewPlanner cfg limits views).prepare before = .ok cut ∧
      exec (runOperations cfg leases cut.operations) space = (.ok ⟨⟩, mid) ∧
      ((∀ target keyId, OwnedEntry cfg.keys mid target keyId oldId →
          ∃ later ∈ after, ∃ patterns, .clearTarget target patterns ∈
            (viewPlanner cfg limits views).asked later) →
        ¬ ∃ target keyId, OwnedEntry cfg.keys final target keyId oldId) ∧
      ((cfg.contract.format = .string ∧ cfg.contract.ttl = 0 ∧
          ∃ latest, Mirrors cfg.keys .string space latest) →
        (¬ ∃ target keyId, OwnedEntry cfg.keys final target keyId oldId) →
        ∀ target keyId, OwnedEntry cfg.keys mid target keyId oldId →
          ∃ later ∈ after, ∃ patterns, .clearTarget target patterns ∈
            (viewPlanner cfg limits views).asked later) := by
  obtain ⟨cut, mid, plan, isCut, -, -, ranBefore, ranRest⟩ :=
    cut_run (@splits_view cfg leases limits (.loose cfg) views) (fun _ => trivial) isPrepared
      (fun _ _ => trivial) trivial ran
  refine ⟨cut, mid, isCut, ranBefore, ?_, ?_⟩
  · rintro spared ⟨target, keyId, isOwned⟩
    obtain ⟨dwindles, ifCleared⟩ := @ran_foreign cfg _ _ target oldId _ _
      (fun _ => foreign_of_moved isId moved quiet) ranRest
    obtain ⟨later, isLater, patterns, isClear⟩ := spared target keyId (dwindles keyId isOwned)
    exact ifCleared ⟨patterns, mem_append_right _
      (mem_flatMap.mpr ⟨later, isLater, isClear⟩)⟩ keyId isOwned
  · rintro ⟨isString, isLasting, mirrors⟩ gone target keyId isOwned
    have isMaterialized : cfg.contract = .materialized cfg.contract.complaint := by
      rw [Contract.materialized, ← isString, ← isLasting]
    obtain ⟨again, mid', _, isAgain, -, -, ranAgain, ranMirrored⟩ :=
      cut_run (@splits_view cfg leases limits (.mirrored isMaterialized) views) (fun _ => trivial)
        isPrepared (mirrored_allows isMaterialized isPrepared) mirrors ran
    rw [isCut] at isAgain
    cases isAgain
    rw [ranBefore] at ranAgain
    cases ranAgain
    by_contra notCleared
    refine gone ⟨target, keyId, owned_of_ran (fun _ => foreign_of_moved isId moved quiet)
      ranMirrored ?_ isOwned⟩
    intro patterns mem
    obtain ⟨later, isLater, isClear⟩ := mem_flatMap.mp (clear_of_later notTruncate mem)
    exact notCleared ⟨later, isLater, patterns, isClear⟩

include isOld isUpsert

theorem direct_moved (isPlan : planDirect cfg ev = .ok plan)
    (isAccepted : ∀ message, plan ≠ .reject message)
    (ran : Ran (Regime.loose cfg) ((directPlanner cfg limits).asked ev ++
      after.flatMap (directPlanner cfg limits).asked) space final) :
    ∃ target version, keyParts cfg ev = .ok (target, docId) ∧
      durableSourceVersion ev = .ok version ∧
      ((final (keyFromParts cfg.keys target oldId)).isSome ↔
        (space (keyFromParts cfg.keys target oldId)).isSome ∧
        (¬ ∃ patterns, .clearTarget target patterns ∈
          after.flatMap (directPlanner cfg limits).asked) ∧
        ¬ (cfg.fits (keyFromParts cfg.keys target oldId) ∧
          cfg.fits (versionKey cfg.keys target oldId) ∧
          isStale (storedText (space (versionKey cfg.keys target oldId))) version = false)) := by
  rcases planDirect_inv isPlan with ⟨_, isTruncate, -⟩ | ⟨message, isReject⟩ |
    ⟨target, found, version, bytes, -, isKey, isVersion, isCommands⟩
  · rw [notTruncate] at isTruncate
    cases isTruncate
  · exact absurd isReject (isAccepted message)
  · have same : found = docId := by
      have isFound := header_of_keyParts isKey
      rw [isId] at isFound
      exact (Option.some.inj isFound).symm
    subst same
    refine ⟨target, version, isKey, isVersion, ?_⟩
    obtain ⟨between, own, others⟩ := ran_append_inv ran
    have isAsked : (directPlanner cfg limits).asked ev =
        (directCommands cfg target found version ev).map fun cmd =>
          .pipeline [cmd] := by
      have isPlanned : (directPlanner cfg limits).plan ev =
          .ok (.commands (directCommands cfg target found version ev) bytes) :=
        isCommands ▸ isPlan
      rw [Planner.asked, isPlanned]
      rfl
    rw [isAsked] at own
    have ownKey := ran_moved isOld isUpsert moved own
    have left := @ran_harmless cfg between final target oldId _ (by
      intro operation mem
      obtain ⟨later, isLater, isOperation⟩ := mem_flatMap.mp mem
      exact harmless_of_not_concerns (quiet later isLater) isOperation) others
    rcases left with ⟨isCleared, gone⟩ | ⟨notCleared, kept⟩
    · exact iff_of_false (by simp [gone]) fun both => both.2.1 isCleared
    · rw [kept, ownKey]
      simp only [notCleared, not_false_eq_true, true_and]
      split
      · rename_i planned
        simp only [Bool.and_eq_true, Bool.not_eq_true', and_assoc] at planned
        simp [planned]
      · rename_i unplanned
        simp only [Bool.and_eq_true, Bool.not_eq_true', and_assoc] at unplanned
        simp only [unplanned, not_false_eq_true, and_true]

theorem direct_leaves_nothing
    (isPrepared : (directPlanner cfg limits).prepare (before ++ ev :: after) = .ok prepared)
    (isAccepted : before.length ∉ prepared.rejected.map (·.1))
    (ran : exec (runOperations cfg leases prepared.operations) space = (.ok ⟨⟩, final)) :
    ∃ cut mid, (directPlanner cfg limits).prepare before = .ok cut ∧
      exec (runOperations cfg leases cut.operations) space = (.ok ⟨⟩, mid) ∧
      ((∀ target docId version, keyParts cfg ev = .ok (target, docId) →
          durableSourceVersion ev = .ok version →
          (mid (keyFromParts cfg.keys target oldId)).isSome →
          (∃ later ∈ after, ∃ patterns, .clearTarget target patterns ∈
            (directPlanner cfg limits).asked later) ∨
          cfg.fits (keyFromParts cfg.keys target oldId) ∧
          cfg.fits (versionKey cfg.keys target oldId) ∧
          isStale (storedText (mid (versionKey cfg.keys target oldId))) version = false) ↔
        ¬ ∃ target docId, keyParts cfg ev = .ok (target, docId) ∧
          (final (keyFromParts cfg.keys target oldId)).isSome) := by
  obtain ⟨cut, mid, plan, isCut, isPlan, isNoted, ranBefore, ranRest⟩ :=
    cut_run splits_direct (fun _ => trivial) isPrepared (fun _ _ => trivial) trivial ran
  obtain ⟨target, version, isKey, isVersion, left⟩ := direct_moved isId moved quiet notTruncate isOld
    isUpsert isPlan (fun message isReject => isAccepted (isNoted message isReject)) ranRest
  have clears : (∃ patterns, .clearTarget target patterns ∈
      after.flatMap (directPlanner cfg limits).asked) ↔ ∃ later ∈ after, ∃ patterns,
        .clearTarget target patterns ∈ (directPlanner cfg limits).asked later := by
    simp only [mem_flatMap]
    exact ⟨fun ⟨patterns, later, isLater, isClear⟩ => ⟨later, isLater, patterns, isClear⟩,
      fun ⟨later, isLater, patterns, isClear⟩ => ⟨patterns, later, isLater, isClear⟩⟩
  rw [clears] at left
  refine ⟨cut, mid, isCut, ranBefore, ?_, ?_⟩
  · rintro spared ⟨found, foundId, isFound, isThere⟩
    rw [isKey] at isFound
    cases isFound
    obtain ⟨wasThere, notCleared, unplanned⟩ := left.mp isThere
    exact unplanned ((spared target docId version isKey isVersion wasThere).resolve_left notCleared)
  · intro gone found foundId stated isFound isStated wasThere
    rw [isKey] at isFound
    cases isFound
    rw [isVersion] at isStated
    cases isStated
    by_contra remains
    obtain ⟨notCleared, unplanned⟩ := not_or.mp remains
    exact gone ⟨target, docId, isKey, left.mpr ⟨wasThere, notCleared, unplanned⟩⟩

end

/-- A key-changing update leaves nothing of its old id exactly when there was nothing of it to
    leave, or the delete that is planned on single documents removes it. -/
theorem old_id_leaves_nothing
    (isPrepared : prepareBatch cfg limits (before ++ ev :: after) = .ok prepared)
    (isAccepted : before.length ∉ prepared.rejected.map (·.1)) (isUpsert : isDeleteEvent ev = false)
    (notTruncate : isTruncateEvent ev = false)
    (isOld : ev.headers["ventstream.doc.old_id"]? = some oldId)
    (isId : ev.headers["ventstream.doc.id"]? = some docId) (moved : docId ≠ oldId)
    (quiet : ∀ later ∈ after, ¬ Concerns oldId later)
    (ran : exec (runOperations cfg leases prepared.operations) space = (.ok ⟨⟩, final)) :
    ∃ cut mid, prepareBatch cfg limits before = .ok cut ∧
      exec (runOperations cfg leases cut.operations) space = (.ok ⟨⟩, mid) ∧
      (Spared cfg limits mid ev oldId after → ¬ Remains cfg ev oldId final) ∧
      (Trusted cfg space → ¬ Remains cfg ev oldId final →
        Spared cfg limits mid ev oldId after) := by
  unfold prepareBatch at isPrepared ⊢
  unfold Spared Remains Trusted Clears askedOf
  cases isRouting : cfg.routing with
  | views views =>
    rw [isRouting] at isPrepared
    exact view_leaves_nothing isId moved quiet notTruncate isPrepared ran
  | byOutputRelation | byProjectionTarget | fixed =>
    rw [isRouting] at isPrepared
    obtain ⟨cut, mid, isCut, ranBefore, left⟩ := direct_leaves_nothing isId moved quiet
      notTruncate isOld isUpsert isPrepared isAccepted ran
    exact ⟨cut, mid, isCut, ranBefore, left.mp, fun _ => left.mpr⟩

def titles : View where
  name := "titles"
  schema := none
  source := .relation "books"
  requiresJson := false
  materialize ev payload _ _ _ :=
    .ok ((ev.headers["ventstream.doc.id"]?).map fun docId => ⟨docId, payload⟩)

def titlesConfig (routing : Routing) : Config where
  keys := vs
  routing := routing
  contract := .materialized fun _ => none
  exclusive := true
  maxKeyBytes := 512
  maxValueBytes := 512
  maxBatchBytes := 4096

def added : SinkEvent where
  subject := ⟨"pg.public.books.insert", by decide +kernel⟩
  headers := .ofList [("ventstream.doc.id", "1"), ("ventstream.cdc.relation", "books"),
    ("ventstream.cdc.lsn", "5")]
  payload := .error "not read"
  id := "e1"
  bytes := "dune"

def renumbered : SinkEvent where
  subject := ⟨"pg.public.books.update", by decide +kernel⟩
  headers := .ofList [("ventstream.doc.id", "2"), ("ventstream.doc.old_id", "1"),
    ("ventstream.cdc.relation", "books"), ("ventstream.cdc.lsn", "6")]
  payload := .error "not read"
  id := "e2"
  bytes := "dune"

def lease (target : String) : WriterFence := ⟨target, "v1|feed|a"⟩

def leased : Keyspace := fun name =>
  if name = writerFenceKey vs "titles" ∨ name = writerFenceKey vs "books" then
    some ⟨.string "v1|feed|a", true⟩ else none

theorem old_id_leaves_nothing_books : ∃ prepared final,
    prepareBatch (titlesConfig .byOutputRelation) ⟨4096, 16⟩ ([added] ++ renumbered :: []) =
      .ok prepared ∧
    exec (runOperations (titlesConfig .byOutputRelation) lease prepared.operations) leased =
      (.ok ⟨⟩, final) ∧
    ¬ Remains (titlesConfig .byOutputRelation) renumbered "1" final := by
  obtain ⟨prepared, isPrepared, isAccepted, succeeds⟩ : ∃ prepared,
      prepareBatch (titlesConfig .byOutputRelation) ⟨4096, 16⟩ ([added] ++ renumbered :: []) =
        .ok prepared ∧ 1 ∉ prepared.rejected.map (·.1) ∧
      (exec (runOperations (titlesConfig .byOutputRelation) lease prepared.operations) leased).1 =
        .ok ⟨⟩ := ⟨_, rfl, by decide +kernel, by decide +kernel⟩
  refine ⟨prepared, _, isPrepared, Prod.ext succeeds rfl, ?_⟩
  have isOld : renumbered.headers["ventstream.doc.old_id"]? = some "1" := by decide +kernel
  have isId : renumbered.headers["ventstream.doc.id"]? = some "2" := by decide +kernel
  obtain ⟨cut, mid, isCut, ranCut, spared, -⟩ := old_id_leaves_nothing isPrepared isAccepted
    (by decide +kernel) (by decide +kernel) isOld isId (by decide)
    (fun _ member => absurd member not_mem_nil) (Prod.ext succeeds rfl)
  refine spared fun target docId version isKey isVersion _ => .inr ?_
  obtain rfl : "books" = target := by
    have isTarget : (keyParts (titlesConfig .byOutputRelation) renumbered).toOption.map (·.1) =
        some "books" := by decide +kernel
    rw [isKey] at isTarget
    exact (Option.some.inj isTarget).symm
  have isStated : (durableSourceVersion renumbered).toOption = some (some 6) := by decide +kernel
  rw [isVersion] at isStated
  obtain rfl := Option.some.inj isStated
  have isStored : (prepareBatch (titlesConfig .byOutputRelation) ⟨4096, 16⟩ [added]).toOption.map
      (fun cut => isStale (storedText ((exec (runOperations (titlesConfig .byOutputRelation) lease
        cut.operations) leased).2 (versionKey vs "books" "1"))) (some 6)) =
      some false := by decide +kernel
  rw [isCut] at isStored
  have inOrder := Option.some.inj isStored
  dsimp only at inOrder
  rw [ranCut] at inOrder
  exact ⟨by decide +kernel, by decide +kernel, inOrder⟩

/-- A view keeps the entry of the old id next to that of the new one. -/
theorem old_view_entry_stays : ∃ prepared final,
    prepareBatch (titlesConfig (.views [titles])) ⟨4096, 16⟩ [added, renumbered] = .ok prepared ∧
    prepared.rejected = [] ∧
    exec (runOperations (titlesConfig (.views [titles])) lease prepared.operations) leased =
      (.ok ⟨⟩, final) ∧
    Remains (titlesConfig (.views [titles])) renumbered "1" final := by
  refine ⟨_, _, rfl, rfl, Prod.ext (by decide +kernel) rfl, "titles", "1", ⟨false, ?_⟩, ?_⟩
  · rfl
  · decide +kernel

end

end Ventstream.Redis
