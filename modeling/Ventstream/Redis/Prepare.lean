import Ventstream.Core.Event
import Ventstream.Library.Decimal
import Ventstream.Redis.Scripts

/-! # From events to the operations of the Redis sink

The preparation of a batch in `sink.rs`: what each event asks for under the routing of the
sink, commands on single documents or commands on views, and the packing of commands into
pipelines. A truncate closes the pipeline before it and becomes an operation of its own.
How a view filters an event and renders its key and value is left open.
-/

namespace Ventstream.Redis

open Core List
open Json (Value)

section

variable (ev : SinkEvent)

def operationOf : Option String := (segments ev.subject.text).getLast?

def isDeleteEvent : Bool := operationOf ev == some "delete"

def isTruncateEvent : Bool := operationOf ev == some "truncate"

def newRow : Option Value := ev.updateRow

def upsertPayload : String :=
  match newRow ev with
  | some row => Json.render row
  | none => ev.bytes

/-- What reading the payload of an upsert as JSON gives. -/
def upsertDocument : Except String Value :=
  match newRow ev with
  | some row => .ok row
  | none => ev.payload

/-- The header that orders the writes of an event, if it has one. -/
def versionHeader : Option (String × String) :=
  ["ventstream.cdc.lsn", "ventstream.cdc.tx_id", "ventstream.cdc.source_version"].findSome?
    fun header => ev.headers[header]?.map fun raw => (header, raw)

/-- The number in the version header; zero counts as no version. -/
def durableSourceVersion : Except String (Option Nat) :=
  match versionHeader ev with
  | none => .ok none
  | some (header, raw) =>
    if !isVersion raw then
      .error ("event " ++ ev.id ++ " has an invalid `" ++ header ++
        "`; Redis source ordering requires an unsigned decimal integer")
    else
      let canonical := raw.toList.dropWhile (· == '0')
      if canonical.isEmpty then .ok none else .ok (some (Nat.ofDigitChars 10 canonical 0))

end

/-- What a view takes its events from. -/
inductive ViewSource where
  | relation (name : String)
  | projectionTarget (name : String)

structure View where
  name : String
  schema : Option String
  source : ViewSource
  requiresJson : Bool
  /-- The entry for an event, none when the view removes it: from the event, the payload, the
      document if one is required, and the bytes that a key and a value may take. -/
  materialize : SinkEvent → String → Option Value → Nat → Nat → Except String (Option ViewEntry)

def View.sourceMatches (view : View) (ev : SinkEvent) : Bool :=
  (view.schema.isNone || ev.headers["ventstream.cdc.namespace"]? == view.schema) &&
    match view.source with
    | .relation name => ev.headers["ventstream.cdc.relation"]? == some name
    | .projectionTarget name => ev.headers["ventstream.target.index"]? == some name

inductive Routing where
  | byOutputRelation
  | byProjectionTarget
  | fixed (target : String)
  | views (views : List View)

structure Config where
  keys : KeyPrefix
  routing : Routing
  contract : Contract
  /-- The targets belong to this sink alone. -/
  exclusive : Bool
  maxKeyBytes : Nat
  maxValueBytes : Nat
  maxBatchBytes : Nat

def Config.fits (cfg : Config) (name : String) : Bool := name.utf8ByteSize ≤ cfg.maxKeyBytes

def Config.checkKey (cfg : Config) (what name : String) : Except String PUnit :=
  if cfg.fits name then .ok ⟨⟩
  else .error (what ++ " is " ++ toString name.utf8ByteSize ++ " bytes; max_key_bytes=" ++
    toString cfg.maxKeyBytes)

def Config.usesJsonCacheStaging (cfg : Config) : Bool :=
  match cfg.contract.format with
  | .json => cfg.contract.ttl != 0
  | .string => false

def isBlank (char : Char) : Bool :=
  (9 ≤ char.toNat && char.toNat ≤ 13) || (0x2000 ≤ char.toNat && char.toNat ≤ 0x200A) ||
    [0x20, 0x85, 0xA0, 0x1680, 0x2028, 0x2029, 0x202F, 0x205F, 0x3000].contains char.toNat

def validateTargetSegment (target : String) : Except String PUnit :=
  if target.toList.all isBlank || target.toList.head?.any isBlank ||
      target.toList.getLast?.any isBlank || 1024 < target.utf8ByteSize ||
      target.toList.any isControl then
    .error "Redis target must be trimmed, 1 to 1024 bytes, and contain no control characters"
  else .ok ⟨⟩

def requireHeader (what : String) (ev : SinkEvent) (header : String) : Except String String :=
  ev.routingHeader what header "Redis key routing"

def routeTarget (cfg : Config) (ev : SinkEvent) : Except String String :=
  match cfg.routing with
  | .byOutputRelation => requireHeader "event" ev "ventstream.cdc.relation"
  | .byProjectionTarget => requireHeader "event" ev "ventstream.target.index"
  | .fixed target => .ok target
  | .views _ => .error "Redis views routing must use the view materializer"

def documentId (ev : SinkEvent) : Except String String := ev.stableId "Redis"

def keyParts (cfg : Config) (ev : SinkEvent) : Except String (String × String) := do
  let target ← routeTarget cfg ev
  validateTargetSegment target
  let docId ← documentId ev
  pure (target, docId)

def truncateTarget (cfg : Config) (ev : SinkEvent) : Except String String :=
  match cfg.routing with
  | .byOutputRelation => requireHeader "truncate event" ev "ventstream.cdc.relation"
  | .byProjectionTarget =>
    if ev.headers["ventstream.target.clear"]? != some "true" then
      .error ("raw truncate events cannot safely clear by_projection_target Redis keys; " ++
        "route the source through SQL or memory projection handling")
    else requireHeader "target-clear event" ev "ventstream.target.index"
  | .fixed _ =>
    .error ("raw truncate events cannot safely clear a fixed Redis target because multiple " ++
      "source relations may share it; use by_output_relation or a join projection")
  | .views _ => .error "Redis views routing must use target-scoped view truncate handling"

section

inductive Operation where
  | pipeline (cmds : List DirectCommand)
  | viewPipeline (cmds : List ViewCommand)
  | clearTarget (target : String) (patterns : List String)

/-- The commands of an operation, as operations of one command each. -/
def Operation.singles : Operation → List Operation
  | pipeline cmds => cmds.map fun cmd => pipeline [cmd]
  | viewPipeline cmds => cmds.map fun cmd => viewPipeline [cmd]
  | clearTarget target patterns => [clearTarget target patterns]

/-- What one event of a batch asks for. -/
inductive Plan (α : Type) where
  | skip
  | reject (message : String)
  | clear (targets : List (String × List String)) (bytes : Nat)
  | commands (cmds : List α) (bytes : Nat)

variable (cfg : Config)

/-- A value that is too large or does not read as JSON. -/
def checkValue (ev : SinkEvent) : Except String PUnit :=
  if isDeleteEvent ev then .ok ⟨⟩
  else if cfg.maxValueBytes < ev.bytes.utf8ByteSize then
    .error ("Redis value is " ++ toString ev.bytes.utf8ByteSize ++ " bytes; max_value_bytes=" ++
      toString cfg.maxValueBytes)
  else
    match cfg.contract.format, ev.payload with
    | .json, .error message => .error ("RedisJSON payload is not valid JSON: " ++ message)
    | _, _ => .ok ⟨⟩

/-- A key-changing update deletes the document under its old id, if that id fits into a key. -/
def oldDelete (target : String) (version : Option Nat) (ev : SinkEvent) : List DirectCommand :=
  match ev.headers["ventstream.doc.old_id"]? with
  | none => []
  | some oldId =>
    if cfg.fits (keyFromParts cfg.keys target oldId) &&
        cfg.fits (versionKey cfg.keys target oldId) then
      [⟨target, oldId, version, none⟩]
    else []

def directCommands (target docId : String) (version : Option Nat) (ev : SinkEvent) :
    List DirectCommand :=
  if isDeleteEvent ev then [⟨target, docId, version, none⟩]
  else oldDelete cfg target version ev ++ [⟨target, docId, version, some (upsertPayload ev)⟩]

def versionBytes (version : Option Nat) :
    Nat := (version.map fun number => (toString number).length).getD 0

/-- The size of an event's command, as far as it counts towards the limits. The delete of an old
    id does not. -/
def directBytes (target docId : String) (version : Option Nat) (ev : SinkEvent) : Nat :=
  (keyFromParts cfg.keys target docId).utf8ByteSize +
    (versionKey cfg.keys target docId).utf8ByteSize + versionBytes version +
    (if !isDeleteEvent ev && cfg.usesJsonCacheStaging then
      (stagingKey cfg.keys target docId).utf8ByteSize else 0) +
    (if isDeleteEvent ev then 0 else ev.bytes.utf8ByteSize) + 96

/-- The commands of an event on single documents, or why it is rejected. -/
def acceptDirect (ev : SinkEvent) : Except String (List DirectCommand × Nat) := do
  checkValue cfg ev
  let (target, docId) ← keyParts cfg ev
  let version ← durableSourceVersion ev
  cfg.checkKey "Redis key" (keyFromParts cfg.keys target docId)
  cfg.checkKey "sink blocked: Redis source-version key" (versionKey cfg.keys target docId)
  if !isDeleteEvent ev && cfg.usesJsonCacheStaging then
    cfg.checkKey "Redis staging key" (stagingKey cfg.keys target docId)
  let bytes := directBytes cfg target docId version ev
  if cfg.maxBatchBytes < bytes then
    throw ("Redis command is approximately " ++ toString bytes ++ " bytes; max_batch_bytes=" ++
      toString cfg.maxBatchBytes)
  else pure (directCommands cfg target docId version ev, bytes)

def planDirect (ev : SinkEvent) : Except String (Plan DirectCommand) :=
  if isTruncateEvent ev then
    if !cfg.exclusive then
      .error ("Redis target-wide truncate requires " ++ "sink.redis.keyspace.ownership=exclusive")
    else do
      let target ← truncateTarget cfg ev
      cfg.checkKey "Redis truncate target pattern" (clearPattern cfg.keys .data target ++ "*")
      pure (.clear [(target, directClearPatterns cfg.keys target)] 0)
  else
    match acceptDirect cfg ev with
    | .error message => .ok (.reject message)
    | .ok (cmds, bytes) => .ok (.commands cmds bytes)

def viewCommandBytes (sourceId : String) (version : Option Nat) (target : String)
    (desired : Option ViewEntry) : Nat :=
  (manifestKey cfg.keys target sourceId).utf8ByteSize + sourceId.utf8ByteSize +
    versionBytes version +
    (match desired with
    | none => 0
    | some entry => (keyFromParts cfg.keys target entry.keyId).utf8ByteSize +
        (ownerKey cfg.keys target entry.keyId).utf8ByteSize +
        (if cfg.usesJsonCacheStaging then
          (stagingKey cfg.keys target entry.keyId).utf8ByteSize else 0) +
        entry.payload.utf8ByteSize) + 192

/-- The entry that an upsert has in a view, none for a removal. -/
def desiredEntry (view : View) (ev : SinkEvent) (document : Option Value) (spent : Nat) :
    Except String (Option ViewEntry) :=
  if isDeleteEvent ev then .ok none
  else do
    let desired ← view.materialize ev (upsertPayload ev) document cfg.maxKeyBytes
      (min cfg.maxValueBytes (cfg.maxBatchBytes - spent))
    match desired with
    | none => pure none
    | some entry => do
        if cfg.maxValueBytes < entry.payload.utf8ByteSize then
          throw ("Redis view " ++ view.name ++ " value is " ++ toString entry.payload.utf8ByteSize ++
            " bytes; max_value_bytes=" ++ toString cfg.maxValueBytes)
        cfg.checkKey ("Redis view " ++ view.name ++ " key")
          (keyFromParts cfg.keys view.name entry.keyId)
        cfg.checkKey "Redis view owner key" (ownerKey cfg.keys view.name entry.keyId)
        if cfg.usesJsonCacheStaging then
          cfg.checkKey "Redis view staging key" (stagingKey cfg.keys view.name entry.keyId)
        pure (some entry)

/-- One command for every view that an event belongs to. -/
def viewCommands (sourceId : String) (version : Option Nat) (ev : SinkEvent)
    (document : Option Value) : Nat → List View → Except String (List ViewCommand × Nat)
  | spent, [] => .ok ([], spent)
  | spent, view :: rest => do
      cfg.checkKey "Redis view manifest key" (manifestKey cfg.keys view.name sourceId)
      let desired ← desiredEntry cfg view ev document spent
      let bytes := spent + viewCommandBytes cfg sourceId version view.name desired
      if cfg.maxBatchBytes < bytes then
        throw ("Redis view commands for one source event exceed max_batch_bytes=" ++
          toString cfg.maxBatchBytes)
      else do
        let (others, total) ← viewCommands sourceId version ev document bytes rest
        pure (⟨view.name, sourceId, version, desired⟩ :: others, total)

def viewDocument (views : List View) (ev : SinkEvent) : Except String (Option Value) :=
  let requiresJson := !isDeleteEvent ev &&
    ((match cfg.contract.format with | .json => true | .string => false) ||
      views.any (·.requiresJson))
  if requiresJson then
    match upsertDocument ev with
    | .ok document => .ok (some document)
    | .error message => .error ("Redis view payload is not valid JSON: " ++ message ++
        "; delivery cannot advance while an older materialization may remain visible")
  else .ok none

def sourceIdentity (ev : SinkEvent) : Except String String :=
  match ev.headers["ventstream.doc.id"]?.filter fun sourceId =>
    !sourceId.isEmpty && !sourceId.toList.any isControl with
  | some sourceId => .ok sourceId
  | none => .error ("event " ++ ev.id ++ " has an empty, missing, or control-character " ++
      "`ventstream.doc.id`; Redis views cannot advance without a stable source identity")

/-- The commands of an event on the views it belongs to, or why the batch is blocked. -/
def acceptView (views : List View) (ev : SinkEvent) : Except String (List ViewCommand × Nat) := do
  let sourceId ← sourceIdentity ev
  let version ← durableSourceVersion ev
  if !isDeleteEvent ev && cfg.maxValueBytes < (upsertPayload ev).utf8ByteSize then
    throw ("Redis view source value is " ++ toString (upsertPayload ev).utf8ByteSize ++
      " bytes; max_value_bytes=" ++ toString cfg.maxValueBytes ++
      "; delivery cannot advance while an older materialization may remain visible")
  let document ← viewDocument cfg views ev
  viewCommands cfg sourceId version ev document 0 views

def clearViews : List View → Except String (List (String × List String) × Nat)
  | [] => .ok ([], 0)
  | view :: rest => do
      for pattern in viewClearPatterns cfg.keys view.name do
        cfg.checkKey "Redis view clear pattern" (pattern ++ "*")
      let (others, bytes) ← clearViews rest
      pure ((view.name, viewClearPatterns cfg.keys view.name) :: others,
        192 + ((viewClearPatterns cfg.keys view.name).map (·.utf8ByteSize + 1)).sum + bytes)

def planView (views : List View) (ev : SinkEvent) : Except String (Plan ViewCommand) :=
  let matching := views.filter (·.sourceMatches ev)
  if matching.isEmpty then .ok .skip
  else if isTruncateEvent ev then
    if !cfg.exclusive then
      .error "Redis view truncate requires sink.redis.keyspace.ownership=exclusive"
    else do
      let (targets, bytes) ← clearViews cfg matching
      pure (.clear targets bytes)
  else do
    let (cmds, bytes) ← acceptView cfg matching ev
    pure (.commands cmds bytes)

end

section

/-- The pipeline that is being filled, after the operations that are complete. -/
structure Builder (α : Type) where
  operations : List Operation
  commands : List α
  bytes : Nat

structure Limits where
  maxBatchBytes : Nat
  maxCommands : Nat

/-- How the events of a batch become operations: commands on documents, or on views. -/
structure Planner (α : Type) where
  plan : SinkEvent → Except String (Plan α)
  wrap : List α → Operation
  singles_wrap : ∀ commands, (wrap commands).singles = commands.map fun command => wrap [command]
  /-- Whether the pipeline has no room for the commands of another event. -/
  isFull : Builder α → List α → Nat → Bool
  /-- The bytes that the operations of a whole batch may take. -/
  budget : Option Nat

structure Progress (α : Type) where
  builder : Builder α
  offset : Nat
  spent : Nat
  rejected : List (Nat × String)

structure Prepared where
  operations : List Operation
  rejected : List (Nat × String)

variable {α : Type} (planner : Planner α)

def Builder.flush (wrap : List α → Operation) (builder : Builder α) : Builder α :=
  if builder.commands.isEmpty then builder
  else ⟨builder.operations ++ [wrap builder.commands], [], 0⟩

def Builder.clear (wrap : List α → Operation) (builder : Builder α)
    (targets : List (String × List String)) : Builder α :=
  let flushed := builder.flush wrap
  { flushed with operations := flushed.operations ++ targets.map fun entry =>
      .clearTarget entry.1 entry.2 }

def Builder.push (builder : Builder α) (cmds : List α) (bytes : Nat) : Builder α :=
  { builder with commands := builder.commands ++ cmds, bytes := builder.bytes + bytes }

namespace Planner

/-- A builder with room for the commands of another event. -/
def makeRoom (builder : Builder α) (cmds : List α) (bytes : Nat) : Builder α :=
  if !builder.commands.isEmpty && planner.isFull builder cmds bytes then
    builder.flush planner.wrap
  else builder

def spend (progress : Progress α) (bytes : Nat) : Except String Nat :=
  if planner.budget.any (· < progress.spent + bytes) then
    .error "Redis prepared view operations exceed max_batch_bytes"
  else .ok (progress.spent + bytes)

def take (progress : Progress α) (ev : SinkEvent) : Except String (Progress α) := do
  match ← planner.plan ev with
  | .skip => pure { progress with offset := progress.offset + 1 }
  | .reject message => pure { progress with
      offset := progress.offset + 1
      rejected := progress.rejected ++ [(progress.offset, message)] }
  | .clear targets bytes => do
      let spent ← planner.spend progress bytes
      pure { progress with
        offset := progress.offset + 1
        spent := spent
        builder := progress.builder.clear planner.wrap targets }
  | .commands cmds bytes => do
      let spent ← planner.spend progress bytes
      pure { progress with
        offset := progress.offset + 1
        spent := spent
        builder := (planner.makeRoom progress.builder cmds bytes).push cmds bytes }

def start : Progress α := ⟨⟨[], [], 0⟩, 0, 0, []⟩

def finish (progress : Progress α) : Prepared :=
  ⟨(progress.builder.flush planner.wrap).operations, progress.rejected⟩

def prepare (evs : List SinkEvent) : Except String Prepared := do
  let progress ← evs.foldlM planner.take start
  pure (planner.finish progress)

end Planner

def directPlanner (cfg : Config) (limits : Limits) : Planner DirectCommand where
  plan := planDirect cfg
  wrap := .pipeline
  singles_wrap _ := rfl
  isFull builder _ bytes := limits.maxBatchBytes < builder.bytes + bytes ||
    limits.maxCommands ≤ builder.commands.length
  budget := none

def viewPlanner (cfg : Config) (limits : Limits) (views : List View) : Planner ViewCommand where
  plan := planView cfg views
  wrap := .viewPipeline
  singles_wrap _ := rfl
  isFull builder cmds bytes := limits.maxBatchBytes < builder.bytes + bytes ||
    limits.maxCommands < builder.commands.length + cmds.length
  budget := some cfg.maxBatchBytes

def prepareBatch (cfg : Config) (limits : Limits) (evs : List SinkEvent) : Except String Prepared :=
  match cfg.routing with
  | .views views => (viewPlanner cfg limits views).prepare evs
  | _ => (directPlanner cfg limits).prepare evs

end

section

variable {α : Type} (planner : Planner α)

/-- What an event asks for, as operations of one command each. -/
def Planner.asked (ev : SinkEvent) : List Operation :=
  match planner.plan ev with
  | .ok (.clear targets _) => targets.map fun entry => .clearTarget entry.1 entry.2
  | .ok (.commands cmds _) => cmds.map fun cmd => planner.wrap [cmd]
  | _ => []

/-- The pipeline of some commands; there is none without commands. -/
def Planner.wrapped (cmds : List α) : List Operation :=
  if cmds.isEmpty then [] else [planner.wrap cmds]

/-- How a builder has grown by some commands and clears: they are still in its open pipeline, or
    the open pipeline was closed after the first of them. -/
inductive Planner.Grown (before : Builder α) (added : List Operation) : Builder α → Prop
  | open_ (more : List α) (bytes : Nat) (isAdded : added = more.map fun cmd => planner.wrap [cmd]) :
      Grown before added ⟨before.operations, before.commands ++ more, bytes⟩
  | closed (more : List α) (tail : List Operation) (last : List α) (bytes : Nat)
      (isAdded : added = more.map (fun cmd => planner.wrap [cmd]) ++
        tail.flatMap Operation.singles ++ last.map fun cmd => planner.wrap [cmd]) :
      Grown before added
        ⟨before.operations ++ planner.wrapped (before.commands ++ more) ++ tail, last, bytes⟩

variable {planner} {before middle after : Builder α} {added later : List Operation}

namespace Planner

theorem singles_wrapped (cmds : List α) : (planner.wrapped cmds).flatMap Operation.singles =
    cmds.map fun cmd => planner.wrap [cmd] := by
  unfold wrapped
  cases cmds with
  | nil => rfl
  | cons cmd rest => simp [planner.singles_wrap]

theorem Grown.refl : planner.Grown before [] before := by
  have grown := @Grown.open_ α planner before [] [] before.bytes rfl
  rwa [append_nil] at grown

theorem Grown.trans (first : planner.Grown before added middle)
    (second : planner.Grown middle later after) : planner.Grown before (added ++ later) after := by
  cases first with
  | open_ more bytes isAdded =>
    cases second with
    | open_ more' bytes' isLater =>
      have grown := @Grown.open_ α planner before (added ++ later) (more ++ more') bytes'
        (by rw [isAdded, isLater, map_append])
      rwa [← append_assoc] at grown
    | closed more' tail last bytes' isLater =>
      have grown := @Grown.closed α planner before (added ++ later) (more ++ more') tail last
        bytes' (by rw [isAdded, isLater, map_append]; simp only [append_assoc])
      rwa [← append_assoc before.commands] at grown
  | closed more tail last bytes isAdded =>
    cases second with
    | open_ more' bytes' isLater =>
      exact .closed more tail (last ++ more') bytes'
        (by rw [isAdded, isLater, map_append]; simp only [append_assoc])
    | closed more' tail' last' bytes' isLater =>
      have grown := @Grown.closed α planner before (added ++ later) more
        (tail ++ planner.wrapped (last ++ more') ++ tail') last' bytes' (by
          rw [isAdded, isLater, flatMap_append, flatMap_append, singles_wrapped, map_append]
          simp only [append_assoc])
      simpa only [append_assoc] using grown

theorem Grown.flush : planner.Grown before [] (before.flush planner.wrap) := by
  unfold Builder.flush
  split
  · exact .refl
  · rename_i nonempty
    have grown := @Grown.closed α planner before [] [] [] [] 0 rfl
    simpa only [wrapped, append_nil, if_neg nonempty] using grown

theorem Grown.push (cmds : List α) (bytes : Nat) :
    planner.Grown before (cmds.map fun cmd => planner.wrap [cmd])
      (before.push cmds bytes) :=
  .open_ cmds _ rfl

theorem Grown.makeRoom (cmds : List α) (bytes : Nat) :
    planner.Grown before [] (planner.makeRoom before cmds bytes) := by
  unfold Planner.makeRoom
  split
  · exact .flush
  · exact .refl

theorem Grown.clear (targets : List (String × List String)) :
    planner.Grown before (targets.map fun entry => .clearTarget entry.1 entry.2)
      (before.clear planner.wrap targets) := by
  have closed (bytes : Nat) := @Grown.closed α planner before
    (targets.map fun entry => .clearTarget entry.1 entry.2) []
    (targets.map fun entry => .clearTarget entry.1 entry.2) [] bytes (by
      rw [flatMap_map, map_nil, append_nil]
      exact map_eq_flatMap)
  unfold Builder.clear Builder.flush
  cases cmds : before.commands with
  | nil => simpa [wrapped, cmds] using closed before.bytes
  | cons cmd rest => simpa [wrapped, cmds] using closed 0

variable {progress next : Progress α} {ev : SinkEvent} {evs : List SinkEvent}

theorem take_spec (taken : planner.take progress ev = .ok next) :
    planner.Grown progress.builder (planner.asked ev) next.builder ∧
    next.offset = progress.offset + 1 ∧
    next.rejected = progress.rejected ++ (match planner.plan ev with
      | .ok (.reject message) => [(progress.offset, message)]
      | _ => []) := by
  obtain ⟨plan, isPlan, taken⟩ := Library.ok_of_bind taken
  unfold asked
  rw [isPlan]
  cases plan with
  | skip =>
    cases taken
    exact ⟨.refl, rfl, (append_nil _).symm⟩
  | reject message =>
    cases taken
    exact ⟨.refl, rfl, rfl⟩
  | clear targets bytes =>
    obtain ⟨spent, -, taken⟩ := Library.ok_of_bind taken
    cases taken
    exact ⟨.clear targets, rfl, (append_nil _).symm⟩
  | commands cmds bytes =>
    obtain ⟨spent, -, taken⟩ := Library.ok_of_bind taken
    cases taken
    exact ⟨(Grown.makeRoom cmds bytes).trans (.push cmds bytes), rfl, (append_nil _).symm⟩

theorem foldlM_take_spec (taken : evs.foldlM planner.take progress = .ok next) :
    planner.Grown progress.builder (evs.flatMap planner.asked) next.builder ∧
    next.offset = progress.offset + evs.length ∧ progress.rejected <+: next.rejected := by
  induction evs generalizing progress with
  | nil =>
    cases taken
    exact ⟨.refl, rfl, prefix_rfl⟩
  | cons ev rest ih =>
    obtain ⟨between, first, taken⟩ := Library.ok_of_bind taken
    obtain ⟨grown, counted, noted⟩ := take_spec first
    obtain ⟨grownOn, countedOn, notedOn⟩ := ih taken
    refine ⟨grown.trans grownOn, by rw [countedOn, counted, length_cons]; omega, ?_⟩
    exact (noted ▸ prefix_append _ _).trans notedOn

end Planner

end

end Ventstream.Redis
