import Ventstream.Core.Event
import Ventstream.Library.Program

/-! # Delivery to the clients of a tenant

A client subscribes with patterns that are spliced behind the name of its tenant and read again
as dotted text. Events reach it on three paths: the dispatch of the bus, the pump of a durable
session, and the stream of a GraphQL operation. Only the first compares the tenant of the
envelope.
-/

namespace Ventstream.Realtime

open Core Library List

inductive ProtocolError where
  | invalidIdentifier (field value reason : String)
  | invalidSubjectPattern (pattern reason : String)
  | invalidEvent (reason : String)
  deriving DecidableEq

/-- The checks of one identifier, or of one piece of a dotted name. -/
def checkPiece (field value piece empty : String) (limit : Nat) (long : String) (ok : Char → Bool)
    (bad : String) : Except ProtocolError Unit :=
  if piece.isEmpty then .error (.invalidIdentifier field value empty)
  else if limit < piece.utf8ByteSize then .error (.invalidIdentifier field value long)
  else if piece.toList.all ok then .ok ⟨⟩
  else .error (.invalidIdentifier field value bad)

def isStrictChar (char : Char) : Bool :=
  char.isLower || char.isDigit || char == '_' || char == '-'

def isIdChar (char : Char) : Bool := char.isAlphanum || char == '_' || char == '-'

def validateStrict (field value : String) : Except ProtocolError Unit :=
  checkPiece field value value "must be non-empty" 64 "max 64 chars" isStrictChar
    "only [a-z0-9_-] allowed"

def validateEntityId (field value : String) : Except ProtocolError Unit :=
  checkPiece field value value "must be non-empty" 128 "max 128 chars" isIdChar
    "only [A-Za-z0-9_-] allowed"

def validateEventName (field value : String) : Except ProtocolError Unit :=
  if value.isEmpty then .error (.invalidIdentifier field value "must be non-empty")
  else (segments value).forM fun segment => checkPiece field value segment
    "empty segment (e.g. leading/trailing/double '.')" 64 "each segment max 64 chars" isIdChar
    "only [A-Za-z0-9_-] allowed per segment"

structure Actor where
  kind : String
  id : String

def Actor.validate (actor : Actor) : Except ProtocolError Unit := do
  validateStrict "actor.kind" actor.kind
  validateEntityId "actor.id" actor.id

structure Envelope where
  tenant : String
  event : String
  entityId : String
  actor : Option Actor
  schemaVersion : Nat

def currentSchemaVersion : Nat := 2

def Envelope.validate (envelope : Envelope) : Except ProtocolError Unit := do
  validateStrict "tenant" envelope.tenant
  validateEventName "event" envelope.event
  validateEntityId "id" envelope.entityId
  envelope.actor.forM Actor.validate
  if envelope.schemaVersion ≠ currentSchemaVersion then
    throw (.invalidEvent ("schema_version " ++ toString envelope.schemaVersion ++
      " not supported (expected " ++ toString currentSchemaVersion ++ ")"))

inductive PatternSegment where
  | literal (text : String)
  | oneWildcard
  | tailWildcard
  deriving DecidableEq

structure SubjectPattern where
  raw : String
  segments : List PatternSegment

/-- The segments of a pattern from a position on. -/
def parseSegments (pattern : String) : Nat → List String →
    Except ProtocolError (List PatternSegment)
  | _, [] => .ok []
  | idx, seg :: rest =>
    if seg.isEmpty then
      .error (.invalidSubjectPattern pattern ("empty segment at position " ++ toString idx))
    else if seg = ">" then
      if rest.isEmpty then .ok [.tailWildcard]
      else .error (.invalidSubjectPattern pattern "'>' may only appear in the final position")
    else do
      let others ← parseSegments pattern (idx + 1) rest
      .ok ((if seg = "*" then .oneWildcard else .literal seg) :: others)

def SubjectPattern.parse (pattern : String) : Except ProtocolError SubjectPattern :=
  let parts := Core.segments pattern
  let first := parts.head?.getD ""
  let second := (parts[1]?).getD ""
  if pattern.isEmpty then .error (.invalidSubjectPattern pattern "empty pattern")
  else if first ≠ "vs" then .error (.invalidSubjectPattern pattern
    ("first segment must be 'vs', got '" ++ first ++ "'"))
  else if second ≠ "t" then .error (.invalidSubjectPattern pattern
    ("second segment must be 't', got '" ++ second ++ "'"))
  else do
    let parsed ← parseSegments pattern 0 parts
    return ⟨pattern, parsed⟩

def SubjectPattern.anchored (tenant unanchored : String) : Except ProtocolError SubjectPattern := do
  validateStrict "tenant" tenant
  parse ("vs.t." ++ tenant ++ "." ++ unanchored)

def matchSegments : List PatternSegment → List String → Bool
  | [], [] => true
  | [], _ :: _ => false
  | .tailWildcard :: _, subject => !subject.isEmpty
  | _ :: _, [] => false
  | .oneWildcard :: pattern, _ :: subject => matchSegments pattern subject
  | .literal text :: pattern, segment :: subject =>
    if text ≠ segment then false else matchSegments pattern subject

def SubjectPattern.matchesStr (pattern : SubjectPattern) (subject : String) : Bool :=
  matchSegments pattern.segments (Core.segments subject)

structure Subscription where
  id : String
  pattern : SubjectPattern

structure Connection where
  tenant : String
  subscriptions : List Subscription

/-- The frames of a client that change its subscriptions. -/
inductive ClientMessage where
  | subscribe (id pattern : String)
  | unsubscribe (id : String)

def Connection.receive (connection : Connection) : ClientMessage → Connection
  | .subscribe id pattern =>
    match SubjectPattern.anchored connection.tenant pattern with
    | .ok anchored =>
      { connection with subscriptions := connection.subscriptions ++ [⟨id, anchored⟩] }
    | .error _ => connection
  | .unsubscribe id =>
    { connection with subscriptions := connection.subscriptions.filter (·.id ≠ id) }

/-- The ids of the subscriptions that match a subject. -/
def matched (subscriptions : List Subscription) (subject : String) : List String :=
  (subscriptions.filter (·.pattern.matchesStr subject)).map (·.id)

inductive CursorProvider where
  | natsJetStream
  | redisStreams
  deriving DecidableEq

structure Cursor where
  provider : CursorProvider
  value : String

/-- An event of the bus or of a session. The payload is what reading it as an envelope gives. -/
structure BrokerEvent where
  subject : String
  payload : Except String Envelope
  isUtf8 : Bool
  cursor : Option Cursor

/-- The envelope of an event that no path drops as malformed. -/
def BrokerEvent.envelope (delivery : BrokerEvent) : Option Envelope :=
  match delivery.payload with
  | .ok envelope => if envelope.validate.isOk then some envelope else none
  | .error _ => none

/-- What a connection of the registry gets of an event. -/
def Connection.target (connection : Connection) (subject : String) (ev : Envelope) :
    Option (List String) :=
  if connection.tenant ≠ ev.tenant then none
  else if (matched connection.subscriptions subject).isEmpty then none
  else some (matched connection.subscriptions subject)

/-- A message of the bus, and what the connections of the registry get of it. -/
def dispatch (registry : List Connection) (message : BrokerEvent) :
    List (Connection × List String) :=
  match message.envelope with
  | none => []
  | some ev =>
    if message.isUtf8 then registry.filterMap fun connection =>
      (connection.target message.subject ev).map (connection, ·)
    else []

/-- A cursor that clients of either protocol version can resume from. -/
def hasCursor (delivery : BrokerEvent) : Bool :=
  match delivery.cursor with
  | none => false
  | some cursor => cursor.provider ≠ .natsJetStream || (parseU64 cursor.value).isSome

inductive PumpStep where
  | unrecoverable
  | settled
  | enqueue (matched : List String)
  deriving DecidableEq

/-- What the pump of a durable session does with an event. -/
def pump (subscriptions : List Subscription) (delivery : BrokerEvent) : PumpStep :=
  if !hasCursor delivery then .unrecoverable
  else match delivery.envelope with
    | none => .settled
    | some _ =>
      if (matched subscriptions delivery.subject).isEmpty || !delivery.isUtf8 then .settled
      else .enqueue (matched subscriptions delivery.subject)

/-- Whether a GraphQL operation with this pattern emits an event of its session. -/
def emitted (pattern : SubjectPattern) (delivery : BrokerEvent) : Bool :=
  delivery.cursor.isSome && delivery.envelope.isSome && pattern.matchesStr delivery.subject

section

/-- The rules of NATS for the pieces of a pattern and of a subject: a star stands for one piece,
    a final `>` for one or more. -/
def Matches : List String → List String → Prop
  | [], [] => True
  | seg :: pattern, segment :: subject =>
    if seg = ">" then pattern = [] else (seg = "*" ∨ seg = segment) ∧ Matches pattern subject
  | _, _ => False

theorem matchSegments_iff (isParsed : parseSegments pattern idx parts = .ok parsed) :
    matchSegments parsed subject ↔ Matches parts subject := by
  induction parts generalizing idx parsed subject with
  | nil =>
    cases isParsed
    cases subject <;> simp [matchSegments, Matches]
  | cons seg rest ih =>
    unfold parseSegments at isParsed
    split at isParsed
    · cases isParsed
    split at isParsed
    · split at isParsed
      · cases isParsed
        cases subject <;> simp_all [matchSegments, Matches]
      · cases isParsed
    · obtain ⟨others, isRest, isParsed⟩ := ok_of_bind isParsed
      cases isParsed
      by_cases isStar : seg = "*" <;> cases subject <;>
        simp_all [matchSegments, Matches, ih isRest]

theorem segments_of_strict (isStrict : validateStrict field value = .ok ⟨⟩) :
    segments value = [value] ∧ value ≠ "*" ∧ value ≠ ">" ∧ value ≠ "" := by
  unfold validateStrict checkPiece at isStrict
  split at isStrict
  · cases isStrict
  split at isStrict
  · cases isStrict
  split at isStrict
  · rename_i nonempty _ strict
    have allowed := all_eq_true.mp strict
    have noDot : '.' ∉ value.toList := fun mem => absurd (allowed '.' mem) (by decide)
    refine ⟨?_, ?_, ?_, by rintro rfl; exact nonempty rfl⟩
    · simp [segments, splitOn_eq_singleton noDot]
    · rintro rfl
      exact absurd (allowed '*' (by decide)) (by decide)
    · rintro rfl
      exact absurd (allowed '>' (by decide)) (by decide)
  · cases isStrict

/-- An accepted pattern has the tenant as its third piece, and matches by the rules. -/
theorem anchored_spec (isAnchored : SubjectPattern.anchored tenant unanchored = .ok pattern) :
    pattern.raw = "vs.t." ++ tenant ++ "." ++ unanchored ∧
    (∃ rest, pattern.segments = .literal "vs" :: .literal "t" :: .literal tenant :: rest) ∧
    ∀ subject, pattern.matchesStr subject ↔
      Matches (segments pattern.raw) (segments subject) := by
  obtain ⟨_, isStrict, isParsed⟩ := ok_of_bind isAnchored
  obtain ⟨single, notStar, notTail, nonempty⟩ := segments_of_strict isStrict
  have parts : segments ("vs.t." ++ tenant ++ "." ++ unanchored) =
      "vs" :: "t" :: tenant :: segments unanchored := by
    have front : segments ("vs.t" ++ "." ++ tenant) = ["vs", "t", tenant] := by
      rw [segments_append_dot, single]
      rfl
    rw [segments_append_dot]
    exact congrArg (· ++ segments unanchored) front
  unfold SubjectPattern.parse at isParsed
  dsimp only at isParsed
  rw [parts] at isParsed
  split at isParsed
  · cases isParsed
  obtain ⟨parsed, isList, isPattern⟩ := ok_of_bind isParsed
  cases isPattern
  refine ⟨rfl, ?_, fun subject => by rw [SubjectPattern.matchesStr, matchSegments_iff isList, parts]⟩
  simp only [parseSegments, String.isEmpty_iff, nonempty, notTail, notStar] at isList
  cases isRest : parseSegments ("vs.t." ++ tenant ++ "." ++ unanchored) 3 (segments unanchored) with
  | error error => simp [isRest, bind, Except.bind] at isList
  | ok rest => exact ⟨rest, by simpa [isRest, bind, Except.bind] using isList.symm⟩

theorem third_of_matches
    (holds : matchSegments (.literal "vs" :: .literal "t" :: .literal tenant :: rest) subject) :
    subject[2]? = some tenant := by
  rcases subject with _ | ⟨first, _ | ⟨second, _ | ⟨third, others⟩⟩⟩ <;> simp_all [matchSegments]

/-- What a client of a tenant may get. -/
structure Isolated (tenant : String) (patterns : List SubjectPattern) (delivery : BrokerEvent) :
    Prop where
  third : (segments delivery.subject)[2]? = some tenant
  owned : ∃ envelope, delivery.envelope = some envelope ∧ envelope.tenant = tenant
  wanted : ∃ pattern ∈ patterns, Matches (segments pattern.raw) (segments delivery.subject)

/-- An event that one of the patterns matches carries the tenant that its subject names. -/
def Truthful (patterns : List SubjectPattern) (delivery : BrokerEvent) : Prop :=
  ∀ envelope, delivery.envelope = some envelope →
    (∃ pattern ∈ patterns, Matches (segments pattern.raw) (segments delivery.subject)) →
    (segments delivery.subject)[2]? = some envelope.tenant

section

variable {tenant : String} {patterns : List SubjectPattern} {delivery : BrokerEvent}
  {envelope : Envelope}

def AreAnchored (tenant : String) (patterns : List SubjectPattern) : Prop :=
  ∀ pattern ∈ patterns, ∃ text, SubjectPattern.anchored tenant text = .ok pattern

section

variable (anchored : AreAnchored tenant patterns)
  (isMatched : ∃ pattern ∈ patterns, pattern.matchesStr delivery.subject = true)

include anchored isMatched

theorem third_of_matched : (segments delivery.subject)[2]? = some tenant ∧
      ∃ pattern ∈ patterns, Matches (segments pattern.raw) (segments delivery.subject) := by
  obtain ⟨pattern, mem, holds⟩ := isMatched
  obtain ⟨text, isAnchored⟩ := anchored pattern mem
  obtain ⟨-, ⟨rest, isLiteral⟩, rules⟩ := anchored_spec isAnchored
  refine ⟨?_, pattern, mem, (rules _).mp holds⟩
  rw [SubjectPattern.matchesStr, isLiteral] at holds
  exact third_of_matches holds

theorem isolated_iff (isEnvelope : delivery.envelope = some envelope) :
    Isolated tenant patterns delivery ↔ envelope.tenant = tenant := by
  obtain ⟨third, wanted⟩ := third_of_matched anchored isMatched
  refine ⟨fun isolated => ?_, fun owned => ⟨third, ⟨envelope, isEnvelope, owned⟩, wanted⟩⟩
  obtain ⟨found, isFound, owned⟩ := isolated.owned
  rw [isEnvelope] at isFound
  cases isFound
  exact owned

end

/-- A path that delivers what is matched, under some further condition. -/
theorem path_isolated_iff (anchored : AreAnchored tenant patterns) :
    (further → delivery.envelope.isSome →
        (∃ pattern ∈ patterns, pattern.matchesStr delivery.subject) →
        Isolated tenant patterns delivery) ↔ (further → Truthful patterns delivery) := by
  constructor
  · intro isolated holds envelope isEnvelope ⟨pattern, mem, wanted⟩
    obtain ⟨text, isAnchored⟩ := anchored pattern mem
    have isMatched := ((anchored_spec isAnchored).2.2 _).mpr wanted
    have apart := isolated holds (by rw [isEnvelope]; rfl) ⟨pattern, mem, isMatched⟩
    rw [apart.third, (isolated_iff anchored ⟨pattern, mem, isMatched⟩ isEnvelope).mp apart]
  · intro truthful holds isSome isMatched
    obtain ⟨envelope, isEnvelope⟩ := Option.isSome_iff_exists.mp isSome
    obtain ⟨third, wanted⟩ := third_of_matched anchored isMatched
    have named := truthful holds envelope isEnvelope wanted
    rw [third] at named
    exact (isolated_iff anchored isMatched isEnvelope).mpr (Option.some.inj named).symm

end

def Connection.patterns (connection : Connection) : List SubjectPattern :=
  connection.subscriptions.map (·.pattern)

variable {connection : Connection}

theorem AreAnchored.receive (anchored : AreAnchored connection.tenant connection.patterns)
    (frame : ClientMessage) :
    AreAnchored connection.tenant (connection.receive frame).patterns ∧
      (connection.receive frame).tenant = connection.tenant := by
  cases frame with
  | subscribe id text =>
    cases isAnchored : SubjectPattern.anchored connection.tenant text with
    | error error => simpa [Connection.receive, isAnchored] using anchored
    | ok pattern =>
      simp only [AreAnchored, Connection.patterns, mem_map] at anchored
      simp only [AreAnchored, Connection.receive, isAnchored, Connection.patterns,
        map_append, mem_append, mem_map, and_true]
      rintro other (old | new)
      · exact anchored other old
      · simp only [mem_singleton, exists_eq_left] at new
        exact ⟨text, new ▸ isAnchored⟩
  | unsubscribe id =>
    refine ⟨fun pattern mem => ?_, rfl⟩
    obtain ⟨sub, isSub, rfl⟩ := mem_map.mp mem
    exact anchored _ (mem_map_of_mem (mem_of_mem_filter isSub))

def connected (tenant : String) (frames : List ClientMessage) : Connection :=
  frames.foldl Connection.receive ⟨tenant, []⟩

theorem anchored_foldl (frames : List ClientMessage)
    (anchored : AreAnchored connection.tenant connection.patterns) :
    AreAnchored connection.tenant (frames.foldl Connection.receive connection).patterns ∧
      (frames.foldl Connection.receive connection).tenant = connection.tenant := by
  induction frames generalizing connection with
  | nil => exact ⟨anchored, rfl⟩
  | cons frame rest ih =>
    obtain ⟨kept, same⟩ := anchored.receive frame
    rw [← same] at kept ⊢
    exact ih kept

theorem matched_isEmpty : (matched subs subject).isEmpty = false ↔
      ∃ pattern ∈ subs.map (·.pattern), pattern.matchesStr subject := by
  simp [matched, isEmpty_eq_false_iff, filter_eq_nil_iff]

/-- The accepted patterns are those of the tenant, and the bus delivers to a connection only what
    is the tenant's. The durable paths do if and only if the events that match carry the tenant
    that their subject names. -/
theorem delivered_to_own_tenant (tenant : String) (frames : List ClientMessage)
    (delivery : BrokerEvent) :
    (∀ pattern ∈ (connected tenant frames).patterns,
      ∃ text rest, pattern.raw = "vs.t." ++ tenant ++ "." ++ text ∧
        pattern.segments = .literal "vs" :: .literal "t" :: .literal tenant :: rest) ∧
    (∀ registry ids, (connected tenant frames, ids) ∈ dispatch registry delivery →
      Isolated tenant (connected tenant frames).patterns delivery) ∧
    ((∀ ids, pump (connected tenant frames).subscriptions delivery = .enqueue ids →
        Isolated tenant (connected tenant frames).patterns delivery) ↔
      (hasCursor delivery = true ∧ delivery.isUtf8 = true →
        Truthful (connected tenant frames).patterns delivery)) ∧
    ∀ text operation, SubjectPattern.anchored tenant text = .ok operation →
      ((emitted operation delivery = true → Isolated tenant [operation] delivery) ↔
        (delivery.cursor.isSome → Truthful [operation] delivery)) := by
  obtain ⟨anchored, ofTenant⟩ := @anchored_foldl ⟨tenant, []⟩ frames nofun
  rw [← connected] at anchored ofTenant
  refine ⟨fun pattern member => ?_, ?_, ?_, ?_⟩
  · obtain ⟨text, isAnchored⟩ := anchored pattern member
    obtain ⟨isRaw, ⟨rest, isLiteral⟩, -⟩ := anchored_spec isAnchored
    exact ⟨text, rest, isRaw, isLiteral⟩
  · intro registry ids member
    unfold dispatch at member
    split at member
    · cases member
    rename_i envelope isEnvelope
    split at member
    · obtain ⟨connection, -, isTarget⟩ := mem_filterMap.mp member
      obtain ⟨_, isTarget, same⟩ := Option.map_eq_some_iff.mp isTarget
      cases same
      unfold Connection.target at isTarget
      split at isTarget
      · cases isTarget
      rename_i ownTenant
      split at isTarget
      · cases isTarget
      rename_i isMatched
      refine (isolated_iff anchored (matched_isEmpty.mp (by simpa using isMatched)) isEnvelope).mpr ?_
      exact (not_not.mp ownTenant).symm.trans ofTenant
    · cases member
  · rw [← path_isolated_iff anchored, Connection.patterns, ← matched_isEmpty]
    unfold pump
    cases hasCursor delivery <;> cases delivery.envelope <;> cases delivery.isUtf8 <;>
      cases (matched (connected tenant frames).subscriptions delivery.subject).isEmpty <;> simp
  · intro text operation isAnchored
    have single : AreAnchored tenant [operation] := fun pattern member =>
      ⟨text, by rw [mem_singleton.mp member, isAnchored]⟩
    rw [← path_isolated_iff single]
    simp [emitted]

/-- An event on a subject of one tenant with the envelope of another. -/
def foreignOrder : BrokerEvent where
  subject := "vs.t.acme.orders.1"
  payload := .ok ⟨"globex", "orders", "1", none, 2⟩
  isUtf8 := true
  cursor := some ⟨.redisStreams, "1-0"⟩

theorem foreign_envelope_delivered :
    pump (connected "acme" [.subscribe "all" ">"]).subscriptions foreignOrder = .enqueue ["all"] ∧
    ¬ Isolated "acme" (connected "acme" [.subscribe "all" ">"]).patterns foreignOrder := by
  refine ⟨by decide +kernel, fun isolated => ?_⟩
  obtain ⟨envelope, isEnvelope, owned⟩ := isolated.owned
  have found : foreignOrder.envelope.map (·.tenant) = some "globex" := by decide +kernel
  rw [isEnvelope] at found
  exact absurd (owned.symm.trans (Option.some.inj found)) (by decide)

end

end Ventstream.Realtime
