import Ventstream.Redis.Fencing

/-! # Views are owned and exact

What the keys of the views hold follows from the last accepted command of every source:
its entry under the key it names, the owner of that key, and the manifest that names
both. The trial of a script works on tables that may know less than the store, but never
take a key for free that a source has. So a command that the trial accepts takes no key
from another source, and carrying the accepted commands out does not fail.
-/

namespace Ventstream.Redis

open Library Library.Program Library.Redis Function List

/-- What the store holds of a document. -/
def Format.data : Format → String → Data
  | string, text => .string text
  | json, text => .json text

/-- The last accepted command of every source of a view. -/
abbrev Latest := String → String → Option ViewCommand

/-- The source of a command. -/
abbrev ViewCommand.Of (cmd : ViewCommand) (target sourceId : String) : Prop :=
  target = cmd.target ∧ sourceId = cmd.sourceId

namespace Latest

def accept (latest : Latest) (cmd : ViewCommand) : Latest := fun target sourceId =>
  if target = cmd.target ∧ sourceId = cmd.sourceId then some cmd
  else latest target sourceId

def entry (latest : Latest) (target sourceId : String) : Option ViewEntry :=
  (latest target sourceId).bind (·.desired)

def manifest (keys : KeyPrefix) (latest : Latest) (target sourceId : String) : Manifest where
  key := (latest.entry target sourceId).map fun entry => keyFromParts keys target entry.keyId
  owner := (latest.entry target sourceId).map fun entry => ownerKey keys target entry.keyId
  version := ((latest target sourceId).bind (·.version)).map toString

variable {latest : Latest} {cmd : ViewCommand} {target sourceId : String}

theorem accept_self : latest.accept cmd cmd.target cmd.sourceId = some cmd := if_pos ⟨rfl, rfl⟩

theorem accept_of_ne (other : ¬ cmd.Of target sourceId) :
    latest.accept cmd target sourceId = latest target sourceId :=
  if_neg other

end Latest

/-- The manifest of a source reads like this. -/
structure ManifestIs (space : Keyspace) (name : String) (manifest : Manifest) : Prop where
  key : fieldOf name "key" space = .ok manifest.key
  owner : fieldOf name "owner" space = .ok manifest.owner
  version : fieldOf name "version" space = .ok manifest.version

/-- The keys of the views hold what the last accepted commands say, for good. -/
structure Mirrors (keys : KeyPrefix) (format : Format) (space : Keyspace) (latest : Latest) :
    Prop where
  manifest : ∀ target sourceId, ManifestIs space (manifestKey keys target sourceId)
    (latest.manifest keys target sourceId)
  lasting : ∀ target sourceId entry, space (manifestKey keys target sourceId) = some entry →
    entry.volatile = false
  document : ∀ target sourceId entry, latest.entry target sourceId = some entry →
    space (keyFromParts keys target entry.keyId) = some ⟨format.data entry.payload, false⟩
  owner : ∀ target sourceId entry, latest.entry target sourceId = some entry →
    space (ownerKey keys target entry.keyId) = some ⟨.string sourceId, false⟩
  free : ∀ target keyId,
    (∀ sourceId entry, latest.entry target sourceId = some entry → entry.keyId ≠ keyId) →
    space (keyFromParts keys target keyId) = none ∧ space (ownerKey keys target keyId) = none

/-- No other source has the key that a command asks for. -/
def Admissible (latest : Latest) (cmd : ViewCommand) : Prop :=
  ∀ entry, cmd.desired = some entry → ∀ sourceId other,
    latest.entry cmd.target sourceId = some other → other.keyId = entry.keyId →
    sourceId = cmd.sourceId

/-- The keyspace, and the commands that the scripts accepted, in order. -/
structure ViewWorld where
  space : Keyspace
  history : List ViewCommand

def ViewWorld.latest (world : ViewWorld) : Latest :=
  world.history.foldl Latest.accept fun _ _ => none

variable {keys : KeyPrefix}

section

variable {target other id another : String}

theorem ownerKey_inj (same : ownerKey keys target id = ownerKey keys other another) :
    target = other ∧ id = another := by
  obtain ⟨-, targets, ids⟩ := key_inj same
  exact ⟨targets, encodeKeySegment_injective ids⟩

theorem manifestKey_inj (same : manifestKey keys target id = manifestKey keys other another) :
    target = other ∧ id = another := by
  obtain ⟨-, targets, ids⟩ := key_inj same
  exact ⟨targets, encodeKeySegment_injective ids⟩

theorem manifestKey_ne_keyFromParts :
    manifestKey keys target id ≠ keyFromParts keys other another :=
  fun same => absurd (key_inj same).1 (by decide)

theorem manifestKey_ne_ownerKey : manifestKey keys target id ≠ ownerKey keys other another :=
  fun same => absurd (key_inj same).1 (by decide)

theorem keyFromParts_ne_ownerKey : keyFromParts keys target id ≠ ownerKey keys other another :=
  fun same => absurd (key_inj same).1 (by decide)

end

variable {format : Format} {complaint : String → Option String} {space : Keyspace}

section

variable {latest : Latest} {cmd : ViewCommand}

variable {entry : ViewEntry}

theorem Mirrors.source_unique (mirrors : Mirrors keys format space latest)
    (isEntry : latest.entry target sourceId = some entry)
    (isOther : latest.entry target other = some another) (same : entry.keyId = another.keyId) :
    sourceId = other := by
  have first := mirrors.owner target sourceId entry isEntry
  have second := mirrors.owner target other another isOther
  rw [same] at first
  cases first.symm.trans second
  rfl

section

variable (keys format latest cmd)

/-- The names that go with the old entry of a source. -/
def oldNames : List String :=
  match latest.entry cmd.target cmd.sourceId with
  | none => []
  | some old =>
    [keyFromParts keys cmd.target old.keyId, ownerKey keys cmd.target old.keyId]

def without (names : List String) (space : Keyspace) : Keyspace := fun name =>
  if name ∈ names then none else space name

/-- The fields of a manifest that say where an entry is. -/
def placeFields : Option (String → Option String) :=
  cmd.desired.map fun entry => update (update (fun _ => none) "key"
    (some (keyFromParts keys cmd.target entry.keyId))) "owner"
    (some (ownerKey keys cmd.target entry.keyId))

/-- The fields of a manifest with the version of a command. -/
def versionFields (version : Option Nat) (fields : Option (String → Option String)) :
    Option (String → Option String) :=
  match version with
  | none => fields
  | some version =>
    some (update (fields.getD fun _ => none) "version" (some (toString version)))

/-- The manifest that an accepted command leaves, if there is anything to record. -/
def record : Option Entry :=
  (versionFields cmd.version (placeFields keys cmd)).map fun fields => ⟨.hash fields, false⟩

def withEntry (space : Keyspace) : Keyspace :=
  match cmd.desired with
  | none => space
  | some entry => update (update space
      (keyFromParts keys cmd.target entry.keyId) (some ⟨format.data entry.payload, false⟩))
      (ownerKey keys cmd.target entry.keyId) (some ⟨.string cmd.sourceId, false⟩)

def carried (space : Keyspace) : Keyspace :=
  update (withEntry keys format cmd (without (oldNames keys latest cmd) space))
    (cmd.manifestName keys) (record keys cmd)

end

theorem textOf_string
    (isString : space name = some ⟨.string text, volatile⟩) : textOf name space = .ok
    (some text) := by
  rw [textOf, isString]

theorem exec_hset_new (absent : space name = none) (field value : String) :
    exec (hset name field value) space = (.ok ⟨⟩, update space name
      (some ⟨.hash (update (fun _ => none) field (some value)), false⟩)) := by
  unfold hset
  rw [exec_bind, exec_examine, absent]
  rfl

theorem exec_hset (there : space name = some ⟨.hash fields, volatile⟩) (field value : String) :
    exec (hset name field value) space = (.ok ⟨⟩, update space name
      (some ⟨.hash (update fields field (some value)), volatile⟩)) := by
  unfold hset
  rw [exec_bind, exec_examine, there]
  rfl

theorem exec_storeVersion
    (there : space (cmd.manifestName keys) = fields.map fun fields => ⟨.hash fields, false⟩) :
    exec (storeVersion keys cmd) space = (.ok ⟨⟩, update space (cmd.manifestName keys)
      ((versionFields cmd.version fields).map fun fields => ⟨.hash fields, false⟩)) := by
  unfold storeVersion versionFields
  cases cmd.version with
  | none =>
    rw [← there, update_eq_self]
    rfl
  | some version =>
    cases fields with
    | none => exact exec_hset_new there _ _
    | some fields => exact exec_hset there _ _

theorem withEntry_congr (same : space name = other name) :
    withEntry keys format cmd space name = withEntry keys format cmd other name := by
  unfold withEntry
  cases cmd.desired with
  | none => exact same
  | some entry => simp only [update_apply, same]

theorem withEntry_of_ne (apart : ∀ entry, cmd.desired = some entry →
      name ≠ keyFromParts keys cmd.target entry.keyId ∧
        name ≠ ownerKey keys cmd.target entry.keyId) :
    withEntry keys format cmd space name = space name := by
  unfold withEntry
  cases isDesired : cmd.desired with
  | none => rfl
  | some entry =>
    obtain ⟨notKey, notOwner⟩ := apart entry isDesired
    simp only
    rw [update_of_ne notOwner, update_of_ne notKey]

theorem withEntry_manifestKey (target sourceId : String) :
    withEntry keys format cmd space (manifestKey keys target sourceId) =
      space (manifestKey keys target sourceId) :=
  withEntry_of_ne fun _ _ => ⟨manifestKey_ne_keyFromParts, manifestKey_ne_ownerKey⟩

/-- The store takes the document of a command. -/
def Storable (format : Format) (complaint : String → Option String) (cmd : ViewCommand) : Prop :=
  format = .json → ∀ entry, cmd.desired = some entry → complaint entry.payload = none

/-- When a command writes its entry, its key is free. -/
def Cleared (keys : KeyPrefix) (cmd : ViewCommand) (space : Keyspace) : Prop :=
  ∀ entry, cmd.desired = some entry → space (keyFromParts keys cmd.target entry.keyId) = none

theorem exec_putEntry (storable : Storable format complaint cmd) (cleared : Cleared keys cmd space)
    (isDesired : cmd.desired = some entry) :
    exec (putEntry keys ⟨format, 0, complaint⟩ cmd entry) space =
      (.ok ⟨⟩, withEntry keys format cmd space) := by
  simp only [withEntry, isDesired]
  cases format with
  | string => rfl
  | json =>
    have put : exec (jsonSet complaint (keyFromParts keys cmd.target entry.keyId)
        entry.payload) space = (.ok ⟨⟩, update space
          (keyFromParts keys cmd.target entry.keyId)
          (some ⟨.json entry.payload, false⟩)) := by
      unfold jsonSet
      rw [exec_bind, exec_examine, storable rfl entry isDesired, cleared entry isDesired]
      rfl
    exact exec_bind_ok put

theorem exec_storeDesired (storable : Storable format complaint cmd)
    (cleared : Cleared keys cmd space) (absent : space (cmd.manifestName keys) = none) :
    exec (storeDesired keys ⟨format, 0, complaint⟩ cmd) space =
      (.ok ⟨⟩, update (withEntry keys format cmd space) (cmd.manifestName keys)
        ((placeFields keys cmd).map fun fields => ⟨.hash fields, false⟩)) := by
  cases isDesired : cmd.desired with
  | none =>
    simp only [storeDesired, withEntry, placeFields, isDesired, Option.map_none]
    rw [← absent, update_eq_self]
    rfl
  | some entry =>
    have free : withEntry keys format cmd space (cmd.manifestName keys) = none :=
      (withEntry_manifestKey cmd.target cmd.sourceId).trans absent
    simp only [storeDesired, placeFields, isDesired, Option.map_some]
    rw [exec_bind_ok (exec_putEntry storable cleared isDesired),
      exec_bind_ok (exec_hset_new free _ _),
      exec_hset (update_self _ _ _), update_idem]

theorem manifestIs_record (there : space name = record keys cmd) :
    ManifestIs space name (cmd.manifest keys) := by
  unfold record versionFields placeFields at there
  constructor <;> unfold fieldOf ViewCommand.manifest <;> rw [there] <;>
    cases cmd.desired <;> cases cmd.version <;> rfl

theorem withEntry_desired (isDesired : cmd.desired = some entry) :
    withEntry keys format cmd space (keyFromParts keys cmd.target entry.keyId) =
        some ⟨format.data entry.payload, false⟩ ∧
      withEntry keys format cmd space (ownerKey keys cmd.target entry.keyId) =
        some ⟨.string cmd.sourceId, false⟩ := by
  unfold withEntry
  simp only [isDesired]
  constructor
  · rw [update_of_ne keyFromParts_ne_ownerKey, update_self]
  · rw [update_self]

/-- The source of the command has this key, up to now. -/
def Leaves (latest : Latest) (cmd : ViewCommand) (target keyId : String) : Prop :=
  target = cmd.target ∧ ∃ old, latest.entry cmd.target cmd.sourceId = some old ∧ old.keyId = keyId

theorem mem_oldNames : (keyFromParts keys target keyId ∈ oldNames keys latest cmd ↔
        Leaves latest cmd target keyId) ∧
      (ownerKey keys target keyId ∈ oldNames keys latest cmd ↔ Leaves latest cmd target keyId) ∧
      manifestKey keys target keyId ∉ oldNames keys latest cmd := by
  unfold oldNames Leaves
  cases latest.entry cmd.target cmd.sourceId with
  | none => simp
  | some old =>
    simp only [mem_cons, not_mem_nil, or_false, Option.some.injEq, exists_eq_left',
      manifestKey_ne_keyFromParts, manifestKey_ne_ownerKey, or_self, not_false_eq_true, and_true,
      keyFromParts_ne_ownerKey, keyFromParts_ne_ownerKey.symm, false_or]
    refine ⟨⟨fun same => (keyFromParts_inj same).imp_right Eq.symm, ?_⟩,
      fun same => (ownerKey_inj same).imp_right Eq.symm, ?_⟩ <;>
    · rintro ⟨rfl, rfl⟩
      rfl

section

variable (notTaken : ∀ entry, cmd.desired = some entry → target = cmd.target → keyId ≠ entry.keyId)

include notTaken

theorem withEntry_untaken : withEntry keys format cmd space (keyFromParts keys target keyId) =
        space (keyFromParts keys target keyId) ∧
      withEntry keys format cmd space (ownerKey keys target keyId) =
        space (ownerKey keys target keyId) := by
  constructor
  · refine withEntry_of_ne fun entry isDesired => ⟨fun same => ?_, keyFromParts_ne_ownerKey⟩
    obtain ⟨isTarget, isId⟩ := keyFromParts_inj same
    exact notTaken entry isDesired isTarget isId
  · refine withEntry_of_ne fun entry isDesired => ⟨keyFromParts_ne_ownerKey.symm, fun same => ?_⟩
    obtain ⟨isTarget, isId⟩ := ownerKey_inj same
    exact notTaken entry isDesired isTarget isId

theorem carried_untaken : let later := carried keys format latest cmd space
    (Leaves latest cmd target keyId →
      later (keyFromParts keys target keyId) = none ∧ later (ownerKey keys target keyId) = none) ∧
    (¬ Leaves latest cmd target keyId →
      later (keyFromParts keys target keyId) = space (keyFromParts keys target keyId) ∧
        later (ownerKey keys target keyId) = space (ownerKey keys target keyId)) := by
  obtain ⟨key, owner, -⟩ := @mem_oldNames keys latest cmd target keyId
  unfold carried ViewCommand.manifestName
  dsimp only
  rw [update_of_ne manifestKey_ne_keyFromParts.symm,
    update_of_ne manifestKey_ne_ownerKey.symm, (withEntry_untaken notTaken).1,
    (withEntry_untaken notTaken).2]
  exact ⟨fun left => ⟨if_pos (key.mpr left), if_pos (owner.mpr left)⟩,
    fun kept => ⟨if_neg (mt key.mp kept), if_neg (mt owner.mp kept)⟩⟩

end

theorem carried_desired (isDesired : cmd.desired = some entry) :
    carried keys format latest cmd space (keyFromParts keys cmd.target entry.keyId) =
        some ⟨format.data entry.payload, false⟩ ∧
      carried keys format latest cmd space (ownerKey keys cmd.target entry.keyId) =
        some ⟨.string cmd.sourceId, false⟩ := by
  unfold carried ViewCommand.manifestName
  rw [update_of_ne manifestKey_ne_keyFromParts.symm, update_of_ne manifestKey_ne_ownerKey.symm]
  exact withEntry_desired isDesired

theorem ManifestIs.congr (is : ManifestIs space name manifest)
    (same : later name = space name) : ManifestIs later name manifest := by
  have fields : ∀ field, fieldOf name field later = fieldOf name field space := fun field => by
    rw [fieldOf, same, fieldOf]
  exact ⟨(fields _).trans is.key, (fields _).trans is.owner, (fields _).trans is.version⟩

theorem entry_accept_self : (latest.accept cmd).entry cmd.target cmd.sourceId =
    cmd.desired := by
  rw [Latest.entry, Latest.accept_self]
  rfl

theorem manifest_accept_self : (latest.accept cmd).manifest keys cmd.target
    cmd.sourceId = cmd.manifest keys := by
  simp [Latest.manifest, entry_accept_self, Latest.accept_self, ViewCommand.manifest]

section

variable (other : ¬ cmd.Of target sourceId)

include other

theorem entry_accept_of_ne :
    (latest.accept cmd).entry target sourceId = latest.entry target sourceId := by
  rw [Latest.entry, Latest.accept_of_ne other]
  rfl

theorem manifest_accept_of_ne :
    (latest.accept cmd).manifest keys target sourceId = latest.manifest keys target sourceId := by
  simp [Latest.manifest, entry_accept_of_ne other, Latest.accept_of_ne other]

theorem manifestKey_ne_manifestName : manifestKey keys target sourceId ≠ cmd.manifestName keys :=
  fun same => other (manifestKey_inj same)

theorem carried_manifestKey :
    carried keys format latest cmd space (manifestKey keys target sourceId) =
      space (manifestKey keys target sourceId) := by
  obtain ⟨-, -, notOld⟩ := @mem_oldNames keys latest cmd target sourceId
  unfold carried
  rw [update_of_ne (manifestKey_ne_manifestName other), withEntry_manifestKey]
  exact if_neg notOld

end

section

variable (mirrors : Mirrors keys format space latest)

include mirrors

theorem exec_removeOld : exec (removeOld keys cmd) space =
      (.ok ⟨⟩, without (oldNames keys latest cmd) space) := by
  have manifest := mirrors.manifest cmd.target cmd.sourceId
  unfold removeOld
  rw [exec_bind, exec_hget, ViewCommand.manifestName, manifest.key]
  simp only
  rw [exec_bind, exec_hget, manifest.owner]
  simp only [Latest.manifest, oldNames]
  cases isEntry : latest.entry cmd.target cmd.sourceId with
  | none =>
    rfl
  | some old =>
    have held := textOf_string (mirrors.owner _ _ old isEntry)
    simp only [Option.map_some]
    rw [exec_bind, exec_get, held]
    simp only [if_true]
    rfl

variable (admissible : Admissible latest cmd)

include admissible

theorem Mirrors.cleared : Cleared keys cmd (without (oldNames keys latest cmd) space) := by
  intro entry isDesired
  by_cases isFree : ∀ sourceId other, latest.entry cmd.target sourceId = some other →
      other.keyId ≠ entry.keyId
  · rw [without, (mirrors.free cmd.target entry.keyId isFree).1, ite_self]
  · push Not at isFree
    obtain ⟨sourceId, other, isOther, sameId⟩ := isFree
    obtain rfl := admissible entry isDesired sourceId other isOther sameId
    refine if_pos ?_
    rw [oldNames, isOther, ← sameId]
    exact mem_cons_self

theorem exec_carryOut (storable : Storable format complaint cmd) :
    exec (carryOut keys ⟨format, 0, complaint⟩ cmd) space =
      (.ok ⟨⟩, carried keys format latest cmd space) := by
  have isCleared := mirrors.cleared admissible
  unfold carryOut carried
  rw [exec_bind_ok (exec_removeOld mirrors)]
  generalize without (oldNames keys latest cmd) space = cleared at isCleared
  have stillCleared : Cleared keys cmd (without [cmd.manifestName keys] cleared) := by
    intro entry isDesired
    rw [without, isCleared entry isDesired, ite_self]
  obtain ⟨count, removed⟩ : ∃ count, exec (del [cmd.manifestName keys]) cleared =
      (.ok count, without [cmd.manifestName keys] cleared) := ⟨_, rfl⟩
  have absent : without [cmd.manifestName keys] cleared (cmd.manifestName keys) = none :=
    if_pos (mem_singleton_self _)
  have last : ∀ stored : Keyspace, exec (expireManifest keys ⟨format, 0, complaint⟩ cmd)
      stored = (.ok ⟨⟩, stored) := fun _ => rfl
  rw [exec_bind_ok removed, exec_bind_ok (exec_storeDesired storable stillCleared absent),
    exec_bind_ok (exec_storeVersion (update_self _ _ _)), last, update_idem]
  refine Prod.ext rfl (funext fun name => ?_)
  simp only
  by_cases isName : name = cmd.manifestName keys
  · rw [isName, update_self, update_self]
    rfl
  · rw [update_of_ne isName, update_of_ne isName]
    exact withEntry_congr (if_neg (by simpa using isName))

theorem Mirrors.other_untouched (isEntry : latest.entry target sourceId = some entry)
    (other : ¬ cmd.Of target sourceId) :
    (∀ taken, cmd.desired = some taken → target = cmd.target →
        entry.keyId ≠ taken.keyId) ∧ ¬ Leaves latest cmd target entry.keyId := by
  constructor
  · rintro taken isTaken rfl same
    exact other ⟨rfl, admissible taken isTaken sourceId entry isEntry same⟩
  · rintro ⟨rfl, old, isOld, same⟩
    exact other ⟨rfl, mirrors.source_unique isEntry isOld same.symm⟩

theorem Mirrors.carried_entry (isEntry : (latest.accept cmd).entry target sourceId = some entry) :
    carried keys format latest cmd space (keyFromParts keys target entry.keyId) =
        some ⟨format.data entry.payload, false⟩ ∧
      carried keys format latest cmd space (ownerKey keys target entry.keyId) =
        some ⟨.string sourceId, false⟩ := by
  by_cases this : cmd.Of target sourceId
  · obtain ⟨rfl, rfl⟩ := this
    rw [entry_accept_self] at isEntry
    exact carried_desired isEntry
  · rw [entry_accept_of_ne this] at isEntry
    obtain ⟨notTaken, notLeft⟩ := mirrors.other_untouched admissible isEntry this
    obtain ⟨key, owner⟩ := (carried_untaken notTaken).2 notLeft
    exact ⟨key.trans (mirrors.document target sourceId entry isEntry),
      owner.trans (mirrors.owner target sourceId entry isEntry)⟩

theorem Mirrors.carried :
    Mirrors keys format (carried keys format latest cmd space) (latest.accept cmd) where
  manifest target sourceId := by
    by_cases this : cmd.Of target sourceId
    · obtain ⟨rfl, rfl⟩ := this
      rw [manifest_accept_self]
      exact manifestIs_record (update_self _ _ _)
    · rw [manifest_accept_of_ne this]
      exact (mirrors.manifest target sourceId).congr (carried_manifestKey this)
  lasting target sourceId entry found := by
    by_cases this : cmd.Of target sourceId
    · obtain ⟨rfl, rfl⟩ := this
      have isRecord : record keys cmd = some entry := by
        unfold Redis.carried ViewCommand.manifestName at found
        rwa [update_self] at found
      unfold record at isRecord
      obtain ⟨fields, -, rfl⟩ := Option.map_eq_some_iff.mp isRecord
      rfl
    · rw [carried_manifestKey this] at found
      exact mirrors.lasting target sourceId entry found
  document target sourceId entry isEntry := (mirrors.carried_entry admissible isEntry).1
  owner target sourceId entry isEntry := (mirrors.carried_entry admissible isEntry).2
  free target keyId nobody := by
    have notTaken : ∀ entry, cmd.desired = some entry → target = cmd.target →
        keyId ≠ entry.keyId := by
      rintro entry isDesired rfl same
      exact nobody cmd.sourceId entry (entry_accept_self.trans isDesired) same.symm
    by_cases left : Leaves latest cmd target keyId
    · exact (carried_untaken notTaken).1 left
    · obtain ⟨key, owner⟩ := (@carried_untaken _ _ keys format space latest cmd notTaken).2 left
      rw [key, owner]
      refine mirrors.free target keyId fun sourceId entry isEntry same => ?_
      by_cases this : cmd.Of target sourceId
      · obtain ⟨rfl, rfl⟩ := this
        exact left ⟨rfl, entry, isEntry, same⟩
      · exact nobody sourceId entry ((entry_accept_of_ne this).trans isEntry) same

end

end

section

variable {start latest : Latest} {tables : Tables} {cmd : ViewCommand}

/-- What the tables say of a key, or else the store. -/
def presenceIn (tables : Tables) (space : Keyspace) (name : String) : Bool :=
  (tables.presence name).getD (space name).isSome

def ownerIn (tables : Tables) (space : Keyspace) (name : String) : Except String (Option String) :=
  match tables.owners name with
  | some known => .ok known
  | none => textOf name space

theorem exec_isPresent (name : String) :
    exec (isPresent tables name) space = (.ok (presenceIn tables space name), space) := by
  unfold isPresent presenceIn
  cases tables.presence name <;> rfl

theorem exec_ownerValue (name : String) :
    exec (ownerValue tables name) space = (ownerIn tables space name, space) := by
  unfold ownerValue ownerIn
  cases tables.owners name <;> rfl

/-- The tables, or else the store, say that a source has a key. -/
abbrev HeldBy (keys : KeyPrefix) (space : Keyspace) (tables : Tables)
    (target keyId sourceId : String) : Prop :=
  presenceIn tables space (keyFromParts keys target keyId) = true ∧
    ownerIn tables space (ownerKey keys target keyId) = .ok (some sourceId)

/-- The tables of a trial that began with `start` and has accepted commands up to `latest`. They
    never take a key for free that a source has by then. -/
structure Agrees (keys : KeyPrefix) (space : Keyspace) (start latest : Latest) (tables : Tables) :
    Prop where
  known : ∀ target sourceId manifest,
    tables.manifests (manifestKey keys target sourceId) = some manifest →
    tables.loaded (manifestKey keys target sourceId) = true ∧
      manifest = latest.manifest keys target sourceId
  unknown : ∀ target sourceId, tables.manifests (manifestKey keys target sourceId) = none →
    latest target sourceId = start target sourceId
  held : ∀ target sourceId entry, latest.entry target sourceId = some entry →
    HeldBy keys space tables target entry.keyId sourceId

theorem agrees_new (mirrors : Mirrors keys format space start) :
    Agrees keys space start start .new where
  known := nofun
  unknown _ _ _ := rfl
  held target sourceId entry isEntry := by
    constructor
    · simp [presenceIn, Tables.new, mirrors.document target sourceId entry isEntry]
    · exact textOf_string (mirrors.owner target sourceId entry isEntry)

/-- What a command sees of its manifest: what it is, or nothing when an earlier command of the
    script looked it up and was stale. -/
def Sees (keys : KeyPrefix) (tables : Tables) (latest : Latest) (cmd : ViewCommand)
    (manifest : Manifest) : Prop :=
  manifest = latest.manifest keys cmd.target cmd.sourceId ∨
    (manifest = ⟨none, none, none⟩ ∧ tables.loaded (cmd.manifestName keys) = true ∧
      tables.manifests (cmd.manifestName keys) = none)

theorem loadManifest_sees (mirrors : Mirrors keys format space start)
    (agrees : Agrees keys space start latest tables) :
    ∃ manifest, exec (loadManifest tables (cmd.manifestName keys)) space =
      (.ok manifest, space) ∧ Sees keys tables latest cmd manifest := by
  unfold loadManifest
  cases isLoaded : tables.loaded (cmd.manifestName keys) with
  | true =>
    refine ⟨_, rfl, ?_⟩
    cases isKnown : tables.manifests (cmd.manifestName keys) with
    | none => exact .inr ⟨rfl, isLoaded, isKnown⟩
    | some manifest => exact .inl (agrees.known _ _ manifest isKnown).2
  | false =>
    have isStart : latest cmd.target cmd.sourceId =
        start cmd.target cmd.sourceId := by
      refine agrees.unknown _ _ ?_
      cases isKnown : tables.manifests (cmd.manifestName keys) with
      | none => exact isKnown
      | some manifest => cases isLoaded.symm.trans (agrees.known _ _ manifest isKnown).1
    have same : start.manifest keys cmd.target cmd.sourceId =
        latest.manifest keys cmd.target cmd.sourceId := by
      simp [Latest.manifest, Latest.entry, isStart]
    have manifest := mirrors.manifest cmd.target cmd.sourceId
    rw [same] at manifest
    refine ⟨_, ?_, .inl rfl⟩
    rw [if_neg (by decide), exec_bind, exec_hget, ViewCommand.manifestName, manifest.key]
    simp only
    rw [exec_bind, exec_hget, manifest.owner]
    simp only
    rw [exec_bind, exec_hget, manifest.version]
    rfl

theorem Agrees.source_unique (agrees : Agrees keys space start latest tables)
    (isEntry : latest.entry target sourceId = some entry)
    (isOther : latest.entry target other = some another) (same : entry.keyId = another.keyId) :
    sourceId = other := by
  have first := (agrees.held target sourceId entry isEntry).2
  have second := (agrees.held target other another isOther).2
  rw [same] at first
  exact Option.some.inj (Except.ok.inj (first.symm.trans second))

def Tables.mark (tables : Tables) (key owner : String) (isThere : Bool) (held : Option String) :
    Tables :=
  { tables with
    presence := update tables.presence key (some isThere)
    owners := update tables.owners owner (some held) }

theorem heldBy_mark (apart : ¬ (target = other ∧ keyId = another)) :
    HeldBy keys space (tables.mark (keyFromParts keys other another) (ownerKey keys other another)
      isThere held) target keyId sourceId ↔ HeldBy keys space tables target keyId sourceId := by
  have notKey : keyFromParts keys target keyId ≠ keyFromParts keys other another := fun same =>
    apart (keyFromParts_inj same)
  have notOwner : ownerKey keys target keyId ≠ ownerKey keys other another := fun same =>
    apart (ownerKey_inj same)
  simp [HeldBy, presenceIn, ownerIn, Tables.mark, notKey, notOwner]

/-- All other sources keep what they have. -/
def OthersHold (keys : KeyPrefix) (space : Keyspace) (latest : Latest) (cmd : ViewCommand)
    (tables : Tables) : Prop :=
  ∀ target sourceId entry, latest.entry target sourceId = some entry →
    ¬ cmd.Of target sourceId → HeldBy keys space tables target entry.keyId sourceId

theorem releaseOld_spec (agrees : Agrees keys space start latest tables)
    (sees : Sees keys tables latest cmd manifest)
    (ran : exec (releaseOld tables cmd.sourceId manifest) space = (.ok released, later)) :
    later = space ∧ released.manifests = tables.manifests ∧ released.loaded = tables.loaded ∧
      OthersHold keys space latest cmd released := by
  have same := (releaseOld_reads tables cmd.sourceId manifest).ran ran
  have kept : OthersHold keys space latest cmd tables :=
    fun target sourceId entry isEntry _ => agrees.held target sourceId entry isEntry
  rcases sees with rfl | ⟨rfl, -, -⟩
  · cases isOld : latest.entry cmd.target cmd.sourceId with
    | none =>
      simp only [releaseOld, Latest.manifest, isOld, Option.map_none] at ran
      cases ran
      exact ⟨rfl, rfl, rfl, kept⟩
    | some old =>
      simp only [releaseOld, Latest.manifest, isOld, Option.map_some] at ran
      rw [exec_bind_ok (exec_isPresent _), exec_bind, exec_ownerValue,
        (agrees.held _ _ old isOld).2] at ran
      simp only at ran
      split at ran
      · cases ran
      · cases ran
        refine ⟨rfl, rfl, rfl, fun target sourceId entry isEntry other => ?_⟩
        have apart : ¬ (target = cmd.target ∧ entry.keyId = old.keyId) := by
          rintro ⟨rfl, sameId⟩
          exact other ⟨rfl, agrees.source_unique isEntry isOld sameId⟩
        exact (heldBy_mark apart).mpr (agrees.held target sourceId entry isEntry)
  · cases ran
    exact ⟨rfl, rfl, rfl, kept⟩

theorem claimDesired_spec (others : OthersHold keys space latest cmd tables)
    (ran : exec (claimDesired keys ⟨format, 0, complaint⟩ tables cmd) space =
      (.ok claimed, later)) :
    later = space ∧ claimed.manifests = tables.manifests ∧ claimed.loaded = tables.loaded ∧
      OthersHold keys space latest cmd claimed ∧ Admissible latest cmd ∧
      ∀ entry, cmd.desired = some entry →
        HeldBy keys space claimed cmd.target entry.keyId cmd.sourceId := by
  have same := (claimDesired_reads tables cmd).ran ran
  cases isDesired : cmd.desired with
  | none =>
    simp only [claimDesired, isDesired] at ran
    cases ran
    have admissible : Admissible latest cmd := by
      intro taken isTaken
      cases isDesired.symm.trans isTaken
    exact ⟨rfl, rfl, rfl, others, admissible, nofun⟩
  | some entry =>
    simp only [claimDesired, isDesired, claimNew] at ran
    rw [exec_bind_ok (exec_isPresent _), exec_bind, exec_ownerValue] at ran
    cases seenOwner : ownerIn tables space (ownerKey keys cmd.target entry.keyId) with
    | error error =>
      rw [seenOwner] at ran
      cases ran
    | ok held =>
      rw [seenOwner] at ran
      simp only at ran
      split at ran
      · cases ran
      · rename_i notMissing
        split at ran
        · cases ran
        · rename_i noCollision
          obtain ⟨_, -, ran⟩ := (checkType_reads tables _).bind_inv ran
          cases ran
          -- a key that is there belongs to the source of the command
          have owned : presenceIn tables space (keyFromParts keys cmd.target entry.keyId) =
              true → held = some cmd.sourceId := by
            intro isThere
            cases held with
            | none => exact absurd (by simp [isThere]) notMissing
            | some holder =>
              by_contra other
              exact noCollision (by simp [isThere, Option.some_inj.not.mp other])
          have admissible : Admissible latest cmd := by
            intro taken isTaken sourceId other isOther sameId
            cases isDesired.symm.trans isTaken
            by_contra apart
            obtain ⟨isThere, isOwner⟩ :=
              others cmd.target sourceId other isOther fun both => apart both.2
            rw [sameId] at isThere isOwner
            rw [seenOwner, owned isThere] at isOwner
            exact apart (Option.some.inj (Except.ok.inj isOwner)).symm
          refine ⟨rfl, rfl, rfl, fun target sourceId other isOther apart => ?_, admissible, ?_⟩
          · have elsewhere : ¬ (target = cmd.target ∧ other.keyId = entry.keyId) := by
              rintro ⟨rfl, sameId⟩
              exact apart ⟨rfl, admissible entry isDesired sourceId other isOther sameId⟩
            exact (heldBy_mark elsewhere).mpr (others target sourceId other isOther apart)
          · rintro _ ⟨⟩
            simp [HeldBy, presenceIn, ownerIn]

/-- The commands up to the last accepted one, after a command was tried. -/
def Latest.settle (latest : Latest) (cmd : ViewCommand) (accepted : Bool) : Latest :=
  if accepted then latest.accept cmd else latest

/-- What came of trying a command. -/
structure Tried (keys : KeyPrefix) (space : Keyspace) (start latest : Latest) (tables : Tables)
    (cmd : ViewCommand) (manifest : Manifest) (accepted : Bool) (after : Tables) : Prop where
  verdict : accepted = !isStale manifest.version cmd.version
  admissible : accepted = true → Admissible latest cmd
  loaded : after.loaded = update tables.loaded (cmd.manifestName keys) true
  manifests : after.manifests = if accepted then
      update tables.manifests (cmd.manifestName keys) (some (cmd.manifest keys))
    else tables.manifests
  agrees : Agrees keys space start (latest.settle cmd accepted) after

/-- The manifest of a source was looked up. -/
def Tables.looked (tables : Tables) (name : String) : Tables :=
  { tables with loaded := update tables.loaded name true }

theorem Agrees.looked (agrees : Agrees keys space start latest tables) (name : String) :
    Agrees keys space start latest (tables.looked name) where
  known target sourceId manifest isKnown := by
    obtain ⟨isLoaded, isLatest⟩ := agrees.known target sourceId manifest isKnown
    refine ⟨?_, isLatest⟩
    by_cases isName : manifestKey keys target sourceId = name
    · simp [Tables.looked, isName]
    · simpa [Tables.looked, isName] using isLoaded
  unknown := agrees.unknown
  held := agrees.held

theorem Agrees.accept (agrees : Agrees keys space start latest tables) {after : Tables}
    (loaded : after.loaded = update tables.loaded (cmd.manifestName keys) true)
    (manifests : after.manifests = update tables.manifests (cmd.manifestName keys)
      (some (cmd.manifest keys))) (others : OthersHold keys space latest cmd after)
    (own : ∀ entry, cmd.desired = some entry →
      HeldBy keys space after cmd.target entry.keyId cmd.sourceId) :
    Agrees keys space start (latest.accept cmd) after where
  known target sourceId manifest isKnown := by
    rw [manifests] at isKnown
    rw [loaded]
    by_cases this : cmd.Of target sourceId
    · obtain ⟨rfl, rfl⟩ := this
      rw [ViewCommand.manifestName, update_self] at isKnown
      cases isKnown
      exact ⟨update_self _ _ _, manifest_accept_self.symm⟩
    · rw [update_of_ne (manifestKey_ne_manifestName this)] at isKnown ⊢
      rw [manifest_accept_of_ne this]
      exact agrees.known target sourceId manifest isKnown
  unknown target sourceId isUnknown := by
    rw [manifests] at isUnknown
    have this : ¬ cmd.Of target sourceId := by
      rintro ⟨rfl, rfl⟩
      rw [ViewCommand.manifestName, update_self] at isUnknown
      cases isUnknown
    rw [update_of_ne (manifestKey_ne_manifestName this)] at isUnknown
    rw [Latest.accept_of_ne this]
    exact agrees.unknown target sourceId isUnknown
  held target sourceId entry isEntry := by
    by_cases this : cmd.Of target sourceId
    · obtain ⟨rfl, rfl⟩ := this
      exact own entry (entry_accept_self.symm.trans isEntry)
    · exact others target sourceId entry ((entry_accept_of_ne this).symm.trans isEntry) this

theorem simulate_spec (mirrors : Mirrors keys format space start)
    (agrees : Agrees keys space start latest tables) {accepted after later}
    (ran : exec (simulate keys ⟨format, 0, complaint⟩ tables cmd) space =
      (.ok (accepted, after), later)) :
    later = space ∧ ∃ manifest, Sees keys tables latest cmd manifest ∧
      Tried keys space start latest tables cmd manifest accepted after := by
  have same := (simulate_reads tables cmd).ran ran
  subst same
  obtain ⟨manifest, loads, sees⟩ := @loadManifest_sees keys format space start latest tables cmd
    mirrors agrees
  refine ⟨rfl, manifest, sees, ?_⟩
  unfold simulate at ran
  rw [exec_bind_ok loads] at ran
  split at ran
  · cases ran
  · split at ran
    · rename_i isStale
      cases ran
      exact ⟨by rw [isStale]; rfl, nofun, rfl, rfl, agrees.looked _⟩
    · rename_i notStale
      obtain ⟨released, between, releases, ran⟩ := exec_bind_inv ran
      obtain ⟨rfl, sameManifests, sameLoaded, others⟩ := releaseOld_spec (agrees.looked _)
        (sees.imp_right fun ⟨isEmpty, _, isUnknown⟩ =>
          ⟨isEmpty, update_self _ _ _, isUnknown⟩) releases
      obtain ⟨claimed, between, claims, ran⟩ := exec_bind_inv ran
      obtain ⟨rfl, keptManifests, keptLoaded, others, admissible, own⟩ :=
        claimDesired_spec others claims
      cases ran
      have manifests : update claimed.manifests (cmd.manifestName keys)
          (some (cmd.manifest keys)) = update tables.manifests
            (cmd.manifestName keys) (some (cmd.manifest keys)) := by
        rw [keptManifests, sameManifests]
        rfl
      have loaded : claimed.loaded = update tables.loaded (cmd.manifestName keys)
          true := keptLoaded.trans sameLoaded
      exact ⟨by rw [Bool.eq_false_iff.mpr notStale]; rfl, fun _ => admissible, loaded,
        manifests, agrees.accept loaded manifests others own⟩

/-- Each command of a list takes no key from another source when its turn comes. -/
def AdmissibleAll : Latest → List ViewCommand → Prop
  | _, [] => True
  | latest, cmd :: rest => Admissible latest cmd ∧ AdmissibleAll (latest.accept cmd) rest

theorem simulateAll_spec (mirrors : Mirrors keys format space start) :
    ∀ {latest tables}, Agrees keys space start latest tables →
    ∀ {verdicts later}, exec (simulateAll keys ⟨format, 0, complaint⟩ tables cmds) space =
        (.ok verdicts, later) →
      AdmissibleAll latest (accepted cmds verdicts) := by
  induction cmds with
  | nil =>
    intro latest tables agrees verdicts later ran
    cases ran
    trivial
  | cons cmd rest ih =>
    intro latest tables agrees verdicts later ran
    obtain ⟨⟨isAccepted, after⟩, between, tries, further⟩ := exec_bind_inv ran
    obtain ⟨rfl, manifest, -, tried⟩ := simulate_spec mirrors agrees tries
    obtain ⟨others, last, simulates, ends⟩ := exec_bind_inv further
    cases ends
    have later := ih tried.agrees simulates
    cases isAccepted with
    | false => exact later
    | true => exact ⟨tried.admissible rfl, later⟩

end

section

variable {latest : Latest}

theorem exec_carryOut_all : ∀ {space latest}, Mirrors keys format space latest →
    AdmissibleAll latest cmds → (∀ cmd ∈ cmds, Storable format complaint cmd) →
    ∃ later, exec (each (carryOut keys ⟨format, 0, complaint⟩) cmds) space = (.ok ⟨⟩, later) ∧
      Mirrors keys format later (cmds.foldl Latest.accept latest) := by
  induction cmds with
  | nil => exact fun mirrors _ _ => ⟨_, rfl, mirrors⟩
  | cons cmd rest ih =>
    intro space latest mirrors admissible storable
    obtain ⟨isStorable, storable⟩ := forall_mem_cons.mp storable
    obtain ⟨later, ran, mirrored⟩ := ih (mirrors.carried admissible.1) admissible.2 storable
    have first := exec_carryOut mirrors admissible.1 isStorable
    exact ⟨later, (exec_bind_ok first).trans ran, mirrored⟩

theorem mem_of_mem_accepted {verdicts} (isAccepted : cmd ∈ accepted cmds verdicts) :
    cmd ∈ cmds := by
  obtain ⟨⟨_, verdict⟩, mem, rfl⟩ := mem_map.mp isAccepted
  exact (of_mem_zip (mem_of_mem_filter mem)).1

/-- A script answers with an error and has changed nothing, or it has carried out the commands
    that it accepted. -/
theorem viewPipeline_cases (mirrors : Mirrors keys format space latest) (fences : List WriterFence)
    (storable : ∀ cmd ∈ cmds, Storable format complaint cmd) :
    (∃ error, exec (executeFencedViewPipeline keys ⟨format, 0, complaint⟩ fences cmds) space =
      (.error error, space)) ∨
    ∃ verdicts counts later,
      exec (accept keys ⟨format, 0, complaint⟩ fences cmds) space = (.ok verdicts, space) ∧
      exec (executeFencedViewPipeline keys ⟨format, 0, complaint⟩ fences cmds) space =
        (.ok counts, later) ∧
      Mirrors keys format later ((accepted cmds verdicts).foldl Latest.accept latest) := by
  cases admits : exec (accept keys ⟨format, 0, complaint⟩ fences cmds) space with
  | mk result between =>
    have same := (admit_reads fences cmds).ran admits
    subst same
    cases result with
    | error error => exact .inl ⟨error, exec_bind_error admits⟩
    | ok verdicts =>
      obtain ⟨_, -, simulates⟩ := (verifyFences_reads fences).bind_inv admits
      obtain ⟨later, ran, mirrored⟩ := exec_carryOut_all mirrors
        (simulateAll_spec mirrors (agrees_new mirrors) simulates)
        fun cmd isAccepted => storable cmd (mem_of_mem_accepted isAccepted)
      have counts : ∃ counts, exec (executeFencedViewPipeline keys ⟨format, 0, complaint⟩ fences
          cmds) space = (.ok counts, later) := by
        rw [executeFencedViewPipeline, exec_bind_ok admits, exec_bind_ok ran]
        exact ⟨_, rfl⟩
      exact .inr ⟨verdicts, counts.choose, later, rfl, counts.choose_spec, mirrored⟩

end

section

variable {later : Keyspace} {latest : Latest}

def IsViewKind (kind : Kind) : Prop := kind = .manifest ∨ kind = .data ∨ kind = .owner

section

variable (mirrors : Mirrors keys format space latest)

include mirrors

theorem Mirrors.congr (same : ∀ kind, IsViewKind kind → ∀ target id,
      later (key keys kind target (encodeKeySegment id)) =
        space (key keys kind target (encodeKeySegment id))) : Mirrors keys format later latest where
  manifest target sourceId := (mirrors.manifest target sourceId).congr (same _ (.inl rfl) _ _)
  lasting target sourceId entry there :=
    mirrors.lasting target sourceId entry ((same _ (.inl rfl) _ _).symm.trans there)
  document target sourceId entry isEntry :=
    (same _ (.inr (.inl rfl)) _ _).trans (mirrors.document target sourceId entry isEntry)
  owner target sourceId entry isEntry :=
    (same _ (.inr (.inr rfl)) _ _).trans (mirrors.owner target sourceId entry isEntry)
  free target keyId nobody :=
    ⟨(same _ (.inr (.inl rfl)) _ _).trans (mirrors.free target keyId nobody).1,
      (same _ (.inr (.inr rfl)) _ _).trans (mirrors.free target keyId nobody).2⟩

theorem Mirrors.of_frame
    (frame : Frame (IsForeign keys target) space later) : Mirrors keys format later latest := by
  refine mirrors.congr fun kind isView other tail => frame _ fun writer same => ?_
  obtain ⟨rfl, -, -⟩ := key_inj same
  rcases isView with impossible | impossible | impossible <;> cases impossible

theorem Mirrors.not_volatile (isView : IsViewKind kind) {id}
    (there : space (key keys kind target (encodeKeySegment id)) = some entry) :
    entry.volatile = false := by
  rcases isView with rfl | isHeld
  · exact mirrors.lasting target id entry there
  · by_cases free : ∀ sourceId held, latest.entry target sourceId = some held → held.keyId ≠ id
    · obtain ⟨noKey, noOwner⟩ := mirrors.free target id free
      rcases isHeld with rfl | rfl
      · cases noKey.symm.trans there
      · cases noOwner.symm.trans there
    · push Not at free
      obtain ⟨sourceId, held, isHeldBy, rfl⟩ := free
      rcases isHeld with rfl | rfl
      · cases (mirrors.document target sourceId held isHeldBy).symm.trans there
        rfl
      · cases (mirrors.owner target sourceId held isHeldBy).symm.trans there
        rfl

end

variable (keys format complaint) (allowed : Keyspace → List ViewCommand → Prop)

/-- The commands that a script accepts: none when it answers with an error. -/
def acceptedBy (fences : List WriterFence) (cmds : List ViewCommand) (space : Keyspace) :
    List ViewCommand :=
  match (exec (executeFencedViewPipeline keys ⟨format, 0, complaint⟩ fences cmds) space).1,
    (exec (accept keys ⟨format, 0, complaint⟩ fences cmds) space).1 with
  | .ok _, .ok verdicts => accepted cmds verdicts
  | _, _ => []

def runPipeline (fences : List WriterFence) (cmds : List ViewCommand) (world : ViewWorld) :
    ViewWorld :=
  ⟨(exec (executeFencedViewPipeline keys ⟨format, 0, complaint⟩ fences cmds) world.space).2,
    world.history ++ acceptedBy keys format complaint fences cmds world.space⟩

/-- What happens to materialized views. A pipeline brings commands, any that are allowed there,
    and the writers take and renew their fences, which may run out. -/
inductive ViewStep : ViewWorld → ViewWorld → Prop
  | pipeline (world : ViewWorld) (fences : List WriterFence) (cmds : List ViewCommand)
      (isAllowed : allowed world.space cmds) :
      ViewStep world (runPipeline keys format complaint fences cmds world)
  | acquire (world : ViewWorld) (writer : Writer) (target token : String) :
      ViewStep world { world with
        space := (exec (acquireWriterFence keys writer target token) world.space).2 }
  | renew (world : ViewWorld) (fence : WriterFence) (lease : Nat) :
      ViewStep world { world with space := (exec (renewWriterFence keys fence lease) world.space).2 }
  | expire (world : ViewWorld) (name : String) (data : Data)
      (isVolatile : world.space name = some ⟨data, true⟩) :
      ViewStep world { world with space := update world.space name none }

def ViewWorld.empty : ViewWorld := ⟨fun _ => none, []⟩

/-- A run on a Redis that was empty at first. -/
def ViewReached (world : ViewWorld) : Prop :=
  Relation.ReflTransGen (ViewStep keys format complaint allowed) .empty world

variable {keys format complaint allowed}

theorem mirrors_empty : Mirrors keys format ViewWorld.empty.space ViewWorld.empty.latest where
  manifest _ _ := ⟨rfl, rfl, rfl⟩
  lasting := nofun
  document := nofun
  owner := nofun
  free _ _ _ := ⟨rfl, rfl⟩

theorem latest_runPipeline (fences : List WriterFence) (cmds : List ViewCommand)
    (world : ViewWorld) : (runPipeline keys format complaint fences cmds world).latest =
      (acceptedBy keys format complaint fences cmds world.space).foldl Latest.accept world.latest :=
  foldl_append

variable {world : ViewWorld}

section

variable (storable : ∀ space cmds, allowed space cmds → ∀ cmd ∈ cmds, Storable format complaint cmd)

include storable

theorem mirrors_step {later : ViewWorld} (step : ViewStep keys format complaint allowed world later)
    (mirrors : Mirrors keys format world.space world.latest) :
    Mirrors keys format later.space later.latest := by
  cases step with
  | pipeline fences cmds isAllowed =>
    rw [latest_runPipeline, runPipeline]
    rcases viewPipeline_cases mirrors fences (storable _ _ isAllowed) with
      ⟨error, fails⟩ | ⟨verdicts, counts, after, admits, ran, mirrored⟩
    · simpa only [acceptedBy, fails, foldl_nil] using mirrors
    · simpa only [acceptedBy, ran, admits] using mirrored
  | acquire writer target token =>
    exact mirrors.of_frame (frame_acquire writer target token world.space)
  | renew fence lease => exact mirrors.of_frame (frame_renew fence lease world.space)
  | expire name data isVolatile =>
    refine mirrors.congr fun kind isView target id => update_of_ne ?_ _ _
    rintro rfl
    cases mirrors.not_volatile isView isVolatile

theorem mirrors_of_reached (reached : ViewReached keys format complaint allowed world) :
    Mirrors keys format world.space world.latest := by
  induction reached with
  | refl => exact mirrors_empty
  | tail _ step mirrors => exact mirrors_step storable step mirrors

end

theorem Mirrors.taken (mirrors : Mirrors keys format space latest)
    (isThere : (space (keyFromParts keys target keyId)).isSome) :
    ∃ sourceId entry, latest.entry target sourceId = some entry ∧ entry.keyId = keyId := by
  by_contra nobody
  push Not at nobody
  rw [(mirrors.free target keyId nobody).1] at isThere
  cases isThere

/-- The manifest of a source of a view names a key. -/
def Names (keys : KeyPrefix) (space : Keyspace) (view sourceId name : String) : Prop :=
  fieldOf (manifestKey keys view sourceId) "key" space = .ok (some name)

theorem Mirrors.names_iff (mirrors : Mirrors keys format space latest) :
    Names keys space view sourceId (keyFromParts keys target keyId) ↔
      view = target ∧ ∃ entry, latest.entry view sourceId = some entry ∧ entry.keyId = keyId := by
  rw [Names, (mirrors.manifest view sourceId).key, Except.ok.injEq, Latest.manifest]
  simp only [Option.map_eq_some_iff]
  constructor
  · rintro ⟨entry, isEntry, same⟩
    obtain ⟨rfl, rfl⟩ := keyFromParts_inj same
    exact ⟨rfl, entry, isEntry, rfl⟩
  · rintro ⟨rfl, entry, isEntry, rfl⟩
    exact ⟨entry, isEntry, rfl⟩

/-- Views of strings stay owned and exact. A key of a view exists just when one source has it: its
    manifest alone names the key, the owner record holds its id and the manifest names that
    record. The key then holds the payload of the last command of that source that was accepted.
    A script that answers with an error has changed nothing. -/
theorem views_stay_owned_and_exact (keys : KeyPrefix) (complaint : String → Option String) :
    ∀ world, ViewReached keys .string complaint (fun _ _ => True) world →
      (∀ target keyId, (world.space (keyFromParts keys target keyId)).isSome ↔ ∃ sourceId,
          (∀ view other, Names keys world.space view other (keyFromParts keys target keyId) ↔
            view = target ∧ other = sourceId) ∧
          textOf (ownerKey keys target keyId) world.space = .ok (some sourceId) ∧
          fieldOf (manifestKey keys target sourceId) "owner" world.space =
            .ok (some (ownerKey keys target keyId))) ∧
      (∀ target keyId sourceId,
        Names keys world.space target sourceId (keyFromParts keys target keyId) →
        ∃ command entry, world.latest target sourceId = some command ∧
          command.desired = some entry ∧ entry.keyId = keyId ∧
          textOf (keyFromParts keys target keyId) world.space = .ok (some entry.payload)) ∧
      ∀ fences commands error later,
        exec (executeFencedViewPipeline keys ⟨.string, 0, complaint⟩ fences commands) world.space =
          (.error error, later) → later = world.space := by
  intro world reached
  have storable : ∀ command : ViewCommand, Storable .string complaint command := nofun
  have mirrors := mirrors_of_reached (fun _ _ _ command _ => storable command) reached
  refine ⟨fun target keyId => ⟨fun isThere => ?_, ?_⟩, ?_, ?_⟩
  · obtain ⟨sourceId, entry, isEntry, rfl⟩ := mirrors.taken isThere
    refine ⟨sourceId, fun view other => ?_, textOf_string (mirrors.owner _ _ _ isEntry), ?_⟩
    · rw [mirrors.names_iff]
      constructor
      · rintro ⟨rfl, another, isOther, same⟩
        exact ⟨rfl, mirrors.source_unique isOther isEntry same⟩
      · rintro ⟨rfl, rfl⟩
        exact ⟨rfl, entry, isEntry, rfl⟩
    · rw [(mirrors.manifest target sourceId).owner, Latest.manifest, isEntry]
      rfl
  · rintro ⟨sourceId, named, -, -⟩
    obtain ⟨-, entry, isEntry, rfl⟩ := mirrors.names_iff.mp ((named target sourceId).mpr ⟨rfl, rfl⟩)
    rw [mirrors.document target sourceId entry isEntry]
    rfl
  · intro target keyId sourceId named
    obtain ⟨-, entry, isEntry, rfl⟩ := mirrors.names_iff.mp named
    obtain ⟨command, isLatest, isDesired⟩ := Option.bind_eq_some_iff.mp isEntry
    exact ⟨command, entry, isLatest, isDesired, rfl,
      textOf_string (mirrors.document target sourceId entry isEntry)⟩
  · intro fences commands error later ran
    rcases viewPipeline_cases mirrors fences fun command (_ : command ∈ commands) =>
        storable command with
      ⟨_, fails⟩ | ⟨_, _, _, _, succeeds, _⟩
    · exact (Prod.mk.inj (fails.symm.trans ran)).2.symm
    · cases succeeds.symm.trans ran

def addBook : ViewCommand := ⟨"titles", "book-1", some 7, some ⟨"dune", "sand"⟩⟩

def claimBook : ViewCommand := ⟨"titles", "book-2", none, some ⟨"dune", "spice"⟩⟩

def oneBook : ViewWorld :=
  runPipeline ventstreamKeys .string (fun _ => none) [] [addBook] .empty

theorem viewReached_oneBook :
    ViewReached ventstreamKeys .string (fun _ => none) (fun _ _ => True) oneBook :=
  .single (.pipeline .empty [] [addBook] trivial)

theorem views_stay_owned_and_exact_oneBook : (∃ sourceId,
      (∀ view other, Names ventstreamKeys oneBook.space view other
        (keyFromParts ventstreamKeys "titles" "dune") ↔ view = "titles" ∧ other = sourceId) ∧
      textOf (ownerKey ventstreamKeys "titles" "dune") oneBook.space = .ok (some sourceId) ∧
      fieldOf (manifestKey ventstreamKeys "titles" sourceId) "owner" oneBook.space =
        .ok (some (ownerKey ventstreamKeys "titles" "dune"))) ∧
    (∃ command entry, oneBook.latest "titles" "book-1" = some command ∧
      command.desired = some entry ∧ entry.keyId = "dune" ∧
      textOf (keyFromParts ventstreamKeys "titles" "dune") oneBook.space =
        .ok (some entry.payload)) ∧
    (exec (executeFencedViewPipeline ventstreamKeys ⟨.string, 0, fun _ => none⟩ [] [claimBook])
      oneBook.space).2 = oneBook.space := by
  obtain ⟨owned, stored, unchanged⟩ :=
    views_stay_owned_and_exact ventstreamKeys (fun _ => none) oneBook viewReached_oneBook
  refine ⟨(owned "titles" "dune").mp ?_, stored "titles" "dune" "book-1" ?_,
    unchanged [] [claimBook] "VENTSTREAM_VIEW_KEY_COLLISION" _ (Prod.ext ?_ rfl)⟩
  · decide +kernel
  · unfold Names
    decide +kernel
  · decide +kernel

end

end Ventstream.Redis
