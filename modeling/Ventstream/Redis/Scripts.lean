import Ventstream.Library.Redis
import Ventstream.Redis.Keys

/-! # The scripts of the Redis sink

The Lua scripts of `ownership.rs` and `sink.rs`: the writer's lease and its lineage, the
fence that every other script checks first, the commands on single documents, and the
commands on views, which are tried on tables before any of them is carried out. What a
script is given as `KEYS` and `ARGV` is here what they were made from.
-/

namespace Ventstream.Redis

open Library Library.Program Library.Redis Function

section

def fenced : String := "VENTSTREAM_FENCED"

def writerOwned : String := "VENTSTREAM_WRITER_OWNED"

def isWriterChar (char : Char) : Bool :=
  char.isAlphanum || char == ':' || char == '_' || char == '-' || char == '.' || char == '/'

/-- The writer that a sink is configured to be. -/
structure Writer where
  id : String
  id_wellFormed : id.toList.all isWriterChar = true
  takeoverFrom : Option String
  lease : Nat
  lease_pos : 0 < lease

/-- What a sink shows to be let through for a target. -/
structure WriterFence where
  target : String
  value : String

def fenceValue (writer : Writer) (token : String) : String := "v1|" ++ writer.id ++ "|" ++ token

/-- The match of a fence value with `^v1|([^|]+)|`. -/
def ownerOf (value : String) : Option String :=
  match value.toList with
  | 'v' :: '1' :: '|' :: rest =>
    let name := rest.takeWhile (· != '|')
    if name.isEmpty || (rest.drop name.length).isEmpty then none else some (String.ofList name)
  | _ => none

variable (keys : KeyPrefix)

/-- A new writer: its lineage for good and its lease for a time. -/
def install (writer : Writer) (target token : String) : Script PUnit := do
  set (writerLineageKey keys target) (fenceValue writer token)
  setPx (writerFenceKey keys target) (fenceValue writer token) writer.lease

/-- A lease that is held passes on only to a writer that names the holder. -/
def takeOver (writer : Writer) (target token current : String) (lineage : Option String) :
    Script Nat :=
  if lineage.isSome && lineage != some current then throw fenced
  else if writer.takeoverFrom.getD "" != "" && ownerOf current == writer.takeoverFrom then do
    install keys writer target token
    pure 2
  else throw writerOwned

def acquireWriterFence (writer : Writer) (target token : String) : Script Nat := do
  match ← get (writerFenceKey keys target) with
  | none => do
      install keys writer target token
      pure 1
  | some current => do
      let lineage ← get (writerLineageKey keys target)
      takeOver keys writer target token current lineage

def restoreLineage (fence : WriterFence) (lineage : Option String) : Script PUnit :=
  if lineage.isNone then set (writerLineageKey keys fence.target) fence.value else pure ⟨⟩

/-- The rest of a renewal whose lease is there. -/
def prolong (fence : WriterFence) (lease : Nat) (current : String) (lineage : Option String) :
    Script Nat :=
  if current != fence.value || (lineage.isSome && lineage != some fence.value) then throw fenced
  else do
    restoreLineage keys fence lineage
    pexpire (writerFenceKey keys fence.target) lease
    pure 1

/-- The rest of a renewal whose lease has run out: the holder of the lineage takes it again. -/
def revive (fence : WriterFence) (lease : Nat) (lineage : Option String) : Script Nat :=
  if lineage != some fence.value then throw fenced
  else do
    setPx (writerFenceKey keys fence.target) fence.value lease
    pure 2

def renewWriterFence (fence : WriterFence) (lease : Nat) : Script Nat := do
  let current ← get (writerFenceKey keys fence.target)
  let lineage ← get (writerLineageKey keys fence.target)
  match current with
  | some current => prolong keys fence lease current lineage
  | none => revive keys fence lease lineage

def verifyWriterFence (fence : WriterFence) : Script PUnit := do
  let current ← get (writerFenceKey keys fence.target)
  if current = some fence.value then pure ⟨⟩ else throw fenced

/-- The fences at the start of a pipeline. -/
def verifyFences (fences : List WriterFence) : Script PUnit := each (verifyWriterFence keys) fences

/-- One chunk of a clear: keys that a scan with the patterns of the target has found. -/
def clearChunk (fence : WriterFence) (found : List String) : Script Nat := do
  verifyWriterFence keys fence
  del found

end

/-- A version in decimal digits. -/
def isVersion (text : String) : Bool := !text.isEmpty && text.toList.all Char.isDigit

/-- Versions have no leading zeros, so that a longer one is a higher one. -/
def storedIsNewer (stored incoming : String) : Bool :=
  if stored.length ≠ incoming.length then incoming.length < stored.length
  else incoming < stored

/-- A command without a version is never stale. -/
def isStale (stored : Option String) (incoming : Option Nat) : Bool :=
  match stored, incoming with
  | some stored, some incoming => storedIsNewer stored (toString incoming)
  | _, _ => false

def invalidStoredVersion : String := "VENTSTREAM_INVALID_STORED_VERSION"

/-- The form of a document in the store, and how long it stays there. -/
inductive Format where
  | string
  | json

structure Contract where
  format : Format
  /-- `0` for a materialized view, which does not expire. -/
  ttl : Nat
  /-- What the JSON module says to a document it does not read. -/
  complaint : String → Option String

section

inductive Outcome where
  | ok
  | stale
  | refused (message : String)

structure DirectCommand where
  target : String
  docId : String
  version : Option Nat
  /-- The document, or nothing for a delete. -/
  payload : Option String

variable (keys : KeyPrefix) (contract : Contract) (cmd : DirectCommand)

/-- A version that is written stays as long as its document; no version leaves the old one. -/
def recordVersion : Script PUnit :=
  match cmd.version with
  | none => pure ⟨⟩
  | some version =>
    let name := versionKey keys cmd.target cmd.docId
    if 0 < contract.ttl then setPx name (toString version) contract.ttl
    else set name (toString version)

def putString : Script PUnit :=
  let name := keyFromParts keys cmd.target cmd.docId
  match cmd.payload with
  | none => do
      let _ ← del [name]
      pure ⟨⟩
  | some payload => if contract.ttl = 0 then set name payload else setPx name payload contract.ttl

/-- A document with a time to live is prepared under another name, so that it never shows without
    one. -/
def putStaged (payload : String) : Script PUnit := do
  let name := keyFromParts keys cmd.target cmd.docId
  let staging := stagingKey keys cmd.target cmd.docId
  let current ← typeName name
  if current != "none" && current != "ReJSON-RL" then
    throw "WRONGTYPE RedisJSON cache target has a non-JSON value"
  else do
    let _ ← del [staging]
    jsonSet contract.complaint staging payload
    pexpire staging contract.ttl
    rename staging name

def putJson : Script PUnit :=
  let name := keyFromParts keys cmd.target cmd.docId
  match cmd.payload with
  | none => do
      let _ ← del [name]
      pure ⟨⟩
  | some payload =>
    if contract.ttl = 0 then jsonSet contract.complaint name payload
    else putStaged keys contract cmd payload

/-- An error about one document. -/
def isWrongType (message : String) : Bool :=
  "WRONGTYPE".toList.isPrefixOf message.toList ||
    (message.toList.map Char.toLower).tails.any ("wrong redis type".toList.isPrefixOf ·)

/-- A failed command on a JSON document removes what it has staged; the script goes on after an
    error about this document only. -/
def settleJson : Except String PUnit → Script Outcome
  | .ok _ => do
      recordVersion keys contract cmd
      pure .ok
  | .error message => do
      let _ ← del (if cmd.payload.isSome && contract.ttl != 0 then
        [stagingKey keys cmd.target cmd.docId] else [])
      if isWrongType message then pure (.refused message) else throw message

def applyDirect : Script Outcome :=
  match contract.format with
  | .string => do
      putString keys contract cmd
      recordVersion keys contract cmd
      pure .ok
  | .json => do
      let result ← outcome (putJson keys contract cmd)
      settleJson keys contract cmd result

def runDirect : Script Outcome := do
  let stored ← get (versionKey keys cmd.target cmd.docId)
  if stored.any fun text => !isVersion text then throw invalidStoredVersion
  else if isStale stored cmd.version then pure .stale
  else applyDirect keys contract cmd

def runDirects : List DirectCommand → Script (List Outcome)
  | [] => pure []
  | cmd :: rest => do
      let first ← runDirect keys contract cmd
      let others ← runDirects rest
      pure (first :: others)

def executeFencedPipeline (fences : List WriterFence) (cmds : List DirectCommand) :
    Script (List Outcome) := do
  verifyFences keys fences
  runDirects keys contract cmds

end

section

/-- The entry that a command gives its source in a view. -/
structure ViewEntry where
  keyId : String
  payload : String
  deriving DecidableEq

structure ViewCommand where
  target : String
  sourceId : String
  version : Option Nat
  /-- The entry to write, or nothing for a removal. -/
  desired : Option ViewEntry
  deriving DecidableEq

/-- What is known of the record that says where the entry of a source is. -/
structure Manifest where
  key : Option String
  owner : Option String
  version : Option String

/-- The tables of the trial: what the keys will hold, as far as the commands before this one
    change it. A name that is not in a table is looked up in the store. -/
structure Tables where
  loaded : String → Bool
  manifests : String → Option Manifest
  owners : String → Option (Option String)
  presence : String → Option Bool

def Tables.new : Tables := ⟨fun _ => false, fun _ => none, fun _ => none, fun _ => none⟩

variable (keys : KeyPrefix) (contract : Contract)

/-- The manifest of a source. Once it was looked up only the table is asked, and the table has it
    only if a command for the source was accepted. -/
def loadManifest (tables : Tables) (name : String) : Script Manifest :=
  if tables.loaded name then pure ((tables.manifests name).getD ⟨none, none, none⟩)
  else do
    let key ← hget name "key"
    let owner ← hget name "owner"
    let version ← hget name "version"
    pure ⟨key, owner, version⟩

def isPresent (tables : Tables) (name : String) : Script Bool :=
  match tables.presence name with
  | some known => pure known
  | none => present name

def ownerValue (tables : Tables) (name : String) : Script (Option String) :=
  match tables.owners name with
  | some known => pure known
  | none => get name

/-- The old entry of a source goes. -/
def releaseOld (tables : Tables) (sourceId : String) (manifest : Manifest) : Script Tables :=
  match manifest.key, manifest.owner with
  | none, none => pure tables
  | some key, some owner => do
      let oldPresent ← isPresent tables key
      let oldOwner ← ownerValue tables owner
      if oldPresent && oldOwner != some sourceId then throw "VENTSTREAM_VIEW_OWNERSHIP_MISMATCH"
      else pure { tables with
        presence := update tables.presence key (some false)
        owners := update tables.owners owner (some none) }
  | _, _ => throw "VENTSTREAM_VIEW_MANIFEST_INCOMPLETE"

/-- A key that the tables do not know must hold a JSON document, or nothing. -/
def checkType (tables : Tables) (name : String) : Script PUnit :=
  match contract.format with
  | .string => pure ⟨⟩
  | .json =>
    if (tables.presence name).isSome then pure ⟨⟩
    else do
      let current ← typeName name
      if current != "none" && current != "ReJSON-RL" then throw "VENTSTREAM_VIEW_WRONGTYPE"
      else pure ⟨⟩

/-- The new entry of a source comes, under a key that no other source has. -/
def claimNew (tables : Tables) (sourceId key owner : String) : Script Tables := do
  let isThere ← isPresent tables key
  let held ← ownerValue tables owner
  if isThere && held.isNone then throw "VENTSTREAM_VIEW_OWNERSHIP_MISSING"
  else if held.isSome && held != some sourceId && isThere then
    throw "VENTSTREAM_VIEW_KEY_COLLISION"
  else do
    checkType contract tables key
    pure { tables with
      presence := update tables.presence key (some true)
      owners := update tables.owners owner (some (some sourceId)) }

def ViewCommand.manifestName (cmd : ViewCommand) : String :=
  manifestKey keys cmd.target cmd.sourceId

/-- The manifest that an accepted command leaves. -/
def ViewCommand.manifest (cmd : ViewCommand) : Manifest where
  key := cmd.desired.map fun entry => keyFromParts keys cmd.target entry.keyId
  owner := cmd.desired.map fun entry => ownerKey keys cmd.target entry.keyId
  version := cmd.version.map toString

def claimDesired (tables : Tables) (cmd : ViewCommand) : Script Tables :=
  match cmd.desired with
  | none => pure tables
  | some entry => claimNew contract tables cmd.sourceId
      (keyFromParts keys cmd.target entry.keyId) (ownerKey keys cmd.target entry.keyId)

def simulate (tables : Tables) (cmd : ViewCommand) : Script (Bool × Tables) := do
  let name := cmd.manifestName keys
  let manifest ← loadManifest tables name
  let tables := { tables with loaded := update tables.loaded name true }
  if manifest.version.any fun text => !isVersion text then throw invalidStoredVersion
  else if isStale manifest.version cmd.version then pure (false, tables)
  else do
    let tables ← releaseOld tables cmd.sourceId manifest
    let tables ← claimDesired keys contract tables cmd
    pure (true, { tables with
      manifests := update tables.manifests name (some (cmd.manifest keys)) })

def simulateAll : Tables → List ViewCommand → Script (List Bool)
  | _, [] => pure []
  | tables, cmd :: rest => do
      let (accepted, tables) ← simulate keys contract tables cmd
      let others ← simulateAll tables rest
      pure (accepted :: others)

variable (cmd : ViewCommand)

/-- Remove the entry that the manifest names, if the source owns it. -/
def removeOld : Script PUnit := do
  let name := cmd.manifestName keys
  let oldKey ← hget name "key"
  let oldOwner ← hget name "owner"
  match oldKey, oldOwner with
  | none, _ => pure ⟨⟩
  | some _, none => throw "ERR Lua redis lib command arguments must be strings or integers"
  | some key, some owner => do
      let held ← get owner
      let _ ← del (if held = some cmd.sourceId then [key, owner] else [])
      pure ⟨⟩

def putEntry (entry : ViewEntry) : Script PUnit := do
  let key := keyFromParts keys cmd.target entry.keyId
  let owner := ownerKey keys cmd.target entry.keyId
  match contract.format, contract.ttl with
  | .string, 0 => do
      set key entry.payload
      set owner cmd.sourceId
  | .string, ttl + 1 => do
      setPx key entry.payload (ttl + 1)
      setPx owner cmd.sourceId (ttl + 1)
  | .json, 0 => do
      jsonSet contract.complaint key entry.payload
      set owner cmd.sourceId
  | .json, ttl + 1 => do
      let staging := stagingKey keys cmd.target entry.keyId
      let _ ← del [staging]
      jsonSet contract.complaint staging entry.payload
      pexpire staging (ttl + 1)
      rename staging key
      setPx owner cmd.sourceId (ttl + 1)

def storeDesired : Script PUnit :=
  match cmd.desired with
  | none => pure ⟨⟩
  | some entry => do
      putEntry keys contract cmd entry
      hset (cmd.manifestName keys) "key" (keyFromParts keys cmd.target entry.keyId)
      hset (cmd.manifestName keys) "owner" (ownerKey keys cmd.target entry.keyId)

def storeVersion : Script PUnit :=
  match cmd.version with
  | none => pure ⟨⟩
  | some version => hset (cmd.manifestName keys) "version" (toString version)

/-- The manifest expires with its entry; one that is not there cannot. -/
def expireManifest : Script PUnit :=
  if contract.ttl = 0 then pure ⟨⟩ else pexpire (cmd.manifestName keys) contract.ttl

def carryOut : Script PUnit := do
  removeOld keys cmd
  let _ ← del [cmd.manifestName keys]
  storeDesired keys contract cmd
  storeVersion keys cmd
  expireManifest keys contract cmd

def accepted (cmds : List ViewCommand) (verdicts : List Bool) : List ViewCommand :=
  ((cmds.zip verdicts).filter (·.2)).map (·.1)

/-- The part of a view script that only looks. -/
def accept (fences : List WriterFence) (cmds : List ViewCommand) : Script (List Bool) := do
  verifyFences keys fences
  simulateAll keys contract .new cmds

/-- The script of a view pipeline: how many commands were accepted, and how many were stale. -/
def executeFencedViewPipeline (fences : List WriterFence) (cmds : List ViewCommand) :
    Script (Nat × Nat) := do
  let verdicts ← accept keys contract fences cmds
  each (carryOut keys contract) (accepted cmds verdicts)
  pure (cmds.length - (verdicts.filter (!·)).length, (verdicts.filter (!·)).length)

end

end Ventstream.Redis
