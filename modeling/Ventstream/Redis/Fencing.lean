import Ventstream.Redis.Scripts

/-! # One writer at a time

The lease of a target runs out, its lineage does not. While a lease is there, both hold
the value of the last writer that was let in; while it is not, only the lineage does,
and only its holder can bring the lease back. So whoever was let in before is locked out
for good.
-/

namespace Ventstream.Redis

open Library Library.Program Library.Redis Function

variable {keys : KeyPrefix} {contract : Contract}

section

def IsWriterKey (keys : KeyPrefix) (name : String) : Prop :=
  ∃ target tail, name = key keys .writer target tail

/-- The keys that commands on documents do not touch. -/
def IsGuarded (keys : KeyPrefix) (name : String) : Prop :=
  IsWriterKey keys name ∨ ∃ target tail, name = key keys .manifest target tail

theorem not_isWriterKey (other : kind ≠ .writer) :
    ¬ IsWriterKey keys (key keys kind target tail) := by
  rintro ⟨target, tail, same⟩
  exact other (key_inj same).1

theorem not_isGuarded (other : kind ≠ .writer ∧ kind ≠ .manifest) :
    ¬ IsGuarded keys (key keys kind target tail) := by
  rintro (isWriter | ⟨target, tail, same⟩)
  · exact not_isWriterKey other.1 isWriter
  · exact other.2 (key_inj same).1

/-- None of the keys of a document or an entry is one of these. -/
structure Apart (keys : KeyPrefix) (kept : String → Prop) (target id : String) : Prop where
  data : ¬ kept (keyFromParts keys target id)
  stage : ¬ kept (stagingKey keys target id)
  version : ¬ kept (versionKey keys target id)
  owner : ¬ kept (ownerKey keys target id)

theorem apart_isGuarded (target id : String) : Apart keys (IsGuarded keys) target id :=
  ⟨not_isGuarded (by decide), not_isGuarded (by decide), not_isGuarded (by decide),
    not_isGuarded (by decide)⟩

variable {kept : String → Prop}

theorem frame_del_one (notKept : ¬ kept name) : Ensures (Frame kept) (del [name]) := by
  refine frame_del fun other mem => ?_
  rw [List.mem_singleton.mp mem]
  exact notKept

section

variable {cmd : DirectCommand} (apart : Apart keys kept cmd.target cmd.docId)
include apart

theorem frame_recordVersion : Ensures (Frame kept) (recordVersion keys contract cmd) := by
  unfold recordVersion
  split
  · exact Ensures.pure _
  · split
    · exact frame_setPx _ _ apart.version
    · exact frame_set _ apart.version

theorem frame_putString : Ensures (Frame kept) (putString keys contract cmd) := by
  unfold putString
  split
  · exact (frame_del_one apart.data).bind fun _ => Ensures.pure _
  · split
    · exact frame_set _ apart.data
    · exact frame_setPx _ _ apart.data

theorem frame_putJson : Ensures (Frame kept) (putJson keys contract cmd) := by
  unfold putJson
  split
  · exact (frame_del_one apart.data).bind fun _ => Ensures.pure _
  · split
    · exact frame_jsonSet _ _ apart.data
    · refine (Ensures.read _).bind fun current => ?_
      split
      · exact Ensures.throw _
      · refine (frame_del_one apart.stage).bind fun _ => ?_
        refine (frame_jsonSet _ _ apart.stage).bind fun _ => ?_
        refine (frame_pexpire _ apart.stage).bind fun _ => ?_
        exact frame_rename apart.stage apart.data

theorem frame_settleJson (result : Except String PUnit) :
    Ensures (Frame kept) (settleJson keys contract cmd result) := by
  unfold settleJson
  split
  · exact (frame_recordVersion apart).bind fun _ => Ensures.pure _
  · refine Ensures.bind ?_ fun _ => ?_
    · split
      · exact frame_del_one apart.stage
      · exact frame_del nofun
    · split
      · exact Ensures.pure _
      · exact Ensures.throw _

theorem frame_runDirect : Ensures (Frame kept) (runDirect keys contract cmd) := by
  refine (Ensures.examine _).bind fun stored => ?_
  split
  · exact Ensures.throw _
  · split
    · exact Ensures.pure _
    · unfold applyDirect
      split
      · refine (frame_putString apart).bind fun _ => ?_
        exact (frame_recordVersion apart).bind fun _ => Ensures.pure _
      · exact (frame_putJson apart).outcome.bind fun result => frame_settleJson apart result

end

theorem frame_runDirects (apart : ∀ cmd ∈ cmds, Apart keys kept cmd.target cmd.docId) :
    Ensures (Frame kept) (runDirects keys contract cmds) := by
  induction cmds with
  | nil => exact Ensures.pure _
  | cons cmd rest ih =>
    refine (frame_runDirect (apart cmd List.mem_cons_self)).bind fun _ => ?_
    refine (ih fun other mem => ?_).bind fun _ => Ensures.pure _
    exact apart other (List.mem_cons_of_mem cmd mem)

theorem frame_putEntry {cmd : ViewCommand} {entry : ViewEntry}
    (apart : Apart keys kept cmd.target entry.keyId) :
    Ensures (Frame kept) (putEntry keys contract cmd entry) := by
  unfold putEntry
  split
  · exact (frame_set _ apart.data).bind fun _ => frame_set _ apart.owner
  · exact (frame_setPx _ _ apart.data).bind fun _ => frame_setPx _ _ apart.owner
  · exact (frame_jsonSet _ _ apart.data).bind fun _ => frame_set _ apart.owner
  · refine (frame_del_one apart.stage).bind fun _ => ?_
    refine (frame_jsonSet _ _ apart.stage).bind fun _ => ?_
    refine (frame_pexpire _ apart.stage).bind fun _ => ?_
    refine (frame_rename apart.stage apart.data).bind fun _ => ?_
    exact frame_setPx _ _ apart.owner

end

/-- A manifest never names a key of a writer. -/
def WellNamed (keys : KeyPrefix) (space : Keyspace) : Prop :=
  ∀ target tail fields volatile,
    space (key keys .manifest target tail) = some ⟨.hash fields, volatile⟩ →
    ∀ name, fields "key" = some name ∨ fields "owner" = some name → ¬ IsWriterKey keys name

/-- What a script that is let through does: manifests stay well named, and as long as they are the
    keys of the writers stay as they are. -/
structure Safe (keys : KeyPrefix) (before after : Keyspace) : Prop where
  named : WellNamed keys before → WellNamed keys after
  writers : WellNamed keys before → Frame (IsWriterKey keys) before after

instance : Std.Refl (Safe keys) := ⟨fun _ => ⟨id, fun _ _ _ => rfl⟩⟩

instance : IsTrans Keyspace (Safe keys) where
  trans _ _ _ first second :=
    { named := fun named => second.named (first.named named)
      writers := fun named name isWriter =>
        (second.writers (first.named named) name isWriter).trans (first.writers named name isWriter) }

theorem Safe.of_frame {α : Type} {script : Script α}
    (frame : Ensures (Frame (IsGuarded keys)) script) : Ensures (Safe keys) script := by
  refine frame.mono fun before after same => ⟨fun named target tail fields volatile found => ?_,
    fun _ name isWriter => same name (.inl isWriter)⟩
  rw [same _ (.inr ⟨target, tail, rfl⟩)] at found
  exact named target tail fields volatile found

theorem safe_del (others : WellNamed keys space → ∀ name ∈ names, ¬ IsWriterKey keys name) :
    Safe keys space (exec (del names) space).2 := by
  refine ⟨fun named target tail fields volatile found => ?_, fun named name isWriter => ?_⟩
  · simp only [del, exec_update] at found
    split at found
    · cases found
    · exact named target tail fields volatile found
  · exact if_neg fun mem => others named name mem isWriter

theorem hash_of_fieldOf (seen : fieldOf name field space = .ok (some value)) :
    ∃ fields volatile, space name = some ⟨.hash fields, volatile⟩ ∧ fields field = some value := by
  unfold fieldOf at seen
  split at seen
  · cases seen
  · rename_i fields volatile found
    exact ⟨fields, volatile, found, Except.ok.inj seen⟩
  · cases seen

section

variable (named : WellNamed keys space)
include named

theorem WellNamed.not_writer
    (found : space (key keys .manifest target tail) = some ⟨.hash fields, lives⟩)
    (isField : field = "key" ∨ field = "owner") (isName : fields field = some name) :
    ¬ IsWriterKey keys name := by
  refine named _ _ fields lives found name ?_
  rcases isField with rfl | rfl
  · exact .inl isName
  · exact .inr isName

theorem WellNamed.update (fine : ∀ fields volatile, entry = some ⟨.hash fields, volatile⟩ →
      ∀ field, field = "key" ∨ field = "owner" → ∀ name, fields field = some name →
        ¬ IsWriterKey keys name) : WellNamed keys (update space changed entry) := by
  intro target tail fields volatile found name isName
  by_cases same : key keys .manifest target tail = changed
  · rw [same, update_self] at found
    rcases isName with isName | isName
    · exact fine fields volatile found "key" (.inl rfl) name isName
    · exact fine fields volatile found "owner" (.inr rfl) name isName
  · rw [update_of_ne same] at found
    exact named target tail fields volatile found name isName

end

theorem safe_update {cmd : ViewCommand} (named : WellNamed keys space →
      WellNamed keys (update space (cmd.manifestName keys) entry)) :
    Safe keys space (update space (cmd.manifestName keys) entry) := by
  refine ⟨named, fun _ name isWriter => update_of_ne ?_ _ _⟩
  rintro rfl
  exact not_isWriterKey (by decide) isWriter

theorem not_isWriterKey_of_named {cmd : ViewCommand} (isField : field = "key" ∨ field = "owner")
    (seen : fieldOf (cmd.manifestName keys) field space = .ok (some name))
    (named : WellNamed keys space) : ¬ IsWriterKey keys name := by
  obtain ⟨fields, volatile, found, isName⟩ := hash_of_fieldOf seen
  exact named.not_writer found isField isName

theorem safe_removeOld (cmd : ViewCommand) : Ensures (Safe keys) (removeOld keys cmd) := by
  refine Ensures.examine_bind fun space oldKey seenKey => ?_
  rw [exec_bind, exec_hget]
  cases seenOwner : fieldOf (cmd.manifestName keys) "owner" space with
  | error error => exact refl_of (Safe keys) space
  | ok oldOwner =>
    cases oldKey with
    | none => exact refl_of (Safe keys) space
    | some oldKey =>
      cases oldOwner with
      | none => exact refl_of (Safe keys) space
      | some oldOwner =>
        simp only
        rw [exec_bind, exec_get]
        cases textOf oldOwner space with
        | error error => exact refl_of (Safe keys) space
        | ok held =>
          refine safe_del fun named name mem => ?_
          split at mem
          · rcases List.mem_pair.mp mem with rfl | rfl
            · exact not_isWriterKey_of_named (.inl rfl) seenKey named
            · exact not_isWriterKey_of_named (.inr rfl) seenOwner named
          · cases mem

theorem safe_hset (cmd : ViewCommand)
    (other : field = "key" ∨ field = "owner" → ¬ IsWriterKey keys value) :
    Ensures (Safe keys) (hset (cmd.manifestName keys) field value) := by
  refine Ensures.examine_bind fun space found seen => safe_update fun named => named.update ?_
  intro fields volatile isFound checked isChecked name isName
  cases isFound
  by_cases isField : checked = field
  · rw [isField, update_self] at isName
    cases isName
    exact other (isField ▸ isChecked)
  rw [update_of_ne isField] at isName
  cases isEntry : space (cmd.manifestName keys) with
  | none =>
    simp only [isEntry, Except.ok.injEq] at seen
    cases seen
    cases isName
  | some entry =>
    match entry, isEntry with
    | ⟨.hash fields, volatile⟩, isEntry =>
      simp only [isEntry, Except.ok.injEq] at seen
      cases seen
      exact named.not_writer isEntry isChecked isName
    | ⟨.string text, volatile⟩, isEntry => simp [isEntry] at seen
    | ⟨.json text, volatile⟩, isEntry => simp [isEntry] at seen

theorem safe_pexpire (cmd : ViewCommand) (ttl : Nat) :
    Ensures (Safe keys) (pexpire (cmd.manifestName keys) ttl) := by
  refine fun space => safe_update fun named => named.update ?_
  intro fields volatile isFound field isField name isName
  split at isFound
  · cases isFound
  · rw [Option.map_eq_some_iff] at isFound
    obtain ⟨⟨data, lives⟩, isEntry, isHash⟩ := isFound
    cases isHash
    exact named.not_writer isEntry isField isName

theorem safe_carryOut (cmd : ViewCommand) : Ensures (Safe keys) (carryOut keys contract cmd) := by
  refine (safe_removeOld cmd).bind fun _ => ?_
  have removed : Ensures (Safe keys) (del [cmd.manifestName keys]) := fun space =>
    safe_del fun _ name mem => by
      rw [List.mem_singleton.mp mem]
      exact not_isWriterKey (by decide)
  refine removed.bind fun _ => Ensures.bind ?_ fun _ => Ensures.bind ?_ fun _ => ?_
  · unfold storeDesired
    split
    · exact Ensures.pure _
    · refine (Safe.of_frame (frame_putEntry (apart_isGuarded _ _))).bind fun _ => ?_
      refine (safe_hset cmd fun _ => not_isWriterKey (by decide)).bind fun _ => ?_
      exact safe_hset cmd fun _ => not_isWriterKey (by decide)
  · unfold storeVersion
    split
    · exact Ensures.pure _
    · exact safe_hset cmd fun isField => absurd isField (by decide)
  · unfold expireManifest
    split
    · exact Ensures.pure _
    · exact safe_pexpire cmd contract.ttl

section

variable {fences : List WriterFence}

theorem verifyWriterFence_reads (fence : WriterFence) :
    Ensures Eq (verifyWriterFence keys fence) := by
  refine (Ensures.examine _).bind fun current => ?_
  split
  · exact Ensures.pure _
  · exact Ensures.throw _

theorem verifyFences_reads (fences : List WriterFence) : Ensures Eq (verifyFences keys fences) :=
  Ensures.each fun fence _ => verifyWriterFence_reads fence

section

variable (tables : Tables)

include tables

theorem loadManifest_reads (name : String) : Ensures Eq (loadManifest tables name) := by
  unfold loadManifest
  split
  · exact Ensures.pure _
  · refine (Ensures.examine _).bind fun _ => (Ensures.examine _).bind fun _ => ?_
    exact (Ensures.examine _).bind fun _ => Ensures.pure _

theorem isPresent_reads (name : String) : Ensures Eq (isPresent tables name) := by
  unfold isPresent
  split
  · exact Ensures.pure _
  · exact Ensures.read _

theorem ownerValue_reads (name : String) : Ensures Eq (ownerValue tables name) := by
  unfold ownerValue
  split
  · exact Ensures.pure _
  · exact Ensures.examine _

theorem releaseOld_reads (sourceId : String) (manifest : Manifest) :
    Ensures Eq (releaseOld tables sourceId manifest) := by
  unfold releaseOld
  split
  · exact Ensures.pure _
  · refine (isPresent_reads tables _).bind fun _ => (ownerValue_reads tables _).bind fun _ => ?_
    split
    · exact Ensures.throw _
    · exact Ensures.pure _
  · exact Ensures.throw _

theorem checkType_reads (name : String) : Ensures Eq (checkType contract tables name) := by
  unfold checkType
  split
  · exact Ensures.pure _
  · split
    · exact Ensures.pure _
    · refine (Ensures.read _).bind fun _ => ?_
      split
      · exact Ensures.throw _
      · exact Ensures.pure _

theorem claimDesired_reads (cmd : ViewCommand) :
    Ensures Eq (claimDesired keys contract tables cmd) := by
  unfold claimDesired
  split
  · exact Ensures.pure _
  · refine (isPresent_reads tables _).bind fun _ => (ownerValue_reads tables _).bind fun _ => ?_
    split
    · exact Ensures.throw _
    · split
      · exact Ensures.throw _
      · exact (checkType_reads tables _).bind fun _ => Ensures.pure _

theorem simulate_reads (cmd : ViewCommand) : Ensures Eq (simulate keys contract tables cmd) := by
  refine (loadManifest_reads tables _).bind fun manifest => ?_
  split
  · exact Ensures.throw _
  · split
    · exact Ensures.pure _
    · refine (releaseOld_reads _ _ manifest).bind fun _ => ?_
      exact (claimDesired_reads _ cmd).bind fun _ => Ensures.pure _

theorem simulateAll_reads (cmds : List ViewCommand) :
    Ensures Eq (simulateAll keys contract tables cmds) := by
  induction cmds generalizing tables with
  | nil => exact Ensures.pure _
  | cons cmd rest ih =>
    refine (simulate_reads tables cmd).bind fun result => ?_
    exact (ih result.2).bind fun _ => Ensures.pure _

end

theorem admit_reads (fences : List WriterFence) (cmds : List ViewCommand) :
    Ensures Eq (accept keys contract fences cmds) :=
  (verifyFences_reads fences).bind fun _ => simulateAll_reads .new cmds

theorem safe_of_reads {α : Type} {script : Script α} (reads : Ensures Eq script) :
    Ensures (Safe keys) script :=
  reads.mono fun before _ same => same ▸ refl_of (Safe keys) before

theorem safe_pipeline (cmds : List DirectCommand) :
    Ensures (Safe keys) (executeFencedPipeline keys contract fences cmds) :=
  (safe_of_reads (verifyFences_reads fences)).bind fun _ =>
    Safe.of_frame (frame_runDirects fun _ _ => apart_isGuarded _ _)

theorem safe_viewPipeline (cmds : List ViewCommand) :
    Ensures (Safe keys) (executeFencedViewPipeline keys contract fences cmds) := by
  refine (safe_of_reads (admit_reads fences cmds)).bind fun verdicts => ?_
  refine (Ensures.each fun cmd _ => safe_carryOut cmd).bind fun _ => Ensures.pure _

/-- What the scan of a clear finds: keys that match one of the patterns of its target. -/
def Found (keys : KeyPrefix) (target : String) (names : List String) : Prop :=
  ∀ name ∈ names, ∃ pattern ∈ directClearPatterns keys target ++ viewClearPatterns keys target,
    matchesPattern pattern name = true

theorem Found.not_isWriterKey (found : Found keys target names)
    (mem : name ∈ names) : ¬ IsWriterKey keys name := by
  rintro ⟨other, tail, rfl⟩
  obtain ⟨pattern, isPattern, isMatch⟩ := found _ mem
  simp only [directClearPatterns, viewClearPatterns, List.cons_append, List.nil_append,
    List.mem_cons, List.not_mem_nil, or_false] at isPattern
  rcases isPattern with rfl | rfl | rfl | rfl | rfl | rfl | rfl <;>
    exact absurd (of_matchesPattern isMatch).1 (by decide)

theorem safe_clearChunk {names : List String}
    (found : Found keys fence.target names) : Ensures (Safe keys) (clearChunk keys fence names) :=
  (safe_of_reads (verifyWriterFence_reads fence)).bind fun _ _ =>
    safe_del fun _ _ mem => found.not_isWriterKey mem

end

variable {target : String} {fence : WriterFence}

section

/-- The target belongs to this value: its lineage has it, and so has its lease while it lasts. -/
structure Held (keys : KeyPrefix) (target value : String) (space : Keyspace) : Prop where
  lineage : space (writerLineageKey keys target) = some ⟨.string value, false⟩
  lease : space (writerFenceKey keys target) = none ∨
    ∃ volatile, space (writerFenceKey keys target) = some ⟨.string value, volatile⟩

theorem fenceKey_ne_lineageKey (target other : String) :
    writerFenceKey keys target ≠ writerLineageKey keys other :=
  fun same => absurd (key_inj same).2.2 (by decide)

section

variable (writer : Writer) (target token : String) (space : Keyspace)

variable (keys) in
def installed : Keyspace :=
  update (update space (writerLineageKey keys target)
    (some ⟨.string (fenceValue writer token), false⟩)) (writerFenceKey keys target)
    (some ⟨.string (fenceValue writer token), true⟩)

theorem exec_install :
    exec (install keys writer target token) space =
      (.ok ⟨⟩, installed keys writer target token space) := by
  unfold install setPx
  rw [if_neg (Nat.ne_of_gt writer.lease_pos)]
  rfl

theorem acquire_cases :
    (∃ answer, exec (acquireWriterFence keys writer target token) space =
      (.ok answer, installed keys writer target token space)) ∨
    ∃ error, exec (acquireWriterFence keys writer target token) space = (.error error, space) := by
  unfold acquireWriterFence
  rw [exec_bind, exec_get]
  cases textOf (writerFenceKey keys target) space with
  | error error => exact .inr ⟨error, rfl⟩
  | ok current =>
    cases current with
    | none =>
      simp only
      rw [exec_bind_ok (exec_install writer target token space)]
      exact .inl ⟨1, rfl⟩
    | some current =>
      simp only
      rw [exec_bind, exec_get]
      cases textOf (writerLineageKey keys target) space with
      | error error => exact .inr ⟨error, rfl⟩
      | ok lineage =>
        simp only
        unfold takeOver
        split
        · exact .inr ⟨fenced, rfl⟩
        · split
          · rw [exec_bind_ok (exec_install writer target token space)]
            exact .inl ⟨2, rfl⟩
          · exact .inr ⟨writerOwned, rfl⟩

theorem held_installed :
    Held keys target (fenceValue writer token) (installed keys writer target token space) where
  lineage := by
    rw [installed, update_of_ne (fenceKey_ne_lineageKey target target).symm, update_self]
  lease := .inr ⟨true, update_self _ _ _⟩

end

variable {value : String} {space later : Keyspace}

theorem Held.congr (held : Held keys target value space)
    (same : ∀ tail, later (key keys .writer target tail) = space (key keys .writer target tail)) :
    Held keys target value later where
  lineage := (same "lineage").trans held.lineage
  lease := by
    have current := same "current"
    unfold writerFenceKey
    rw [current]
    exact held.lease

section

variable (held : Held keys target value space)

include held

theorem Held.verify (isTarget : fence.target = target) (other : fence.value ≠ value) :
    exec (verifyWriterFence keys fence) space = (.error fenced, space) := by
  subst isTarget
  unfold verifyWriterFence
  rw [exec_bind, exec_get]
  have unlike : textOf (writerFenceKey keys fence.target) space = .ok none ∨
      textOf (writerFenceKey keys fence.target) space = .ok (some value) := by
    unfold textOf
    rcases held.lease with gone | ⟨volatile, there⟩
    · rw [gone]
      exact .inl rfl
    · rw [there]
      exact .inr rfl
  rcases unlike with seen | seen
  · rw [seen]
    rfl
  · rw [seen]
    simp only [Option.some.injEq]
    rw [if_neg other.symm]
    rfl

theorem Held.verifyFences (mem : fence ∈ fences) (isTarget : fence.target = target)
    (other : fence.value ≠ value) :
    ∃ error, exec (verifyFences keys fences) space = (.error error, space) := by
  have reads := @verifyFences_reads keys fences space
  obtain ⟨front, back, rfl⟩ := List.append_of_mem mem
  cases ran : exec (Redis.verifyFences keys (front ++ fence :: back)) space with
  | mk result later =>
    rw [ran] at reads
    subst reads
    cases result with
    | error error => exact ⟨error, rfl⟩
    | ok value =>
      exfalso
      obtain ⟨before, after, passed, through, -⟩ := exec_each_split ran
      have same : before = space := ((verifyFences_reads front).ran passed).symm
      subst same
      rw [held.verify isTarget other] at through
      cases through

theorem Held.update_lease
    (isLease : entry = none ∨ ∃ volatile, entry = some ⟨.string value, volatile⟩) :
    Held keys target value (update space (writerFenceKey keys target) entry) where
  lineage := by
    rw [update_of_ne (fenceKey_ne_lineageKey target target).symm]
    exact held.lineage
  lease := by
    rw [update_self]
    exact isLease

theorem Held.renew (isTarget : fence.target = target) (lease : Nat) : (fence.value ≠ value →
      exec (renewWriterFence keys fence lease) space = (.error fenced, space)) ∧
    Held keys target value (exec (renewWriterFence keys fence lease) space).2 := by
  subst isTarget
  have lineage : textOf (writerLineageKey keys fence.target) space = .ok (some value) := by
    rw [textOf, held.lineage]
  unfold renewWriterFence
  rw [exec_bind, exec_get]
  rcases held.lease with gone | ⟨volatile, there⟩
  · have current : textOf (writerFenceKey keys fence.target) space = .ok none := by
      rw [textOf, gone]
    rw [current]
    simp only
    rw [exec_bind, exec_get, lineage]
    simp only
    unfold revive
    by_cases same : fence.value = value
    · rw [if_neg (by simpa using same.symm)]
      refine ⟨fun other => absurd same other, ?_⟩
      unfold setPx
      split
      · exact held
      · exact held.update_lease (.inr ⟨true, by rw [same]⟩)
    · rw [if_pos (by simpa using Ne.symm same)]
      exact ⟨fun _ => rfl, held⟩
  · have current : textOf (writerFenceKey keys fence.target) space = .ok (some value) := by
      rw [textOf, there]
    rw [current]
    simp only
    rw [exec_bind, exec_get, lineage]
    simp only
    unfold prolong
    by_cases same : fence.value = value
    · rw [if_neg (by simp [same])]
      refine ⟨fun other => absurd same other, held.update_lease ?_⟩
      split
      · exact .inl rfl
      · refine .inr ⟨true, ?_⟩
        rw [there]
        rfl
    · rw [if_pos (by simp [Ne.symm same])]
      exact ⟨fun _ => rfl, held⟩

end

/-- A key that is not one of the writers of a target. -/
def IsForeign (keys : KeyPrefix) (target name : String) : Prop :=
  ∀ tail, name ≠ key keys .writer target tail

theorem frame_renew (fence : WriterFence) (lease : Nat) :
    Ensures (Frame (IsForeign keys fence.target)) (renewWriterFence keys fence lease) := by
  have ownFence : ¬ IsForeign keys fence.target (writerFenceKey keys fence.target) :=
    fun foreign => foreign "current" rfl
  have ownLineage : ¬ IsForeign keys fence.target (writerLineageKey keys fence.target) :=
    fun foreign => foreign "lineage" rfl
  refine (Ensures.examine _).bind fun current => (Ensures.examine _).bind fun lineage => ?_
  split
  · unfold prolong restoreLineage
    split
    · exact Ensures.throw _
    · refine Ensures.bind ?_ fun _ => (frame_pexpire _ ownFence).bind fun _ => Ensures.pure _
      split
      · exact frame_set _ ownLineage
      · exact Ensures.pure _
  · unfold revive
    split
    · exact Ensures.throw _
    · exact (frame_setPx _ _ ownFence).bind fun _ => Ensures.pure _

theorem frame_installed (writer : Writer) (target token : String) (space : Keyspace) :
    Frame (IsForeign keys target) space (installed keys writer target token space) := by
  intro name foreign
  have notFence : name ≠ writerFenceKey keys target := foreign "current"
  have notLineage : name ≠ writerLineageKey keys target := foreign "lineage"
  rw [installed, update_of_ne notFence, update_of_ne notLineage]

theorem token_of_fenceValue
    (same : fenceValue writer token = fenceValue other another) : token = another := by
  have bar : ∀ writer : Writer, '|' ∉ writer.id.toList := by
    intro writer mem
    exact absurd (List.all_eq_true.mp writer.id_wellFormed _ mem) (by decide)
  have chars := congrArg String.toList same
  simp only [fenceValue, String.toList_append, List.append_assoc, List.append_cancel_left_eq] at chars
  have split := append_cons_inj (bar writer) (bar other) chars
  exact String.toList_inj.mp split.2

end

section

/-- The keyspace, and the tokens that were drawn so far. -/
structure World where
  space : Keyspace
  tokens : List String

variable (keys : KeyPrefix)

/-- What any of the sinks does next, or a key with a time to live is gone. Tokens are drawn at
    random and are taken to differ. -/
inductive Step : World → World → Prop
  | acquire (world : World) (writer : Writer) (target token : String)
      (fresh : token ∉ world.tokens) :
      Step world ⟨(exec (acquireWriterFence keys writer target token) world.space).2,
        token :: world.tokens⟩
  | renew (world : World) (fence : WriterFence) (lease : Nat) :
      Step world { world with space := (exec (renewWriterFence keys fence lease) world.space).2 }
  | pipeline (world : World) (contract : Contract) (fences : List WriterFence)
      (cmds : List DirectCommand) :
      Step world { world with
        space := (exec (executeFencedPipeline keys contract fences cmds) world.space).2 }
  | viewPipeline (world : World) (contract : Contract) (fences : List WriterFence)
      (cmds : List ViewCommand) :
      Step world { world with
        space := (exec (executeFencedViewPipeline keys contract fences cmds) world.space).2 }
  | clear (world : World) (fence : WriterFence) (names : List String)
      (found : Found keys fence.target names) :
      Step world { world with space := (exec (clearChunk keys fence names) world.space).2 }
  | expire (world : World) (name : String) (data : Data)
      (isVolatile : world.space name = some ⟨data, true⟩) :
      Step world { world with space := update world.space name none }

/-- A run of the sinks on a Redis that was empty at first. -/
def Reached (world : World) : Prop := Relation.ReflTransGen (Step keys) ⟨fun _ => none, []⟩ world

variable {keys}

theorem WellNamed.of_frame (frame : Frame (IsForeign keys target) before after)
    (named : WellNamed keys before) : WellNamed keys after := by
  intro other tail fields volatile found
  have foreign : IsForeign keys target (key keys .manifest other tail) := fun _ same =>
    absurd (key_inj same).1 (by decide)
  rw [frame _ foreign] at found
  exact named other tail fields volatile found

theorem frame_acquire (writer : Writer) (target token : String) (space : Keyspace) :
    Frame (IsForeign keys target) space
      (exec (acquireWriterFence keys writer target token) space).2 := by
  rcases acquire_cases writer target token space with ⟨_, ran⟩ | ⟨_, ran⟩
  · rw [ran]
    exact frame_installed writer target token space
  · rw [ran]
    exact fun _ _ => rfl

variable {world later : World} {older : List String}

theorem wellNamed_step (step : Step keys world later)
    (named : WellNamed keys world.space) : WellNamed keys later.space := by
  cases step with
  | acquire writer target token fresh =>
    exact named.of_frame (frame_acquire writer target token world.space)
  | renew fence lease => exact named.of_frame (frame_renew fence lease world.space)
  | pipeline contract fences cmds => exact (safe_pipeline cmds world.space).named named
  | viewPipeline contract fences cmds =>
    exact (safe_viewPipeline cmds world.space).named named
  | clear fence names found => exact (safe_clearChunk found world.space).named named
  | expire name data isVolatile => exact named.update nofun

theorem wellNamed_of_reached (reached : Reached keys world) : WellNamed keys world.space := by
  induction reached with
  | refl => exact nofun
  | tail _ step named => exact wellNamed_step step named

theorem Held.of_foreign {target value other space later}
    (held : Held keys target value space) (apart : target ≠ other)
    (frame : Frame (IsForeign keys other) space later) : Held keys target value later :=
  held.congr fun _ => frame _ fun _ same => apart (key_inj same).2.1

theorem Held.of_safe {target value space later} (held : Held keys target value space)
    (named : WellNamed keys space) (safe : Safe keys space later) : Held keys target value later :=
  held.congr fun tail => safe.writers named _ ⟨target, tail, rfl⟩

/-- The target belongs to a value that none of these tokens is in. -/
def HeldBeyond (keys : KeyPrefix) (target : String) (older : List String) (space : Keyspace) :
    Prop :=
  ∃ writer token, token ∉ older ∧ Held keys target (fenceValue writer token) space

theorem heldBeyond_step (step : Step keys world later) (named : WellNamed keys world.space)
    (drawn : ∀ token ∈ older, token ∈ world.tokens)
    (held : HeldBeyond keys target older world.space) :
    HeldBeyond keys target older later.space := by
  obtain ⟨holder, token, beyond, held⟩ := held
  cases step with
  | acquire writer other another fresh =>
    by_cases same : target = other
    · subst same
      rcases acquire_cases writer target another world.space with ⟨_, ran⟩ | ⟨_, ran⟩
      · rw [ran]
        exact ⟨writer, another, fun mem => fresh (drawn another mem),
          held_installed writer target another world.space⟩
      · rw [ran]
        exact ⟨holder, token, beyond, held⟩
    · exact ⟨holder, token, beyond,
        held.of_foreign same (frame_acquire writer other another world.space)⟩
  | renew fence lease =>
    by_cases same : fence.target = target
    · exact ⟨holder, token, beyond, (held.renew same lease).2⟩
    · exact ⟨holder, token, beyond,
        held.of_foreign (Ne.symm same) (frame_renew fence lease world.space)⟩
  | pipeline contract fences cmds =>
    exact ⟨holder, token, beyond, held.of_safe named (safe_pipeline cmds world.space)⟩
  | viewPipeline contract fences cmds =>
    exact ⟨holder, token, beyond, held.of_safe named (safe_viewPipeline cmds world.space)⟩
  | clear fence names found =>
    exact ⟨holder, token, beyond, held.of_safe named (safe_clearChunk found world.space)⟩
  | expire name data isVolatile =>
    refine ⟨holder, token, beyond, ?_⟩
    by_cases isLease : name = writerFenceKey keys target
    · subst isLease
      exact held.update_lease (.inl rfl)
    · -- the lineage has no time to live
      have notLineage : name ≠ writerLineageKey keys target := by
        rintro rfl
        cases isVolatile.symm.trans held.lineage
      constructor
      · simp only
        rw [update_of_ne notLineage.symm]
        exact held.lineage
      · simp only
        rw [update_of_ne (Ne.symm isLease)]
        exact held.lease

theorem tokens_step (step : Step keys world later) :
    ∀ token ∈ world.tokens, token ∈ later.tokens := by
  cases step with
  | acquire writer target token fresh => exact fun _ mem => List.mem_cons_of_mem token mem
  | renew | pipeline | viewPipeline | clear | expire => exact fun _ mem => mem

theorem heldBeyond_run (run : Relation.ReflTransGen (Step keys) world later)
    (named : WellNamed keys world.space) (drawn : ∀ token ∈ older, token ∈ world.tokens)
    (held : HeldBeyond keys target older world.space) :
    HeldBeyond keys target older later.space := by
  have all : WellNamed keys later.space ∧ (∀ token ∈ older, token ∈ later.tokens) ∧
      HeldBeyond keys target older later.space := by
    induction run with
    | refl => exact ⟨named, drawn, held⟩
    | tail _ step ih =>
      obtain ⟨named, drawn, held⟩ := ih
      exact ⟨wellNamed_step step named, fun token mem => tokens_step step token (drawn token mem),
        heldBeyond_step step named drawn held⟩
  exact all.2.2

/-- A script that answers with an error and leaves everything as it was. -/
def Refused {α : Type} (script : Script α) (space : Keyspace) : Prop :=
  ∃ error, exec script space = (.error error, space)

/-- A fence that is let through, or that can be renewed. -/
def Accepted (keys : KeyPrefix) (fence : WriterFence) (space : Keyspace) : Prop :=
  (∃ later, exec (verifyWriterFence keys fence) space = (.ok ⟨⟩, later)) ∨
    ∃ lease answer later, exec (renewWriterFence keys fence lease) space = (.ok answer, later)

theorem Accepted.value (isAccepted : Accepted keys fence space) :
    textOf (writerFenceKey keys fence.target) space = .ok (some fence.value) ∨
      (textOf (writerFenceKey keys fence.target) space = .ok none ∧
        textOf (writerLineageKey keys fence.target) space = .ok (some fence.value)) := by
  rcases isAccepted with ⟨later, ran⟩ | ⟨lease, answer, later, ran⟩
  · obtain ⟨current, seen, rest⟩ := exec_examine_inv ran
    split at rest
    · rename_i same
      exact .inl (same ▸ seen)
    · cases rest
  · obtain ⟨current, seen, rest⟩ := exec_examine_inv ran
    obtain ⟨lineage, seenLineage, rest⟩ := exec_examine_inv rest
    cases current with
    | some current =>
      simp only [prolong] at rest
      split at rest
      · cases rest
      · rename_i passed
        have same : current = fence.value := by
          by_contra other
          exact passed (by simp [other])
        exact .inl (same ▸ seen)
    | none =>
      simp only [revive] at rest
      split at rest
      · cases rest
      · rename_i passed
        have same : lineage = some fence.value := by simpa using passed
        exact .inr ⟨seen, same ▸ seenLineage⟩

/-- At most one value is accepted for a target, at any time. -/
theorem Accepted.unique
    (sameTarget : fence.target = other.target) (isAccepted : Accepted keys fence space)
    (otherAccepted : Accepted keys other space) : fence.value = other.value := by
  have first := isAccepted.value
  have second := otherAccepted.value
  rw [← sameTarget] at second
  rcases first with lease | ⟨noLease, lineage⟩
  · rcases second with lease' | ⟨noLease', -⟩
    · exact Option.some.inj (Except.ok.inj (lease.symm.trans lease'))
    · cases lease.symm.trans noLease'
  · rcases second with lease' | ⟨-, lineage'⟩
    · cases noLease.symm.trans lease'
    · exact Option.some.inj (Except.ok.inj (lineage.symm.trans lineage'))

theorem refused_bind {α β : Type} {script : Script α} {next : α → Script β}
    (isRefused : Refused script space) : Refused (script >>= next) space := by
  obtain ⟨error, ran⟩ := isRefused
  exact ⟨error, exec_bind_error ran⟩

/-- After a writer was let in for a target, whatever carries an earlier value is refused and
    changes nothing, whoever does what and whatever expires in between; and at any time at most
    one value is accepted. -/
theorem one_writer_at_a_time (keys : KeyPrefix) (target : String) :
    (∀ space fence other, fence.target = target → other.target = target →
      Accepted keys fence space → Accepted keys other space → fence.value = other.value) ∧
    ∀ start, Reached keys start → ∀ writer token, token ∉ start.tokens → ∀ answer space,
      exec (acquireWriterFence keys writer target token) start.space = (.ok answer, space) →
      ∀ later, Relation.ReflTransGen (Step keys) ⟨space, token :: start.tokens⟩ later →
      ∀ holder, ∀ old ∈ start.tokens,
        (∀ lease, Refused (renewWriterFence keys ⟨target, fenceValue holder old⟩ lease)
          later.space) ∧
        (∀ contract fences commands, ⟨target, fenceValue holder old⟩ ∈ fences →
          Refused (executeFencedPipeline keys contract fences commands) later.space) ∧
        (∀ contract fences commands, ⟨target, fenceValue holder old⟩ ∈ fences →
          Refused (executeFencedViewPipeline keys contract fences commands) later.space) ∧
        ∀ names, Refused (clearChunk keys ⟨target, fenceValue holder old⟩ names) later.space := by
  constructor
  · rintro space fence other rfl sameTarget isAccepted otherAccepted
    exact isAccepted.unique sameTarget.symm otherAccepted
  · intro start reached writer token fresh answer space acquired later run holder old drawn
    have letIn : HeldBeyond keys target start.tokens space := by
      rcases acquire_cases writer target token start.space with ⟨_, ran⟩ | ⟨_, ran⟩
      · cases acquired.symm.trans ran
        exact ⟨writer, token, fresh, held_installed writer target token start.space⟩
      · cases acquired.symm.trans ran
    have first : Step keys start ⟨space, token :: start.tokens⟩ := by
      have step : Step keys start _ := .acquire start writer target token fresh
      rwa [acquired] at step
    obtain ⟨current, latest, beyond, held⟩ := heldBeyond_run run
      (wellNamed_step first (wellNamed_of_reached reached))
      (fun _ member => List.mem_cons_of_mem token member) letIn
    have other : fenceValue holder old ≠ fenceValue current latest := fun same =>
      beyond (token_of_fenceValue same ▸ drawn)
    refine ⟨fun lease => ⟨fenced, (held.renew rfl lease).1 other⟩, ?_, ?_, ?_⟩
    · intro contract fences commands member
      exact refused_bind (held.verifyFences member rfl other)
    · intro contract fences commands member
      exact refused_bind (refused_bind (held.verifyFences member rfl other))
    · intro names
      exact refused_bind ⟨fenced, held.verify rfl other⟩

def ventstreamKeys : KeyPrefix := ⟨"ventstream", by decide⟩

def revisionA : Writer := ⟨"revision-a", by decide, none, 30000, by decide⟩

def revisionB : Writer := ⟨"revision-b", by decide, some "revision-a", 30000, by decide⟩

def heldByA : World :=
  ⟨(exec (acquireWriterFence ventstreamKeys revisionA "orders" "1") fun _ => none).2, ["1"]⟩

theorem reached_heldByA : Reached ventstreamKeys heldByA :=
  .single (.acquire ⟨fun _ => none, []⟩ revisionA "orders" "1" nofun)

/-- The second revision takes the target over, and the first can no longer renew its lease. -/
theorem one_writer_at_a_time_handoff :
    (exec (acquireWriterFence ventstreamKeys revisionB "orders" "2") heldByA.space).1 = .ok 2 ∧
      ∀ lease, Refused (renewWriterFence ventstreamKeys ⟨"orders", fenceValue revisionA "1"⟩ lease)
        (exec (acquireWriterFence ventstreamKeys revisionB "orders" "2") heldByA.space).2 := by
  have handoff :
      (exec (acquireWriterFence ventstreamKeys revisionB "orders" "2") heldByA.space).1 = .ok 2 := by
    decide +kernel
  have locked := (one_writer_at_a_time ventstreamKeys "orders").2 heldByA reached_heldByA revisionB
    "2" (by decide) 2 _ (Prod.ext handoff rfl) _ .refl revisionA "1" (by decide)
  exact ⟨handoff, locked.1⟩

end

end Ventstream.Redis
