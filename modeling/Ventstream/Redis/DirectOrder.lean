import Ventstream.Library.Decimal
import Ventstream.Library.VersionedCell
import Ventstream.Redis.Scripts

/-! # Single documents in source order

The string script compares versions as texts, by length and then by bytes. Where the
version keys hold canonical decimals that is the order of the numbers, and a document with
its version key is a cell that refuses what is below its stamp. A pipeline so never lowers
a version, and it can be run again after any part of it with the same result.
-/

namespace Ventstream.Redis

open Library Library.Program Library.Redis Function List
open Library.VersionedCell (Cell Write Taken put putAll)

section

variable (keys : KeyPrefix)

/-- Strings under the materialized-view contract: nothing expires. -/
def Contract.materialized (complaint : String → Option String) : Contract :=
  ⟨.string, 0, complaint⟩

/-- What is under the version key of a document, if anything, is a number in its shortest form. -/
def CanonicalVersions (space : Keyspace) : Prop :=
  ∀ target docId entry, space (versionKey keys target docId) = some entry →
    ∃ version : ℕ, entry.data = .string (toString version)

def Stored (space : Keyspace) (target docId : String) (version : ℕ) : Prop :=
  ∃ volatile, space (versionKey keys target docId) = some ⟨.string (toString version), volatile⟩

/-- What a command may do: it is applied unless the stored version is higher, and only a version
    of its own is stored. -/
structure Obeyed (cmd : DirectCommand) (before after : Keyspace) (outcome : Outcome) : Prop where
  applied_iff : outcome = .ok ↔ ∀ version floor, cmd.version = some version →
    Stored keys before cmd.target cmd.docId floor → floor ≤ version
  data : outcome = .ok → after (keyFromParts keys cmd.target cmd.docId) =
    cmd.payload.map fun payload => ⟨.string payload, false⟩
  stamped : ∀ version, cmd.version = some version → outcome = .ok →
    Stored keys after cmd.target cmd.docId version
  unversioned : cmd.version = none → after (versionKey keys cmd.target cmd.docId) =
      before (versionKey keys cmd.target cmd.docId)
  skipped : outcome ≠ .ok → after = before
  others : ∀ name, name ≠ keyFromParts keys cmd.target cmd.docId →
    name ≠ versionKey keys cmd.target cmd.docId → after name = before name

/-- The leases that the fences of a pipeline ask for. -/
def LeasesHeld (fences : List WriterFence) (space : Keyspace) : Prop :=
  ∀ fence ∈ fences, ∃ volatile,
    space (writerFenceKey keys fence.target) = some ⟨.string fence.value, volatile⟩

end

variable {keys : KeyPrefix} {complaint : String → Option String} {space : Keyspace}
  {cmd : DirectCommand} {target docId : String}

/-- What an applied command leaves under the data key. -/
def DirectCommand.entry (cmd : DirectCommand) : Option Entry :=
  cmd.payload.map fun payload => ⟨.string payload, false⟩

def storedText : Option Entry → Option String
  | some ⟨.string text, _⟩ => some text
  | _ => none

/-- The number that a version key holds. -/
def floorOf : Option Entry → WithBot ℕ
  | some ⟨.string text, _⟩ => WithBot.some (Nat.ofDigitChars 10 text.toList 0)
  | _ => ⊥

def stampOf (version : ℕ) : Option Entry := some ⟨.string (toString version), false⟩

section

variable (keys space cmd)

/-- The keyspace after an applied command. -/
def written : Keyspace :=
  let put := update space (keyFromParts keys cmd.target cmd.docId) cmd.entry
  match cmd.version with
  | none => put
  | some version =>
    update put (versionKey keys cmd.target cmd.docId) (stampOf version)

/-- Whether the script skips a command. -/
def skips : Bool :=
  isStale (storedText (space (versionKey keys cmd.target cmd.docId))) cmd.version

def next : Keyspace :=
  if skips keys space cmd then space else written keys space cmd

def verdict : Outcome :=
  if skips keys space cmd then .stale else .ok

end

theorem keyFromParts_ne_versionKey :
    keyFromParts keys target docId ≠ versionKey keys another other :=
  fun same => absurd (key_inj same).1 (by decide)

theorem floorOf_toString (version : ℕ) (volatile : Bool) :
    floorOf (some ⟨.string (toString version), volatile⟩) = WithBot.some version := by
  simp [floorOf]

theorem floorOf_stampOf (version : ℕ) : floorOf (stampOf version) = WithBot.some version :=
  floorOf_toString version false

theorem isVersion_toString (version : ℕ) : isVersion (toString version) := by
  have chars : (toString version).toList = Nat.toDigits 10 version := by
    rw [Nat.toString_eq_ofList_toDigits, String.toList_ofList]
  have nonempty : (toString version).isEmpty = false := by
    rw [String.isEmpty_eq_false_iff, ← String.toList_inj.ne, chars]
    exact Nat.toDigits_ne_nil
  rw [isVersion, nonempty, chars, Bool.not_false, Bool.true_and, all_eq_true]
  exact fun char mem => Nat.isDigit_of_mem_toDigits (by decide) (by decide) mem

theorem storedIsNewer_iff {floor version : ℕ} :
    storedIsNewer (toString floor) (toString version) ↔ version < floor := by
  rw [← toString_lt_iff, storedIsNewer]
  split <;> simp

theorem exec_putString : exec (putString keys (.materialized complaint) cmd) space =
    (.ok ⟨⟩, update space (keyFromParts keys cmd.target cmd.docId)
      cmd.entry) := by
  cases payload : cmd.payload with
  | none =>
    have removed : (fun name => if name ∈ [keyFromParts keys cmd.target cmd.docId]
        then none else space name) =
        update space (keyFromParts keys cmd.target cmd.docId) none := by
      funext name
      by_cases same : name = keyFromParts keys cmd.target cmd.docId
      · simp [same]
      · simp [same]
    simp only [putString, payload, DirectCommand.entry, Option.map_none]
    rw [← removed]
    rfl
  | some text =>
    simp only [putString, payload, DirectCommand.entry, Option.map_some]
    rfl

/-- The cell that a document and its version are. -/
def cellOf (keys : KeyPrefix) (space : Keyspace) (target docId : String) :
    Cell (Option Entry) (Option Entry) :=
  ⟨space (versionKey keys target docId), space (keyFromParts keys target docId)⟩

def DirectCommand.write (cmd : DirectCommand) : Write (Option Entry) :=
  ⟨cmd.version, cmd.entry⟩

theorem cellOf_written : cellOf keys (written keys space cmd) cmd.target cmd.docId =
    ⟨VersionedCell.restamp stampOf (space (versionKey keys cmd.target cmd.docId))
      cmd.write, cmd.entry⟩ := by
  unfold cellOf written VersionedCell.restamp DirectCommand.write
  cases cmd.version with
  | none =>
    simp only [update_self, update_of_ne keyFromParts_ne_versionKey.symm]
  | some version =>
    simp only [update_self, update_of_ne keyFromParts_ne_versionKey]

section

variable (notData : name ≠ keyFromParts keys cmd.target cmd.docId)
  (notVersion : name ≠ versionKey keys cmd.target cmd.docId)

include notData notVersion

theorem written_of_ne : written keys space cmd name = space name := by
  unfold written
  cases cmd.version with
  | none => exact update_of_ne notData _ _
  | some version =>
    exact (update_of_ne notVersion _ _).trans (update_of_ne notData _ _)

theorem next_of_ne : next keys space cmd name = space name := by
  unfold next
  split
  · rfl
  · exact written_of_ne notData notVersion

end

theorem versionKey_inj (same : versionKey keys target docId = versionKey keys another other) :
    target = another ∧ docId = other := by
  obtain ⟨-, isTarget, isTail⟩ := key_inj same
  exact ⟨isTarget, encodeKeySegment_injective isTail⟩

theorem cellOf_next_of_ne (other : ¬ (cmd.target = target ∧ cmd.docId = docId)) :
    cellOf keys (next keys space cmd) target docId = cellOf keys space target docId := by
  unfold cellOf
  rw [next_of_ne keyFromParts_ne_versionKey.symm, next_of_ne _ keyFromParts_ne_versionKey]
  · intro same
    obtain ⟨rfl, rfl⟩ := keyFromParts_inj same
    exact other ⟨rfl, rfl⟩
  · intro same
    obtain ⟨rfl, rfl⟩ := versionKey_inj same
    exact other ⟨rfl, rfl⟩

section

variable (canonical : CanonicalVersions keys space)
include canonical

theorem CanonicalVersions.cases (target docId : String) :
    space (versionKey keys target docId) = none ∨
      ∃ version, Stored keys space target docId version := by
  cases held : space (versionKey keys target docId) with
  | none => exact .inl rfl
  | some entry =>
    obtain ⟨version, isText⟩ := canonical target docId entry held
    obtain ⟨data, volatile⟩ := entry
    obtain rfl := isText
    exact .inr ⟨version, volatile, held⟩

theorem skips_eq_false_iff : skips keys space cmd = false ↔ Taken floorOf
      (space (versionKey keys cmd.target cmd.docId))
      (⟨cmd.version, cmd.entry⟩ : Write (Option Entry)) := by
  unfold skips Taken
  rcases canonical.cases cmd.target cmd.docId with held | ⟨floor, volatile, held⟩
  · simp [held, storedText, isStale, floorOf]
  · rw [held, floorOf_toString]
    cases isVersion : cmd.version with
    | none => simp [isStale]
    | some version =>
      simp only [storedText, isStale, Option.some.injEq, forall_eq', WithBot.coe_le_coe]
      rw [← not_lt, ← storedIsNewer_iff, Bool.not_eq_true]

theorem exec_runDirect : exec (runDirect keys (.materialized complaint) cmd) space =
      (.ok (verdict keys space cmd), next keys space cmd) := by
  have stored : textOf (versionKey keys cmd.target cmd.docId) space =
      .ok (storedText (space (versionKey keys cmd.target cmd.docId))) ∧
      ((storedText (space (versionKey keys cmd.target cmd.docId))).any
        fun text => !isVersion text) = false := by
    rcases canonical.cases cmd.target cmd.docId with held | ⟨floor, volatile, held⟩
    · simp [textOf, held, storedText]
    · simp only [textOf, held, storedText, Option.any_some, isVersion_toString, Bool.not_true,
        and_self]
  unfold runDirect
  rw [exec_bind_ok (by rw [exec_get, stored.1]), if_neg (by simp [stored.2])]
  unfold verdict next skips
  split
  · rfl
  · have inOrder : applyDirect keys (.materialized complaint) cmd = (do
        putString keys (.materialized complaint) cmd
        recordVersion keys (.materialized complaint) cmd
        pure Outcome.ok) := rfl
    rw [inOrder, exec_bind_ok exec_putString]
    unfold recordVersion written
    cases cmd.version <;> rfl

theorem cellOf_next_self : cellOf keys (next keys space cmd) cmd.target cmd.docId =
      put floorOf stampOf (cellOf keys space cmd.target cmd.docId) cmd.write := by
  unfold next put
  cases skipped : skips keys space cmd with
  | true =>
    have untaken : ¬ Taken floorOf (cellOf keys space cmd.target cmd.docId).stamp
        cmd.write := by
      intro taken
      rw [(skips_eq_false_iff canonical).mpr taken] at skipped
      cases skipped
    rw [if_neg untaken, if_pos rfl]
  | false =>
    have taken : Taken floorOf (cellOf keys space cmd.target cmd.docId).stamp
        cmd.write := (skips_eq_false_iff canonical).mp skipped
    rw [if_pos taken, if_neg (by simp), cellOf_written]
    rfl

theorem CanonicalVersions.next : CanonicalVersions keys (next keys space cmd) := by
  intro target docId entry held
  by_cases same : cmd.target = target ∧ cmd.docId = docId
  · obtain ⟨rfl, rfl⟩ := same
    unfold Redis.next at held
    split at held
    · exact canonical _ _ entry held
    · have isStamp := congrArg Cell.stamp (@cellOf_written keys space cmd)
      unfold cellOf at isStamp
      simp only [held] at isStamp
      unfold VersionedCell.restamp DirectCommand.write at isStamp
      cases isVersion : cmd.version with
      | none =>
        simp only [isVersion] at isStamp
        exact canonical _ _ entry isStamp.symm
      | some version =>
        simp only [isVersion, stampOf, Option.some.injEq] at isStamp
        exact ⟨version, by rw [isStamp]⟩
  · have unchanged := congrArg Cell.stamp (@cellOf_next_of_ne keys space cmd target docId same)
    exact canonical target docId entry (unchanged.symm.trans held)

end

section

variable {cmds front back : List DirectCommand} {fences : List WriterFence}

def nextAll (keys : KeyPrefix) (space : Keyspace) (cmds : List DirectCommand) : Keyspace :=
  cmds.foldl (next keys) space

def verdicts (keys : KeyPrefix) : Keyspace → List DirectCommand → List Outcome
  | _, [] => []
  | space, cmd :: rest =>
    verdict keys space cmd :: verdicts keys (next keys space cmd) rest

theorem nextAll_append : nextAll keys space (front ++ back) =
    nextAll keys (nextAll keys space front) back := foldl_append

theorem verdicts_append : verdicts keys space (front ++ back) =
    verdicts keys space front ++ verdicts keys (nextAll keys space front) back := by
  induction front generalizing space with
  | nil => rfl
  | cons cmd rest ih =>
    simp only [cons_append, verdicts, ih]
    rfl

theorem LeasesHeld.nextAll (held : LeasesHeld keys fences space) :
    LeasesHeld keys fences (nextAll keys space cmds) := by
  induction cmds generalizing space with
  | nil => exact held
  | cons cmd rest ih =>
    refine ih fun fence mem => ?_
    rw [next_of_ne]
    · exact held fence mem
    · exact fun same => absurd (key_inj same).1 (by decide)
    · exact fun same => absurd (key_inj same).1 (by decide)

theorem exec_verifyFences (held : LeasesHeld keys fences space) :
    exec (verifyFences keys fences) space = (.ok ⟨⟩, space) := by
  refine exec_each_idle fun fence mem => ?_
  obtain ⟨volatile, isHeld⟩ := held fence mem
  have seen : exec (get (writerFenceKey keys fence.target)) space =
      (.ok (some fence.value), space) := by
    rw [exec_get, textOf, isHeld]
  rw [verifyWriterFence, exec_bind_ok seen, if_pos rfl]
  rfl

/-- The commands for one document. -/
def forDocument (target docId : String) (cmds : List DirectCommand) : List DirectCommand :=
  cmds.filter fun cmd => cmd.target = target ∧ cmd.docId = docId

theorem nextAll_of_ne (unnamed : ∀ target docId, name ≠ keyFromParts keys target docId ∧
      name ≠ versionKey keys target docId) : nextAll keys space cmds name = space name := by
  induction cmds generalizing space with
  | nil => rfl
  | cons cmd rest ih =>
    exact ih.trans (next_of_ne (unnamed cmd.target cmd.docId).1 (unnamed cmd.target cmd.docId).2)

theorem eq_of_cells
    (cells : ∀ target docId, cellOf keys left target docId = cellOf keys right target docId)
    (others : ∀ name, (∀ target docId, name ≠ keyFromParts keys target docId ∧
      name ≠ versionKey keys target docId) → left name = right name) : left = right := by
  funext name
  by_cases named : ∃ target docId,
      name = keyFromParts keys target docId ∨ name = versionKey keys target docId
  · obtain ⟨target, docId, rfl | rfl⟩ := named
    · exact congrArg Cell.value (cells target docId)
    · exact congrArg Cell.stamp (cells target docId)
  · refine others name fun target docId => ⟨?_, ?_⟩
    · exact fun same => named ⟨target, docId, .inl same⟩
    · exact fun same => named ⟨target, docId, .inr same⟩

theorem verdict_eq_ok_iff : verdict keys space cmd = .ok ↔ skips keys space cmd = false := by
  unfold verdict
  cases skips keys space cmd <;> simp

section

variable (canonical : CanonicalVersions keys space)
include canonical

theorem CanonicalVersions.nextAll :
    CanonicalVersions keys (nextAll keys space cmds) := by
  induction cmds generalizing space with
  | nil => exact canonical
  | cons cmd rest ih => exact ih canonical.next

theorem exec_runDirects :
    exec (runDirects keys (.materialized complaint) cmds) space =
      (.ok (verdicts keys space cmds), nextAll keys space cmds) := by
  induction cmds generalizing space with
  | nil => rfl
  | cons cmd rest ih =>
    rw [runDirects, exec_bind_ok (exec_runDirect canonical), exec_bind_ok (ih canonical.next)]
    rfl

theorem exec_pipeline (held : LeasesHeld keys fences space) :
    exec (executeFencedPipeline keys (.materialized complaint) fences cmds) space =
      (.ok (verdicts keys space cmds), nextAll keys space cmds) := by
  rw [executeFencedPipeline, exec_bind_ok (exec_verifyFences held), exec_runDirects canonical]

theorem cellOf_nextAll :
    cellOf keys (nextAll keys space cmds) target docId =
      putAll floorOf stampOf (cellOf keys space target docId)
        ((forDocument target docId cmds).map (·.write)) := by
  induction cmds generalizing space with
  | nil => rfl
  | cons cmd rest ih =>
    have rested := @ih (next keys space cmd) canonical.next
    change cellOf keys (nextAll keys (next keys space cmd) rest) target docId = _
    rw [rested]
    by_cases same : cmd.target = target ∧ cmd.docId = docId
    · obtain ⟨rfl, rfl⟩ := same
      rw [cellOf_next_self canonical, forDocument, forDocument, filter_cons_of_pos (by simp)]
      rfl
    · rw [cellOf_next_of_ne same, forDocument, forDocument,
        filter_cons_of_neg (by simpa using same)]

theorem nextAll_nextAll :
    nextAll keys (nextAll keys space cmds) cmds = nextAll keys space cmds := by
  refine eq_of_cells (fun target docId => ?_) fun name unnamed => nextAll_of_ne unnamed
  rw [cellOf_nextAll canonical.nextAll, cellOf_nextAll canonical,
    VersionedCell.putAll_putAll floorOf_stampOf]

theorem stored_nextAll (stored : Stored keys space target docId floor) :
    ∃ version, floor ≤ version ∧ Stored keys
    (nextAll keys space cmds) target docId version := by
  obtain ⟨volatile, held⟩ := stored
  have raised : WithBot.some floor ≤
      floorOf (cellOf keys (nextAll keys space cmds) target docId).stamp := by
    rw [cellOf_nextAll canonical, (VersionedCell.putAll_eq floorOf_stampOf).2]
    refine le_trans (le_of_eq ?_) VersionedCell.le_top
    rw [cellOf, held, floorOf_toString]
  rcases canonical.nextAll.cases target docId with gone | ⟨version, volatile, kept⟩
  · rw [cellOf, gone] at raised
    exact absurd raised (by simp [floorOf])
  · rw [cellOf, kept, floorOf_toString] at raised
    exact ⟨version, WithBot.coe_le_coe.mp raised, volatile, kept⟩

theorem obeyed_next :
    Obeyed keys cmd space (next keys space cmd) (verdict keys space cmd) := by
  have kept : verdict keys space cmd = .ok → next keys space cmd =
      written keys space cmd := by
    intro isOk
    rw [next, verdict_eq_ok_iff.mp isOk]
    rfl
  have cell := @cellOf_written keys space cmd
  constructor
  case applied_iff =>
    rw [verdict_eq_ok_iff, skips_eq_false_iff canonical]
    constructor
    · intro taken version floor isVersion ⟨volatile, held⟩
      have above := taken version isVersion
      rw [held, floorOf_toString] at above
      exact WithBot.coe_le_coe.mp above
    · intro above version isVersion
      rcases canonical.cases cmd.target cmd.docId with held | ⟨floor, volatile, held⟩
      · rw [held]
        exact bot_le
      · rw [held, floorOf_toString]
        exact WithBot.coe_le_coe.mpr (above version floor isVersion ⟨volatile, held⟩)
  case data =>
    intro isOk
    rw [kept isOk]
    exact congrArg Cell.value cell
  case stamped =>
    intro version isVersion isOk
    rw [kept isOk]
    refine ⟨false, (congrArg Cell.stamp cell).trans ?_⟩
    rw [VersionedCell.restamp, DirectCommand.write, isVersion]
    rfl
  case unversioned =>
    intro isVersion
    unfold next
    split
    · rfl
    · refine (congrArg Cell.stamp cell).trans ?_
      rw [VersionedCell.restamp, DirectCommand.write, isVersion]
  case skipped =>
    intro notOk
    have skipped := mt verdict_eq_ok_iff.mpr notOk
    rw [Bool.not_eq_false] at skipped
    rw [next, skipped, if_pos rfl]
  case others =>
    exact fun name notData notVersion => next_of_ne notData notVersion

end

/-- A pipeline whose leases are held runs through. No stored version goes down; each command is
    applied exactly when its version, if it has one, is not below the one stored then; and running
    the pipeline after any first part of it leaves what running it once leaves. -/
theorem direct_keys_follow_source_order (complaint : String → Option String)
    (canonical : CanonicalVersions keys space) (held : LeasesHeld keys fences space)
    (commands : List DirectCommand) :
    ∃ outcomes final,
      exec (executeFencedPipeline keys (.materialized complaint) fences commands) space =
        (.ok outcomes, final) ∧
      (∀ target docId floor, Stored keys space target docId floor →
        ∃ version, floor ≤ version ∧ Stored keys final target docId version) ∧
      (∀ before command after, commands = before ++ command :: after → ∃ earlier outcome mid later,
          exec (executeFencedPipeline keys (.materialized complaint) fences before) space =
            (.ok earlier, mid) ∧
          exec (executeFencedPipeline keys (.materialized complaint) fences (before ++ [command]))
            space = (.ok (earlier ++ [outcome]), later) ∧
          earlier ++ [outcome] <+: outcomes ∧ Obeyed keys command mid later outcome) ∧
      (∀ front back, commands = front ++ back → ∃ earlier mid again,
        exec (executeFencedPipeline keys (.materialized complaint) fences front) space =
          (.ok earlier, mid) ∧
        exec (executeFencedPipeline keys (.materialized complaint) fences commands) mid =
          (.ok again, final)) := by
  refine ⟨_, _, exec_pipeline canonical held, fun _ _ _ => stored_nextAll canonical, ?_, ?_⟩
  · rintro before command after rfl
    refine ⟨_, verdict keys (nextAll keys space before) command, _, _,
      exec_pipeline canonical held, ?_, ?_, obeyed_next canonical.nextAll⟩
    · rw [exec_pipeline canonical held, verdicts_append, nextAll_append]
      rfl
    · rw [verdicts_append]
      exact (prefix_append_right_inj _).mpr ⟨_, rfl⟩
  · rintro front back rfl
    refine ⟨_, _, verdicts keys (nextAll keys space front) (front ++ back),
      exec_pipeline canonical held, ?_⟩
    rw [exec_pipeline canonical.nextAll held.nextAll]
    rw [nextAll_append, nextAll_append, nextAll_nextAll canonical]

def vs : KeyPrefix := ⟨"vs", by decide⟩

def showsSpace : Keyspace :=
  update (update (fun _ => none) (writerFenceKey vs "shows") (some ⟨.string "v1|feed|a", true⟩))
    (versionKey vs "shows" "1") (some ⟨.string "5", false⟩)

/-- A newer version, a write without one, and an older version. -/
def showsCommands : List DirectCommand :=
  [⟨"shows", "1", some 7, some "new"⟩, ⟨"shows", "1", none, none⟩,
    ⟨"shows", "1", some 6, some "old"⟩]

theorem direct_keys_follow_source_order_shows : CanonicalVersions vs showsSpace ∧
    LeasesHeld vs [⟨"shows", "v1|feed|a"⟩] showsSpace ∧
    ∃ outcomes final, exec (executeFencedPipeline vs (.materialized fun _ => none)
      [⟨"shows", "v1|feed|a"⟩] showsCommands) showsSpace = (.ok outcomes, final) ∧
      ∃ version, 5 ≤ version ∧ Stored vs final "shows" "1" version := by
  have canonical : CanonicalVersions vs showsSpace := by
    intro target docId entry found
    by_cases same : versionKey vs target docId = versionKey vs "shows" "1"
    · rw [showsSpace, same, update_self] at found
      exact ⟨5, by rw [← Option.some.inj found]; rfl⟩
    · rw [showsSpace, update_of_ne same, update_of_ne] at found
      · cases found
      · exact fun clash => absurd (key_inj clash).1 (by decide)
  have held : LeasesHeld vs [⟨"shows", "v1|feed|a"⟩] showsSpace := by
    intro fence member
    obtain rfl := mem_singleton.mp member
    refine ⟨true, ?_⟩
    rw [showsSpace, update_of_ne, update_self]
    exact fun clash => absurd (key_inj clash).1 (by decide)
  obtain ⟨outcomes, final, ran, kept, -, -⟩ :=
    direct_keys_follow_source_order (fun _ => none) canonical held showsCommands
  exact ⟨canonical, held, outcomes, final, ran, kept "shows" "1" 5 ⟨false, update_self _ _ _⟩⟩

end

end Ventstream.Redis
