import Ventstream.Core.Event
import Ventstream.MySql.Source

/-! # Binlog coordinates as versions

A row change is published with the number of its binlog file and its end offset
packed into one version, by which a sink drops writes that come too late. The
coordinates belong to the binlog of one server since it was last reset, an epoch
here. Two guards look after them: a process compares the server's uuid with the one
in its state directory when it starts, and a connection stops stamping versions when
the 32-bit offset of the binlog protocol wraps.

The definitions follow `binlog_version` of `mysql/event_mapper.rs`, and
`versioning_epoch_ok` and the stamping in `tail` of `mysql/source.rs`.
-/

namespace Ventstream.MySql.Versions

/-- The number of a binlog file: the digits at the end of its name, if they are few enough for
    the packed version to fit a signed integer of 64 bits. -/
def fileSequence (file : String) : Option Nat :=
  let suffix := (file.toList.reverse.takeWhile Char.isDigit).reverse
  if suffix.isEmpty then none
  else (Core.parseU64 (String.ofList suffix)).filter (· ≤ (2 ^ 63 - 1) >>> 32)

def binlogVersion (file : String) (pos : Nat) : Option Nat :=
  (fileSequence file).map fun sequence => (sequence <<< 32) ||| (pos &&& 0xFFFFFFFF)

theorem binlogVersion_eq (file : String) (pos : Nat) : binlogVersion file pos =
      (fileSequence file).map fun sequence => sequence * 2 ^ 32 + pos % 2 ^ 32 := by
  unfold binlogVersion
  congr 1
  funext sequence
  have masked : pos &&& 0xFFFFFFFF = pos % 2 ^ 32 := Nat.and_two_pow_sub_one_eq_mod pos 32
  rw [masked, ← Nat.shiftLeft_add_eq_or_of_lt (Nat.mod_lt _ (by decide)), Nat.shiftLeft_eq]

def isRows : EventData → Bool
  | .rows _ (some _) => true
  | _ => false

/-- The binlog of a server since it was last reset, with the names of its files and, for a rows
    event, its place in the history of changes that all servers share. -/
structure Epoch where
  binlog : Binlog
  uuid : String
  name : Nat → String
  change : Nat → Nat
  opens : ∀ index, index = 0 ∨ (binlog.event (index - 1)).file ≠ (binlog.event index).file →
    (binlog.event index).start = firstOffset
  contiguous : ∀ index, (binlog.event (index + 1)).file = (binlog.event index).file →
    (binlog.event (index + 1)).start = (binlog.event index).stop
  /-- No event is longer than a packet can be. -/
  short : ∀ index, (binlog.event index).stop ≤ (binlog.event index).start + 2 ^ 30
  numbered : ∀ file later sequence other, file < later →
    fileSequence (name file) = some sequence → fileSequence (name later) = some other →
    sequence < other
  follows : ∀ index later, index < later → isRows (binlog.event index).data = true →
    isRows (binlog.event later).data = true → change index < change later

/-- The position behind everything written so far. -/
def Epoch.masterPos (epoch : Epoch) : Nat → BinlogPos
  | 0 => ⟨(epoch.binlog.event 0).file, firstOffset⟩
  | last + 1 => ⟨(epoch.binlog.event last).file, (epoch.binlog.event last).stop⟩

/-- The file of the state directory that holds the server's uuid. -/
inductive UuidFile where
  | absent
  | stored (uuid : String)
  | unreadable

/-- Whether versions may be stamped, where `current` is the uuid if the server could be asked
    for it, and what the file holds afterwards. -/
def versioningEpochOk (current : Option String) (file : UuidFile) (writable : Bool) :
    Bool × UuidFile :=
  match current, file with
  | none, file => (true, file)
  | some uuid, .stored known => (known == uuid, .stored known)
  | some uuid, .absent => (true, if writable then .stored uuid else .absent)
  | some _, .unreadable => (true, .unreadable)

/-- One connection, to a server in this epoch. -/
structure Tail where
  epoch : Nat
  next : Nat
  file : Nat
  pos : BinlogPos
  fileWrapped : Bool

/-- A process; `reached` are the positions that its connection has come by. -/
structure Process where
  versioning : Bool
  resume : BinlogPos
  reached : List BinlogPos
  tail : Option Tail

/-- The server that is asked, the state directory, the process and what was published with a
    version: changes by their place in the history, and scans by the number of changes that the
    rows reflect. `home` is the epoch in which the first process to stamp versions started. -/
structure System where
  epoch : Nat
  written : Nat
  uuidFile : UuidFile
  cursor : Option BinlogPos
  process : Option Process
  home : Option Nat
  published : List (Nat × Nat)
  snapshots : List (Nat × Nat)

def Tail.rotate (tail : Tail) : EventData → Tail
  | .rotate file position => { tail with pos := ⟨file, position⟩, fileWrapped := false }
  | _ => tail

/-- The offset counter goes back within a file once it has wrapped. -/
def Tail.detectWrap (tail : Tail) (logPos : Nat) : Tail :=
  { tail with fileWrapped := tail.fileWrapped || logPos != 0 && decide (logPos < tail.pos.pos) }

def Tail.sourceVersion (epoch : Epoch) (versioning : Bool) (tail : Tail) (logPos : Nat) :
    Option Nat :=
  if !versioning || tail.fileWrapped then none
  else binlogVersion (epoch.name tail.pos.file) (if logPos ≠ 0 then logPos else tail.pos.pos)

def Tail.advance (tail : Tail) (logPos : Nat) : Tail :=
  { tail with
    next := tail.next + 1
    pos := if logPos ≠ 0 then ⟨tail.pos.file, logPos⟩ else tail.pos }

/-- Read one event, and publish it with its version if it changes rows and has one. -/
def Tail.read (epoch : Epoch) (versioning : Bool) (tail : Tail) : Tail × Option (Nat × Nat) :=
  let ev := epoch.binlog.event tail.next
  let seen := (tail.rotate ev.data).detectWrap ev.logPos
  let version := if isRows ev.data then
    seen.sourceVersion epoch versioning ev.logPos else none
  (seen.advance ev.logPos, version.map fun version => (epoch.change tail.next, version))

/-- The server goes on to the file of the next event. -/
def Tail.switchFile (epoch : Epoch) (tail : Tail) : Tail :=
  let file := (epoch.binlog.event tail.next).file
  { tail with file := file, pos := ⟨file, firstOffset⟩, fileWrapped := false }

namespace System

variable (epochs : Nat → Epoch) (sys : System)

def masterPos : BinlogPos := (epochs sys.epoch).masterPos sys.written

/-- The version of the rows of a scan that starts now. -/
def versionFloor : Option Nat :=
  binlogVersion ((epochs sys.epoch).name (sys.masterPos epochs).file)
    (sys.masterPos epochs).pos

/-- A process starts, at the cursor unless there is none or an incomplete bootstrap discards it,
    and perhaps with a scan whose rows reflect this many changes. -/
def start (current : Option String) (writable discards : Bool) (reflected : Option Nat) : System :=
  let epochOk := versioningEpochOk current sys.uuidFile writable
  let cursor := if discards then none else sys.cursor
  { sys with
    uuidFile := epochOk.2
    cursor := cursor
    process := some
      { versioning := epochOk.1
        resume := cursor.getD (sys.masterPos epochs)
        reached := []
        tail := none }
    home := if epochOk.1 then sys.home.or (some sys.epoch) else sys.home
    snapshots :=
      match reflected, epochOk.1, sys.versionFloor epochs with
      | some count, true, some floor => sys.snapshots ++ [(count, floor)]
      | _, _, _ => sys.snapshots }

def connect (process : Process) (place : Nat) : System :=
  { sys with
    process := some { process with
      tail := some
        { epoch := sys.epoch
          next := place
          file := process.resume.file
          pos := process.resume
          fileWrapped := false } } }

def read (process : Process) (tail : Tail) : System :=
  let result := tail.read (epochs tail.epoch) process.versioning
  { sys with
    process := some { process with
      reached := process.reached ++ [result.1.pos]
      tail := some result.1 }
    published := sys.published ++ result.2.toList }

end System

/-- A scan that starts now reads rows that reflect every change in the binlog, also one that the
    server has written there and not yet committed to its tables. -/
def System.Reflects (epochs : Nat → Epoch) (sys : System) (count : Nat) : Prop :=
  ∀ index < sys.written, isRows ((epochs sys.epoch).binlog.event index).data = true →
    (epochs sys.epoch).change index < count

/-- The moves of the servers and of a process that is running. -/
inductive Step (epochs : Nat → Epoch) : System → System → Prop where
  | write (system : System) (written : Nat) : system.written ≤ written →
      Step epochs system { system with written := written }
  /-- A failover, or a reset of the server. -/
  | failover (system : System) (epoch written : Nat) :
      Step epochs system { system with epoch := epoch, written := written }
  | read (system : System) (process : Process) (tail : Tail) : system.process = some process →
      process.tail = some tail →
      tail.file = ((epochs tail.epoch).binlog.event tail.next).file →
      Step epochs system (system.read epochs process tail)
  | switchFile (system : System) (process : Process) (tail : Tail) :
      system.process = some process → process.tail = some tail →
      tail.file ≠ ((epochs tail.epoch).binlog.event tail.next).file →
      Step epochs system { system with
        process := some { process with tail := some (tail.switchFile (epochs tail.epoch)) } }
  | flush (system : System) (process : Process) (pos : BinlogPos) :
      system.process = some process → pos ∈ process.reached →
      Step epochs system { system with cursor := some pos }
  | drop (system : System) (process : Process) : system.process = some process →
      Step epochs system { system with
        process := some { process with
          resume := system.cursor.getD process.resume
          tail := none } }
  | stop (system : System) : Step epochs system { system with process := none }

def System.new : System where
  epoch := 0
  written := 0
  uuidFile := .absent
  cursor := none
  process := none
  home := none
  published := []
  snapshots := []

/-- The systems of a run in which every start and every connection is admitted. -/
inductive Run (epochs : Nat → Epoch) (mayStart : System → Option String → Option Nat → Prop)
    (mayConnect : System → Process → Prop) : System → Prop where
  | new : Run epochs mayStart mayConnect .new
  | step {before after : System} : Run epochs mayStart mayConnect before →
      Step epochs before after → Run epochs mayStart mayConnect after
  | start {system : System} (current : Option String) (writable discards : Bool)
      (reflected : Option Nat) : Run epochs mayStart mayConnect system → system.process = none →
      (∀ uuid, current = some uuid → uuid = (epochs system.epoch).uuid) →
      mayStart system current reflected →
      Run epochs mayStart mayConnect (system.start epochs current writable discards reflected)
  /-- The server accepts a position at which an event begins. -/
  | connect {system : System} (process : Process) (place : Nat) :
      Run epochs mayStart mayConnect system → system.process = some process →
      process.tail = none → (epochs system.epoch).binlog.Resumes process.resume place →
      (process.resume.file = ((epochs system.epoch).binlog.event place).file →
        process.resume.pos = ((epochs system.epoch).binlog.event place).start) →
      mayConnect system process → Run epochs mayStart mayConnect (system.connect process place)

/-- The server is in the epoch in which versions were first stamped, or its uuid shows that it
    is another one, and a scan reflects what the binlog has. -/
def MayStart (epochs : Nat → Epoch) (sys : System) (current : Option String)
    (reflected : Option Nat) : Prop :=
  ((sys.home = none ∨ sys.home = some sys.epoch) ∨
    ∃ known uuid, sys.uuidFile = .stored known ∧ current = some uuid ∧ known ≠ uuid) ∧
  ∀ count, reflected = some count → sys.Reflects epochs count

/-- A process that stamps versions connects in the epoch in which they were first stamped. -/
def MayConnect (sys : System) (process : Process) : Prop :=
  process.versioning = true → sys.home = some sys.epoch

section

/-- The version that belongs to a rows event in the first 4 GiB of its file. -/
def Epoch.Stamps (epoch : Epoch) (index version : Nat) : Prop :=
  isRows (epoch.binlog.event index).data = true ∧ (epoch.binlog.event index).stop < 2 ^ 32 ∧
    ∃ sequence, fileSequence (epoch.name (epoch.binlog.event index).file) = some sequence ∧
      version = sequence * 2 ^ 32 + (epoch.binlog.event index).stop

variable {epoch : Epoch}

theorem pack_lt {sequence other offset second} (lower : sequence < other)
    (fits : offset < 2 ^ 32) : sequence * 2 ^ 32 + offset < other * 2 ^ 32 + second := by
  omega

theorem Epoch.stamps_le (ordered : index ≤ later) (stamps : epoch.Stamps index version)
    (stampsLater : epoch.Stamps later other) : version ≤ other := by
  obtain ⟨_, fits, sequence, isSequence, rfl⟩ := stamps
  obtain ⟨_, _, second, isSecond, rfl⟩ := stampsLater
  rcases Nat.lt_or_eq_of_le ordered with isBefore | rfl
  · rcases epoch.binlog.ordered index later isBefore with lower | ⟨same, apart⟩
    · exact le_of_lt (pack_lt (epoch.numbered _ _ _ _ lower isSequence isSecond) fits)
    · rw [same, isSecond] at isSequence
      cases isSequence
      have nonempty := epoch.binlog.nonempty later
      omega
  · rw [isSecond] at isSequence
    cases isSequence
    exact le_rfl

theorem Epoch.floor_le (ordered : place ≤ later)
    (isFloor : binlogVersion (epoch.name (epoch.masterPos place).file)
      (epoch.masterPos place).pos = some floor)
    (stamps : epoch.Stamps later version) : floor ≤ version := by
  obtain ⟨_, fits, second, isSecond, rfl⟩ := stamps
  have nonempty := epoch.binlog.nonempty later
  rw [binlogVersion_eq, Option.map_eq_some_iff] at isFloor
  obtain ⟨sequence, isSequence, rfl⟩ := isFloor
  have masked : (epoch.masterPos place).pos % 2 ^ 32 < 2 ^ 32 := Nat.mod_lt _ (by decide)
  have reached : (epoch.masterPos place).file < (epoch.binlog.event later).file ∨
      (epoch.masterPos place).file = (epoch.binlog.event later).file ∧
        (epoch.masterPos place).pos ≤ (epoch.binlog.event later).start := by
    cases place with
    | succ last => exact epoch.binlog.ordered last later ordered
    | zero =>
      have headed := epoch.binlog.headed later
      rcases Nat.eq_zero_or_pos later with rfl | isLater
      · exact .inr ⟨rfl, headed⟩
      · exact (epoch.binlog.ordered 0 later isLater).imp_right fun apart => ⟨apart.1, headed⟩
  rcases reached with lower | ⟨same, apart⟩
  · exact le_of_lt (pack_lt (epoch.numbered _ _ _ _ lower isSequence isSecond) masked)
  · rw [same, isSecond] at isSequence
    cases isSequence
    omega

end

section

/-- A connection that has not noticed a wrap: it is where the next event begins, or its next
    offset will tell. -/
def Unwrapped (pos start : Nat) : Prop :=
  pos = start ∨ 2 ^ 32 ≤ start ∧ (2 ^ 32 ≤ pos ∨ start = 2 ^ 32 ∧ 2 ^ 32 ≤ pos + 2 ^ 30)

theorem Unwrapped.offset (unwrapped : Unwrapped pos start) (nonempty : start < stop)
    (short : stop ≤ start + 2 ^ 30) (counted : stop % 2 ^ 32 ≠ 0)
    (forward : ¬ stop % 2 ^ 32 < pos) : stop < 2 ^ 32 := by
  unfold Unwrapped at unwrapped
  omega

theorem Unwrapped.uncounted (unwrapped : Unwrapped pos start) (nonempty : start < stop)
    (short : stop ≤ start + 2 ^ 30) (uncounted : stop % 2 ^ 32 = 0) : Unwrapped pos stop := by
  unfold Unwrapped at *
  omega

structure Tail.Tracks (epoch : Epoch) (tail : Tail) : Prop where
  opens : tail.file ≠ (epoch.binlog.event tail.next).file → tail.next = 0 ∨
      (epoch.binlog.event (tail.next - 1)).file ≠ (epoch.binlog.event tail.next).file
  unwrapped : tail.file = (epoch.binlog.event tail.next).file → tail.fileWrapped = false →
    tail.pos.file = tail.file ∧ Unwrapped tail.pos.pos (epoch.binlog.event tail.next).start

variable {epoch : Epoch} {tail : Tail}

theorem Tail.rotate_of_rows (rows : isRows data) : tail.rotate data = tail := by
  cases data <;> simp_all [isRows, Tail.rotate]

theorem Tail.read_place (versioning : Bool) : (tail.read epoch versioning).1.epoch = tail.epoch ∧
      (tail.read epoch versioning).1.file = tail.file ∧
      (tail.read epoch versioning).1.next = tail.next + 1 := by
  simp only [Tail.read, Tail.advance, Tail.detectWrap]
  unfold Tail.rotate
  split <;> exact ⟨rfl, rfl, rfl⟩

section

variable (tracks : tail.Tracks epoch) (inFile : tail.file = (epoch.binlog.event tail.next).file)

include tracks inFile

theorem Tail.Tracks.offset (counted : (epoch.binlog.event tail.next).logPos ≠ 0)
    (unwrapped : (tail.detectWrap (epoch.binlog.event tail.next).logPos).fileWrapped = false) :
    tail.pos.file = tail.file ∧ (epoch.binlog.event tail.next).stop < 2 ^ 32 := by
  simp only [Tail.detectWrap, Bool.or_eq_false_iff, Bool.and_eq_false_iff, bne_eq_false_iff_eq,
    decide_eq_false_iff_not] at unwrapped
  obtain ⟨notWrapped, forward⟩ := unwrapped
  obtain ⟨sameFile, isUnwrapped⟩ := tracks.unwrapped inFile notWrapped
  exact ⟨sameFile, isUnwrapped.offset (epoch.binlog.nonempty _) (epoch.short _) counted
    (forward.resolve_left counted)⟩

theorem Tail.Tracks.stamps (counted : ∀ index, isRows (epoch.binlog.event index).data →
      (epoch.binlog.event index).logPos ≠ 0)
    (isPublished : (tail.read epoch versioning).2 = some entry) :
    entry.1 = epoch.change tail.next ∧ epoch.Stamps tail.next entry.2 := by
  simp only [Tail.read, Option.map_eq_some_iff] at isPublished
  obtain ⟨version, isVersion, rfl⟩ := isPublished
  split at isVersion
  · rename_i rows
    have isCounted := counted tail.next rows
    rw [Tail.rotate_of_rows rows] at isVersion
    simp only [Tail.sourceVersion, Bool.or_eq_true, Bool.not_eq_true', if_pos isCounted] at isVersion
    split at isVersion
    · cases isVersion
    · obtain ⟨sameFile, fits⟩ := tracks.offset inFile isCounted (by simp_all)
      rw [binlogVersion_eq, Option.map_eq_some_iff] at isVersion
      obtain ⟨sequence, isSequence, rfl⟩ := isVersion
      have offset : (epoch.binlog.event tail.next).logPos % 2 ^ 32 =
          (epoch.binlog.event tail.next).stop := by
        rw [BinlogEvent.logPos, Nat.mod_mod, Nat.mod_eq_of_lt fits]
      refine ⟨rfl, rows, fits, sequence, ?_, by rw [offset]⟩
      have isFile : tail.pos.file = (epoch.binlog.event tail.next).file := sameFile.trans inFile
      rw [← isFile]
      exact isSequence
  · cases isVersion

theorem Tail.Tracks.read (versioning : Bool) : (tail.read epoch versioning).1.Tracks epoch := by
  obtain ⟨-, sameFile, sameNext⟩ := @Tail.read_place epoch tail versioning
  refine ⟨?_, ?_⟩
  · rw [sameFile, sameNext, inFile]
    exact fun moves => Or.inr moves
  · rw [sameFile, sameNext]
    intro stays notWrapped
    -- A ROTATE event is the last of its file.
    have isPlain : tail.rotate (epoch.binlog.event tail.next).data = tail := by
      unfold Tail.rotate
      split
      · rename_i file position isRotate
        have moves := epoch.binlog.rotates tail.next file position isRotate
        omega
      · rfl
    have starts := epoch.contiguous tail.next (stays.symm.trans inFile)
    have nonempty := epoch.binlog.nonempty tail.next
    have short := epoch.short tail.next
    simp only [Tail.read, isPlain] at notWrapped ⊢
    by_cases counted : (epoch.binlog.event tail.next).logPos = 0
    · have clear : tail.fileWrapped = false := by
        simpa [Tail.advance, Tail.detectWrap, counted] using notWrapped
      obtain ⟨isFile, isUnwrapped⟩ := tracks.unwrapped inFile clear
      have still := isUnwrapped.uncounted nonempty short counted
      rw [starts]
      simpa [Tail.advance, Tail.detectWrap, counted] using ⟨isFile, still⟩
    · obtain ⟨isFile, fits⟩ := tracks.offset inFile counted notWrapped
      have offset : (epoch.binlog.event tail.next).logPos =
          (epoch.binlog.event tail.next).stop := Nat.mod_eq_of_lt fits
      rw [starts]
      simpa [Tail.advance, Tail.detectWrap, counted, Unwrapped, isFile] using Or.inl offset

end

theorem Tail.Tracks.switchFile (tracks : tail.Tracks epoch)
    (moves : tail.file ≠ (epoch.binlog.event tail.next).file) :
    (tail.switchFile epoch).Tracks epoch where
  opens different := absurd rfl different
  unwrapped _ _ := ⟨rfl, .inl (epoch.opens tail.next (tracks.opens moves)).symm⟩

theorem Tail.tracks_connect (resumes : epoch.binlog.Resumes resume place)
    (accepted : resume.file = (epoch.binlog.event place).file →
      resume.pos = (epoch.binlog.event place).start) :
    Tail.Tracks epoch ⟨number, place, resume.file, resume, false⟩ where
  opens different := by
    simp only at different ⊢
    by_cases isFirst : place = 0
    · exact .inl isFirst
    · right
      intro same
      have before : resume.Passes (epoch.binlog.event (place - 1)) :=
        (resumes (place - 1)).mp (by omega)
      have notPassed : ¬ resume.Passes (epoch.binlog.event place) :=
        fun passed => Nat.lt_irrefl _ ((resumes place).mpr passed)
      simp only [BinlogPos.Passes, not_or] at before notPassed
      omega
  unwrapped same _ := ⟨rfl, .inl (accepted same)⟩

end

section

variable {epochs : Nat → Epoch} {sys : System}

structure System.Safe (epochs : Nat → Epoch) (sys : System) : Prop where
  published : ∀ entry ∈ sys.published, ∃ home index, sys.home = some home ∧
    entry.1 = (epochs home).change index ∧ (epochs home).Stamps index entry.2
  snapshots : ∀ entry ∈ sys.snapshots, ∃ home place, sys.home = some home ∧
    (∀ index < place, isRows ((epochs home).binlog.event index).data = true →
      (epochs home).change index < entry.1) ∧
    binlogVersion ((epochs home).name ((epochs home).masterPos place).file)
      ((epochs home).masterPos place).pos = some entry.2
  tails : ∀ process tail, sys.process = some process → process.tail = some tail →
    process.versioning = true → sys.home = some tail.epoch ∧ tail.Tracks (epochs tail.epoch)

section

variable {current : Option String} {writable discards : Bool} {reflected : Option Nat}

theorem System.home_start {home} (isHome : sys.home = some home) :
    (sys.start epochs current writable discards reflected).home = some home := by
  simp only [System.start, isHome]
  split <;> rfl

theorem System.home_start_versioning (mayStart : MayStart epochs sys current reflected)
    (epochOk : (versioningEpochOk current sys.uuidFile writable).1) :
    (sys.start epochs current writable discards reflected).home = some sys.epoch := by
  simp only [System.start, epochOk, if_true]
  rcases mayStart.1 with (unset | same) | ⟨known, uuid, isStored, isCurrent, different⟩
  · simp [unset]
  · simp [same]
  · rw [isStored, isCurrent] at epochOk
    exact absurd (beq_iff_eq.mp epochOk) different

theorem System.Safe.start (safe : sys.Safe epochs)
    (mayStart : MayStart epochs sys current reflected) :
    (sys.start epochs current writable discards reflected).Safe epochs where
  published entry member := by
    obtain ⟨home, index, isHome, found⟩ := safe.published entry member
    exact ⟨home, index, System.home_start isHome, found⟩
  snapshots entry member := by
    simp only [System.start] at member
    split at member
    · rename_i count floor epochOk isFloor
      rcases List.mem_append.mp member with old | isNew
      · obtain ⟨home, place, isHome, found⟩ := safe.snapshots entry old
        exact ⟨home, place, System.home_start isHome, found⟩
      · rw [List.mem_singleton.mp isNew]
        exact ⟨sys.epoch, sys.written, System.home_start_versioning mayStart epochOk,
          mayStart.2 count rfl, isFloor⟩
    · obtain ⟨home, place, isHome, found⟩ := safe.snapshots entry member
      exact ⟨home, place, System.home_start isHome, found⟩
  tails process tail isProcess tails := by
    cases isProcess
    cases tails

end

section

variable (counted : ∀ number index, isRows ((epochs number).binlog.event index).data = true →
  ((epochs number).binlog.event index).logPos ≠ 0)
include counted

section

variable (safe : sys.Safe epochs)
include safe

theorem System.Safe.read {process : Process} (running : sys.process = some process)
    (tails : process.tail = some tail)
    (inFile : tail.file = ((epochs tail.epoch).binlog.event tail.next).file) :
    (sys.read epochs process tail).Safe epochs where
  published entry member := by
    rcases List.mem_append.mp member with old | isNew
    · exact safe.published entry old
    · have isPublished := Option.mem_toList.mp isNew
      cases versions : process.versioning with
      | false => simp [versions, Tail.read, Tail.sourceVersion] at isPublished
      | true =>
        obtain ⟨isHome, tracks⟩ := safe.tails process tail running tails versions
        obtain ⟨isChange, stamps⟩ := tracks.stamps inFile (counted tail.epoch) isPublished
        exact ⟨tail.epoch, tail.next, isHome, isChange, stamps⟩
  snapshots := safe.snapshots
  tails other next isOther isNext versions := by
    cases isOther
    cases isNext
    obtain ⟨isHome, tracks⟩ := safe.tails process tail running tails versions
    rw [(Tail.read_place _).1]
    exact ⟨isHome, tracks.read inFile _⟩

theorem System.Safe.step {after : System} (step : Step epochs sys after) : after.Safe epochs := by
  cases step with
  | write | failover | flush => exact ⟨safe.published, safe.snapshots, safe.tails⟩
  | read process tail running tails inFile => exact safe.read counted running tails inFile
  | switchFile process tail running tails moves =>
    refine ⟨safe.published, safe.snapshots, ?_⟩
    intro other next isOther isNext versions
    cases isOther
    cases isNext
    obtain ⟨isHome, tracks⟩ := safe.tails process tail running tails versions
    exact ⟨isHome, tracks.switchFile moves⟩
  | drop process running =>
    refine ⟨safe.published, safe.snapshots, ?_⟩
    intro other next isOther isNext
    cases isOther
    cases isNext
  | stop =>
    refine ⟨safe.published, safe.snapshots, ?_⟩
    intro other next isOther
    cases isOther

end

theorem Run.safe (run : Run epochs (MayStart epochs) MayConnect sys) : sys.Safe epochs := by
  induction run with
  | new => exact ⟨by simp [System.new], by simp [System.new], by simp [System.new]⟩
  | step _ step ih => exact ih.step counted step
  | start current writable discards reflected _ _ _ mayStart ih => exact ih.start mayStart
  | connect process place _ running _ resumes accepted mayConnect ih =>
    refine ⟨ih.published, ih.snapshots, ?_⟩
    intro other tail isOther tails versions
    cases isOther
    cases tails
    exact ⟨mayConnect versions, Tail.tracks_connect resumes accepted⟩

end

/-- In a run that stamps versions in one epoch only, they follow the history of the source, and
    a scan is no later than a change that it does not reflect. -/
theorem versions_follow_history
    (counted : ∀ number index, isRows ((epochs number).binlog.event index).data = true →
      ((epochs number).binlog.event index).logPos ≠ 0)
    (run : Run epochs (MayStart epochs) MayConnect sys) :
    (∀ entry ∈ sys.published, ∀ later ∈ sys.published, entry.1 ≤ later.1 → entry.2 ≤ later.2) ∧
    ∀ snapshot ∈ sys.snapshots, ∀ later ∈ sys.published, snapshot.1 ≤ later.1 →
      snapshot.2 ≤ later.2 := by
  have safe := run.safe counted
  refine ⟨?_, ?_⟩
  · intro entry member later isLater precedes
    obtain ⟨home, index, isHome, isChange, stamps⟩ := safe.published entry member
    obtain ⟨other, second, isOther, isSecond, stampsLater⟩ := safe.published later isLater
    rw [isHome] at isOther
    cases isOther
    refine Epoch.stamps_le ?_ stamps stampsLater
    by_contra backwards
    have reversed := (epochs home).follows second index (Nat.lt_of_not_le backwards) stampsLater.1
      stamps.1
    omega
  · intro snapshot member later isLater precedes
    obtain ⟨home, place, isHome, reflects, isFloor⟩ := safe.snapshots snapshot member
    obtain ⟨other, second, isOther, isSecond, stampsLater⟩ := safe.published later isLater
    rw [isHome] at isOther
    cases isOther
    refine Epoch.floor_le ?_ isFloor stampsLater
    by_contra early
    have reflected := reflects second (Nat.lt_of_not_le early) stampsLater.1
    omega

end

/-- Events of one length in one file, with a statement behind the first ones. -/
def sampleEvent (shift index : Nat) : BinlogEvent where
  file := 1
  start := 4 + 50 * index
  stop := 54 + 50 * index
  data :=
    if index = shift + 1 then .tableMap 7 ⟨"shop", "orders"⟩
    else if index = shift + 2 then .rows 7 (some .insert)
    else .other

theorem sampleEvent_start_lt (shift index : Nat) :
    (sampleEvent shift index).start < (sampleEvent shift index).stop := by
  simp [sampleEvent]

theorem le_sampleEvent_start (shift index : Nat) :
    firstOffset ≤ (sampleEvent shift index).start := by
  simp [sampleEvent, firstOffset]

theorem sampleEvent_rows (rows : isRows (sampleEvent shift index).data) : index = shift + 2 := by
  unfold sampleEvent at rows
  grind [isRows]

theorem sampleEvent_stop_le (shift : Nat) {index later : Nat} (isLater : index < later) :
    (sampleEvent shift index).stop ≤ (sampleEvent shift later).start := by
  simp only [sampleEvent]
  omega

def sampleBinlog (shift : Nat) : Binlog where
  event := sampleEvent shift
  nonempty := sampleEvent_start_lt shift
  headed := le_sampleEvent_start shift
  ordered index later isLater := Or.inr ⟨rfl, sampleEvent_stop_le shift isLater⟩
  rotates index file position isRotate := by
    unfold sampleEvent at isRotate
    grind

def sampleEpoch (uuid : String) (shift number : Nat) : Epoch where
  binlog := sampleBinlog shift
  uuid := uuid
  name file := if file = 1 then "binlog.000001" else "binlog"
  change _ := number
  opens index isFirst := by
    rcases isFirst with rfl | different
    · rfl
    · exact absurd rfl different
  contiguous index _ := by simp only [sampleBinlog, sampleEvent]; omega
  short index := by simp only [sampleBinlog, sampleEvent]; omega
  numbered file later sequence other lower isSequence isOther := by
    have unnumbered : fileSequence "binlog" = none := by decide +kernel
    by_cases isFirst : file = 1
    · have isNotFirst : later ≠ 1 := by omega
      simp [isNotFirst, unnumbered] at isOther
    · simp [isFirst, unnumbered] at isSequence
  follows index later isLater rows rowsLater := by
    have isIndex := sampleEvent_rows rows
    have isAlso := sampleEvent_rows rowsLater
    omega

theorem resumes_sampleBinlog (shift place : Nat) :
    (sampleBinlog shift).Resumes ⟨1, 4 + 50 * place⟩ place := by
  intro index
  simp [BinlogPos.Passes, sampleBinlog, sampleEvent]

/-- The first change of the history on one server, and the second on the server that takes
    over, at a lower offset. -/
def failoverEpochs : Nat → Epoch
  | 0 => sampleEpoch "a" 1 0
  | _ => sampleEpoch "b" 0 1

theorem counted_failoverEpochs (number index : Nat)
    (rows : isRows ((failoverEpochs number).binlog.event index).data) :
    ((failoverEpochs number).binlog.event index).logPos ≠ 0 := by
  cases number with
  | zero =>
    rw [show index = 3 from sampleEvent_rows rows]
    decide
  | succ number =>
    rw [show index = 2 from sampleEvent_rows rows]
    exact (by decide : (sampleEvent 0 2).logPos ≠ 0)

def firstWritten : System := { System.new with written := 1 }

/-- The first process, which stores the uuid and scans the tables. -/
def firstStart : System := firstWritten.start failoverEpochs (some "a") true false (some 0)

theorem run_firstConnected (starts : mayStart firstWritten (some "a") (some 0))
    (connects : ∀ process, mayConnect firstStart process) :
    Run failoverEpochs mayStart mayConnect
      (firstStart.connect ⟨true, ⟨1, 54⟩, [], none⟩ 1) := by
  have started : Run failoverEpochs mayStart mayConnect firstStart := by
    refine (Run.new.step (.write _ 1 (by decide))).start (some "a") true false (some 0) rfl ?_
      starts
    rintro uuid ⟨⟩
    rfl
  exact started.connect _ 1 rfl rfl (resumes_sampleBinlog 1 1) (fun _ => rfl) (connects _)

/-- A scan and then the first change, on one server. -/
theorem versions_follow_history_scanned :
    ∃ system : System, Run failoverEpochs (MayStart failoverEpochs) MayConnect system ∧
      system.published = [(0, 2 ^ 32 + 204)] ∧ system.snapshots = [(0, 2 ^ 32 + 54)] ∧
      (∀ entry ∈ system.published, ∀ later ∈ system.published, entry.1 ≤ later.1 →
        entry.2 ≤ later.2) ∧
      ∀ snapshot ∈ system.snapshots, ∀ later ∈ system.published, snapshot.1 ≤ later.1 →
        snapshot.2 ≤ later.2 := by
  have reflects : firstWritten.Reflects failoverEpochs 0 := by
    intro index written rows
    have isIndex : index = 3 := sampleEvent_rows rows
    simp [isIndex, firstWritten] at written
  have connected : Run failoverEpochs (MayStart failoverEpochs) MayConnect _ :=
    run_firstConnected ⟨Or.inl (Or.inl rfl), by rintro count ⟨⟩; exact reflects⟩ fun _ _ => rfl
  have changed := ((connected.step (.read _ _ _ rfl rfl rfl)).step (.read _ _ _ rfl rfl rfl)).step
    (.read _ _ _ rfl rfl rfl)
  exact ⟨_, changed, by decide +kernel, by decide +kernel,
    versions_follow_history counted_failoverEpochs changed⟩

/-- The connection drops and the process connects to the server that has taken over. It goes on
    stamping versions, in the coordinates of the other server, and the second change of the
    history gets a lower one than the first. -/
theorem failover_lowers_version :
    ∃ system : System, Run failoverEpochs (fun _ _ _ => True) (fun _ _ => True) system ∧
      ∃ entry ∈ system.published, ∃ later ∈ system.published, entry.1 < later.1 ∧
        later.2 < entry.2 := by
  have connected : Run failoverEpochs (fun _ _ _ => True) (fun _ _ => True) _ :=
    run_firstConnected trivial fun _ => trivial
  have changed := ((connected.step (.read _ _ _ rfl rfl rfl)).step (.read _ _ _ rfl rfl rfl)).step
    (.read _ _ _ rfl rfl rfl)
  have reconnected := ((changed.step (.failover _ 1 3)).step (.drop _ _ rfl)).connect _ 1 rfl rfl
    (resumes_sampleBinlog 0 1) (fun _ => rfl) trivial
  have lowered := (reconnected.step (.read _ _ _ rfl rfl rfl)).step (.read _ _ _ rfl rfl rfl)
  refine ⟨_, lowered, (0, 2 ^ 32 + 204), ?_, (1, 2 ^ 32 + 154), ?_, by decide, by decide⟩
  · decide +kernel
  · decide +kernel

end Ventstream.MySql.Versions
