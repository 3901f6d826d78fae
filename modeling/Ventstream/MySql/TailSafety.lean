import Ventstream.MySql.Source

/-! # What a resumed tail can lose

A cursor is only written once the output of the rows events before it is durable. A
stream resumed at it delivers all the others, unless the cursor is the one of a ROTATE
event; and it can decode them, unless the cursor lies between a TABLE_MAP event and a
rows event that needs it. As long as the source only goes back to cursors of neither
kind, and never starts over at the end of the binlog with changes unconfirmed, no row
change is lost.
-/

namespace Ventstream.MySql

open Library
open List hiding after map

/-- A stream resumed at the position leaves out nothing that had not been read. -/
def Mark.Placed (binlog : Binlog) (mark : Mark) : Prop :=
  ∀ index, mark.pos.Passes (binlog.event index) → index < mark.after

/-- The position that a ROTATE event leaves behind: the end of the old file, under the name of
    the new one. -/
def Mark.Skewed (binlog : Binlog) (mark : Mark) : Prop :=
  ∃ last file pos, mark.after = last + 1 ∧ (binlog.event last).data = .rotate file pos ∧
    mark.pos = ⟨file, (binlog.event last).logPos⟩

/-- Neither the position of a ROTATE event nor one between a TABLE_MAP and its rows events. -/
def Mark.Clean (binlog : Binlog) (mark : Mark) : Prop :=
  ¬ mark.Skewed binlog ∧ binlog.Boundary mark.after

/-- The output of the rows event is published and confirmed by the sink. -/
def System.Confirmed (sys : System) (index : Nat) : Prop :=
  index ∈ sys.stored ∨ ∃ session, sys.session = some session ∧ .rows index ∈ session.log.settled

variable (cfg : Config) (binlog : Binlog)

/-- All row changes since the source first started tailing, up to this place, are dealt with. -/
def DealtWith (first : Option Nat) (place : Nat) (dealt : Nat → Prop) : Prop :=
  ∀ start, first = some start → ∀ index, start ≤ index → index < place →
    RowChange cfg binlog index → dealt index

/-- The row changes up to this place are confirmed, or their rows were gone when they were read
    again. -/
def System.Settled (sys : System) (place : Nat) : Prop :=
  DealtWith cfg binlog sys.first place fun index => sys.Confirmed index ∨ index ∈ sys.vanished

/-- The source may start: at a clean cursor, or at the end of the binlog with nothing
    outstanding. -/
def System.Resumable (sys : System) : Prop :=
  (∃ mark, sys.persisted = some mark ∧ mark.Clean binlog) ∨
    sys.persisted = none ∧ sys.Settled cfg binlog sys.written

/-- A stream resumed at the persisted cursor delivers the rows event and the TABLE_MAP that
    decodes it. -/
def System.Ahead (sys : System) (index : Nat) : Prop :=
  ∃ mark map table, sys.persisted = some mark ∧ Maps binlog.event map index table ∧
    ¬ mark.pos.Passes (binlog.event map) ∧ ¬ mark.pos.Passes (binlog.event index)

/-- The systems of any run. -/
inductive Run : System → Prop where
  | new : Run .new
  | step {before after : System} : Run before → Step cfg binlog before after → Run after
  | back {before after : System} : Run before → Return binlog before after → Run after

/-- The systems of a run in which the source only goes back where it may. -/
inductive Reachable : System → Prop where
  | new : Reachable .new
  | step {before after : System} : Reachable before → Step cfg binlog before after → Reachable after
  | back {before after : System} : Reachable before → Return binlog before after →
      (before.session = none → before.Resumable cfg binlog) →
      (before.session ≠ none → ∀ mark, before.cursor.mark = some mark → mark.Clean binlog) →
      Reachable after

/-- The barrier that a position without output of its own rides on. -/
def lastGate (queue : List (Nat × Mark)) : Nat := (queue.getLast?.map Prod.fst).getD 0

variable {cfg binlog}

section

variable (cfg binlog) (past : Nat → Prop) (first : Option Nat) (log : AckLog Entry Entry.ackSeq?)

/-- The row changes up to this place are dealt with once the gate is reached. -/
def Through (place gate : Nat) : Prop :=
  DealtWith cfg binlog first place fun index => past index ∨ log.Behind gate (.rows index)

/-- The row changes up to this place are dealt with or at least published. -/
def Published (place : Nat) : Prop :=
  DealtWith cfg binlog first place fun index => past index ∨ .rows index ∈ log.entries

structure Mark.Good (gate : Nat) (mark : Mark) : Prop where
  placed : mark.Skewed binlog ∨ mark.Placed binlog
  through : Through cfg binlog past first log mark.after gate

structure Pending (queue : List (Nat × Mark)) (write : Option Mark) : Prop where
  queued : ∀ entry ∈ queue, entry.2.Good cfg binlog past first log entry.1
  ready : ∀ mark, write = some mark → mark.Good cfg binlog past first log 0

structure Connection.Covers (base : Nat) (conn : Connection) : Prop where
  filed : conn.file = (binlog.event conn.next).file → conn.pos.file = conn.file
  knows : ∀ map index table tableId, Maps binlog.event map index table →
    (binlog.event map).data = .tableMap tableId table → base ≤ map → map < conn.next →
    conn.next ≤ index → conn.tableMap tableId = some table
  pending : Pending cfg binlog past first log conn.pendingGated conn.pendingWrite
  through : Through cfg binlog past first log conn.next (lastGate conn.pendingGated)

structure Session.Covers (session : Session) : Prop where
  placed : session.resume.Placed binlog
  boundary : binlog.Boundary session.resume.after
  through : Through cfg binlog past first session.log session.resume.after 0
  connected : ∀ conn, session.stage = .tailing conn → first ≠ none ∧
    conn.Covers cfg binlog past first session.log session.resume.after

end

variable {log : AckLog Entry Entry.ackSeq?} {conn : Connection}

section

def System.Past (sys : System) (index : Nat) : Prop :=
  index ∈ sys.stored ∨ index ∈ sys.vanished

structure System.Safe (cfg : Config) (binlog : Binlog) (sys : System) : Prop where
  boundary : binlog.Boundary sys.written
  cursor : ∀ mark, sys.cursor.mark = some mark →
    (mark.Skewed binlog ∨ mark.Placed binlog) ∧ sys.Settled cfg binlog mark.after
  fresh : sys.first = none → ∀ mark session, sys.cursor.mark = some mark →
    sys.session = some session → mark.after ≤ session.resume.after
  session : ∀ session, sys.session = some session → session.Covers cfg binlog sys.Past sys.first

variable {past wider : Nat → Prop} {first : Option Nat} {other : AckLog Entry Entry.ackSeq?}
  {place gate : Nat} {mark : Mark}

theorem DealtWith.mono {dealt known : Nat → Prop} (all : DealtWith cfg binlog first place dealt)
    (implies : ∀ index, dealt index → known index) : DealtWith cfg binlog first place known :=
  fun start isStart index after before change =>
    implies index (all start isStart index after before change)

theorem Through.durable (through : Through cfg binlog past first log place gate)
    (reached : gate ≤ log.progress) : Through cfg binlog past first log place 0 :=
  through.mono fun _ => Or.imp_right fun behind => Or.inl (behind.durable reached)

section

variable (grown : ∀ index, past index → wider index) (continues : log.Continues other)

include grown continues

theorem Through.mono (through : Through cfg binlog past first log place gate)
    (raised : gate ≤ higher) : Through cfg binlog wider first other place higher :=
  DealtWith.mono through fun index =>
    Or.imp (grown index) fun behind => behind.mono raised continues

theorem Mark.Good.mono (good : mark.Good cfg binlog past first log gate) :
    mark.Good cfg binlog wider first other gate where
  placed := good.placed
  through := good.through.mono grown continues le_rfl

theorem Pending.mono (pending : Pending cfg binlog past first log queue write) :
    Pending cfg binlog wider first other queue write where
  queued entry member := (pending.queued entry member).mono grown continues
  ready mark isReady := (pending.ready mark isReady).mono grown continues

theorem Connection.Covers.mono (covers : conn.Covers cfg binlog past first log base) :
    conn.Covers cfg binlog wider first other base where
  filed := covers.filed
  knows := covers.knows
  pending := covers.pending.mono grown continues
  through := covers.through.mono grown continues le_rfl

end

section

variable {queue : List (Nat × Mark)} {write : Option Mark}

theorem Pending.drain (pending : Pending cfg binlog past first log queue write) :
    Pending cfg binlog past first log (drainGates log.progress queue write).2
      (drainGates log.progress queue write).1 where
  queued entry member := pending.queued entry (mem_of_mem_drainGates member)
  ready mark isLatest := by
    rcases drainGates_latest isLatest with old | ⟨gate, reached, queued⟩
    · exact pending.ready mark old
    · have good := pending.queued _ queued
      exact ⟨good.placed, good.through.durable reached⟩

theorem Through.drain (through : Through cfg binlog past first log place (lastGate queue)) :
    Through cfg binlog past first log place
      (lastGate (drainGates log.progress queue write).2) := by
  obtain ⟨front, split, areReached, _⟩ := drainGates_spec log.progress queue write
  cases left : (drainGates log.progress queue write).2 with
  | cons head rest =>
    have same : lastGate queue = lastGate (head :: rest) := by
      rw [split, left, lastGate, lastGate, getLast?_append_cons]
    rw [← same]
    exact through
  | nil =>
    rw [left, append_nil] at split
    refine through.durable ?_
    rw [split]
    cases last : front.getLast? with
    | none => simp [lastGate, last]
    | some entry => simpa [lastGate, last] using areReached entry (mem_of_getLast? last)

theorem lastGate_rideLast (mark : Mark) (queue : List (Nat × Mark)) :
    lastGate (rideLast mark queue) = lastGate queue := by
  induction queue with
  | nil => rfl
  | cons head rest ih =>
    cases rest with
    | nil => rfl
    | cons second others =>
      have grows : rideLast mark (second :: others) ≠ [] := by cases others <;> simp [rideLast]
      obtain ⟨next, more, isMore⟩ := exists_cons_of_ne_nil grows
      rw [isMore] at ih
      rw [rideLast, isMore]
      simpa [lastGate, getLast?_cons_cons] using ih

theorem mem_rideLast
    (mem : entry ∈ rideLast mark queue) : entry ∈ queue ∨ entry = (lastGate queue, mark) := by
  induction queue with
  | nil => cases mem
  | cons head rest ih =>
    cases rest with
    | nil => exact .inr (mem_singleton.mp mem)
    | cons second others =>
      rcases mem_cons.mp mem with isHead | later
      · exact .inl (by simp [isHead])
      · rcases ih later with old | isLast
        · exact .inl (mem_cons_of_mem _ old)
        · exact .inr isLast

end

theorem Published.through (published : Published cfg binlog past first log place) (last : Entry)
    (isNext : last.ackSeq? = some log.next) :
    Through cfg binlog past first (log.pushNext last isNext) place log.next :=
  published.mono fun _ => Or.imp_right (AckLog.behind_pushNext last isNext)

theorem entries_publishOutput {plain} :
    (publishOutput log output plain).entries = log.entries ++ output.toList := by
  cases output with
  | none => simp [publishOutput]
  | some entry => simp [publishOutput]

theorem settled_publishOutput : (publishOutput log output plain).settled = log.settled := by
  cases output with
  | none => rfl
  | some entry => simp [publishOutput]

theorem Binlog.placed_after (binlog : Binlog) (index : Nat) :
    Mark.Placed binlog ⟨⟨(binlog.event index).file, (binlog.event index).logPos⟩, index + 1⟩ := by
  intro later passes
  by_contra beyond
  have isLater : index < later := by
    simp only at beyond
    omega
  have within : (binlog.event index).logPos ≤ (binlog.event index).stop := Nat.mod_le _ _
  rcases passes with earlierFile | ⟨sameFile, earlier⟩
  · rcases binlog.ordered index later isLater with lower | ⟨same, _⟩
    · exact absurd earlierFile (Nat.lt_asymm lower)
    · exact absurd earlierFile (by simp [same])
  · rcases binlog.ordered index later isLater with lower | ⟨_, apart⟩
    · exact absurd sameFile (Nat.ne_of_gt lower)
    · exact absurd earlier (by simp only; omega)

namespace Connection

variable {base : Nat} {found emitted : Bool} {logPos : Nat}

@[simp] theorem record_next :
    (conn.record log emitted logPos).1.next = conn.next + 1 := by
  unfold record
  grind

@[simp] theorem record_file : (conn.record log emitted logPos).1.file = conn.file := by
  unfold record
  grind

@[simp] theorem record_posFile :
    (conn.record log emitted logPos).1.pos.file = conn.pos.file := by
  unfold record
  grind

@[simp] theorem record_tableMap :
    (conn.record log emitted logPos).1.tableMap = conn.tableMap := by
  unfold record
  grind

theorem entries_record : log.entries <+: (conn.record log emitted logPos).2.entries := by
  unfold record
  grind [AckLog.entries_pushNext]

@[simp] theorem settled_record :
    (conn.record log emitted logPos).2.settled = log.settled := by
  unfold record
  grind [AckLog.settled_pushNext]

theorem record_covers (conn : Connection) (emitted : Bool) (logPos : Nat)
    (pending : Pending cfg binlog past first log conn.pendingGated
      conn.pendingWrite) (placed : Mark.Skewed binlog ⟨⟨conn.pos.file, logPos⟩, conn.next + 1⟩ ∨
      Mark.Placed binlog ⟨⟨conn.pos.file, logPos⟩, conn.next + 1⟩)
    (published : Published cfg binlog past first log (conn.next + 1))
    (through : emitted = false ∨ logPos = 0 → Through cfg binlog past first log (conn.next + 1)
        (lastGate conn.pendingGated)) :
    Pending cfg binlog past first (conn.record log emitted logPos).2
        (conn.record log emitted logPos).1.pendingGated
        (conn.record log emitted logPos).1.pendingWrite ∧
      Through cfg binlog past first (conn.record log emitted logPos).2
        (conn.next + 1)
        (lastGate (conn.record log emitted logPos).1.pendingGated) := by
  have drained := pending.drain
  unfold record
  by_cases unplaced : logPos = 0
  · simp only [if_pos unplaced]
    exact ⟨pending, through (.inr unplaced)⟩
  simp only [if_neg unplaced]
  cases emitted with
  | true =>
    have all := published.through (.barrier log.next) (Entry.ackSeq?_barrier _)
    have kept : Pending cfg binlog past first
        (log.pushNext (.barrier log.next) (Entry.ackSeq?_barrier _)) _ _ :=
      drained.mono (fun _ isPast => isPast) ⟨by simp, by simp⟩
    refine ⟨⟨?_, kept.ready⟩, ?_⟩
    · exact forall_mem_append.mpr ⟨kept.queued, forall_mem_singleton.mpr ⟨placed, all⟩⟩
    · simpa [lastGate] using all
  | false =>
    have reached : Through cfg binlog past first log (conn.next + 1)
        (lastGate (drainGates log.progress conn.pendingGated conn.pendingWrite).2) :=
      (through (.inl rfl)).drain
    simp only [Bool.false_eq_true, if_false]
    split
    · rename_i isEmpty
      rw [isEmpty_iff.mp isEmpty] at reached
      refine ⟨⟨by simp, ?_⟩, reached⟩
      intro mark isMark
      cases isMark
      exact ⟨placed, reached⟩
    · refine ⟨⟨?_, drained.ready⟩, ?_⟩
      · intro entry mem
        rcases mem_rideLast mem with old | isLast
        · exact drained.queued entry old
        · rw [isLast]
          exact ⟨placed, reached⟩
      · rw [lastGate_rideLast]
        exact reached

theorem entries_read : log.entries <+: (conn.read cfg binlog log found).2.entries := by
  refine List.IsPrefix.trans ?_ entries_record
  rw [entries_publishOutput]
  exact prefix_append _ _

theorem settled_read : (conn.read cfg binlog log found).2.settled = log.settled := by
  rw [read, settled_record, settled_publishOutput]

@[simp] theorem observe_keeps : (conn.observe cfg data).next = conn.next ∧
    (conn.observe cfg data).file = conn.file ∧
    (conn.observe cfg data).pendingGated = conn.pendingGated ∧
    (conn.observe cfg data).pendingWrite = conn.pendingWrite := by
  unfold observe
  grind

theorem observe_pos (stays : ∀ file pos, data ≠ .rotate file pos) :
    (conn.observe cfg data).pos = conn.pos := by
  unfold observe
  grind

theorem observe_tableMap (known : conn.tableMap tableId = some table)
    (kept : ¬ data.Unmaps tableId table) :
    (conn.observe cfg data).tableMap tableId = some table := by
  cases data with
  | tableMap otherId otherTable =>
    have different : tableId ≠ otherId := fun same => kept same.symm
    simp [observe, Function.update_of_ne different, known]
  | query ddl =>
    cases ddl with
    | none => exact known
    | some statement =>
      have spared : table ∉ statement.tables := kept
      simp only [observe]
      split
      · exact known
      · simp only [known, Option.filter_some, ite_eq_left_iff, Bool.not_eq_true, Bool.not_eq_false']
        intro altered
        simp only [any_eq_true, Bool.and_eq_true, beq_iff_eq] at altered
        obtain ⟨other, isOther, rfl, _⟩ := altered
        exact absurd isOther spared
  | rotate | rows | other => exact known

section

variable (covers : conn.Covers cfg binlog past first log base)

include covers

theorem Covers.placed (inFile : conn.file = (binlog.event conn.next).file) :
    let observed := conn.observe cfg (binlog.event conn.next).data
    let mark : Mark := ⟨⟨observed.pos.file, (binlog.event conn.next).logPos⟩, conn.next + 1⟩
    mark.Skewed binlog ∨ mark.Placed binlog := by
  intro observed mark
  by_cases rotates : ∃ file pos, (binlog.event conn.next).data = .rotate file pos
  · obtain ⟨file, pos, isRotate⟩ := rotates
    refine .inl ⟨conn.next, file, pos, rfl, isRotate, ?_⟩
    simp [mark, observed, isRotate, observe]
  · have stays : observed.pos = conn.pos :=
      observe_pos fun file pos isRotate => rotates ⟨file, pos, isRotate⟩
    right
    have same : observed.pos.file = (binlog.event conn.next).file := by
      rw [stays, covers.filed inFile, inFile]
    simpa [mark, same] using binlog.placed_after conn.next

theorem Covers.filed_read (inFile : conn.file = (binlog.event conn.next).file)
    (stays : conn.file = (binlog.event (conn.next + 1)).file) :
    (conn.observe cfg (binlog.event conn.next).data).pos.file =
      conn.file := by
  rw [observe_pos, covers.filed inFile]
  intro file pos isRotate
  have moves := binlog.rotates conn.next file pos isRotate
  omega

theorem Covers.knows_read (maps : Maps binlog.event map index table)
    (isMap : (binlog.event map).data = .tableMap tableId table) (since : base ≤ map)
    (read : map < conn.next + 1) (unread : conn.next + 1 ≤ index) :
    (conn.observe cfg (binlog.event conn.next).data).tableMap tableId =
      some table := by
  by_cases isNow : map = conn.next
  · rw [← isNow, isMap]
    simp [observe]
  · have earlier : map < conn.next := by omega
    refine observe_tableMap
      (covers.knows map index table tableId maps isMap since earlier (by omega)) ?_
    obtain ⟨otherId, op, isOther, _, _, untouched⟩ := maps
    rw [isMap] at isOther
    cases isOther
    exact untouched conn.next earlier (by omega)

theorem Covers.decodes (boundary : binlog.Boundary base) (since : base ≤ conn.next)
    (change : RowChange cfg binlog conn.next) (readable : (binlog.event conn.next).Readable) :
    conn.processes cfg (binlog.event conn.next).data := by
  obtain ⟨map, table, maps, inScope, keyed⟩ := change
  have isSince := boundary map conn.next table maps since
  obtain ⟨tableId, op, isMap, isRows, earlier, untouched⟩ := maps
  have known := covers.knows map conn.next table tableId
    ⟨tableId, op, isMap, isRows, earlier, untouched⟩ isMap isSince earlier le_rfl
  cases op with
  | none => exact absurd isRows (readable.2 tableId)
  | some op => simp [processes, isRows, known, inScope, keyed]

variable (boundary : binlog.Boundary base) (resumed : Through cfg binlog past first log base 0)
  (grown : ∀ index, past index → wider index)
  (gone : conn.processes cfg (binlog.event conn.next).data = true →
    conn.output cfg found (binlog.event conn.next).data = none →
    wider conn.next)
include boundary resumed grown gone

/-- What happens to the row change at hand: it was dealt with before, its rows are gone, or its
    output is published. -/
theorem Covers.dealt (isStart : first = some start) (after : start ≤ conn.next)
    (change : RowChange cfg binlog conn.next) (readable : (binlog.event conn.next).Readable) :
    (wider conn.next ∨ log.Behind 0 (.rows conn.next)) ∨
      (conn.observe cfg (binlog.event conn.next).data).output cfg found
        (binlog.event conn.next).data = some (.rows conn.next) := by
  by_cases early : conn.next < base
  · exact .inl ((resumed start isStart conn.next after early change).imp_left (grown conn.next))
  have decodes := covers.decodes boundary (Nat.le_of_not_lt early) change readable
  obtain ⟨map, table, ⟨tableId, op, _, isRows, _⟩, _⟩ := change
  rw [isRows] at decodes gone ⊢
  cases op with
  | none => cases decodes
  | some op =>
    change _ ∨ conn.output cfg found (.rows tableId op) = _
    cases isFound : found || op.isDelete with
    | true => exact .inr (by simp [output, decodes, isFound])
    | false => exact .inl (.inl (gone decodes (by simp [output, isFound])))

theorem Covers.read
    (readable : ∀ index, RowChange cfg binlog index → (binlog.event index).Readable)
    (inFile : conn.file = (binlog.event conn.next).file) :
    (conn.read cfg binlog log found).1.Covers cfg binlog wider first
      (conn.read cfg binlog log found).2 base := by
  let observed := conn.observe cfg (binlog.event conn.next).data
  let output := observed.output cfg found (binlog.event conn.next).data
  let published := publishOutput log output fun _ isOutput => output_ackSeq? isOutput
  have continues : log.Continues published :=
    ⟨by simp [published, settled_publishOutput], by simp [published, entries_publishOutput]⟩
  have earlier := covers.through.mono grown continues le_rfl
  have dealt : ∀ start, first = some start → start ≤ conn.next → RowChange cfg binlog conn.next →
      (wider conn.next ∨ log.Behind 0 (.rows conn.next)) ∨ output = some (.rows conn.next) :=
    fun start isStart after change =>
      covers.dealt boundary resumed grown gone isStart after change (readable _ change)
  have all : Published cfg binlog wider first published (conn.next + 1) := by
    intro start isStart index after before change
    by_cases isNow : index = conn.next
    · subst isNow
      rcases dealt start isStart after change with (known | behind) | isOutput
      · exact .inl known
      · exact .inr (continues.entries.subset behind.mem)
      · exact .inr (by simp [published, entries_publishOutput, isOutput])
    · exact (earlier start isStart index after (by omega) change).imp_right AckLog.Behind.mem
  have through : output.isSome = false ∨ (binlog.event conn.next).logPos = 0 →
      Through cfg binlog wider first published (conn.next + 1)
        (lastGate conn.pendingGated) := by
    intro quiet start isStart index after before change
    by_cases isNow : index = conn.next
    · subst isNow
      rcases dealt start isStart after change with (known | behind) | isOutput
      · exact .inl known
      · exact .inr (behind.mono (Nat.zero_le _) continues)
      · rcases quiet with silent | unplaced
        · simp [isOutput] at silent
        · exact absurd unplaced (readable _ change).1
    · exact earlier start isStart index after (by omega) change
  have recorded := record_covers observed output.isSome
    (binlog.event conn.next).logPos
    (by simpa [observed] using covers.pending.mono grown continues)
    (by simpa [observed] using covers.placed inFile) (by simpa [observed] using all)
    (by simpa [observed] using through)
  refine ⟨?_, ?_, recorded.1, ?_⟩
  · intro stays
    simp only [Connection.read, record_file, record_next,
      record_posFile, observe_keeps] at stays ⊢
    exact covers.filed_read inFile stays
  · intro map index table tableId maps isMap since read unread
    simp only [Connection.read, record_next, record_tableMap,
      observe_keeps] at read unread ⊢
    exact covers.knows_read maps isMap since read unread
  · simp only [Connection.read, record_next]
    exact recorded.2

end

end Connection

end

section

variable {sys : System} {session : Session}

theorem mem_durableRows :
    index ∈ System.durableRows session ↔ .rows index ∈ session.log.settled := by
  simp only [System.durableRows, mem_filterMap]
  constructor
  · rintro ⟨entry, mem, isRows⟩
    cases entry with
    | rows other =>
      cases isRows
      exact mem
    | scanned | truncated | barrier => cases isRows
  · intro mem
    exact ⟨_, mem, rfl⟩

section

variable (settled : sys.Settled cfg binlog place)

include settled

theorem System.Settled.mono {other : System} (sameFirst : other.first = sys.first)
    (confirms : ∀ index, sys.Confirmed index → other.Confirmed index)
    (vanishes : ∀ index ∈ sys.vanished, index ∈ other.vanished) :
    other.Settled cfg binlog place := by
  unfold System.Settled
  rw [sameFirst]
  exact DealtWith.mono settled fun index => Or.imp (confirms index) (vanishes index)

theorem System.Settled.through (idle : sys.session = none) (log : AckLog Entry Entry.ackSeq?)
    (gate : Nat) : Through cfg binlog sys.Past sys.first log place gate := by
  refine DealtWith.mono settled ?_
  rintro index ((stored | ⟨_, running, _⟩) | vanished)
  · exact .inl (.inl stored)
  · simp [idle] at running
  · exact .inl (.inr vanished)

theorem System.Settled.running (running : sys.session = some session) :
    Through cfg binlog sys.Past sys.first session.log place 0 := by
  refine DealtWith.mono settled ?_
  rintro index ((stored | ⟨own, same, durable⟩) | gone)
  · exact .inl (.inl stored)
  · rw [running] at same
    cases same
    exact .inr (.inl durable)
  · exact .inl (.inr gone)

end

theorem Through.settled (running : sys.session = some session)
    (through : Through cfg binlog sys.Past sys.first session.log place 0) :
    sys.Settled cfg binlog place := by
  refine DealtWith.mono through ?_
  rintro index ((stored | gone) | behind)
  · exact .inl (.inl stored)
  · exact .inr gone
  · exact .inl (.inr ⟨session, running, behind.durable (Nat.zero_le _)⟩)

variable {other : Session} {changed : System}

theorem System.Confirmed.of_log (confirmed : sys.Confirmed index)
    (running : sys.session = some session) (sameStored : changed.stored = sys.stored)
    (isOther : changed.session = some other) (continues : session.log.Continues other.log) :
    changed.Confirmed index := by
  rcases confirmed with stored | ⟨own, same, durable⟩
  · exact .inl (sameStored ▸ stored)
  · rw [running] at same
    cases same
    exact .inr ⟨other, isOther, continues.settled _ durable⟩

/-- A running session goes on: a new cursor is one whose changes it has dealt with. -/
theorem System.Safe.advance (safe : sys.Safe cfg binlog) (running : sys.session = some session)
    {cursor vanished stage} (vanishes : ∀ index ∈ sys.vanished, index ∈ vanished)
    (continues : session.log.Continues log)
    (marks : ∀ mark, cursor.mark = some mark → sys.cursor.mark = some mark ∨
      ((mark.Skewed binlog ∨ mark.Placed binlog) ∧
        Through cfg binlog sys.Past sys.first session.log mark.after 0 ∧
        (sys.first = none → mark.after ≤ session.resume.after)))
    (connected : ∀ conn, stage = .tailing conn → sys.first ≠ none ∧
      conn.Covers cfg binlog (fun index => index ∈ sys.stored ∨ index ∈ vanished)
        sys.first log session.resume.after) :
    System.Safe cfg binlog { sys with
      cursor := cursor
      vanished := vanished
      session := some { session with log := log, stage := stage } } where
  boundary := safe.boundary
  cursor mark isMark := by
    rcases marks mark isMark with old | ⟨placed, through, _⟩
    · obtain ⟨placed, settled⟩ := safe.cursor mark old
      refine ⟨placed, settled.mono rfl (fun index confirmed => ?_) vanishes⟩
      exact confirmed.of_log running rfl rfl continues
    · refine ⟨placed, (through.settled running).mono rfl (fun index confirmed => ?_) vanishes⟩
      exact confirmed.of_log running rfl rfl continues
  fresh unset mark own isMark isOwn := by
    cases isOwn
    rcases marks mark isMark with old | ⟨_, _, within⟩
    · exact safe.fresh unset mark session old running
    · exact within unset
  session own isOwn := by
    cases isOwn
    have covers := safe.session session running
    refine ⟨covers.placed, covers.boundary, ?_, connected⟩
    exact covers.through.mono (fun index isPast => isPast.imp_right (vanishes index)) continues
      le_rfl

/-- The log alone goes on. -/
theorem System.Safe.continue (safe : sys.Safe cfg binlog) (running : sys.session = some session)
    (continues : session.log.Continues log) :
    System.Safe cfg binlog { sys with session := some { session with log := log } } := by
  refine safe.advance running (fun _ mem => mem) continues (fun _ => Or.inl) fun conn tails => ?_
  obtain ⟨set, covers⟩ := (safe.session session running).connected conn tails
  exact ⟨set, covers.mono (fun _ isPast => isPast) continues⟩

theorem System.Safe.write (safe : sys.Safe cfg binlog) {written}
    (boundary : binlog.Boundary written) :
    System.Safe cfg binlog { sys with written := written } where
  boundary := boundary
  cursor := safe.cursor
  fresh := safe.fresh
  session := safe.session

section

variable (safe : sys.Safe cfg binlog) (running : sys.session = some session)

include safe running

theorem System.Safe.connect (resumes : binlog.Resumes session.resume.pos place) :
    (sys.connect session place).Safe cfg binlog := by
  have covers := safe.session session running
  have within : place ≤ session.resume.after := by
    by_contra beyond
    have passes := (resumes session.resume.after).mp (Nat.lt_of_not_le beyond)
    exact Nat.lt_irrefl _ (covers.placed _ passes)
  -- Before the first connection nothing is owed, and afterwards the first place stays.
  have since : ∀ start, (sys.connect session place).first = some start →
      sys.first = some start ∨ sys.first = none ∧ start = session.resume.after := by
    intro start isStart
    cases known : sys.first with
    | some other => exact .inl (by simpa [System.connect, known] using isStart)
    | none => exact .inr ⟨rfl, by simpa [System.connect, known, eq_comm] using isStart⟩
  have through : Through cfg binlog sys.Past (sys.connect session place).first session.log
      session.resume.after 0 := by
    intro start isStart index after before change
    rcases since start isStart with old | ⟨_, isNew⟩
    · exact covers.through start old index after before change
    · omega
  refine ⟨safe.boundary, ?_, ?_, ?_⟩
  · intro mark isMark
    obtain ⟨placed, settled⟩ := safe.cursor mark isMark
    refine ⟨placed, fun start isStart index after before change => ?_⟩
    rcases since start isStart with old | ⟨unset, isNew⟩
    · refine (settled start old index after before change).imp_left fun confirmed => ?_
      exact confirmed.of_log running rfl rfl AckLog.continues_refl
    · have bound := safe.fresh unset mark session isMark running
      omega
  · intro unset
    cases known : sys.first <;> simp [System.connect, known] at unset
  · intro own isOwn
    cases isOwn
    refine ⟨covers.placed, covers.boundary, through, ?_⟩
    intro conn isConnection
    cases isConnection
    refine ⟨by simp [System.connect], fun _ => rfl, ?_, ⟨by simp, by simp⟩, ?_⟩
    · intro map index table tableId _ _ base before _
      have beyond : map < place := before
      exact absurd (lt_of_lt_of_le beyond within) (Nat.not_lt_of_le base)
    · intro start isStart index after before change
      exact through start isStart index after (lt_of_lt_of_le before within) change

theorem System.Safe.drop (clean : ∀ mark, sys.cursor.mark = some mark → mark.Clean binlog)
    (tails : session.stage = .tailing conn) : (sys.drop session).Safe cfg binlog := by
  have covers := safe.session session running
  have set := (covers.connected conn tails).1
  refine ⟨safe.boundary, ?_, fun unset => absurd unset set, ?_⟩
  · intro mark isMark
    obtain ⟨placed, settled⟩ := safe.cursor mark isMark
    refine ⟨placed, settled.mono rfl ?_ (fun _ mem => mem)⟩
    exact fun index confirmed => confirmed.of_log running rfl rfl AckLog.continues_refl
  · intro own isOwn
    cases isOwn
    cases isMark : sys.cursor.mark with
    | none =>
      refine ⟨covers.placed, covers.boundary, covers.through, ?_⟩
      rintro _ ⟨⟩
    | some mark =>
      obtain ⟨placed, settled⟩ := safe.cursor mark isMark
      obtain ⟨straight, boundary⟩ := clean mark isMark
      have through := settled.running running
      refine ⟨placed.resolve_left straight, boundary, through, ?_⟩
      rintro _ ⟨⟩

theorem System.Safe.stop : (sys.stop session).Safe cfg binlog where
  boundary := safe.boundary
  cursor mark isMark := by
    obtain ⟨placed, settled⟩ := safe.cursor mark isMark
    refine ⟨placed, settled.mono rfl ?_ (fun _ mem => mem)⟩
    rintro index (stored | ⟨own, same, durable⟩)
    · exact .inl (mem_append_left _ stored)
    · rw [running] at same
      cases same
      exact .inl (mem_append_right _ (mem_durableRows.mpr durable))
  fresh _ _ _ _ isSession := by cases isSession
  session _ isSession := by cases isSession

end

theorem System.mark_of_persisted (isPersisted : sys.persisted = some mark) :
    sys.cursor.mark = some mark := by
  unfold System.persisted at isPersisted
  split at isPersisted
  · cases isPersisted
  · exact isPersisted

theorem System.Safe.begin (safe : sys.Safe cfg binlog) (idle : sys.session = none) {mark : Mark}
    (placed : mark.Placed binlog) (boundary : binlog.Boundary mark.after)
    (settled : sys.Settled cfg binlog mark.after) {cursor : CursorFile} {stage}
    (isCursor : cursor.mark = some mark ∨ cursor.mark = none)
    (early : ∀ conn, stage ≠ .tailing conn) :
    System.Safe cfg binlog
      { sys with cursor := cursor, session := some ⟨mark, .new, stage⟩ } where
  boundary := safe.boundary
  cursor own isOwn := by
    rcases isCursor with same | gone
    · have isMark : mark = own := Option.some.inj (same.symm.trans isOwn)
      subst isMark
      refine ⟨.inr placed, settled.mono rfl ?_ (fun _ mem => mem)⟩
      rintro index (stored | ⟨_, running, _⟩)
      · exact .inl stored
      · simp [idle] at running
    · simp [gone] at isOwn
  fresh _ own session isOwn isSession := by
    cases isSession
    rcases isCursor with same | gone
    · rw [Option.some.inj (same.symm.trans isOwn)]
    · simp [gone] at isOwn
  session own isOwn := by
    cases isOwn
    exact ⟨placed, boundary, settled.through idle _ _, fun conn tails =>
      absurd tails (early conn)⟩

theorem System.Safe.start (safe : sys.Safe cfg binlog) (idle : sys.session = none)
    (resumable : sys.Resumable cfg binlog) {bootstrap forceSnapshot master}
    (resumes : binlog.Resumes master sys.written) {started : System}
    (starts : sys.start bootstrap forceSnapshot master = some started) :
    started.Safe cfg binlog := by
  unfold System.start at starts
  cases isPersisted : sys.persisted with
  | some mark =>
    have clean : mark.Clean binlog := by
      rcases resumable with ⟨other, isOther, clean⟩ | ⟨unset, _⟩
      · exact Option.some.inj (isOther.symm.trans isPersisted) ▸ clean
      · simp [isPersisted] at unset
    obtain ⟨placed, settled⟩ := safe.cursor mark (System.mark_of_persisted isPersisted)
    have straight := placed.resolve_left clean.1
    simp only [isPersisted] at starts
    split at starts
    · cases starts
      exact safe.begin idle straight clean.2 settled (.inl rfl) (by simp)
    · cases starts
      exact safe.begin idle straight clean.2 settled (.inl rfl) (by simp)
  | none =>
    have settled : sys.Settled cfg binlog sys.written := by
      rcases resumable with ⟨other, isOther, _⟩ | ⟨_, settled⟩
      · simp [isPersisted] at isOther
      · exact settled
    have placed : Mark.Placed binlog ⟨master, sys.written⟩ :=
      fun index passes => (resumes index).mpr passes
    simp only [isPersisted] at starts
    split at starts
    · cases starts
    · split at starts
      · cases starts
        exact safe.begin idle placed safe.boundary settled (.inr rfl) (by simp)
      · cases starts
        exact safe.begin idle placed safe.boundary settled (.inr rfl) (by simp)

theorem Connection.Covers.flush (covers : conn.Covers cfg binlog past first log base) :
    (flushConfirmedPositions cursor log.progress conn).2.Covers cfg binlog past first log base where
  filed := covers.filed
  knows := covers.knows
  pending := ⟨covers.pending.drain.queued, by simp [flushConfirmedPositions]⟩
  through := covers.through.drain

theorem System.Safe.step (safe : sys.Safe cfg binlog)
    (readable : ∀ index, RowChange cfg binlog index → (binlog.event index).Readable)
    {after : System} (step : Step cfg binlog sys after) : after.Safe cfg binlog := by
  cases step with
  | write written _ boundary => exact safe.write boundary
  | stop session running => exact safe.stop running
  | connect session place running _ resumes => exact safe.connect running resumes
  | scan session running scans => exact safe.continue running ⟨by simp, by simp⟩
  | scanned session running _ =>
    refine safe.advance running (fun _ mem => mem) ⟨by simp, by simp⟩ (fun _ => Or.inl) ?_
    rintro conn ⟨⟩
  | writeCursor session ackSeq running _ _ =>
    have covers := safe.session session running
    refine safe.advance running (fun _ mem => mem) AckLog.continues_refl ?_ ?_
    · rintro mark ⟨⟩
      exact .inr ⟨.inr covers.placed, covers.through, fun _ => le_rfl⟩
    · rintro conn ⟨⟩
  | clearIncomplete session running _ =>
    refine safe.advance running (fun _ mem => mem) AckLog.continues_refl (fun _ => Or.inl) ?_
    rintro conn ⟨⟩
  | read session conn found running tails _ inFile =>
    have session_ := safe.session session running
    obtain ⟨set, covers⟩ := session_.connected conn tails
    have vanishes : ∀ index ∈ sys.vanished,
        index ∈ (sys.read cfg binlog session conn found).vanished := by
      intro index mem
      simp only [System.read]
      split
      · exact mem_append_left _ mem
      · exact mem
    refine safe.advance running vanishes ⟨?_, Connection.entries_read⟩ (fun _ => Or.inl) ?_
    · rw [Connection.settled_read]
      exact fun _ mem => mem
    · rintro _ ⟨⟩
      refine ⟨set, covers.read session_.boundary session_.through ?_ ?_ readable inFile⟩
      · exact fun index isPast => isPast.imp_right (vanishes index)
      · intro processes gone
        exact .inr (by simp [processes, gone])
  | switchFile session conn running tails _ _ =>
    obtain ⟨set, covers⟩ := (safe.session session running).connected conn tails
    refine safe.advance running (fun _ mem => mem) AckLog.continues_refl (fun _ => Or.inl) ?_
    rintro _ ⟨⟩
    exact ⟨set, fun _ => rfl, covers.knows, covers.pending, covers.through⟩
  | flush session conn running tails =>
    obtain ⟨set, covers⟩ := (safe.session session running).connected conn tails
    refine safe.advance running (fun _ mem => mem) AckLog.continues_refl ?_ ?_
    · intro mark isMark
      simp only [flushConfirmedPositions, Option.or_eq_some_iff] at isMark
      rcases isMark with isLatest | ⟨_, old⟩
      · have good := covers.pending.drain.ready mark isLatest
        exact .inr ⟨good.placed, good.through, fun unset => absurd unset set⟩
      · exact .inl old
    · rintro _ ⟨⟩
      exact ⟨set, covers.flush⟩
  | durable session count within grows running =>
    exact safe.continue running
      ⟨fun _ mem => (AckLog.settled_settle within grows).subset mem, prefix_refl _⟩
  | confirm session ackSeq isDurable running =>
    exact safe.continue running ⟨fun _ mem => mem, prefix_refl _⟩

theorem System.safe_new : System.new.Safe cfg binlog where
  boundary _ _ _ _ _ := Nat.zero_le _
  cursor mark isMark := by cases isMark
  fresh _ mark session isMark := by cases isMark
  session session isSession := by cases isSession

theorem Reachable.safe (reachable : Reachable cfg binlog sys)
    (readable : ∀ index, RowChange cfg binlog index → (binlog.event index).Readable) :
    sys.Safe cfg binlog := by
  induction reachable with
  | new => exact System.safe_new
  | step _ step ih => exact ih.step readable step
  | back _ moved mayStart mayDrop ih =>
    cases moved with
    | start started bootstrap forceSnapshot master idle resumes starts =>
      exact ih.start idle (mayStart idle) resumes starts
    | drop session conn running tails =>
      exact ih.drop running (mayDrop (by simp [running])) tails

end

def orders : TableName := ⟨"shop", "orders"⟩

def shopConfig : Config := ⟨"shop", [], false, fun _ => true⟩

/-- A statement on one table at the second and third event of a file, whose events all have
    the same length. -/
def orderEvent (index : Nat) : BinlogEvent where
  file := 1
  start := 4 + 50 * index
  stop := 54 + 50 * index
  data :=
    match index with
    | 1 => .tableMap 7 orders
    | 2 => .rows 7 (some .insert)
    | _ => .other

theorem orderEvent_rows
    (isRows : (orderEvent index).data = .rows tableId op) : index = 2 ∧ tableId = 7 := by
  unfold orderEvent at isRows
  grind

theorem orderEvent_maps (maps : Maps orderEvent map index table) : map = 1 ∧ index = 2 := by
  obtain ⟨tableId, op, isMap, isRows, _⟩ := maps
  obtain ⟨isIndex, _⟩ := orderEvent_rows isRows
  refine ⟨?_, isIndex⟩
  unfold orderEvent at isMap
  grind

theorem maps_order : Maps orderEvent 1 2 orders :=
  ⟨7, some .insert, rfl, rfl, by decide, fun between after before => by omega⟩

def orderLog : Binlog where
  event := orderEvent
  nonempty index := by simp [orderEvent]
  headed index := by simp [orderEvent, firstOffset]
  ordered index later isLater := Or.inr ⟨rfl, by simp only [orderEvent]; omega⟩
  rotates index file pos isRotate := by
    unfold orderEvent at isRotate
    grind

theorem resumes_orderLog (place : Nat) : orderLog.Resumes ⟨1, 4 + 50 * place⟩ place := by
  intro index
  simp [BinlogPos.Passes, orderLog, orderEvent]

theorem boundary_orderLog (outside : place ≠ 2) : orderLog.Boundary place := by
  intro map index table maps within
  obtain ⟨isMap, isIndex⟩ := orderEvent_maps maps
  omega

theorem rowChange_order : RowChange shopConfig orderLog 2 :=
  ⟨1, orders, maps_order, by decide, by decide⟩

theorem readable_orderLog :
    ∀ index, RowChange shopConfig orderLog index → (orderLog.event index).Readable := by
  rintro index ⟨map, table, maps, _⟩
  rw [(orderEvent_maps maps).2]
  exact ⟨by decide, nofun⟩

end Ventstream.MySql
