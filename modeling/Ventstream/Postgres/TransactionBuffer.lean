import Mathlib

/-! # The buffer of a transaction's WAL records

The records of a transaction wait in memory, and from the first that exceeds the limit in a
spool file, until the commit arrives. Then they are read back. Counts are natural numbers: a file
has no room for `2 ^ 64` records of sixteen bytes and more. The file returns what was written.
-/

namespace Ventstream.Postgres.Spool

def saturatingAdd (left right : Nat) : Nat := min (left + right) (2 ^ 64 - 1)

structure WalRecord where
  walStart : UInt64
  data : List UInt8
  addressable : data.length < 2 ^ 64

/-- The `width` bytes of a number, the lowest first. -/
def toLeBytes : (width number : Nat) → List UInt8
  | 0, _ => []
  | width + 1, number => UInt8.ofNat (number % 256) :: toLeBytes width (number / 256)

def fromLeBytes : List UInt8 → Nat
  | [] => 0
  | byte :: rest => byte.toNat + 256 * fromLeBytes rest

def writeWalRecord (record : WalRecord) : List UInt8 :=
  toLeBytes 8 record.walStart.toNat ++ toLeBytes 8 record.data.length ++ record.data

/-- The next `count` bytes of a file and what follows them. -/
def readExact (count : Nat) (file : List UInt8) : Except String (List UInt8 × List UInt8) :=
  if count ≤ file.length then .ok (file.take count, file.drop count)
  else .error "failed to fill whole buffer"

def readWalRecord (file : List UInt8) : Except String (WalRecord × List UInt8) := do
  let (walStart, file) ← readExact 8 file
  let (length, file) ← readExact 8 file
  let (data, file) ← readExact (fromLeBytes length) file
  if addressable : data.length < 2 ^ 64 then
    pure (⟨UInt64.ofNat (fromLeBytes walStart), data, addressable⟩, file)
  else throw "spooled WAL record length exceeds this platform"

@[simp] theorem length_toLeBytes : (toLeBytes width number).length = width := by
  induction width generalizing number with
  | zero => rfl
  | succ width ih => rw [toLeBytes, List.length_cons, ih]

theorem fromLeBytes_toLeBytes : fromLeBytes (toLeBytes width number) = number % 256 ^ width := by
  induction width generalizing number with
  | zero => simp [toLeBytes, fromLeBytes, Nat.mod_one]
  | succ width ih =>
    rw [toLeBytes, fromLeBytes, ih, Nat.pow_succ', Nat.mod_mul]
    simp

theorem readExact_append (isLength : front.length = count) :
    readExact count (front ++ rest) = .ok (front, rest) := by
  subst isLength
  simp [readExact]

/-- A record is read back as it was written, whatever follows it. -/
theorem readWalRecord_write (record : WalRecord) :
    readWalRecord (writeWalRecord record ++ rest) = .ok (record, rest) := by
  have isLength : fromLeBytes (toLeBytes 8 record.data.length) = record.data.length := by
    rw [fromLeBytes_toLeBytes]
    exact Nat.mod_eq_of_lt record.addressable
  have isStart : fromLeBytes (toLeBytes 8 record.walStart.toNat) = record.walStart.toNat := by
    rw [fromLeBytes_toLeBytes]
    exact Nat.mod_eq_of_lt record.walStart.toNat_lt
  simp only [readWalRecord, writeWalRecord, List.append_assoc, bind, Except.bind,
    readExact_append length_toLeBytes, isLength, readExact_append rfl, isStart]
  rw [dif_pos record.addressable, UInt64.ofNat_toNat]
  rfl

inductive SpoolIo where
  | writing (file : List UInt8)
  | reading (file : List UInt8)
  /-- While the writer is being turned into the reader. -/
  | switching

inductive TransactionStorage where
  | memory (records : List WalRecord) (bytes : Nat)
  | disk (io : SpoolIo) (remaining : Nat)

structure TransactionBuffer where
  storage : TransactionStorage
  memoryLimit : Nat

namespace TransactionBuffer

def new (memoryLimit : Nat) : TransactionBuffer := ⟨.memory [] 0, memoryLimit⟩

/-- The records in memory and the one that does not fit are written to a new spool file. -/
def spillToDisk (buffer : TransactionBuffer) (records : List WalRecord) (next : WalRecord) :
    TransactionBuffer :=
  { buffer with
    storage := .disk (.writing (records.flatMap writeWalRecord ++ writeWalRecord next))
      (records.length + 1) }

def push (buffer : TransactionBuffer) (record : WalRecord) : Except String TransactionBuffer :=
  let recordBytes := saturatingAdd record.data.length 16
  match buffer.storage with
  | .memory records bytes =>
    if saturatingAdd bytes recordBytes ≤ buffer.memoryLimit then
      .ok { buffer with
        storage := .memory (records ++ [record]) (saturatingAdd bytes recordBytes) }
    else .ok (buffer.spillToDisk records record)
  | .disk (.writing file) remaining =>
    .ok { buffer with storage := .disk (.writing (file ++ writeWalRecord record)) (remaining + 1) }
  | .disk _ _ => .error "transaction spool is already being replayed"

/-- At the first read the file is flushed and rewound. -/
def rewind : SpoolIo → SpoolIo
  | .writing file => .reading file
  | io => io

def nextRecord (buffer : TransactionBuffer) :
    Except String (Option WalRecord × TransactionBuffer) :=
  match buffer.storage with
  | .memory records bytes =>
    .ok (records.head?, { buffer with storage := .memory records.tail bytes })
  | .disk io remaining =>
    if remaining = 0 then .ok (none, { buffer with storage := .disk (rewind io) remaining })
    else match rewind io with
      | .reading file => do
        let (record, rest) ← readWalRecord file
        pure (some record, { buffer with storage := .disk (.reading rest) (remaining - 1) })
      | _ => .error "transaction spool is not readable"

/-- What the given number of reads returns. -/
def nextRecords : Nat → TransactionBuffer → Except String (List (Option WalRecord))
  | 0, _ => .ok []
  | count + 1, buffer => do
    let (record, buffer) ← buffer.nextRecord
    let records ← nextRecords count buffer
    pure (record :: records)

/-- The queue of records a buffer stands for. -/
def Holds (buffer : TransactionBuffer) (queue : List WalRecord) : Prop :=
  match buffer.storage with
  | .memory records _ => records = queue
  | .disk (.writing file) remaining | .disk (.reading file) remaining =>
    file = queue.flatMap writeWalRecord ∧ remaining = queue.length
  | .disk .switching _ => False

/-- Nothing has been read back from the spool file. -/
def Filling (buffer : TransactionBuffer) : Prop :=
  ∀ io remaining, buffer.storage = .disk io remaining → ∃ file, io = .writing file

variable {buffer : TransactionBuffer} {queue : List WalRecord}

section

variable (holds : buffer.Holds queue)

include holds

theorem push_appends (filling : buffer.Filling) (record : WalRecord) :
    ∃ later, buffer.push record = .ok later ∧ later.Holds (queue ++ [record]) ∧ later.Filling := by
  obtain ⟨storage, limit⟩ := buffer
  cases storage with
  | memory records bytes =>
    obtain rfl : records = queue := holds
    dsimp only [push]
    split
    · exact ⟨_, rfl, rfl, nofun⟩
    · refine ⟨_, rfl, ⟨by simp, by simp⟩, ?_⟩
      rintro io remaining ⟨rfl, -⟩
      exact ⟨_, rfl⟩
  | disk io remaining =>
    obtain ⟨file, rfl⟩ := filling io remaining rfl
    obtain ⟨rfl, rfl⟩ := holds
    refine ⟨_, rfl, ⟨by simp, by simp⟩, ?_⟩
    rintro io remaining ⟨rfl, -⟩
    exact ⟨_, rfl⟩

theorem pushes_hold (filling : buffer.Filling) (records : List WalRecord) :
    ∃ later, records.foldlM push buffer = .ok later ∧ later.Holds (queue ++ records) := by
  induction records generalizing buffer queue with
  | nil => exact ⟨buffer, rfl, by simpa using holds⟩
  | cons record rest ih =>
    obtain ⟨next, pushed, nextHolds, nextFilling⟩ := push_appends holds filling record
    obtain ⟨later, ran, laterHolds⟩ := ih nextHolds nextFilling
    refine ⟨later, ?_, by simpa using laterHolds⟩
    rw [List.foldlM_cons, pushed]
    exact ran

/-- A spool that stands for the queue is one record further after a read. -/
theorem nextRecord_pops :
    ∃ later, buffer.nextRecord = .ok (queue.head?, later) ∧ later.Holds queue.tail := by
  obtain ⟨storage, limit⟩ := buffer
  cases storage with
  | memory records bytes =>
    obtain rfl : records = queue := holds
    exact ⟨_, rfl, rfl⟩
  | disk io remaining =>
    have readable : ∃ file, rewind io = .reading file ∧ file = queue.flatMap writeWalRecord ∧
        remaining = queue.length := by
      cases io with
      | writing file | reading file => exact ⟨file, rfl, holds⟩
      | switching => exact holds.elim
    obtain ⟨file, rewound, rfl, rfl⟩ := readable
    cases queue with
    | nil => exact ⟨⟨.disk (.reading []) 0, limit⟩, by simp [nextRecord, rewound], rfl, rfl⟩
    | cons record rest =>
      refine ⟨⟨.disk (.reading (rest.flatMap writeWalRecord)) rest.length, limit⟩, ?_, rfl, rfl⟩
      simp only [nextRecord, rewound, List.flatMap_cons, readWalRecord_write]
      rfl

theorem nextRecords_eq (extra : Nat) : nextRecords (queue.length + extra) buffer =
      .ok (queue.map some ++ List.replicate extra none) := by
  induction queue generalizing buffer with
  | nil =>
    induction extra generalizing buffer with
    | zero => rfl
    | succ extra ih =>
      obtain ⟨later, ran, laterHolds⟩ := nextRecord_pops holds
      have rest := ih laterHolds
      rw [List.length_nil, Nat.zero_add] at rest ⊢
      rw [nextRecords, ran]
      simp only [bind, Except.bind, rest]
      rfl
  | cons record queue ih =>
    obtain ⟨later, ran, laterHolds⟩ := nextRecord_pops holds
    rw [List.length_cons, Nat.add_right_comm, nextRecords, ran]
    simp only [bind, Except.bind, ih laterHolds]
    rfl

end

/-- Whatever the limit, the pushed records come back in order, each once, and then nothing. -/
theorem transaction_buffer_fifo (memoryLimit : Nat) (records : List WalRecord) :
    ∃ buffer, records.foldlM push (new memoryLimit) = .ok buffer ∧
      ∀ extra, nextRecords (records.length + extra) buffer =
        .ok (records.map some ++ List.replicate extra none) := by
  obtain ⟨buffer, ran, holds⟩ := @pushes_hold (new memoryLimit) [] rfl nofun records
  exact ⟨buffer, ran, nextRecords_eq holds⟩

end TransactionBuffer

end Ventstream.Postgres.Spool
