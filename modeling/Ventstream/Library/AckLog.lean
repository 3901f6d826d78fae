import Ventstream.Library.DurableLog

/-! # Acknowledged logs

Some entries of a log carry a sequence number, rising along the log. The reader of
the log makes a front of it durable and reports numbers of durable entries, so that
everything up to an entry whose number has been reached is durable. Cursors wait in
a queue, each behind the number of the last entry that must be durable before it.
-/

namespace Ventstream.Library

universe u v

/-- A log of which the numbered entries are acknowledged. `next` is the next free number and
    `progress` the highest one reported. -/
structure AckLog (α : Type u) (number : α → Option Nat) where
  log : DurableLog α
  next : Nat
  progress : Nat
  increasing : (log.entries.filterMap number).Pairwise (· < ·)
  below : ∀ used ∈ log.entries.filterMap number, 0 < used ∧ used < next
  positive : 0 < next
  reported : progress = 0 ∨ progress ∈ log.settled.filterMap number

namespace AckLog

variable {α : Type u} {number : α → Option Nat} (acked : AckLog α number)

def entries : List α := acked.log.entries

def settled : List α := acked.log.settled

def new : AckLog α number where
  log := .empty
  next := 1
  progress := 0
  increasing := List.Pairwise.nil
  below _ used := by cases used
  positive := Nat.one_pos
  reported := Or.inl rfl

def push (entry : α) (plain : number entry = none) : AckLog α number :=
  { acked with
    log := acked.log.push entry
    increasing := by
      have increasing := acked.increasing
      simpa [List.filterMap_append, plain] using increasing
    below := by
      intro used member
      rw [DurableLog.entries_push, List.filterMap_append] at member
      exact acked.below used (by simpa [plain] using member)
    reported := by
      rw [DurableLog.settled_push]
      exact acked.reported }

def pushNext (entry : α) (isNext : number entry = some acked.next) : AckLog α number where
  log := acked.log.push entry
  next := acked.next + 1
  progress := acked.progress
  increasing := by
    rw [DurableLog.entries_push, List.filterMap_append, List.pairwise_append]
    refine ⟨acked.increasing, by simp [isNext], fun used member last isLast => ?_⟩
    have same : last = acked.next := by simpa [isNext, eq_comm] using isLast
    rw [same]
    exact (acked.below used member).2
  below used member := by
    rw [DurableLog.entries_push, List.filterMap_append, List.mem_append] at member
    rcases member with earlier | last
    · exact ⟨(acked.below used earlier).1, Nat.lt_succ_of_lt (acked.below used earlier).2⟩
    · have same : used = acked.next := by simpa [isNext, eq_comm] using last
      rw [same]
      exact ⟨acked.positive, Nat.lt_succ_self _⟩
  positive := Nat.succ_pos _
  reported := by
    rw [DurableLog.settled_push]
    exact acked.reported

def skip : AckLog α number :=
  { acked with
    next := acked.next + 1
    below := fun used member =>
      ⟨(acked.below used member).1, Nat.lt_succ_of_lt (acked.below used member).2⟩
    positive := Nat.succ_pos _ }

def settle (count : Nat) (within : count ≤ acked.entries.length)
    (grows : acked.log.durableCount ≤ count) : AckLog α number :=
  { acked with
    log := acked.log.settle count within
    reported := acked.reported.imp_right fun member =>
      ((acked.log.settled_prefix_settle within grows).sublist.filterMap number).subset member }

def confirm (used : Nat) (durable : used ∈ acked.settled.filterMap number) : AckLog α number :=
  { acked with
    progress := max acked.progress used
    reported := by
      rcases Nat.le_total acked.progress used with lower | higher
      · rw [Nat.max_eq_right lower]
        exact Or.inr durable
      · rw [Nat.max_eq_left higher]
        exact acked.reported }

section

variable (entry : α) (plain : number entry = none) (isNext : number entry = some acked.next)

@[simp] theorem entries_push : (acked.push entry plain).entries = acked.entries ++ [entry] := rfl

@[simp] theorem entries_pushNext :
    (acked.pushNext entry isNext).entries = acked.entries ++ [entry] := rfl

@[simp] theorem settled_push : (acked.push entry plain).settled = acked.settled :=
  acked.log.settled_push entry

@[simp] theorem settled_pushNext : (acked.pushNext entry isNext).settled = acked.settled :=
  acked.log.settled_push entry

@[simp] theorem next_push : (acked.push entry plain).next = acked.next := rfl

@[simp] theorem next_pushNext : (acked.pushNext entry isNext).next = acked.next + 1 := rfl

end

variable {acked}

theorem settled_settle (within : count ≤ acked.entries.length)
    (grows : acked.log.durableCount ≤ count) :
    acked.settled <+: (acked.settle count within grows).settled :=
  acked.log.settled_prefix_settle within grows

theorem front_durable
    (inside : front ++ [entry] <+: acked.entries) (isOwn : number entry = some own)
    (reached : own ≤ acked.progress) : front ++ [entry] <+: acked.settled := by
  have used : own ∈ acked.entries.filterMap number :=
    List.mem_filterMap.mpr ⟨entry, inside.subset (by simp), isOwn⟩
  have positive := (acked.below own used).1
  rcases acked.reported with nothing | reported
  · rw [nothing] at reached
    exact absurd positive (Nat.not_lt_of_le reached)
  · exact acked.log.front_settled acked.increasing inside isOwn reported reached

theorem mem_durable (mem : entry ∈ acked.entries) (isOwn : number entry = some own)
    (reached : own ≤ acked.progress) : entry ∈ acked.settled := by
  obtain ⟨front, back, split⟩ := List.append_of_mem mem
  have inside : front ++ [entry] <+: acked.entries := ⟨back, by simp [split]⟩
  exact (front_durable inside isOwn reached).subset (by simp)

section

variable (acked)

/-- The entry is durable, or will be once the gate is reached: a number up to the gate stands
    at it or behind it. -/
def Behind (gate : Nat) (entry : α) : Prop :=
  entry ∈ acked.settled ∨ ∃ front last own, front ++ [last] <+: acked.entries ∧
    number last = some own ∧ own ≤ gate ∧ entry ∈ front ++ [last]

/-- The other log has gone on from this one. -/
structure Continues (other : AckLog α number) : Prop where
  settled : ∀ entry ∈ acked.settled, entry ∈ other.settled
  entries : acked.entries <+: other.entries

variable {acked} {gate : Nat} {entry : α}

theorem continues_refl : acked.Continues acked := ⟨fun _ mem => mem, List.prefix_refl _⟩

theorem Behind.mono (behind : acked.Behind gate entry) (raised : gate ≤ higher)
    (continues : acked.Continues other) : other.Behind higher entry := by
  rcases behind with durable | ⟨front, last, own, inside, isOwn, below, mem⟩
  · exact .inl (continues.settled entry durable)
  · exact .inr ⟨front, last, own, inside.trans continues.entries, isOwn, le_trans below raised, mem⟩

theorem Behind.durable (behind : acked.Behind gate entry) (reached : gate ≤ acked.progress) :
    entry ∈ acked.settled := by
  rcases behind with durable | ⟨front, last, own, inside, isOwn, below, mem⟩
  · exact durable
  · exact (front_durable inside isOwn (le_trans below reached)).subset mem

theorem Behind.mem (behind : acked.Behind gate entry) : entry ∈ acked.entries := by
  rcases behind with durable | ⟨front, last, own, inside, _, _, mem⟩
  · exact acked.log.settled_prefix_entries.subset durable
  · exact inside.subset mem

theorem behind_pushNext (last : α) (isNext : number last = some acked.next)
    (mem : entry ∈ acked.entries) : (acked.pushNext last isNext).Behind acked.next entry :=
  Or.inr ⟨acked.entries, last, acked.next, List.prefix_refl _, isNext, le_rfl,
    List.mem_append_left _ mem⟩

end

end AckLog

section

variable {κ : Type v}

/-- Take the cursors whose gate has been reached off the queue. The last one taken replaces the
    latest so far. -/
def drainGates (confirmed : Nat) : List (Nat × κ) → Option κ → Option κ × List (Nat × κ)
  | [], latest => (latest, [])
  | (gate, cursor) :: rest, latest =>
    if gate ≤ confirmed then drainGates confirmed rest (some cursor)
    else (latest, (gate, cursor) :: rest)

/-- A front of the queue is taken, all of it with gates that have been reached, and the last
    cursor of it is the latest. -/
theorem drainGates_spec (confirmed : Nat) (queue : List (Nat × κ)) (latest : Option κ) :
    ∃ front, queue = front ++ (drainGates confirmed queue latest).2 ∧
      (∀ entry ∈ front, entry.1 ≤ confirmed) ∧
      (drainGates confirmed queue latest).1 = (front.getLast?.map Prod.snd).or latest := by
  induction queue generalizing latest with
  | nil => exact ⟨[], rfl, by simp, rfl⟩
  | cons head rest ih =>
    obtain ⟨gate, cursor⟩ := head
    unfold drainGates
    split
    · rename_i reached
      obtain ⟨front, split, areReached, newest⟩ := ih (some cursor)
      refine ⟨(gate, cursor) :: front, congrArg ((gate, cursor) :: ·) split, ?_, ?_⟩
      · intro entry mem
        rcases List.mem_cons.mp mem with rfl | later
        · exact reached
        · exact areReached entry later
      · rw [newest]
        cases front with
        | nil => rfl
        | cons second others => simp [List.getLast?_cons]
    · exact ⟨[], rfl, by simp, rfl⟩

variable {confirmed : Nat} {queue : List (Nat × κ)} {latest : Option κ}

/-- The latest cursor is the one before or one whose gate has been reached. -/
theorem drainGates_latest (isLatest : (drainGates confirmed queue latest).1 = some cursor) :
    latest = some cursor ∨ ∃ gate ≤ confirmed, (gate, cursor) ∈ queue := by
  obtain ⟨front, split, areReached, newest⟩ := drainGates_spec confirmed queue latest
  rw [isLatest] at newest
  cases last : front.getLast? with
  | none => exact .inl (by simpa [last] using newest.symm)
  | some entry =>
    right
    have isCursor : entry.2 = cursor := by simpa [last] using newest.symm
    have member := List.mem_of_getLast? last
    exact ⟨entry.1, areReached entry member, by rw [split, ← isCursor]; simp [member]⟩

theorem mem_of_mem_drainGates
    (mem : entry ∈ (drainGates confirmed queue latest).2) : entry ∈ queue := by
  obtain ⟨front, split, _⟩ := drainGates_spec confirmed queue latest
  rw [split]
  exact List.mem_append_right _ mem

end

end Ventstream.Library
