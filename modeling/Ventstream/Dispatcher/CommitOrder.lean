import Ventstream.Dispatcher.OrderedCommitter
import Ventstream.Library.ContiguousRun

/-! # What the committer reports, for every completion order

A set of batch results numbered `0 … n-1` reaches the committer in an arbitrary
order. The progress it reports is a function of the longest durable run of the
set alone; the failure it reports is not, because results that arrive after a
cancelled head are dropped unread.
-/

namespace Ventstream.Dispatcher

open Library List
open Std (ExtTreeMap)

/-- The result of the batch spawned with sequence `seq`. -/
def resultAt (results : List BatchResult) (seq : Nat) : Option BatchResult :=
  results.find? fun result => result.seq == seq

def durableAt (results : List BatchResult) (seq : Nat) : Bool :=
  (resultAt results seq).any fun result => result.outcome == .durable

/-- How many sequences from zero on are durable without a gap. -/
def durablePrefix (results : List BatchResult) : Nat :=
  contiguousRun (durableAt results) results.length

/-- The largest `watermark` among the batches with a sequence below `reach`. -/
def watermarkBelow (watermark : BatchResult → Nat) (results : List BatchResult)
    (reach : Nat) : Nat :=
  supBelow (fun seq => ((resultAt results seq).map watermark).getD 0) reach

/-- The spawn sequences of the results are `0 … n-1`, each once, in any order. -/
def Numbered (results : List BatchResult) : Prop :=
  (results.map (·.seq)).Perm (range results.length)

instance : DecidablePred Numbered := fun results =>
  inferInstanceAs (Decidable ((results.map (·.seq)).Perm (range results.length)))

variable {result : BatchResult}

section

variable {results : List BatchResult} {seq : Nat}

theorem mem_of_resultAt (found : resultAt results seq = some result) :
    result ∈ results ∧ result.seq = seq :=
  ⟨mem_of_find?_eq_some found, by simpa using find?_some found⟩

theorem resultAt_append_of_some (late : List BatchResult)
    (found : resultAt results seq = some result) :
    resultAt (results ++ late) seq = some result := by
  rw [resultAt, find?_append, ← resultAt, found, Option.some_or]

theorem resultAt_eq_none_of_append
    (missing : resultAt (early ++ late) seq = none) : resultAt early seq = none := by
  cases found : resultAt early seq with
  | none => rfl
  | some result => rw [resultAt_append_of_some late found] at missing; cases missing

theorem resultAt_concat (fresh : result.seq ∉ results.map (·.seq)) (seq : Nat) :
    resultAt (results ++ [result]) seq =
      if result.seq = seq then some result else resultAt results seq := by
  rw [resultAt, find?_append, ← resultAt]
  split
  · rename_i same
    have missing : resultAt results seq = none := by
      rw [resultAt, find?_eq_none]
      intro other mem equal
      exact fresh (mem_map.mpr ⟨other, mem, by simp_all⟩)
    simp [missing, same]
  · rename_i different
    simp [different]

theorem resultAt_of_mem (distinct : (results.map (·.seq)).Nodup) (mem : result ∈ results) :
    resultAt results result.seq = some result := by
  induction results with
  | nil => cases mem
  | cons head tail ih =>
    rw [map_cons, nodup_cons] at distinct
    rcases mem_cons.mp mem with rfl | later
    · simp [resultAt]
    · have differs : head.seq ≠ result.seq := by
        intro same
        exact distinct.1 (mem_map.mpr ⟨result, later, same.symm⟩)
      rw [resultAt, find?_cons_of_neg (by simpa using differs)]
      exact ih distinct.2 later

theorem durableAt_iff : durableAt results seq ↔
      ∃ result, resultAt results seq = some result ∧ result.outcome = .durable := by
  simp [durableAt, Option.any_eq_true]

theorem durableAt_append (late : List BatchResult) (durable : durableAt results seq) :
    durableAt (results ++ late) seq := by
  obtain ⟨settled, found, outcome⟩ := durableAt_iff.mp durable
  exact durableAt_iff.mpr ⟨settled, resultAt_append_of_some late found, outcome⟩

theorem Numbered.nodup (numbered : Numbered results) : (results.map (·.seq)).Nodup :=
  numbered.nodup_iff.mpr nodup_range

theorem Numbered.seq_lt (numbered : Numbered results) (mem : result ∈ results) :
    result.seq < results.length :=
  mem_range.mp (numbered.mem_iff.mp (mem_map_of_mem mem))

theorem Numbered.exists_resultAt (numbered : Numbered results) (inside : seq < results.length) :
    ∃ result, resultAt results seq = some result := by
  obtain ⟨result, mem, rfl⟩ := mem_map.mp (numbered.mem_iff.mpr (mem_range.mpr inside))
  exact ⟨result, resultAt_of_mem numbered.nodup mem⟩

theorem watermarkBelow_append (watermark : BatchResult → Nat) (late : List BatchResult)
    (filled : ∀ seq < reach, durableAt results seq) :
    watermarkBelow watermark (results ++ late) reach = watermarkBelow watermark results reach := by
  apply supBelow_congr
  intro seq inside
  obtain ⟨result, found, -⟩ := durableAt_iff.mp (filled seq inside)
  rw [found, resultAt_append_of_some late found]

theorem watermarkBelow_succ (watermark : BatchResult → Nat)
    (found : resultAt results seq = some result) :
    watermarkBelow watermark results (seq + 1) =
      max (watermarkBelow watermark results seq) (watermark result) := by
  rw [watermarkBelow, supBelow_succ, found]
  rfl

end

namespace OrderedCommitter

variable {start c : OrderedCommitter} {seen : List BatchResult}

/-- Both progress values are the initial ones, raised to the watermarks of the
    batches of `seen` below `reach`. -/
structure Reports (start : OrderedCommitter) (seen : List BatchResult) (reach : Nat)
    (c : OrderedCommitter) : Prop where
  sink : c.sinkProgress =
    start.sinkProgress.map (max · (watermarkBelow (·.maxWatermark) seen reach))
  transform : c.transformProgress =
    start.transformProgress.map (max · (watermarkBelow (·.maxTransformWatermark) seen reach))

/-- The committer inside the drain loop, after the results `seen` have been read.
    It reports the watermarks of the run below `nextSeq`; while it runs it buffers
    the rest, and once stopped it stands at a batch that is not durable. -/
structure Draining (start : OrderedCommitter) (seen : List BatchResult)
    (c : OrderedCommitter) : Prop where
  durable : ∀ seq < c.nextSeq, durableAt seen seq = true
  progress : Reports start seen c.nextSeq c
  quiet : c.failed = false → c.fatal = none
  buffered : c.failed = false → ∀ seq,
    c.pending[seq]? = if seq < c.nextSeq then none else resultAt seen seq
  hole : c.failed = true →
    ∃ result, resultAt seen c.nextSeq = some result ∧ result.outcome ≠ .durable
  reported : c.failed = true → (c.fatal.isSome = true ↔ ∃ result ∈ seen, result.outcome.IsFailure)

theorem fetchMax_max (progress : Option Nat) (reached watermark : Nat) :
    fetchMax (progress.map (max · reached)) watermark =
      progress.map (max · (max reached watermark)) := by
  cases progress with
  | none => rfl
  | some current =>
    simp only [fetchMax, Option.map_some, Option.some.injEq]
    split <;> omega

@[simp] theorem fail_fatal_isSome (c : OrderedCommitter) (reason : String) :
    (c.fail reason).fatal.isSome := by
  simp [fail]

theorem reportBuffered_of_failure (c : OrderedCommitter)
    (failing : entry.2.outcome.IsFailure) : ∃ reason, c.reportBuffered entry = c.fail reason :=
  ⟨_, if_pos failing⟩

/-- The loop over the buffer of a cancelled head reports a reason exactly when
    something in the buffer failed, and moves nothing but the failure flags. -/
theorem foldl_reportBuffered_spec (entries : List (Nat × BatchResult)) :
    ∀ c : OrderedCommitter, c.failed → ∃ shutdown fatal,
      entries.foldl reportBuffered c = { c with shutdown := shutdown, fatal := fatal } ∧
      (fatal.isSome ↔
        c.fatal.isSome ∨ ∃ entry ∈ entries, entry.2.outcome.IsFailure) := by
  induction entries with
  | nil => exact fun c _ => ⟨c.shutdown, c.fatal, rfl, by simp⟩
  | cons entry rest ih =>
    intro c stopped
    rw [foldl_cons]
    by_cases failing : entry.2.outcome.IsFailure
    · obtain ⟨reason, step⟩ := reportBuffered_of_failure c failing
      obtain ⟨shutdown, fatal, folded, reported⟩ := ih (c.fail reason) rfl
      refine ⟨shutdown, fatal, ?_, ?_⟩
      · rw [step, folded, fail, stopped]
      · simp [reported, failing]
    · obtain ⟨shutdown, fatal, folded, reported⟩ := ih c stopped
      refine ⟨shutdown, fatal, ?_, ?_⟩
      · rw [reportBuffered, if_neg failing, folded]
      · simp [reported, failing]

theorem cancel_spec (c : OrderedCommitter) : ∃ shutdown fatal,
    c.cancel = { c with failed := true, pending := ∅, shutdown := shutdown, fatal := fatal } ∧
    (fatal.isSome ↔ c.fatal.isSome ∨ ∃ (seq : Nat) (result : BatchResult),
          c.pending[seq]? = some result ∧ result.outcome.IsFailure) := by
  obtain ⟨shutdown, fatal, folded, reported⟩ := foldl_reportBuffered_spec
    c.pending.toList { c with failed := true, pending := ∅ } rfl
  refine ⟨shutdown, fatal, folded, reported.trans (or_congr Iff.rfl ?_)⟩
  simp only [Prod.exists, ExtTreeMap.mem_toList_iff_getElem?_eq_some]

/-- The state of the loop after it has taken the entry at `nextSeq` out. -/
def takeHead (c : OrderedCommitter) : OrderedCommitter :=
  { c with pending := c.pending.erase c.nextSeq }

theorem Reports.advance (progress : Reports start seen c.nextSeq c)
    (found : resultAt seen c.nextSeq = some entry) :
    Reports start seen (c.nextSeq + 1) (c.takeHead.advance entry) where
  sink := by
    simp only [OrderedCommitter.advance, takeHead]
    rw [progress.sink, fetchMax_max, watermarkBelow_succ _ found]
  transform := by
    simp only [OrderedCommitter.advance, takeHead]
    rw [progress.transform, fetchMax_max, watermarkBelow_succ _ found]

theorem Reports.append (progress : Reports start seen reach c)
    (filled : ∀ seq < reach, durableAt seen seq) (late : List BatchResult) :
    Reports start (seen ++ late) reach c where
  sink := by rw [watermarkBelow_append _ late filled, progress.sink]
  transform := by rw [watermarkBelow_append _ late filled, progress.transform]

section

variable {entry : BatchResult} (draining : Draining start seen c) (running : c.failed = false)
  (head : c.pending[c.nextSeq]? = some entry)
include draining running head

theorem Draining.head_seen : resultAt seen c.nextSeq = some entry := by
  have found := draining.buffered running c.nextSeq
  rw [if_neg (Nat.lt_irrefl _), head] at found
  exact found.symm

theorem Draining.advance (durable : entry.outcome = .durable) :
    Draining start seen (c.takeHead.advance entry) where
  durable := by
    intro seq inside
    rcases Nat.lt_succ_iff_lt_or_eq.mp inside with below | rfl
    · exact draining.durable seq below
    · exact durableAt_iff.mpr ⟨entry, draining.head_seen running head, durable⟩
  progress := draining.progress.advance (draining.head_seen running head)
  quiet := draining.quiet
  buffered := by
    intro _ seq
    change (c.pending.erase c.nextSeq)[seq]? =
      if seq < c.nextSeq + 1 then none else resultAt seen seq
    rw [ExtTreeMap.getElem?_erase, draining.buffered running seq]
    rcases Nat.lt_trichotomy seq c.nextSeq with below | rfl | above
    · simp [below, Nat.lt_succ_of_lt below]
    · simp
    · rw [if_neg (by rw [compare_eq_iff_eq]; omega), if_neg (by omega), if_neg (by omega)]
  hole := fun stopped => absurd (running.symm.trans stopped) Bool.false_ne_true
  reported := fun stopped => absurd (running.symm.trans stopped) Bool.false_ne_true

theorem Draining.fail (failing : entry.outcome.IsFailure) (reason : String) :
    Draining start seen (c.takeHead.fail reason) where
  durable := draining.durable
  progress := ⟨draining.progress.sink, draining.progress.transform⟩
  quiet := nofun
  buffered := nofun
  hole := fun _ => ⟨entry, draining.head_seen running head, by
    intro durable
    rw [durable] at failing
    exact failing⟩
  reported := fun _ => by
    have member := (mem_of_resultAt (draining.head_seen running head)).1
    exact ⟨fun _ => ⟨entry, member, failing⟩, fun _ => fail_fatal_isSome _ _⟩

/-- Everything below the head is durable and the head is cancelled, so a failing
    result that has been read is still in the buffer. -/
theorem Draining.failing_buffered (distinct : (seen.map (·.seq)).Nodup)
    (cancelled : entry.outcome = .cancelled) :
    (∃ (seq : Nat) (result : BatchResult),
      c.takeHead.pending[seq]? = some result ∧ result.outcome.IsFailure) ↔
    ∃ result ∈ seen, result.outcome.IsFailure := by
  simp only [takeHead, ExtTreeMap.getElem?_erase, compare_eq_iff_eq, draining.buffered running]
  constructor
  · rintro ⟨seq, result, found, failing⟩
    split at found
    · cases found
    · split at found
      · cases found
      · exact ⟨result, (mem_of_resultAt found).1, failing⟩
  · rintro ⟨result, mem, failing⟩
    have found := resultAt_of_mem distinct mem
    refine ⟨result.seq, result, ?_, failing⟩
    have notHead : c.nextSeq ≠ result.seq := by
      intro same
      rw [← same, draining.head_seen running head] at found
      cases found
      rw [cancelled] at failing
      exact failing
    have notBelow : ¬ result.seq < c.nextSeq := by
      intro below
      obtain ⟨durable, settled, outcome⟩ := durableAt_iff.mp (draining.durable _ below)
      rw [found] at settled
      cases settled
      rw [outcome] at failing
      exact failing
    rw [if_neg notHead, if_neg notBelow, found]

theorem Draining.cancel (distinct : (seen.map (·.seq)).Nodup)
    (cancelled : entry.outcome = .cancelled) : Draining start seen c.takeHead.cancel := by
  obtain ⟨shutdown, fatal, result, reported⟩ := cancel_spec c.takeHead
  rw [draining.failing_buffered running head distinct cancelled] at reported
  rw [result]
  exact {
    durable := draining.durable
    progress := ⟨draining.progress.sink, draining.progress.transform⟩
    quiet := nofun
    buffered := nofun
    hole := fun _ => ⟨entry, draining.head_seen running head, by simp [cancelled]⟩
    reported := fun _ => by
      have silent : c.takeHead.fatal = none := draining.quiet running
      simpa [silent] using reported }

end

theorem Draining.drain (distinct : (seen.map (·.seq)).Nodup) (fuel : Nat) :
    ∀ c, Draining start seen c → c.failed = false → Draining start seen (drain fuel c) := by
  induction fuel with
  | zero => exact fun c draining _ => draining
  | succ fuel ih =>
    intro c draining running
    rw [OrderedCommitter.drain]
    split
    · exact draining
    · rename_i entry head
      split
      · rename_i durable
        exact ih _ (draining.advance running head durable) running
      · rename_i outcome
        exact draining.fail running head (by rw [outcome]; trivial) _
      · rename_i outcome
        exact draining.fail running head (by rw [outcome]; trivial) _
      · rename_i cancelled
        exact draining.cancel running head distinct cancelled

/-- The size of the buffer is enough iterations: the loop has then stopped, or
    the head is missing. -/
theorem drain_settles (fuel : Nat) : ∀ c : OrderedCommitter, c.pending.size ≤ fuel →
    (drain fuel c).failed = false → (drain fuel c).pending[(drain fuel c).nextSeq]? = none := by
  induction fuel with
  | zero =>
    intro c small _
    have empty : c.pending = ∅ := ExtTreeMap.eq_empty_iff_size_eq_zero.mpr (Nat.le_zero.mp small)
    simp [drain, empty]
  | succ fuel ih =>
    intro c small
    rw [drain]
    split
    · rename_i missing
      exact fun _ => missing
    · rename_i entry head
      split
      · apply ih
        have mem : c.pending.contains c.nextSeq := by
          rw [ExtTreeMap.contains_eq_isSome_getElem?, head, Option.isSome_some]
        change (c.pending.erase c.nextSeq).size ≤ fuel
        rw [ExtTreeMap.size_erase, if_pos mem]
        omega
      · exact nofun
      · exact nofun
      · intro running
        obtain ⟨shutdown, fatal, cancelled, -⟩ := cancel_spec c.takeHead
        rw [takeHead] at cancelled
        rw [cancelled] at running
        cases running

theorem nextSeq_le_drain (fuel : Nat) :
    ∀ c : OrderedCommitter, c.nextSeq ≤ (drain fuel c).nextSeq := by
  induction fuel with
  | zero => exact fun c => le_rfl
  | succ fuel ih =>
    intro c
    rw [drain]
    split
    · exact le_rfl
    · rename_i entry head
      split
      · exact le_trans (Nat.le_succ _) (ih (c.takeHead.advance entry))
      · exact le_rfl
      · exact le_rfl
      · obtain ⟨shutdown, fatal, cancelled, -⟩ := cancel_spec c.takeHead
        rw [takeHead] at cancelled
        rw [cancelled]

theorem Draining.buffer (draining : Draining start seen c) (running : c.failed = false)
    (fresh : result.seq ∉ seen.map (·.seq)) :
    Draining start (seen ++ [result]) (c.buffer result) where
  durable := fun seq inside => durableAt_append [result] (draining.durable seq inside)
  progress :=
    let extended := draining.progress.append draining.durable [result]
    ⟨extended.sink, extended.transform⟩
  quiet := draining.quiet
  buffered := by
    intro _ seq
    change (c.pending.insert result.seq result)[seq]? =
      if seq < c.nextSeq then none else resultAt (seen ++ [result]) seq
    rw [ExtTreeMap.getElem?_insert, resultAt_concat fresh, draining.buffered running]
    by_cases same : result.seq = seq
    · -- a sequence below `nextSeq` has been read already, so `result` is not one
      have above : ¬ seq < c.nextSeq := by
        intro below
        obtain ⟨settled, found, -⟩ := durableAt_iff.mp (draining.durable seq below)
        obtain ⟨mem, named⟩ := mem_of_resultAt found
        exact fresh (mem_map.mpr ⟨settled, mem, named.trans same.symm⟩)
      simp [same, above]
    · simp [same]
  hole := fun stopped => absurd (running.symm.trans stopped) Bool.false_ne_true
  reported := fun stopped => absurd (running.symm.trans stopped) Bool.false_ne_true

/-- Between two calls of `commit`: the results `read` are those the committer
    looked at, and `late` came after it had stopped. Without the last result of
    `read` the run up to `nextSeq` still had a gap. -/
structure Between (start : OrderedCommitter) (read late : List BatchResult)
    (c : OrderedCommitter) : Prop where
  draining : Draining start read c
  waiting : c.failed = false → late = [] ∧ resultAt read c.nextSeq = none
  needed : ∀ early last rest, read = early ++ last :: rest →
    ∃ seq ≤ c.nextSeq, resultAt early seq = none

variable (sinkProgress transformProgress : Option Nat) (shutdown : Bool)

theorem Between.new :
    Between (new sinkProgress transformProgress shutdown) [] []
      (new sinkProgress transformProgress shutdown) where
  draining := {
    durable := nofun
    progress := ⟨by simp [OrderedCommitter.new, watermarkBelow],
      by simp [OrderedCommitter.new, watermarkBelow]⟩
    quiet := fun _ => rfl
    buffered := by simp [OrderedCommitter.new, resultAt]
    hole := nofun
    reported := nofun }
  waiting := fun _ => ⟨rfl, rfl⟩
  needed := by simp

theorem Between.commitRounds (between : Between start seen late c)
    (running : c.failed = false) (distinct : ((seen ++ [result]).map (·.seq)).Nodup)
    (rounds : Nat) : Draining start (seen ++ [result]) (c.commitRounds rounds result) := by
  have fresh : result.seq ∉ seen.map (·.seq) := by
    rw [map_append, map_singleton, nodup_append] at distinct
    intro mem
    exact distinct.2.2 _ mem _ (mem_singleton_self _) rfl
  rw [OrderedCommitter.commitRounds, running, if_neg Bool.false_ne_true]
  exact (between.draining.buffer running fresh).drain distinct rounds _ running

theorem Between.commit {late} (between : Between start seen late c) (running : c.failed = false)
    (distinct : ((seen ++ [result]).map (·.seq)).Nodup) :
    Between start (seen ++ [result]) [] (c.commit result) where
  draining := between.commitRounds running distinct _
  waiting := by
    intro stillRunning
    have draining := between.commitRounds running distinct (c.buffer result).pending.size
    refine ⟨rfl, ?_⟩
    have missing : (c.commit result).pending[(c.commit result).nextSeq]? = none := by
      rw [OrderedCommitter.commit, OrderedCommitter.commitRounds, running,
        if_neg Bool.false_ne_true] at stillRunning ⊢
      exact drain_settles _ _ le_rfl stillRunning
    have buffered := draining.buffered stillRunning (c.commit result).nextSeq
    rw [← OrderedCommitter.commit, if_neg (Nat.lt_irrefl _), missing] at buffered
    exact buffered.symm
  needed := by
    intro early last rest split
    have advanced : c.nextSeq ≤ (c.commit result).nextSeq := by
      rw [OrderedCommitter.commit, OrderedCommitter.commitRounds, running,
        if_neg Bool.false_ne_true]
      exact nextSeq_le_drain _ (c.buffer result)
    refine ⟨c.nextSeq, advanced, ?_⟩
    have missing := (between.waiting running).2
    obtain ⟨more, rfl⟩ : early <+: seen := by
      rcases eq_nil_or_concat rest with rfl | ⟨front, final, rfl⟩
      · exact ⟨[], by simpa using (append_inj_left' split rfl).symm⟩
      · rw [concat_eq_append, ← cons_append, ← append_assoc] at split
        exact ⟨last :: front, (append_inj_left' split rfl).symm⟩
    exact resultAt_eq_none_of_append missing

theorem Between.commit_stopped (between : Between start seen late c) (stopped : c.failed)
    (result : BatchResult) : Between start seen (late ++ [result]) (c.commit result) := by
  have ignored : c.commit result = c := by
    rw [OrderedCommitter.commit, OrderedCommitter.commitRounds, if_pos stopped]
  rw [ignored]
  exact ⟨between.draining, fun running => absurd (running.symm.trans stopped) Bool.false_ne_true,
    between.needed⟩

theorem commitAll_between (results : List BatchResult) (distinct : (results.map (·.seq)).Nodup) :
    ∃ read late, results = read ++ late ∧
      Between (new sinkProgress transformProgress shutdown) read late
        ((new sinkProgress transformProgress shutdown).commitAll results) := by
  induction results using reverseRecOn with
  | nil => exact ⟨[], [], rfl, Between.new _ _ _⟩
  | append_singleton results result ih =>
    have distinctBefore : (results.map (·.seq)).Nodup := by
      rw [map_append] at distinct
      exact distinct.of_append_left
    obtain ⟨read, late, rfl, between⟩ := ih distinctBefore
    rw [commitAll, foldl_append, foldl_cons, foldl_nil, ← commitAll]
    cases running : (commitAll (new sinkProgress transformProgress shutdown)
        (read ++ late)).failed with
    | false =>
      obtain ⟨rfl, -⟩ := between.waiting running
      rw [append_nil] at distinct between running ⊢
      exact ⟨read ++ [result], [], by simp, between.commit running distinct⟩
    | true =>
      exact ⟨read, late ++ [result], by simp, between.commit_stopped running result⟩

section

variable {read late : List BatchResult} (between : Between start read late c)
include between

theorem Between.reports : Reports start (read ++ late) c.nextSeq c :=
  between.draining.progress.append between.draining.durable late

theorem Between.nextSeq_eq (numbered : Numbered (read ++ late)) :
    c.nextSeq = durablePrefix (read ++ late) := by
  have filled : ∀ seq < c.nextSeq, durableAt (read ++ late) seq :=
    fun seq inside => durableAt_append late (between.draining.durable seq inside)
  refine (contiguousRun_eq filled ?_).symm
  cases running : c.failed with
  | true =>
    obtain ⟨settled, found, notDurable⟩ := between.draining.hole running
    have foundAll := resultAt_append_of_some late found
    obtain ⟨mem, named⟩ := mem_of_resultAt foundAll
    refine .inr ⟨named ▸ numbered.seq_lt mem, ?_⟩
    simpa [durableAt, foundAll] using notDurable
  | false =>
    obtain ⟨rfl, missing⟩ := between.waiting running
    rw [append_nil] at numbered filled ⊢
    refine .inl (Nat.le_antisymm ?_ ?_)
    · -- a longer run would hold a result with a sequence outside the set
      by_contra beyond
      obtain ⟨settled, found, -⟩ := durableAt_iff.mp (filled read.length (Nat.lt_of_not_le beyond))
      obtain ⟨mem, named⟩ := mem_of_resultAt found
      exact Nat.lt_irrefl _ (named ▸ numbered.seq_lt mem)
    · by_contra short
      obtain ⟨settled, found⟩ := numbered.exists_resultAt (Nat.lt_of_not_le short)
      rw [missing] at found
      cases found

theorem Between.read_upTo (stopped : c.failed)
    (inside : seq ≤ c.nextSeq) : ∃ settled, resultAt read seq = some settled := by
  rcases Nat.lt_or_eq_of_le inside with below | rfl
  · obtain ⟨settled, found, -⟩ := durableAt_iff.mp (between.draining.durable seq below)
    exact ⟨settled, found⟩
  · obtain ⟨settled, found, -⟩ := between.draining.hole stopped
    exact ⟨settled, found⟩

theorem Between.fatal_isSome_iff (stopped : c.failed) : c.fatal.isSome ↔
      ∃ early failing rest, read ++ late = early ++ failing :: rest ∧
        failing.outcome.IsFailure ∧ ∃ seq ≤ c.nextSeq, resultAt early seq = none := by
  rw [between.draining.reported stopped]
  constructor
  · rintro ⟨failing, mem, isFailure⟩
    obtain ⟨early, rest, split⟩ := append_of_mem mem
    exact ⟨early, failing, rest ++ late, by rw [split]; simp, isFailure,
      between.needed early failing rest split⟩
  · rintro ⟨early, failing, rest, split, isFailure, seq, inside, missing⟩
    refine ⟨failing, ?_, isFailure⟩
    obtain ⟨settled, found⟩ := between.read_upTo stopped inside
    have unread : ¬ read <+: early := by
      rintro ⟨more, rfl⟩
      rw [resultAt_eq_none_of_append missing] at found
      cases found
    rcases append_eq_append_iff.mp split with ⟨more, rfl, -⟩ | ⟨more, rfl, tail⟩
    · exact absurd (prefix_append read more) unread
    · cases more with
      | nil => exact absurd ⟨[], by simp⟩ unread
      | cons first more =>
        injection tail with same
        simp [same]

theorem Between.quiet_of_harmless
    (harmless : ∀ result ∈ read ++ late, ¬ result.outcome.IsFailure) : c.fatalReason = none := by
  cases running : c.failed with
  | false => exact between.draining.quiet running
  | true =>
    rw [fatalReason, ← Option.not_isSome_iff_eq_none, between.draining.reported running]
    rintro ⟨result, mem, failing⟩
    exact harmless result (mem_append_left late mem) failing

theorem Between.stopped_of_failing (numbered : Numbered (read ++ late))
    (failing : ∃ result ∈ read ++ late, result.outcome.IsFailure) : c.failed := by
  cases running : c.failed with
  | true => rfl
  | false =>
    obtain ⟨rfl, missing⟩ := between.waiting running
    rw [append_nil] at numbered failing
    obtain ⟨result, mem, isFailure⟩ := failing
    have found := resultAt_of_mem numbered.nodup mem
    -- nothing is missing below the end of the set, so the run covers the failed batch
    have inside : result.seq < c.nextSeq := by
      by_contra outside
      obtain ⟨settled, present⟩ := numbered.exists_resultAt
        (lt_of_le_of_lt (Nat.le_of_not_lt outside) (numbered.seq_lt mem))
      rw [missing] at present
      cases present
    obtain ⟨settled, present, durable⟩ :=
      durableAt_iff.mp (between.draining.durable result.seq inside)
    rw [found] at present
    cases present
    rw [durable] at isFailure
    exact isFailure.elim

end

/-- The progress reported after the last result is that of the longest durable
    run, and at every point of every `commit` on the way it is that of the run
    committed so far, whatever the order of the results. -/
theorem commitAll_progress (results : List BatchResult) (numbered : Numbered results) :
    let start := new sinkProgress transformProgress shutdown
    Reports start results (durablePrefix results) (start.commitAll results) ∧
    ∀ delivered result remaining, results = delivered ++ result :: remaining → ∀ rounds,
      let point := (start.commitAll delivered).commitRounds rounds result
      (∀ seq < point.nextSeq, durableAt (delivered ++ [result]) seq = true) ∧
      Reports start (delivered ++ [result]) point.nextSeq point := by
  intro start
  constructor
  · obtain ⟨read, late, rfl, between⟩ :=
      commitAll_between sinkProgress transformProgress shutdown results numbered.nodup
    rw [← between.nextSeq_eq numbered]
    exact between.reports
  · rintro delivered result remaining rfl rounds
    have distinct : ((delivered ++ [result]).map (·.seq)).Nodup := by
      have all := numbered.nodup
      rw [append_cons, map_append] at all
      exact all.of_append_left
    have distinctBefore : (delivered.map (·.seq)).Nodup := by
      rw [map_append] at distinct
      exact distinct.of_append_left
    obtain ⟨read, late, rfl, between⟩ :=
      commitAll_between sinkProgress transformProgress shutdown delivered distinctBefore
    cases running : (start.commitAll (read ++ late)).failed with
    | false =>
      obtain ⟨rfl, -⟩ := between.waiting running
      rw [append_nil] at distinct between running ⊢
      have draining := between.commitRounds running distinct rounds
      exact ⟨draining.durable, draining.progress⟩
    | true =>
      have ignored : (start.commitAll (read ++ late)).commitRounds rounds result =
          start.commitAll (read ++ late) := if_pos running
      rw [ignored, append_assoc]
      exact ⟨fun seq inside => durableAt_append _ (between.draining.durable seq inside),
        between.draining.progress.append between.draining.durable _⟩

/-- Three results handed over as 2, 0, 1: the run stops before the failed batch 1. -/
theorem commitAll_progress_stops_at_failure :
    let results := [⟨2, 30, 3, .durable⟩, ⟨0, 10, 1, .durable⟩, ⟨1, 20, 2, .failedClosed⟩]
    Numbered results ∧
    Reports (new (some 5) (some 0) false) results 1
      ((new (some 5) (some 0) false).commitAll results) :=
  ⟨by decide, (commitAll_progress (some 5) (some 0) false _ (by decide)).1⟩

/-- What a caller of the dispatcher is told about the results: a failed batch is
    an error, and a set without one is a clean exit. -/
def FailureReported (results : List BatchResult) (c : OrderedCommitter) : Prop :=
  ((∃ result ∈ results, result.outcome.IsFailure) →
    c.fatalReason.isSome = true ∧ ∃ reason, runVerdict c = .error (.failedClosed reason)) ∧
  ((∀ result ∈ results, result.outcome = .durable ∨ result.outcome = .cancelled) →
    c.fatalReason = none)

/-- Some failed batch is handed over while the run up to and including the first
    batch that is not durable still has a gap. -/
def FailureReadInTime (results : List BatchResult) : Prop :=
  (∃ result ∈ results, result.outcome.IsFailure) →
  ∃ early failing rest, results = early ++ failing :: rest ∧ failing.outcome.IsFailure ∧
    ∃ seq ≤ durablePrefix results, resultAt early seq = none

theorem runVerdict_of_isSome (c : OrderedCommitter) (reported : c.fatalReason.isSome) :
    ∃ reason, runVerdict c = .error (.failedClosed reason) := by
  obtain ⟨reason, found⟩ := Option.isSome_iff_exists.mp reported
  exact ⟨reason, by rw [runVerdict, found]⟩

/-- The committer tells the caller the truth about a set of results exactly when
    one of its failures is read before the run reaches the first hole. -/
theorem failureReported_iff (results : List BatchResult) (numbered : Numbered results) :
    FailureReported results
      ((new sinkProgress transformProgress shutdown).commitAll results) ↔
    FailureReadInTime results := by
  obtain ⟨read, late, rfl, between⟩ :=
    commitAll_between sinkProgress transformProgress shutdown results numbered.nodup
  constructor
  · intro truthful failing
    have stopped := between.stopped_of_failing numbered failing
    rw [← between.nextSeq_eq numbered]
    exact (between.fatal_isSome_iff stopped).mp (truthful.1 failing).1
  · intro inTime
    refine ⟨fun failing => ?_, fun clean => between.quiet_of_harmless ?_⟩
    · have stopped := between.stopped_of_failing numbered failing
      have reported := inTime failing
      rw [← between.nextSeq_eq numbered] at reported
      have isSome := (between.fatal_isSome_iff stopped).mpr reported
      exact ⟨isSome, runVerdict_of_isSome _ isSome⟩
    · intro result member failing
      rcases clean result member with outcome | outcome <;>
        exact absurd failing (by rw [outcome]; exact id)

/-- A failed batch read before the cancelled head is reported. -/
theorem failureReported_of_buffered_failure :
    let results := [⟨1, 20, 0, .failedClosed⟩, ⟨0, 10, 0, .cancelled⟩]
    Numbered results ∧
    FailureReported results ((new (some 0) none false).commitAll results) :=
  ⟨by decide, (failureReported_iff (some 0) none false _ (by decide)).mpr fun _ =>
    ⟨[], ⟨1, 20, 0, .failedClosed⟩, [⟨0, 10, 0, .cancelled⟩], rfl, trivial, 0, by decide, rfl⟩⟩

/-- The same two results the other way round: the cancelled head stops the
    committer, the failed batch is dropped and `Dispatcher::run` exits cleanly. -/
theorem cancelled_head_masks_failure :
    let results := [⟨0, 10, 0, .cancelled⟩, ⟨1, 20, 0, .failedClosed⟩]
    let final := (new (some 0) none false).commitAll results
    Numbered results ∧ final.fatalReason = none ∧ runVerdict final = .ok () ∧
    ¬ FailureReported results final := by
  have silent : ((new (some 0) none false).commitAll
      [⟨0, 10, 0, .cancelled⟩, ⟨1, 20, 0, .failedClosed⟩]).fatalReason = none := by decide
  refine ⟨by decide, silent, ?_, ?_⟩
  · rw [runVerdict, silent]
  · intro truthful
    have reported := (truthful.1 ⟨⟨1, 20, 0, .failedClosed⟩, by decide, trivial⟩).1
    cases reported

end OrderedCommitter

end Ventstream.Dispatcher
