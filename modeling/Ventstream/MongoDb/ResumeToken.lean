import Ventstream.MongoDb.Source

/-! # Where a restart resumes

As long as every start finds a token that it may trust, or nothing left to lose, no
start is past a change that was delivered before and is not durable: a token is only
written once the changes before it are. The first token of a source without a
bootstrap is written by the first flush, so a crash before it starts over at the end
of the stream, past what was in flight.
-/

namespace Ventstream.MongoDb

open Library List

variable (cfg : Config) (stream : Nat → ChangeStreamEvent)

theorem Session.mem_durableChanges {session : Session} :
    index ∈ session.durableChanges ↔ ∃ ackSeq, .change index ackSeq ∈ session.log.settled := by
  simp only [Session.durableChanges, mem_filterMap]
  constructor
  · rintro ⟨entry, mem, isChange⟩
    cases entry with
    | change other ackSeq =>
      cases isChange
      exact ⟨ackSeq, mem⟩
    | document => cases isChange
    | barrier => cases isChange
  · rintro ⟨ackSeq, mem⟩
    exact ⟨_, mem, rfl⟩

/-- The change is durable, by an earlier session or by the running one. -/
def System.Durable (sys : System) (index : Nat) : Prop :=
  index ∈ sys.stored ∨ ∃ session, sys.session = some session ∧ index ∈ session.durableChanges

/-- A start may trust the token, or all that was delivered and published is durable. -/
def System.Restartable (sys : System) : Prop :=
  sys.persisted ≠ none ∨ ∀ index ∈ sys.delivered, Publishes cfg stream index → index ∈ sys.stored

/-- The systems that a run can reach when every start is restartable. -/
inductive Reachable : System → Prop where
  | new : Reachable .new
  | step {before after : System} : Reachable before → Step cfg stream before after →
      (before.session = none → after.session ≠ none → before.Restartable cfg stream) →
      Reachable after

variable {session other : Session}

/-- A change delivered before this place is durable already, or published with a number up to
    the gate. -/
def Behind (stored delivered : List Nat) (session : Session) (place gate : Nat) : Prop :=
  ∀ index ∈ delivered, index < place → Publishes cfg stream index →
    index ∈ stored ∨ ∃ ackSeq ≤ gate, .change index ackSeq ∈ session.log.entries

/-- The scan is over: its documents are followed by the barrier and nothing else. -/
def Session.Barred (session : Session) : Prop :=
  ∃ documents, session.log.entries = documents ++ [.barrier bootstrapBarrierSeq]

structure Session.Covers (stored delivered : List Nat) (session : Session) : Prop where
  reached : Behind cfg stream stored delivered session session.position session.lastPublishedSeq
  queued : ∀ entry ∈ session.pendingGated, entry.2 ≤ session.position ∧
    Behind cfg stream stored delivered session entry.2 entry.1
  unscanned : ∀ start, session.stage = .scanning start → session.log.next = bootstrapBarrierSeq
  barred : (∃ start, session.stage = .awaiting start) ∨ session.stage = .clearing → session.Barred
  confirmed : session.stage = .clearing → bootstrapBarrierSeq ≤ session.log.progress
  fresh : ∀ start, session.stage = .scanning start ∨ session.stage = .awaiting start →
    ∀ token, start = some token → token ≤ session.position ∧
      ∀ index ∈ delivered, Publishes cfg stream index → index ∈ stored

structure System.Safe (sys : System) : Prop where
  token : ∀ token, sys.cursor.token = some token →
    ∀ index ∈ sys.delivered, index < token → Publishes cfg stream index → sys.Durable index
  covers : ∀ session, sys.session = some session →
    session.Covers cfg stream sys.stored sys.delivered ∧
      ∀ token, sys.cursor.token = some token → token ≤ session.position

variable {cfg stream}

section

variable {stored delivered : List Nat} {place gate : Nat}

section

variable (behind : Behind cfg stream stored delivered session place gate)

include behind

theorem Behind.mono (raised : gate ≤ higher)
    (kept : ∀ entry ∈ session.log.entries, entry ∈ other.log.entries) :
    Behind cfg stream stored delivered other place higher := by
  intro index mem before publishes
  refine (behind index mem before publishes).imp_right ?_
  rintro ⟨ackSeq, reached, published⟩
  exact ⟨ackSeq, le_trans reached raised, kept _ published⟩

theorem Behind.next : Behind cfg stream stored delivered session place session.log.next := by
  intro index mem before publishes
  refine (behind index mem before publishes).imp_right ?_
  rintro ⟨ackSeq, _, published⟩
  have used : ackSeq ∈ session.log.entries.filterMap Entry.ackSeq? :=
    mem_filterMap.mpr ⟨_, published, rfl⟩
  exact ⟨ackSeq, le_of_lt (session.log.below ackSeq used).2, published⟩

theorem Behind.deliver (beyond : place ≤ last) :
    Behind cfg stream stored (delivered ++ [last]) session place gate := by
  intro index mem before publishes
  rcases mem_append.mp mem with earlier | isLast
  · exact behind index earlier before publishes
  · rw [mem_singleton.mp isLast] at before
    exact absurd before (Nat.not_lt_of_le beyond)

theorem Behind.durable (open_ : gate ≤ session.log.progress) :
    ∀ index ∈ delivered, index < place → Publishes cfg stream index →
      index ∈ stored ∨ index ∈ session.durableChanges := by
  intro index mem before publishes
  refine (behind index mem before publishes).imp_right ?_
  rintro ⟨ackSeq, reached, published⟩
  exact Session.mem_durableChanges.mpr
    ⟨ackSeq, AckLog.mem_durable published rfl (le_trans reached open_)⟩

end

theorem Session.Covers.of_log (covers : session.Covers cfg stream stored delivered)
    (samePosition : other.position = session.position)
    (sameLast : other.lastPublishedSeq = session.lastPublishedSeq)
    (samePending : ∀ entry ∈ other.pendingGated, entry ∈ session.pendingGated)
    (kept : ∀ entry ∈ session.log.entries, entry ∈ other.log.entries)
    (unscanned : ∀ start, other.stage = .scanning start → other.log.next = bootstrapBarrierSeq)
    (barred : (∃ start, other.stage = .awaiting start) ∨ other.stage = .clearing → other.Barred)
    (confirmed : other.stage = .clearing → bootstrapBarrierSeq ≤ other.log.progress)
    (early : ∀ start, other.stage = .scanning start ∨ other.stage = .awaiting start →
      session.stage = .scanning start ∨ session.stage = .awaiting start) :
    other.Covers cfg stream stored delivered where
  reached := by
    rw [samePosition, sameLast]
    exact covers.reached.mono le_rfl kept
  queued entry member := by
    rw [samePosition]
    obtain ⟨within, behind⟩ := covers.queued entry (samePending entry member)
    exact ⟨within, behind.mono le_rfl kept⟩
  unscanned := unscanned
  barred := barred
  confirmed := confirmed
  fresh start isEarly := by
    rw [samePosition]
    exact covers.fresh start (early start isEarly)

theorem Session.covers_tailing
    (reached : Behind cfg stream stored delivered session session.position session.lastPublishedSeq)
    (queued : ∀ entry ∈ session.pendingGated, entry.2 ≤ session.position ∧
      Behind cfg stream stored delivered session entry.2 entry.1)
    (tails : session.stage = .tailing ∨ session.stage = .closing) :
    session.Covers cfg stream stored delivered where
  reached := reached
  queued := queued
  unscanned start scanning := by simp [scanning] at tails
  barred early := by
    rcases early with ⟨start, awaiting⟩ | clearing
    · simp [awaiting] at tails
    · simp [clearing] at tails
  confirmed clearing := by simp [clearing] at tails
  fresh start early := by rcases early with scanning | awaiting <;> simp_all

theorem covers_publishChange (covers : session.Covers cfg stream stored delivered)
    (tails : session.stage = .tailing) :
    session.publishChange.Covers cfg stream stored (delivered ++ [session.position]) := by
  have kept : ∀ entry ∈ session.log.entries, entry ∈ session.publishChange.log.entries := by
    intro entry mem
    exact mem_append_left _ mem
  have all : Behind cfg stream stored (delivered ++ [session.position]) session.publishChange
      (session.position + 1) session.log.next := by
    intro index mem before publishes
    by_cases isNew : index = session.position
    · right
      rw [isNew]
      exact ⟨session.log.next, le_rfl, mem_append_right _ (mem_singleton_self _)⟩
    · have older : index < session.position := by omega
      exact ((covers.reached.next.deliver le_rfl).mono le_rfl kept) index mem older publishes
  refine Session.covers_tailing all (forall_mem_append.mpr ⟨fun entry queued => ?_,
    forall_mem_singleton.mpr ⟨le_rfl, all⟩⟩) (.inl tails)
  obtain ⟨within, behind⟩ := covers.queued entry queued
  exact ⟨Nat.le_succ_of_le within, (behind.deliver within).mono le_rfl kept⟩

theorem covers_skipChange (covers : session.Covers cfg stream stored delivered)
    (tails : session.stage = .tailing)
    (skipped : handleEvent cfg (stream session.position) = none) :
    session.skipChange.Covers cfg stream stored (delivered ++ [session.position]) := by
  have all : Behind cfg stream stored (delivered ++ [session.position]) session.skipChange
      (session.position + 1) session.lastPublishedSeq := by
    intro index mem before publishes
    by_cases isNew : index = session.position
    · rw [isNew] at publishes
      simp [Publishes, skipped] at publishes
    · have older : index < session.position := by omega
      exact (covers.reached.deliver le_rfl) index mem older publishes
  refine Session.covers_tailing all (forall_mem_append.mpr ⟨fun entry queued => ?_,
    forall_mem_singleton.mpr ⟨le_rfl, all⟩⟩) (.inl tails)
  obtain ⟨within, behind⟩ := covers.queued entry queued
  exact ⟨Nat.le_succ_of_le within, behind.deliver within⟩

end

section

variable {sys : System}

theorem System.Durable.of_running (durable : sys.Durable index)
    (running : sys.session = some session) :
    index ∈ sys.stored ∨ index ∈ session.durableChanges := by
  refine durable.imp_right ?_
  rintro ⟨own, same, isDurable⟩
  cases running.symm.trans same
  exact isDurable

theorem System.Safe.stop (safe : sys.Safe cfg stream)
    (running : sys.session = some session) : (sys.stop session).Safe cfg stream where
  token token isToken index mem before publishes := by
    have durable := safe.token token isToken index mem before publishes
    exact .inl (mem_append.mpr (durable.of_running running))
  covers other isSession := by cases isSession

section

variable (safe : sys.Safe cfg stream) (idle : sys.session = none)
  (restartable : sys.Restartable cfg stream)

include safe idle restartable

theorem System.Safe.behind_start :
    ∀ index ∈ sys.delivered, index < sys.startPosition → Publishes cfg stream index →
      index ∈ sys.stored := by
  intro index mem before publishes
  rcases restartable with trusted | settled
  · obtain ⟨token, isToken⟩ := Option.ne_none_iff_exists'.mp trusted
    have onDisk : sys.cursor.token = some token := by
      unfold System.persisted at isToken
      split at isToken
      · cases isToken
      · exact isToken
    simp only [System.startPosition, isToken, Option.getD_some] at before
    rcases safe.token token onDisk index mem before publishes with stored | ⟨_, running, _⟩
    · exact stored
    · simp [idle] at running
  · exact settled index mem publishes

theorem System.Safe.start (bootstrap tokenKnown : Bool) :
    (sys.start bootstrap tokenKnown).Safe cfg stream := by
  have behind := safe.behind_start idle restartable
  unfold System.start
  split
  · rename_i cold
    have settled : ∀ index ∈ sys.delivered, Publishes cfg stream index →
        index ∈ sys.stored := by
      rcases restartable with trusted | settled
      · exact absurd cold.1 trusted
      · exact settled
    refine ⟨by simp, fun session isSession => ?_⟩
    cases isSession
    refine ⟨⟨?_, ?_, ?_, ?_, ?_, ?_⟩, by simp⟩
    · exact fun index mem _ publishes => Or.inl (settled index mem publishes)
    · intro entry mem
      cases mem
    · exact fun _ _ => rfl
    · rintro (⟨start, awaiting⟩ | clearing)
      · cases awaiting
      · cases clearing
    · rintro ⟨⟩
    · intro start early token isToken
      refine ⟨?_, settled⟩
      rcases early with scanning | awaiting
      · cases scanning
        split at isToken
        · cases isToken
          exact le_rfl
        · cases isToken
      · cases awaiting
  · refine ⟨?_, fun session isSession => ?_⟩
    · intro token isToken index mem before publishes
      left
      refine behind index mem ?_ publishes
      replace isToken : sys.persisted = some token := isToken
      simpa [System.startPosition, isToken] using before
    · cases isSession
      refine ⟨Session.covers_tailing ?_ (by simp) (.inl rfl), ?_⟩
      · exact fun index mem before publishes => Or.inl (behind index mem before publishes)
      · intro token isToken
        replace isToken : sys.persisted = some token := isToken
        simp [System.startPosition, isToken]

end

section

variable (safe : sys.Safe cfg stream) (running : sys.session = some session)

include safe running

/-- The session moves on where it is: a new token is one whose changes it has made durable. -/
theorem System.Safe.of_session {cursor : CursorFile}
    (tokens : ∀ token, cursor.token = some token → sys.cursor.token = some token ∨
      (token ≤ session.position ∧ ∀ index ∈ sys.delivered, index < token →
        Publishes cfg stream index → index ∈ sys.stored ∨ index ∈ session.durableChanges))
    (samePosition : other.position = session.position)
    (durable : ∀ index ∈ session.durableChanges, index ∈ other.durableChanges)
    (covers : other.Covers cfg stream sys.stored sys.delivered) :
    System.Safe cfg stream { sys with cursor := cursor, session := some other } where
  token token isToken index mem before publishes := by
    have isDurable : index ∈ sys.stored ∨ index ∈ session.durableChanges := by
      rcases tokens token isToken with old | ⟨_, settled⟩
      · exact (safe.token token old index mem before publishes).of_running running
      · exact settled index mem before publishes
    exact isDurable.imp_right fun own => ⟨other, rfl, durable index own⟩
  covers own isOwn := by
    cases isOwn
    refine ⟨covers, fun token isToken => ?_⟩
    rw [samePosition]
    rcases tokens token isToken with old | ⟨within, _⟩
    · exact (safe.covers session running).2 token old
    · exact within

/-- A change that is delivered lies at the session's position, past the token. -/
theorem System.Safe.deliver (further : session.position ≤ other.position)
    (durable : other.durableChanges = session.durableChanges)
    (covers : other.Covers cfg stream sys.stored (sys.delivered ++ [session.position])) :
    System.Safe cfg stream
      { sys with delivered := sys.delivered ++ [session.position], session := some other } where
  token token isToken index mem before publishes := by
    have within := (safe.covers session running).2 token isToken
    rcases mem_append.mp mem with earlier | isNew
    · have isDurable := safe.token token isToken index earlier before publishes
      exact (isDurable.of_running running).imp_right fun own => ⟨other, rfl, durable ▸ own⟩
    · rw [mem_singleton.mp isNew] at before
      exact absurd before (Nat.not_lt_of_le within)
  covers own isOwn := by
    cases isOwn
    refine ⟨covers, fun token isToken => ?_⟩
    exact le_trans ((safe.covers session running).2 token isToken) further

theorem System.Safe.flush (tails : session.stage = .tailing ∨ session.stage = .closing) :
    System.Safe cfg stream { sys with
      cursor := (flushConfirmed sys.cursor session).1
      session := some (flushConfirmed sys.cursor session).2 } := by
  obtain ⟨covers, -⟩ := safe.covers session running
  refine safe.of_session running (fun token isToken => ?_) rfl (fun _ durable => durable)
    (Session.covers_tailing covers.reached
      (fun entry mem => covers.queued entry (mem_of_mem_drainGates mem)) tails)
  simp only [flushConfirmed, Option.or_eq_some_iff] at isToken
  rcases isToken with isLatest | ⟨_, old⟩
  · obtain ⟨gate, reached, queued⟩ := (drainGates_latest isLatest).resolve_left (by simp)
    obtain ⟨within, behind⟩ := covers.queued _ queued
    exact .inr ⟨within, behind.durable reached⟩
  · exact .inl old

end

theorem System.safe_wipe (idle : sys.session = none) :
    System.Safe cfg stream { sys with cursor := { sys.cursor with token := none } } where
  token token isToken := by cases isToken
  covers session running := by
    simp [idle] at running

theorem System.Safe.step {before after : System} (safe : before.Safe cfg stream)
    (step : Step cfg stream before after)
    (restartable : before.session = none → after.session ≠ none →
      before.Restartable cfg stream) : after.Safe cfg stream := by
  cases step with
  | write => exact ⟨safe.token, safe.covers⟩
  | start bootstrap tokenKnown idle =>
    refine safe.start idle (restartable idle ?_) bootstrap tokenKnown
    unfold System.start
    split <;> simp
  | rejected idle => exact System.safe_wipe idle
  | scan session start running scanning =>
    obtain ⟨covers, _⟩ := safe.covers session running
    refine safe.of_session running (fun _ => Or.inl) rfl (fun _ durable => ?_)
      (covers.of_log rfl rfl (fun _ mem => mem)
        (fun _ mem => mem_append_left _ mem) (fun start isScanning => ?_)
        (fun early => ?_) (fun clearing => ?_) fun _ early => early)
    · simpa [Session.durableChanges] using durable
    · exact covers.unscanned start isScanning
    · simp [scanning] at early
    · simp [scanning] at clearing
  | scanned session start running scanning =>
    obtain ⟨covers, _⟩ := safe.covers session running
    have isFirst := covers.unscanned start scanning
    refine safe.of_session running (fun _ => Or.inl) rfl (fun _ durable => ?_)
      (covers.of_log rfl rfl (fun _ mem => mem)
        (fun _ mem => mem_append_left _ mem) (fun _ isScanning => ?_)
        (fun _ => ?_) (fun clearing => ?_) fun other early => ?_)
    · simpa [Session.durableChanges] using durable
    · cases isScanning
    · exact ⟨session.log.entries, by rw [← isFirst]; rfl⟩
    · cases clearing
    · rcases early with isScanning | awaiting
      · cases isScanning
      · cases awaiting
        exact .inl scanning
  | writeStart session start running awaiting confirmed =>
    obtain ⟨covers, _⟩ := safe.covers session running
    refine safe.of_session running (fun token isToken => ?_) rfl (fun _ durable => durable)
      (covers.of_log rfl rfl (fun _ mem => mem) (fun _ mem => mem)
        (fun _ isScanning => ?_) (fun _ => ?_) (fun _ => confirmed) fun _ early => ?_)
    · cases start with
      | none => exact .inl isToken
      | some first =>
        obtain ⟨within, settled⟩ := covers.fresh _ (.inr awaiting) token isToken
        exact .inr ⟨within, fun index mem _ publishes =>
          Or.inl (settled index mem publishes)⟩
    · cases isScanning
    · exact covers.barred (.inl ⟨start, awaiting⟩)
    · rcases early with isScanning | isAwaiting
      · cases isScanning
      · cases isAwaiting
  | clearIncomplete session running clearing =>
    obtain ⟨covers, _⟩ := safe.covers session running
    exact safe.of_session running (fun _ => Or.inl) rfl (fun _ durable => durable)
      (Session.covers_tailing covers.reached covers.queued (.inl rfl))
  | publish session change running tails written handled =>
    refine safe.deliver running (Nat.le_succ _) ?_
      (covers_publishChange (safe.covers session running).1 tails)
    simp [Session.durableChanges, Session.publishChange]
  | skip session running tails written skipped =>
    exact safe.deliver running (Nat.le_succ _) rfl
      (covers_skipChange (safe.covers session running).1 tails skipped)
  | refused session running tails written =>
    obtain ⟨covers, _⟩ := safe.covers session running
    refine safe.deliver running le_rfl rfl (Session.covers_tailing
      (covers.reached.deliver le_rfl) (fun entry mem => ?_) (.inr rfl))
    obtain ⟨within, behind⟩ := covers.queued entry mem
    exact ⟨within, behind.deliver within⟩
  | flush session running tails => exact safe.flush running tails
  | durable session count within grows running =>
    obtain ⟨covers, _⟩ := safe.covers session running
    refine safe.of_session running (fun _ => Or.inl) rfl (fun index durable => ?_)
      (covers.of_log rfl rfl (fun _ mem => mem) (fun _ mem => mem)
        covers.unscanned covers.barred covers.confirmed fun _ early => early)
    obtain ⟨ackSeq, settled⟩ := Session.mem_durableChanges.mp durable
    exact Session.mem_durableChanges.mpr ⟨ackSeq, (AckLog.settled_settle within grows).subset settled⟩
  | confirm session ackSeq isDurable running =>
    obtain ⟨covers, _⟩ := safe.covers session running
    exact safe.of_session running (fun _ => Or.inl) rfl (fun _ durable => durable)
      (covers.of_log rfl rfl (fun _ mem => mem) (fun _ mem => mem) covers.unscanned covers.barred
        (fun clearing => le_trans (covers.confirmed clearing) (Nat.le_max_left _ _))
        fun _ early => early)
  | historyLost session running tails => exact System.safe_wipe rfl
  | stop session running => exact safe.stop running

end

theorem Reachable.safe (reached : Reachable cfg stream sys) : sys.Safe cfg stream := by
  induction reached with
  | new => exact ⟨by simp [System.new], by simp [System.new]⟩
  | step _ step restartable ih => exact ih.step step restartable

/-- In every run whose starts are restartable: a start never opens the stream past a change
    that was delivered before, is published when delivered, and is not durable; and the marker
    of an incomplete bootstrap is cleared only when all that the scan published is durable. -/
theorem resume_token_safe {system : System} (reached : Reachable cfg stream system) :
    (system.session = none → system.Restartable cfg stream →
      ∀ bootstrap tokenKnown session, (system.start bootstrap tokenKnown).session = some session →
      ∀ index ∈ system.delivered, Publishes cfg stream index → index ∉ system.stored →
        session.position ≤ index) ∧
    ∀ later, Step cfg stream system later → system.cursor.incomplete = true →
      later.cursor.incomplete = false →
      ∃ session, system.session = some session ∧ session.log.entries <+: session.log.settled := by
  have safe := reached.safe
  constructor
  · intro idle restartable bootstrap tokenKnown session started index member publishes lost
    have pos : session.position = system.startPosition := by
      unfold System.start at started
      split at started
      · rename_i cold
        cases started
        simp [System.startPosition, cold.1]
      · cases started
        rfl
    rw [pos]
    by_contra beyond
    exact lost (safe.behind_start idle restartable index member (Nat.lt_of_not_le beyond) publishes)
  · intro later step marked cleared
    have notMarked : ∀ {cursor : CursorFile}, cursor.incomplete = true →
        cursor.incomplete = false → False := by
      intro cursor isMarked isCleared
      simp [isMarked] at isCleared
    cases step with
    | clearIncomplete session running clearing =>
      obtain ⟨covers, _⟩ := safe.covers session running
      refine ⟨session, running, ?_⟩
      obtain ⟨documents, whole⟩ := covers.barred (Or.inr clearing)
      rw [whole]
      exact AckLog.front_durable (whole ▸ prefix_rfl) rfl (covers.confirmed clearing)
    | start bootstrap tokenKnown =>
      unfold System.start at cleared
      split at cleared
      · cases cleared
      · exact (notMarked marked cleared).elim
    | write | rejected | scan | scanned | writeStart | publish | skip | refused | flush | durable
    | confirm | historyLost | stop => exact (notMarked marked cleared).elim

def orders : Nat → ChangeStreamEvent := fun _ =>
  ⟨.insert, some "orders", some (.string "1"), some (.object [])⟩

def allCollections : Config := ⟨[]⟩

theorem handleEvent_orders (index : Nat) : handleEvent allCollections (orders index) =
      some ⟨.insert, "orders", .string "1", some (.object [])⟩ := rfl

theorem publishes_orders (index : Nat) : Publishes allCollections orders index := rfl

/-- A session without a bootstrap that has been given the first change. -/
def inFlight : Session :=
  Session.publishChange
    { position := 0
      log := AckLog.new.skip
      lastPublishedSeq := 0
      pendingGated := []
      stage := .tailing }

/-- The same, when the sink has stored the change and reported it. -/
def confirmedSession : Session :=
  { inFlight with log := (inFlight.log.settle 1 (by decide) (by decide)).confirm 2 (by decide) }

/-- A second change is in flight at the crash. The restart is not past it. -/
theorem resume_token_safe_flushed : ∃ (system : System) (session : Session),
      Reachable allCollections orders system ∧ system.cursor.token = some 1 ∧
      1 ∈ system.delivered ∧ 1 ∉ system.stored ∧
      (system.start false false).session = some session ∧ session.position ≤ 1 := by
  let cold : System := ⟨0, ⟨none, false⟩, none, [], []⟩
  have started : Reachable allCollections orders (cold.start false false) :=
    Reachable.new.step (.start _ false false rfl) fun _ _ => Or.inr (by simp [System.new])
  have given : Reachable allCollections orders ⟨1, ⟨none, false⟩, some inFlight, [0], []⟩ :=
    (started.step (.write _) (by simp [System.start])).step
      (.publish _ _ _ rfl rfl (by decide) (handleEvent_orders 0)) (by simp [System.start])
  have confirmed : Reachable allCollections orders
      ⟨1, ⟨none, false⟩, some confirmedSession, [0], []⟩ :=
    (given.step (.durable _ _ 1 (by decide) (by decide) rfl) (by simp)).step
      (.confirm _ { inFlight with log := inFlight.log.settle 1 (by decide) (by decide) } 2
        (by decide) rfl) (by simp)
  have flushed := confirmed.step (.flush _ _ rfl (Or.inl rfl)) (by simp)
  have again := (flushed.step (.write _) (by simp)).step
    (.publish _ _ _ rfl rfl (by decide) (handleEvent_orders 1)) (by simp)
  have crashed := again.step (.stop _ _ rfl) (by simp)
  refine ⟨_, _, crashed, rfl, by decide, by decide, rfl, ?_⟩
  exact (resume_token_safe crashed).1 rfl (Or.inl (by decide)) false false _ rfl 1 (by decide)
    (publishes_orders 1) (by decide)

/-- Without a bootstrap no token is written before the first flush. The change in flight at
    the crash is delivered and not durable, and the restart is past it. -/
theorem crash_before_first_flush_skips : ∃ (system : System) (session : Session),
      Relation.ReflTransGen (Step allCollections orders) .new system ∧
      system.session = none ∧ (system.start false false).session = some session ∧
      ∃ index ∈ system.delivered, Publishes allCollections orders index ∧
        index ∉ system.stored ∧ ¬ session.position ≤ index := by
  have run : Relation.ReflTransGen (Step allCollections orders) .new
      ⟨1, ⟨none, false⟩, none, [0], []⟩ :=
    (((Relation.ReflTransGen.single (.start _ false false rfl)).tail (.write _)).tail
      (.publish _ _ _ rfl rfl (by decide) (handleEvent_orders 0))).tail (.stop _ inFlight rfl)
  exact ⟨_, _, run, rfl, rfl, 0, by decide, publishes_orders 0, by decide, by decide⟩

end Ventstream.MongoDb
