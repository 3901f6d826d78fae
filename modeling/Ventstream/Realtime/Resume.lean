import Ventstream.Realtime.Delivery

/-! # Subscriptions of a resumed connection

After a reconnect the client sends its subscriptions one by one, while the pump drains the
session that starts at the client's cursor. The pump waits for the first subscription and not
for the others: what it takes meanwhile is settled without them.
-/

namespace Ventstream.Realtime

open List

/-- A connection with its durable session. The mailbox has the places of the events in the
    session, with the subscriptions that they are for. -/
structure Session where
  unread : List ClientMessage
  connection : Connection
  next : Nat
  mailbox : List (Nat × List String)
  closed : Bool

def Session.take (session : Session) (delivery : BrokerEvent) : Session :=
  match pump session.connection.subscriptions delivery with
  | .unrecoverable => { session with closed := true }
  | .settled => { session with next := session.next + 1 }
  | .enqueue ids => { session with
      next := session.next + 1
      mailbox := session.mailbox ++ [(session.next, ids)] }

/-- The connection task reads a frame; the pump takes the next of the events after the cursor, once
    there is a subscription; and whatever ends one of the two closes the connection. What the pump
    takes can be restricted by a condition on the state. -/
inductive Step (evs : List BrokerEvent) (may : Session → BrokerEvent → Prop) :
    Session → Session → Prop where
  | read (session : Session) (frame : ClientMessage) (rest : List ClientMessage) :
      session.unread = frame :: rest → Step evs may session { session with
        unread := rest
        connection := session.connection.receive frame }
  | take (session : Session) (delivery : BrokerEvent) : session.closed = false →
      session.connection.subscriptions ≠ [] → evs[session.next]? = some delivery →
      may session delivery → Step evs may session (session.take delivery)
  | close (session : Session) : Step evs may session { session with closed := true }

def subscribes (frames : List (String × String)) : List ClientMessage :=
  frames.map fun frame => .subscribe frame.1 frame.2

/-- The states of a connection whose client sends these subscriptions. -/
def Reached (tenant : String) (frames : List (String × String)) (evs : List BrokerEvent)
    (may : Session → BrokerEvent → Prop) (session : Session) : Prop :=
  Relation.ReflTransGen (Step evs may) ⟨subscribes frames, ⟨tenant, []⟩, 0, [], false⟩ session

/-- The event at a place, if it is valid and subscriptions are for it, is in the mailbox for all of
    them. -/
def Filled (subscriptions : List Subscription) (evs : List BrokerEvent)
    (mailbox : List (Nat × List String)) (place : Nat) : Prop :=
  ∀ delivery, evs[place]? = some delivery → delivery.envelope.isSome →
    delivery.isUtf8 = true → matched subscriptions delivery.subject ≠ [] →
    (place, matched subscriptions delivery.subject) ∈ mailbox

/-- What the pump has taken is in the mailbox for all subscriptions of the client, or the
    connection was closed before a later event got there. -/
def Complete (subscriptions : List Subscription) (evs : List BrokerEvent) (session : Session) :
    Prop :=
  ∀ place < session.next, Filled subscriptions evs session.mailbox place ∨
    session.closed = true ∧ ∀ entry ∈ session.mailbox, entry.1 ≤ place

/-- No subscription that is still to be read is for the event. -/
def Awaited (session : Session) (delivery : BrokerEvent) : Prop :=
  ∀ id text pattern, .subscribe id text ∈ session.unread →
    SubjectPattern.anchored session.connection.tenant text = .ok pattern →
    pattern.matchesStr delivery.subject = false

section

variable {tenant subject : String} {frames : List (String × String)} {evs : List BrokerEvent}
  {session later : Session}

theorem matched_receive (unwanted : ∀ frame ∈ frames, ∀ pattern,
      SubjectPattern.anchored connection.tenant frame.2 = .ok pattern →
      pattern.matchesStr subject = false) :
    matched ((subscribes frames).foldl Connection.receive connection).subscriptions subject =
      matched connection.subscriptions subject := by
  induction frames generalizing connection with
  | nil => rfl
  | cons frame rest ih =>
    have first := unwanted frame mem_cons_self
    have others := fun other mem => unwanted other (mem_cons_of_mem _ mem)
    simp only [subscribes, map_cons, foldl_cons, Connection.receive] at ih ⊢
    cases isAnchored : SubjectPattern.anchored connection.tenant frame.2 with
    | error error => exact ih others
    | ok pattern =>
      rw [ih]
      · simp [matched, filter_append, first pattern isAnchored]
      · exact others

theorem pump_of_wanted (isSome : delivery.envelope.isSome) (isText : delivery.isUtf8)
    (wanted : matched subscriptions delivery.subject ≠ []) :
    pump subscriptions delivery = .unrecoverable ∨
      pump subscriptions delivery = .enqueue (matched subscriptions delivery.subject) := by
  obtain ⟨envelope, isEnvelope⟩ := Option.isSome_iff_exists.mp isSome
  unfold pump
  cases hasCursor delivery <;> simp [isEnvelope, isText, wanted]

structure Session.Kept (subscriptions : List Subscription) (evs : List BrokerEvent)
    (session : Session) : Prop where
  subscribing : ∃ frames, session.unread = subscribes frames
  final : (session.unread.foldl Connection.receive session.connection).subscriptions = subscriptions
  filled : ∀ place < session.next, Filled subscriptions evs session.mailbox place

theorem Session.Kept.step {subscriptions} (kept : session.Kept subscriptions evs)
    (step : Step evs Awaited session later) : later.Kept subscriptions evs := by
  obtain ⟨frames, isUnread⟩ := kept.subscribing
  cases step with
  | read frame rest isNext =>
    obtain ⟨_, others, rfl, -, rfl⟩ := map_eq_cons_iff.mp (isUnread.symm.trans isNext)
    refine ⟨⟨others, rfl⟩, ?_, kept.filled⟩
    rw [← kept.final, isNext]
    rfl
  | close => exact ⟨kept.subscribing, kept.final, kept.filled⟩
  | take delivery opened some isNext awaited =>
    -- nothing that is still unread adds to what the event is for
    have present : matched subscriptions delivery.subject =
        matched session.connection.subscriptions delivery.subject := by
      rw [← kept.final, isUnread]
      refine matched_receive fun frame mem pattern => awaited frame.1 frame.2 pattern ?_
      rw [isUnread]
      exact mem_map_of_mem mem
    have grown : ∀ mailbox, session.mailbox ⊆ mailbox →
        Filled subscriptions evs mailbox session.next →
        ∀ place < session.next + 1, Filled subscriptions evs mailbox place := by
      intro mailbox more filled place before
      rcases Nat.lt_succ_iff_lt_or_eq.mp before with earlier | rfl
      · exact fun other isOther isSome isText wanted =>
          more (kept.filled place earlier other isOther isSome isText wanted)
      · exact filled
    unfold Session.take
    split
    · exact ⟨kept.subscribing, kept.final, kept.filled⟩
    · refine ⟨kept.subscribing, kept.final, grown _ (List.Subset.refl _) ?_⟩
      intro other isOther isSome isText wanted
      rw [isNext] at isOther
      cases isOther
      rcases pump_of_wanted isSome isText (present ▸ wanted) with stops | enqueues <;> simp_all
    · refine ⟨kept.subscribing, kept.final, grown _ (subset_append_left _ _) ?_⟩
      intro other isOther isSome isText wanted
      rw [isNext] at isOther
      cases isOther
      rcases pump_of_wanted isSome isText (present ▸ wanted) with stops | isAll <;> simp_all

/-- If the pump takes events only when no unread subscription is for them, then every event after
    the cursor reaches all subscriptions that it is for. -/
theorem resumed_events_reach_subscriptions (reached : Reached tenant frames evs Awaited session) :
    Complete (connected tenant (subscribes frames)).subscriptions evs session := by
  have kept : session.Kept (connected tenant (subscribes frames)).subscriptions evs := by
    induction reached with
    | refl => exact ⟨⟨frames, rfl⟩, rfl, nofun⟩
    | tail _ step ih => exact ih.step step
  exact fun place before => .inl (kept.filled place before)

/-- A client with subscriptions to orders and to desks, and a backlog with a desk. -/
def desk : BrokerEvent where
  subject := "vs.t.acme.desks.1"
  payload := .ok ⟨"acme", "desks", "1", none, 2⟩
  isUtf8 := true
  cursor := some ⟨.redisStreams, "1-0"⟩

def twoSubscriptions : List (String × String) := [("orders", "orders.*"), ("desks", "desks.*")]

theorem resumed_events_reach_subscriptions_desk :
    ∃ session, Reached "acme" twoSubscriptions [desk] Awaited session ∧ session.next = 1 ∧
      Complete (connected "acme" (subscribes twoSubscriptions)).subscriptions [desk] session := by
  have reached : ∃ session, Reached "acme" twoSubscriptions [desk] Awaited session ∧
      session.next = 1 :=
    ⟨_, .head (.read _ _ _ rfl) (.head (.read _ _ _ rfl) (.single
      (.take _ desk rfl (by decide +kernel) rfl fun _ _ _ member => absurd member not_mem_nil))),
      by decide +kernel⟩
  obtain ⟨session, reached, isNext⟩ := reached
  exact ⟨session, reached, isNext, resumed_events_reach_subscriptions reached⟩

/-- The desk is taken between the two subscriptions, and the client never gets it. -/
theorem desk_passes_before_subscription :
    ∃ session, Reached "acme" twoSubscriptions [desk] (fun _ _ => True) session ∧
      session.unread = [] ∧ session.mailbox = [] ∧ session.closed = false ∧
      ¬ Complete (connected "acme" (subscribes twoSubscriptions)).subscriptions [desk] session := by
  refine ⟨_, .head (.read _ _ _ rfl) (.head (.take _ desk rfl (by decide +kernel) rfl trivial)
    (.single (.read _ _ _ rfl))), rfl, by decide +kernel, rfl, fun complete => ?_⟩
  rcases complete 0 (by decide +kernel) with filled | closed
  · exact absurd (filled desk rfl (by decide +kernel) rfl (by decide +kernel)) (by decide +kernel)
  · exact absurd closed.1 (by decide +kernel)

end

end Ventstream.Realtime
