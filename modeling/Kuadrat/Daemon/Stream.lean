import Kuadrat.Store.Effects
import Kuadrat.Daemon.Resolve

/-!
# The event stream of a deploy

The broadcast hub, the handler that streams one deploy's events to a subscriber, and
both of them beside the writers that append to the store and publish.
-/
namespace Kuadrat

/-- The id of an event, as it is compared with a resume point from outside. -/
def StoredEvent.key (e : StoredEvent) : ℤ := e.id

def isFinished (e : StoredEvent) : Bool :=
  match e.event.kind with
  | .finished _ => true
  | .stage .. => false

/-- What `recv` reports: the next event, that some were dropped, or that every sender is gone.
`rx` is how many of the published events the receiver has then passed. -/
inductive Recv
  | event (e : StoredEvent) (rx : ℕ)
  | lagged (rx : ℕ)
  | closed

namespace Hub

/-- What a broadcast channel may report to a receiver that has passed the first `rx` of the
published events: they come in order, and nothing is dropped without `Lagged`. -/
inductive Delivers (log : List StoredEvent) (rx : ℕ) : Recv → Prop
  | event {e : StoredEvent} (h : log[rx]? = some e) : Delivers log rx (.event e (rx+1))
  | lagged {rx' : ℕ} (hlt : rx < rx') (hle : rx' ≤ log.length) : Delivers log rx (.lagged rx')
  | closed : Delivers log rx .closed

/-- A ring buffer of `capacity` slots: a receiver behind the ring is told so, and put at the
oldest event still there. -/
def recv (capacity : ℕ) (log : List StoredEvent) (rx : ℕ) : Option Recv :=
  if rx+capacity < log.length then some (.lagged (log.length-capacity))
  else log[rx]?.map fun e => .event e (rx+1)

/-- A ring of any capacity is such a channel. -/
theorem delivers_recv {capacity rx : ℕ} {log : List StoredEvent} {r : Recv}
    (h : recv capacity log rx = some r) : Delivers log rx r := by
  unfold recv at h
  split at h
  · rw [← Option.some.inj h]
    exact .lagged (by omega) (by omega)
  · obtain ⟨e,he,rfl⟩ := Option.map_eq_some_iff.mp h
    exact .event he

end Hub

/-- An open stream: its receiver, what was read before it opened, and what it has sent. -/
structure Stream where
  rx : ℕ
  alreadyTerminal : Bool
  backlog : List StoredEvent
  resume : ℤ
  lastSent : ℤ
  sent : List StoredEvent

/-- `yield`. -/
def Stream.send (st : Stream) (e : StoredEvent) : Stream :=
  { st with lastSent := e.key, sent := st.sent ++ [e] }

/-- Why a stream ended. -/
inductive StreamEnd
  | ended
  | noContent
  | storeError (why : Message)
  | hubClosed

/-- Where the handler stands between two of its steps. -/
inductive Handler
  | start
  | subscribed (rx : ℕ)
  | rowRead (rx : ℕ) (alreadyTerminal : Bool)
  | refused (e : ApiError)
  | sending (st : Stream) (ended : Bool) (backlog : List StoredEvent)
  | receiving (st : Stream)
  | lagged (st : Stream)
  | resending (st : Stream) (missed : List StoredEvent)
  | closed (st : Stream) (why : StreamEnd)

namespace Handler

def stream : Handler → Option Stream
  | sending st .. | receiving st | lagged st | resending st _ | closed st _ => some st
  | _ => none

/-- The highest id the deploy has stored. -/
def lastId (backlog : List StoredEvent) : ℤ := backlog.getLast?.elim 0 StoredEvent.key

/-- The resume point, clamped: nothing past the stored events can have been seen. -/
def resumeAt (asked : Option ℤ) (backlog : List StoredEvent) : ℤ :=
  min (asked.getD 0) (lastId backlog)

/-- Open the stream on the backlog just read, or answer `204 No Content`. -/
def openStream (asked : Option ℤ) (rx : ℕ) (alreadyTerminal : Bool) (backlog : List StoredEvent) :
    Handler :=
  let resume := resumeAt asked backlog
  let st : Stream := ⟨rx,alreadyTerminal,backlog,resume,resume,[]⟩
  if alreadyTerminal && decide (lastId backlog ≤ resume) then .closed st .noContent
  else .sending st false backlog

/-- The steps of `events_sse` on its own, with one read of the store at most in each. -/
def advance (id : ℕ) (lastEventId queryResume : Option ℤ) (store : Store) :
    Handler → Option Handler
  | .subscribed rx => match store.deploy id with
    | none => some (.refused (.notFound ["no deploy ",.text (Text.decimal id)]))
    | some row => some (.rowRead rx (row.status != .inProgress))
  | .rowRead rx alreadyTerminal => match store.eventsFor id with
    | .error e => some (.refused (.internal (Message.context
        ["reading events for ",.text (Text.decimal id)] e)))
    | .ok backlog => some (openStream (lastEventId.or queryResume) rx alreadyTerminal backlog)
  | .sending st ended (e::backlog) =>
    if e.key ≤ st.resume then some (.sending st ended backlog)
    else some (.sending (st.send e) (isFinished e) backlog)
  | .sending st ended [] =>
    if ended || st.alreadyTerminal then some (.closed st .ended) else some (.receiving st)
  | .lagged st => match store.eventsFor id with
    | .error e => some (.closed st (.storeError e))
    | .ok missed => some (.resending st missed)
  | .resending st (e::missed) =>
    if e.key ≤ st.lastSent then some (.resending st missed)
    else if isFinished e then some (.closed (st.send e) .ended)
    else some (.resending (st.send e) missed)
  | .resending st [] => some (.receiving st)
  | .start | .refused _ | .receiving _ | .closed .. => none

/-- What the stream makes of a report of its receiver. -/
def receive (id : ℕ) (st : Stream) : Recv → Handler
  | .event e rx =>
    let st := { st with rx := rx }
    if e.event.deployId ≠ id ∨ e.key ≤ st.lastSent then .receiving st
    else if isFinished e then .closed (st.send e) .ended
    else .receiving (st.send e)
  | .lagged rx => .lagged { st with rx := rx }
  | .closed => .closed st .hubClosed

end Handler

/-- The store, the hub, one writer for each deploy with the event it has appended and not yet
published, and one handler. -/
structure Streaming where
  store : Store
  log : List StoredEvent
  held : ℕ → Option StoredEvent
  handler : Handler

namespace Streaming

/-- The call neither appends an event nor ends a deploy. -/
def Silent (o : StoreOp) : Prop :=
  (∀ event, o ≠ .appendEvent event) ∧ ∀ d, ¬Store.Ends d o

variable (id : ℕ) (lastEventId queryResume : Option ℤ)

/-- One step of the writers, of the hub, or of the handler of deploy `id`. -/
inductive Step (s : Streaming) : Streaming → Prop
  /-- Any other call of the store, by anyone. -/
  | call (o : StoreOp) (ho : Silent o) : Step s { s with store := (s.store.call o).2 }
  /-- `emit` appends an event of a running deploy. -/
  | append {event : Event} {e : StoredEvent} (hrow : s.store.InProgress event.deployId)
      (hidle : s.held event.deployId = none)
      (hcall : (s.store.call (.appendEvent event)).1 = .ok e) :
      Step s { s with
        store := (s.store.call (.appendEvent event)).2
        held := Function.update s.held event.deployId (some e) }
  /-- `finished` records the end of a running deploy with its event. -/
  | finish {d : ℕ} {status : DeployStatus} {detail : Option Message} {e : StoredEvent}
      (hrow : s.store.InProgress d) (hstatus : status ≠ .inProgress) (hidle : s.held d = none)
      (hcall : (s.store.call (.finishDeployWithEvent d status detail)).1 = .ok e) :
      Step s { s with
        store := (s.store.call (.finishDeployWithEvent d status detail)).2
        held := Function.update s.held d (some e) }
  /-- `reserve` ends the row of a busy app without an event. -/
  | reject {d : ℕ} {status : DeployStatus} {detail : Option Message}
      (hrow : s.store.InProgress d) (hstatus : status ≠ .inProgress) :
      Step s { s with store := (s.store.call (.finishDeploy d status detail)).2 }
  /-- `finish_attempt` adds the event to a row that `reserve` has ended. -/
  | record {d : ℕ} {status : DeployStatus} {detail : Option Message} {e : StoredEvent}
      (hrow : s.store.finished d) (hstatus : status ≠ .inProgress) (hidle : s.held d = none)
      (hcall : (s.store.call (.finishDeployWithEvent d status detail)).1 = .ok e) :
      Step s { s with
        store := (s.store.call (.finishDeployWithEvent d status detail)).2
        held := Function.update s.held d (some e) }
  /-- A writer publishes what it has appended. -/
  | publish {d : ℕ} {e : StoredEvent} (hheld : s.held d = some e) :
      Step s { s with log := s.log ++ [e], held := Function.update s.held d none }
  | subscribe (hstart : s.handler = .start) :
      Step s { s with handler := .subscribed s.log.length }
  | advance {handler : Handler}
      (h : s.handler.advance id lastEventId queryResume s.store = some handler) :
      Step s { s with handler := handler }
  | receive {st : Stream} {r : Recv} (hrecv : s.handler = .receiving st)
      (hr : Hub.Delivers s.log st.rx r) : Step s { s with handler := .receive id st r }

/-- A daemon that has just started, over any store. -/
def initial (store : Store) : Streaming := ⟨store,[],fun _ => none,.start⟩

end Streaming
end Kuadrat
