import Kuadrat.Daemon.Clients
import Kuadrat.Daemon.Viewer

/-!
# Deploys in JSON

A deploy as the API tells it, all at once or one event after the other. Whoever polls and whoever
follows read the same events back, across broken connections, lagging streams and restarts.
-/
namespace Kuadrat

open Effect Streaming
open EventStream (Reader)
open Mcp (SerdeJson)

section Values
variable (debug : Text → Text) (stamp : ℕ → Text)

/-- An event on the wire; `stamp` has the time at which the store has inserted it. -/
structure EventOut where
  id : ℕ
  stamp : Text
  stage : Text
  status : Text
  detail : Option Text

/-- `EventOut::from`. -/
def EventOut.ofStored (e : StoredEvent) : EventOut :=
  let (stage,status) := e.event.kind.columns
  ⟨e.id,stamp e.id,stage,status,e.event.detail.map (Message.toText debug)⟩

structure DeployDetail where
  id : ℕ
  app : Text
  stage : Text
  status : Text
  detail : Option Text
  events : List EventOut

def optionalText (t : Option Text) : Json := t.elim .null .str

def EventOut.value (out : EventOut) : Json :=
  .obj [("id",.num { whole := out.id }),("at",.str out.stamp),("stage",.str out.stage),
    ("status",.str out.status),("detail",optionalText out.detail)]

def DeployDetail.value (out : DeployDetail) : Json :=
  .obj [("id",.num { whole := out.id }),("app",.str out.app),("stage",.str out.stage),
    ("status",.str out.status),("detail",optionalText out.detail),
    ("events",.arr (out.events.map EventOut.value))]

/-- What the API says of a row and its events. -/
def DeployDetail.ofRow (row : DeployRow) (events : List StoredEvent) : DeployDetail :=
  ⟨row.id,row.app,row.stage.asStr,row.status.asStr,row.detail.map (Message.toText debug),
    events.map (EventOut.ofStored debug stamp)⟩

/-- `api::get_deploy`, which reads the row from the store as it is at first, and the events from the
store as it is then. -/
def getDeploy (first after : Store) (d : ℕ) : ApiResult DeployDetail :=
  match first.deploy d with
  | none => .error (.notFound ["no deploy ",.text (Text.decimal d)])
  | some row => match after.eventsFor d with
    | .error e => .error (.internal (Message.context
        ["reading events for ",.text (Text.decimal d)] e))
    | .ok events => .ok (.ofRow debug stamp row events)

/-- `sse_event`. -/
def sseEvent (json : SerdeJson) (e : StoredEvent) : Text :=
  json.toString (EventOut.ofStored debug stamp e).value

end Values

section Readers

/-- What a client knows of an event. -/
structure EventRead where
  id : ℕ
  stamp : Text
  kind : EventKind
  detail : Option Text
  deriving DecidableEq

structure DeployRead where
  id : ℕ
  app : Text
  stage : Stage
  status : DeployStatus
  detail : Option Text
  events : List EventRead
  deriving DecidableEq

def readOptional : Json → Option (Option Text)
  | .null => some none
  | .str t => some (some t)
  | _ => none

def readText (v : Json) (key : Text) : Option Text := (v.get key).bind Json.asStr

/-- A client reads one event. -/
def readEvent (v : Json) : Option EventRead := do
  let id ← (v.get "id").bind Json.asU64
  let stamp ← readText v "at"
  let stage ← readText v "stage"
  let status ← readText v "status"
  let kind ← EventKind.ofColumns (.ofList stage) (.ofList status)
  let detail ← (v.get "detail").bind readOptional
  return ⟨id,stamp,kind,detail⟩

def readItems : Json → Option (List Json)
  | .arr items => some items
  | _ => none

/-- A client reads a deploy. -/
def readDeploy (v : Json) : Option DeployRead := do
  let id ← (v.get "id").bind Json.asU64
  let app ← readText v "app"
  let stage ← Stage.fromStr (.ofList (← readText v "stage"))
  let status ← DeployStatus.fromStr (.ofList (← readText v "status"))
  let detail ← (v.get "detail").bind readOptional
  let events ← ((v.get "events").bind readItems).bind fun items => items.mapM readEvent
  return ⟨id,app,stage,status,detail,events⟩

variable (debug : Text → Text) (stamp : ℕ → Text)

def StoredEvent.told (e : StoredEvent) : EventRead :=
  ⟨e.id,stamp e.id,e.event.kind,e.event.detail.map (Message.toText debug)⟩

def DeployRow.told (row : DeployRow) (events : List StoredEvent) : DeployRead :=
  ⟨row.id,row.app,row.stage,row.status,row.detail.map (Message.toText debug),
    events.map (StoredEvent.told debug stamp)⟩

variable {debug} {stamp}

theorem readOptional_optionalText (t : Option Text) : readOptional (optionalText t) = some t := by
  cases t <;> rfl

theorem asU64_whole {n : ℕ} (h : n < 2^64) : Json.asU64 (.num { whole := n }) = some n :=
  if_pos (by simpa using h)

theorem readEvent_value {e : StoredEvent} (hid : e.id < 2^64)
    (hkind : e.event.kind ≠ .finished .inProgress) :
    readEvent (EventOut.ofStored debug stamp e).value = some (e.told debug stamp) := by
  have hcolumns := EventKind.ofColumns_columns e.event.kind
  rw [if_neg hkind] at hcolumns
  have hread : readEvent (EventOut.ofStored debug stamp e).value = do
      let id ← Json.asU64 (.num { whole := e.id })
      let kind ← EventKind.ofColumns (.ofList e.event.kind.columns.1.toList)
        (.ofList e.event.kind.columns.2.toList)
      let detail ← readOptional (optionalText (e.event.detail.map (Message.toText debug)))
      return ⟨id,stamp e.id,kind,detail⟩ := rfl
  rw [hread,asU64_whole hid,String.ofList_toList,String.ofList_toList,hcolumns,
    readOptional_optionalText]
  rfl

theorem readEvents_value {events : List StoredEvent} (hid : ∀ e ∈ events, e.id < 2^64)
    (hkind : ∀ e ∈ events, e.event.kind ≠ .finished .inProgress) :
    ((events.map (EventOut.ofStored debug stamp)).map EventOut.value).mapM readEvent =
      some (events.map (StoredEvent.told debug stamp)) := by
  induction events with
  | nil => rfl
  | cons e events ih =>
    obtain ⟨he,hid⟩ := List.forall_mem_cons.mp hid
    obtain ⟨hk,hkind⟩ := List.forall_mem_cons.mp hkind
    rw [List.map_cons,List.map_cons,List.mapM_cons,readEvent_value he hk,ih hid hkind]
    rfl

theorem readDeploy_value {row : DeployRow} {events : List StoredEvent} (hrow : row.id < 2^64)
    (hid : ∀ e ∈ events, e.id < 2^64)
    (hkind : ∀ e ∈ events, e.event.kind ≠ .finished .inProgress) :
    readDeploy (DeployDetail.ofRow debug stamp row events).value =
      some (row.told debug stamp events) := by
  have hread : readDeploy (DeployDetail.ofRow debug stamp row events).value = do
      let id ← Json.asU64 (.num { whole := row.id })
      let stage ← Stage.fromStr (.ofList row.stage.asStr.toList)
      let status ← DeployStatus.fromStr (.ofList row.status.asStr.toList)
      let detail ← readOptional (optionalText (row.detail.map (Message.toText debug)))
      let events ← ((events.map (EventOut.ofStored debug stamp)).map EventOut.value).mapM readEvent
      return ⟨id,row.app,stage,status,detail,events⟩ := rfl
  rw [hread,asU64_whole hrow,String.ofList_toList,String.ofList_toList,Stage.fromStr_asStr,
    DeployStatus.fromStr_asStr,readOptional_optionalText,readEvents_value hid hkind]
  rfl

theorem kind_eventsFor {s : Store} {d : ℕ} {events : List StoredEvent}
    (h : s.eventsFor d = .ok events) : ∀ e ∈ events, e.event.kind ≠ .finished .inProgress := by
  have hevents := Store.eventsFor_eq_ok h
  unfold Store.eventsFor at h
  dsimp only at h
  rw [← hevents] at h
  split at h
  · cases h
  · rename_i hany
    rw [Bool.not_eq_true,List.any_eq_false] at hany
    exact fun e he => by simpa using hany e he

end Readers

section Follower
variable (w : SseWriter) (debug : Text → Text) (stamp : ℕ → Text) (json : SerdeJson) (d : ℕ)

/-- A client on the event stream of the API, which has no page before it and no `?resume=`: one step
of the daemon, of the network, or of the client. -/
inductive FollowerStep (v : Viewer) : Viewer → Prop
  | daemon {s : Streaming}
    (h : Streaming.Step d (resumeFrom (lastEventIdHeader v.source)) none v.daemon s) :
    FollowerStep v { v with
      daemon := s
      items := v.items ++ (s.handler.sent.drop v.daemon.handler.sent.length).map some }
  | keepAlive : FollowerStep v { v with items := v.items ++ [none] }
  | arrive {cut : Text} (hmore : v.arrived <+: cut)
    (hcut : cut <+: w.wire (eventsSent (sseEvent debug stamp json) v.items)) :
    FollowerStep v { v with arrived := cut }
  | reconnect : FollowerStep v (v.reconnected v.daemon)
  | restart : FollowerStep v (v.reconnected (initial v.daemon.store))

variable {w debug stamp json d} {v v' : Viewer}

/-- No resume point is one before all events. -/
theorem resumeAt_none (lastEventId : Option ℤ) (backlog : List StoredEvent) :
    Handler.resumeAt (lastEventId.or none) backlog =
      Handler.resumeAt (lastEventId.or (some 0)) backlog := by
  cases lastEventId <;> rfl

theorem advance_none (lastEventId : Option ℤ) (store : Store) (handler : Handler) :
    handler.advance d lastEventId none store = handler.advance d lastEventId (some 0) store := by
  cases handler with
  | rowRead rx terminal =>
    simp only [Handler.advance,Handler.openStream,resumeAt_none]
  | sending st ended backlog => cases backlog <;> rfl
  | resending st missed => cases missed <;> rfl
  | _ => rfl

theorem step_none {lastEventId : Option ℤ} {s s' : Streaming}
    (h : Streaming.Step d lastEventId none s s') : Streaming.Step d lastEventId (some 0) s s' := by
  cases h with
  | call o ho => exact .call o ho
  | append hrow hidle hcall => exact .append hrow hidle hcall
  | finish hrow hstatus hidle hcall => exact .finish hrow hstatus hidle hcall
  | reject hrow hstatus => exact .reject hrow hstatus
  | record hrow hstatus hidle hcall => exact .record hrow hstatus hidle hcall
  | publish hheld => exact .publish hheld
  | subscribe hstart => exact .subscribe hstart
  | advance hadv => exact .advance (advance_none lastEventId s.store s.handler ▸ hadv)
  | receive hrecv hr => exact .receive hrecv hr

/-- A follower is a viewer whose page has no rows. -/
theorem viewerStep_of_follower (h : FollowerStep w debug stamp json d v v') (hpage : v.page = []) :
    Viewer.Step w (sseEvent debug stamp json) d v v' ∧ v'.page = [] := by
  cases h with
  | daemon hstep =>
    refine ⟨.daemon ?_,hpage⟩
    rw [hpage]
    exact step_none hstep
  | keepAlive => exact ⟨.keepAlive,hpage⟩
  | arrive hmore hcut => exact ⟨.arrive hmore hcut,hpage⟩
  | reconnect => exact ⟨.reconnect,hpage⟩
  | restart => exact ⟨.restart,hpage⟩

theorem viewerRun_of_follower {s : Streaming}
    (h : Relation.ReflTransGen (FollowerStep w debug stamp json d) (Viewer.opened [] s) v) :
    Relation.ReflTransGen (Viewer.Step w (sseEvent debug stamp json) d) (Viewer.opened [] s) v ∧
      v.page = [] := by
  refine run_induction (fun t => Relation.ReflTransGen
    (Viewer.Step w (sseEvent debug stamp json) d) (Viewer.opened [] s) t ∧ t.page = [])
    ⟨.refl,rfl⟩ (fun t t' ht hstep => ?_) h
  obtain ⟨hview,hpage⟩ := viewerStep_of_follower hstep ht.2
  exact ⟨ht.1.tail hview,hpage⟩

/-- A JSON text goes over the wire as it is. -/
theorem sanitize_toString (json : SerdeJson) (x : Json) :
    sanitize (json.toString x) = json.toString x := by
  have hprintable := (json.writes x).printable
  unfold sanitize
  conv_rhs => rw [← List.map_id (json.toString x)]
  refine List.map_congr_left fun c hc => if_neg ?_
  rintro (rfl | rfl)
  · exact hprintable.notMem (by decide) hc
  · exact hprintable.notMem (by decide) hc

/-- The value is read back from its text. -/
def RoundTrips (json : SerdeJson) (x : Json) : Prop := json.fromStr (json.toString x) = .ok x

theorem parseJson_toString {x : Json} (h : RoundTrips json x) :
    parseJson json (json.toString x) = some x := by
  rw [parseJson,h]

/-- An event of the stream, as the client reads it. -/
theorem readEvent_shown {e : StoredEvent} (hid : e.id < 2^64)
    (hkind : e.event.kind ≠ .finished .inProgress)
    (hread : RoundTrips json (EventOut.ofStored debug stamp e).value) :
    (parseJson json (shown (sseEvent debug stamp json) e).data).bind readEvent =
      some (e.told debug stamp) := by
  have hdata : (shown (sseEvent debug stamp json) e).data = sseEvent debug stamp json e :=
    sanitize_toString json _
  rw [hdata,sseEvent,parseJson_toString hread,Option.bind_some,readEvent_value hid hkind]

theorem getDeploy_eq {first after : Store} {row : DeployRow} {all : List StoredEvent}
    (hrow : first.deploy d = some row) (hall : after.eventsFor d = .ok all) :
    getDeploy debug stamp first after d = .ok (.ofRow debug stamp row all) := by
  rw [getDeploy,hrow]
  dsimp only
  rw [hall]

/-- A client polls a deploy at any moment, and another has followed its stream up to then, whatever
became of the connections and of the daemon. The one reads the row, as it was when the handler read
it, and all of the events; the other has read an initial segment of the same events, each once and
in order, and all that its request read when that is answered `204 No Content`. -/
theorem deploy_told {store : Store} {lastEventId queryResume : Option ℤ} {s : Streaming}
    (hnumbered : store.Numbered)
    (hdaemon : Relation.ReflTransGen (Streaming.Step d lastEventId queryResume) (initial store) s)
    (hrun : Relation.ReflTransGen (FollowerStep w debug stamp json d) (Viewer.opened [] s) v)
    (hd : d < 2^63) (hbound : v.daemon.store.lastEvent < 2^63)
    {first : Store} {row : DeployRow} {all : List StoredEvent} (hrow : first.deploy d = some row)
    (hall : v.daemon.store.eventsFor d = .ok all)
    (hread : RoundTrips json (DeployDetail.ofRow debug stamp row all).value ∧
      ∀ e ∈ all, RoundTrips json (EventOut.ofStored debug stamp e).value) :
    getDeploy debug stamp first v.daemon.store d = .ok (.ofRow debug stamp row all) ∧
    (parseJson json (json.toString (DeployDetail.ofRow debug stamp row all).value)).bind readDeploy =
      some (row.told debug stamp all) ∧
    ∃ es, es <+: all ∧ (v.received.events.map fun m => (parseJson json m.data).bind readEvent) =
      es.map (fun e => some (e.told debug stamp)) ∧
      ∀ st, v.daemon.handler = .closed st .noContent → es = st.backlog := by
  have hlog : all = eventsOf d v.daemon.store := Store.eventsFor_eq_ok hall
  have hid : ∀ e ∈ all, e.id < 2^64 := by
    intro e he
    rw [hlog] at he
    have hle := v.daemon.store.events_le e (mem_eventsOf.mp he).1
    omega
  have hrowid : row.id = d := by
    have hfound := List.find?_some hrow
    simpa using hfound
  refine ⟨getDeploy_eq hrow hall,?_,?_⟩
  · rw [parseJson_toString hread.1,Option.bind_some]
    exact readDeploy_value (by omega) hid (kind_eventsFor hall)
  · obtain ⟨hview,hpage⟩ := viewerRun_of_follower hrun
    obtain ⟨es,hevents,htold,hend⟩ := Viewer.told_of_opened
      (Viewer.faithful_of_run hnumbered hdaemon List.nil_prefix) hview hbound
    rw [hpage,List.nil_append] at htold hend
    refine ⟨es,hlog ▸ htold,?_,fun st hclosed => hend st (.inl hclosed)⟩
    rw [hevents,List.map_map]
    refine List.map_congr_left fun e he => ?_
    have hmem : e ∈ all := (hlog ▸ htold).subset he
    exact readEvent_shown (hid e hmem) (kind_eventsFor hall e hmem) (hread.2 e hmem)

section Sample

/-- The events of a deploy whose second stage fails. -/
def failedEvents : List StoredEvent :=
  [⟨1,.forStage 1 .build .started none⟩,⟨2,.forStage 1 .build .failed (some ["exit 1"])⟩,
    ⟨3,.finished 1 .failed (some ["exit 1"])⟩]

def failedRow : DeployRow := ⟨1,"web",.detect,.failed,some ["exit 1"]⟩

def sampleStamp (_ : ℕ) : Text := "2026-08-11 10:00:00"

def eventValue (e : StoredEvent) : Json := (EventOut.ofStored id sampleStamp e).value
def rowValue : Json := (DeployDetail.ofRow id sampleStamp failedRow failedEvents).value

def deployValues : List Json := rowValue::failedEvents.map eventValue

/-- A reader that knows the values of the deploy. -/
def deployJson : SerdeJson where
  fromStr t := (deployValues.find? fun v => v.compact == t).elim
    (.error "expected value at line 1 column 1") .ok
  toString := Json.compact
  writes := Json.writes_compact

theorem find_compact {values : List Json} (h : (values.map Json.compact).Nodup) {x : Json}
    (hx : x ∈ values) : values.find? (fun v => v.compact == x.compact) = some x := by
  induction values with
  | nil => cases hx
  | cons v values ih =>
    rw [List.map_cons,List.nodup_cons] at h
    rcases List.mem_cons.mp hx with rfl | hx
    · exact List.find?_cons_of_pos (beq_self_eq_true x.compact)
    · have hne : v.compact ≠ x.compact := fun heq => h.1 (heq ▸ List.mem_map_of_mem hx)
      rw [List.find?_cons_of_neg (by simpa using hne)]
      exact ih h.2 hx

theorem roundTrips_deployJson : RoundTrips deployJson rowValue ∧ ∀ e ∈ failedEvents,
    RoundTrips deployJson (EventOut.ofStored id sampleStamp e).value := by
  have hdistinct : (deployValues.map Json.compact).Nodup := by decide +kernel
  have hread : ∀ x ∈ deployValues, RoundTrips deployJson x := by
    intro x hx
    simp only [RoundTrips,deployJson,find_compact hdistinct hx,Option.elim_some]
  refine ⟨hread _ List.mem_cons_self,fun e he => hread _ ?_⟩
  exact List.mem_cons_of_mem _ (List.mem_map_of_mem he)

/-- A client has one event when the daemon is started again. The stream that it opens then lags, and
reads the other two from the store; its next request is answered `204`. -/
theorem one_deploy_told : ∃ (v : Viewer) (st : Stream), v.daemon.handler = .closed st .noContent ∧
    st.backlog.map StoredEvent.id = [1,2,3] ∧
    (v.received.events.map fun m => (parseJson deployJson m.data).bind readEvent) =
      st.backlog.map fun e => some (e.told id sampleStamp) := by
  have run : ∃ s : Streaming, Relation.ReflTransGen (Streaming.Step 1 none none) (initial .empty) s ∧
      ∃ v : Viewer, Relation.ReflTransGen (FollowerStep .plain id sampleStamp deployJson 1)
          (Viewer.opened [] s) v ∧
        v.daemon.store.lastEvent < 2^63 ∧ v.daemon.store.deploy 1 = some failedRow ∧
        v.daemon.store.eventsFor 1 = .ok failedEvents ∧
        (match v.daemon.handler with
        | .closed st .noContent => some (st.backlog.map StoredEvent.id)
        | _ => none) = some [1,2,3] := by
    refine ⟨_,.tail (.tail (.tail .refl
      (.call (.createDeploy "web") (silent_createDeploy _)))
      (@Streaming.Step.append _ _ _ _ (.forStage 1 .build .started none) _ ⟨_,rfl,rfl⟩ rfl rfl))
      (@Streaming.Step.publish _ _ _ _ 1 _ rfl),_,
      .tail (.tail (.tail (.tail (.tail (.tail (.tail (.tail (.tail (.tail (.tail (.tail (.tail
        (.tail (.tail (.tail (.tail (.tail (.tail (.tail (.tail (.tail (.tail (.tail .refl
        (.daemon (.subscribe rfl)))
        (.daemon (.advance rfl)))
        (.daemon (.advance rfl)))
        (.daemon (.advance rfl)))
        (.arrive List.nil_prefix (List.prefix_refl _)))
        .restart)
        (.daemon (.subscribe rfl)))
        (.daemon (.advance rfl)))
        (.daemon (.advance rfl)))
        (.daemon (.advance rfl)))
        (.daemon (.advance rfl)))
        (.daemon (@Streaming.Step.append _ _ _ _ (.forStage 1 .build .failed (some ["exit 1"])) _
          ⟨_,rfl,rfl⟩ rfl rfl)))
        (.daemon (@Streaming.Step.publish _ _ _ _ 1 _ rfl)))
        (.daemon (@Streaming.Step.finish _ _ _ _ 1 .failed (some ["exit 1"]) _ ⟨_,rfl,rfl⟩
          (by decide) rfl rfl)))
        (.daemon (@Streaming.Step.receive _ _ _ _ _ (.lagged 1) rfl (.lagged ?_ ?_))))
        (.daemon (.advance rfl)))
        (.daemon (.advance rfl)))
        (.daemon (.advance rfl)))
        (.daemon (.advance rfl)))
        (.arrive List.nil_prefix (List.prefix_refl _)))
        .reconnect)
        (.daemon (.subscribe rfl)))
        (.daemon (.advance rfl)))
        (.daemon (.advance rfl)),?_⟩
    all_goals decide +kernel
  obtain ⟨s,hdaemon,v,hrun,hbound,hrow,hall,hend⟩ := run
  split at hend
  case h_2 => cases hend
  rename_i st hclosed
  have hnumbered : Store.empty.Numbered := List.forall_mem_nil _
  obtain ⟨-,-,es,-,hevents,hlast⟩ :=
    deploy_told hnumbered hdaemon hrun (by decide) hbound hrow hall roundTrips_deployJson
  exact ⟨v,st,hclosed,Option.some.inj hend,hlast st hclosed ▸ hevents⟩

end Sample

end Follower

end Kuadrat
