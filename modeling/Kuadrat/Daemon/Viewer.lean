import Kuadrat.Daemon.Timeline
import Kuadrat.Daemon.Wire

/-!
# The timeline in a browser

A page of a running deploy shows the events that were stored when it was made, and appends
what its event source receives. Connections break anywhere, streams lag, and the daemon may
be started again; over all of that, the rows and what one source has received are the deploy's
log up to a point. The script of the page opens a source again once one is closed, and the new
one starts after the rows: what the page shows, it then shows twice.
-/
namespace Kuadrat

open Effect Streaming
open EventStream (Reader)

/-- The page and one event source: the events that came with the page, the reader as the
connections before left it, and of the current connection what it has been given to write and how
much of that has arrived. -/
structure Viewer where
  page : List StoredEvent
  source : Reader
  items : List (Option StoredEvent)
  arrived : Text
  daemon : Streaming

/-- What the handler has sent on its stream. -/
def Handler.sent (handler : Handler) : List StoredEvent := handler.stream.elim [] Stream.sent

namespace Viewer
variable (w : SseWriter) (render : StoredEvent → Text) (d : ℕ)

/-- The page of a deploy, with the `?resume=` of its last row in the URL of its stream. -/
def opened (page : List StoredEvent) (daemon : Streaming) : Viewer :=
  ⟨page,{},[],[],{ daemon with handler := .start }⟩

/-- The source with what has arrived on the current connection. -/
def received (v : Viewer) : Reader := v.source.feed v.arrived

/-- What has been shown, and a new request for what comes after it. -/
def reconnected (v : Viewer) (daemon : Streaming) : Viewer :=
  ⟨v.page,v.received.reconnect,[],[],{ daemon with handler := .start }⟩

/-- One step of the daemon, of the network, or of the browser, whose event source connects again by
itself. -/
inductive Step (v : Viewer) : Viewer → Prop
  /-- The writers, the hub, or the handler of the current connection. -/
  | daemon {s : Streaming} (h : Streaming.Step d (resumeFrom (lastEventIdHeader v.source))
      (some (Handler.lastId v.page)) v.daemon s) :
      Step v { v with
        daemon := s
        items := v.items ++ (s.handler.sent.drop v.daemon.handler.sent.length).map some }
  | keepAlive : Step v { v with items := v.items ++ [none] }
  /-- More of what was written arrives. -/
  | arrive {cut : Text} (hmore : v.arrived <+: cut)
      (hcut : cut <+: w.wire (eventsSent render v.items)) : Step v { v with arrived := cut }
  /-- The connection is gone, at any point, and the browser connects again. -/
  | reconnect : Step v (v.reconnected v.daemon)
  /-- The daemon is started again: the store is all it keeps. -/
  | restart : Step v (v.reconnected (initial v.daemon.store))

end Viewer

section Handlers
variable {d : ℕ} {lastEventId queryResume : Option ℤ} {store : Store} {handler handler' : Handler}

/-- What a step of a handler makes of its stream: it may send one event more, a stream that opens
does so on what the store holds, and `204` is for one with nothing new. -/
structure Handler.Follows (d : ℕ) (store : Store) (handler handler' : Handler) : Prop where
  sent : handler.sent <+: handler'.sent
  backlog : ∀ st', handler'.stream = some st' →
    (∃ st, handler.stream = some st ∧ st.backlog = st'.backlog) ∨
      st'.backlog = eventsOf d store
  seen : ∀ st', handler' = .closed st' .noContent → handler = handler' ∨
    Handler.lastId st'.backlog ≤ st'.resume ∧ st'.sent = []

theorem Handler.Follows.refl (d : ℕ) (store : Store) (handler : Handler) :
    handler.Follows d store handler :=
  ⟨List.prefix_refl _,fun st' h => .inl ⟨st',h,rfl⟩,fun _ _ => .inl rfl⟩

/-- A step within a stream. -/
theorem follows_of_stream {st st' : Stream} (h : handler.stream = some st)
    (h' : handler'.stream = some st') (hsent : st.sent <+: st'.sent)
    (hbacklog : st.backlog = st'.backlog)
    (hcode : ∀ t, handler' ≠ .closed t .noContent) : handler.Follows d store handler' where
  sent := by
    rw [Handler.sent,Handler.sent,h,h']
    exact hsent
  backlog t ht := by
    rw [h'] at ht
    cases ht
    exact .inl ⟨st,h,hbacklog⟩
  seen t ht := absurd ht (hcode t)

theorem prefix_send (st : Stream) (e : StoredEvent) : st.sent <+: (st.send e).sent :=
  List.prefix_append _ _

/-- A step to a place without a stream. -/
theorem follows_of_none (h : handler.stream = none) (h' : handler'.stream = none) :
    handler.Follows d store handler' where
  sent := by
    have hsame : handler.sent = handler'.sent := by rw [Handler.sent,Handler.sent,h,h']
    exact hsame ▸ List.prefix_refl _
  backlog t ht := by
    rw [h'] at ht
    cases ht
  seen t ht := by
    rw [ht] at h'
    cases h'

theorem follows_openStream {asked : Option ℤ} {rx : ℕ} {terminal : Bool}
    {backlog : List StoredEvent} (h : handler.stream = none)
    (hread : store.eventsFor d = .ok backlog) :
    handler.Follows d store (Handler.openStream asked rx terminal backlog) := by
  have hbacklog : backlog = eventsOf d store := Store.eventsFor_eq_ok hread
  have hnil : handler.sent = [] := by rw [Handler.sent,h]; rfl
  refine ⟨by rw [hnil]; exact List.nil_prefix,fun st' hst' => .inr ?_,fun st' hst' => .inr ?_⟩
  · unfold Handler.openStream at hst'
    dsimp only at hst'
    split at hst' <;> cases hst' <;> exact hbacklog
  · unfold Handler.openStream at hst'
    dsimp only at hst'
    split at hst'
    · rename_i hseen
      cases hst'
      simp only [Bool.and_eq_true,decide_eq_true_eq] at hseen
      exact ⟨hseen.2,rfl⟩
    · cases hst'

theorem follows_advance
    (h : handler.advance d lastEventId queryResume store = some handler') :
    handler.Follows d store handler' := by
  cases handler with
  | start | refused | receiving | closed => exact nomatch h
  | subscribed rx =>
    simp only [Handler.advance] at h
    split at h <;> cases h <;> exact follows_of_none rfl rfl
  | rowRead rx terminal =>
    simp only [Handler.advance] at h
    split at h
    · cases h
      exact follows_of_none rfl rfl
    · rename_i hread
      cases h
      exact follows_openStream rfl hread
  | sending st ended todo =>
    cases todo with
    | nil =>
      simp only [Handler.advance] at h
      split at h <;> cases h
      · exact follows_of_stream rfl rfl (List.prefix_refl _) rfl (by simp)
      · exact follows_of_stream rfl rfl (List.prefix_refl _) rfl (by simp)
    | cons e todo =>
      simp only [Handler.advance] at h
      split at h <;> cases h
      · exact follows_of_stream rfl rfl (List.prefix_refl _) rfl (by simp)
      · exact follows_of_stream rfl rfl (prefix_send st e) rfl (by simp)
  | lagged st =>
    simp only [Handler.advance] at h
    split at h <;> cases h
    · exact follows_of_stream rfl rfl (List.prefix_refl _) rfl (by simp)
    · exact follows_of_stream rfl rfl (List.prefix_refl _) rfl (by simp)
  | resending st todo =>
    cases todo with
    | nil =>
      cases h
      exact follows_of_stream rfl rfl (List.prefix_refl _) rfl (by simp)
    | cons e todo =>
      simp only [Handler.advance] at h
      split at h
      · cases h
        exact follows_of_stream rfl rfl (List.prefix_refl _) rfl (by simp)
      split at h <;> cases h
      · exact follows_of_stream rfl rfl (prefix_send st e) rfl (by simp)
      · exact follows_of_stream rfl rfl (prefix_send st e) rfl (by simp)

/-- How much a stream has sent of the events it was opened on: all those after its resume point,
up to what is left of them. None goes on to its channel once its deploy had ended. -/
def Handler.Whole : Handler → Prop
  | .start | .subscribed _ | .rowRead .. | .refused _ => True
  | .sending st _ backlog => st.sent ++ beyond StoredEvent.key st.resume backlog =
      beyond StoredEvent.key st.resume st.backlog
  | .receiving st | .lagged st | .resending st _ => st.alreadyTerminal = false
  | .closed st why => st.alreadyTerminal = true → why = .ended →
      st.sent = beyond StoredEvent.key st.resume st.backlog

theorem whole_openStream {asked : Option ℤ} {rx : ℕ} {terminal : Bool}
    {backlog : List StoredEvent} : (Handler.openStream asked rx terminal backlog).Whole := by
  unfold Handler.openStream
  dsimp only
  split
  · exact fun _ h => StreamEnd.noConfusion h
  · rfl

theorem whole_advance (h : handler.Whole)
    (hadv : handler.advance d lastEventId queryResume store = some handler') : handler'.Whole := by
  cases handler with
  | start | refused | receiving | closed => exact nomatch hadv
  | subscribed rx =>
    simp only [Handler.advance] at hadv
    split at hadv <;> cases hadv <;> trivial
  | rowRead rx terminal =>
    simp only [Handler.advance] at hadv
    split at hadv <;> cases hadv
    · trivial
    · exact whole_openStream
  | sending st ended todo =>
    cases todo with
    | nil =>
      have hall : st.sent = beyond StoredEvent.key st.resume st.backlog :=
        (List.append_nil _).symm.trans h
      simp only [Handler.advance] at hadv
      split at hadv <;> cases hadv
      · exact fun _ _ => hall
      · rename_i hlive
        exact (Bool.or_eq_false_iff.mp (Bool.eq_false_iff.mpr hlive)).2
    | cons e todo =>
      simp only [Handler.Whole,beyond,List.filter_cons] at h
      simp only [Handler.advance] at hadv
      split at hadv <;> cases hadv
      · rename_i hseen
        rw [if_neg (by simpa using hseen)] at h
        exact h
      · rename_i hnew
        rw [if_pos (by simpa using hnew)] at h
        exact (List.append_assoc _ _ _).trans h
  | lagged st =>
    simp only [Handler.advance] at hadv
    split at hadv <;> cases hadv
    · exact fun _ hwhy => StreamEnd.noConfusion hwhy
    · exact h
  | resending st todo =>
    have hlive : st.alreadyTerminal ≠ true := ne_true_of_eq_false h
    cases todo with
    | nil =>
      cases hadv
      exact h
    | cons e todo =>
      simp only [Handler.advance] at hadv
      split at hadv
      · cases hadv
        exact h
      split at hadv <;> cases hadv
      · exact fun ht => absurd ht hlive
      · exact h

theorem whole_receive {st : Stream} {r : Recv} (h : (Handler.receiving st).Whole) :
    (Handler.receive d st r).Whole := by
  have hlive : st.alreadyTerminal ≠ true := ne_true_of_eq_false h
  cases r with
  | event e rx =>
    unfold Handler.receive
    dsimp only
    split
    · exact h
    split
    · exact fun ht => absurd ht hlive
    · exact h
  | lagged rx => exact h
  | closed => exact fun ht => absurd ht hlive

theorem follows_receive {st : Stream} {r : Recv} :
    (Handler.receiving st).Follows d store (Handler.receive d st r) := by
  cases r with
  | event e rx =>
    unfold Handler.receive
    dsimp only
    split
    · exact follows_of_stream rfl rfl (List.prefix_refl _) rfl (by simp)
    split
    · exact follows_of_stream rfl rfl (prefix_send _ e) rfl (by simp)
    · exact follows_of_stream rfl rfl (prefix_send _ e) rfl (by simp)
  | lagged rx =>
    simp only [Handler.receive]
    exact follows_of_stream rfl rfl (List.prefix_refl _) rfl (by simp)
  | closed =>
    simp only [Handler.receive]
    exact follows_of_stream rfl rfl (List.prefix_refl _) rfl (by simp)

end Handlers

section Store
variable {d : ℕ} {lastEventId queryResume : Option ℤ} {s s' : Streaming}

/-- A step adds events to the store at its end, under new ids, or leaves it alone. -/
theorem step_events (h : Streaming.Step d lastEventId queryResume s s') :
    s.store.lastEvent ≤ s'.store.lastEvent ∧ ∃ added, s'.store.events = s.store.events ++ added ∧
      ∀ e ∈ added, s.store.lastEvent < e.id := by
  have hsame : s'.store.events = s.store.events ∧ s'.store.lastEvent = s.store.lastEvent →
      s.store.lastEvent ≤ s'.store.lastEvent ∧ ∃ added,
        s'.store.events = s.store.events ++ added ∧ ∀ e ∈ added, s.store.lastEvent < e.id :=
    fun h => ⟨h.2.ge,[],by rw [h.1,List.append_nil],nofun⟩
  have happends : ∀ e, Appends s s'.store e → s.store.lastEvent ≤ s'.store.lastEvent ∧ ∃ added,
      s'.store.events = s.store.events ++ added ∧ ∀ e ∈ added, s.store.lastEvent < e.id := by
    intro e h
    have hid := h.id_eq
    have hlast := h.lastEvent
    refine ⟨by omega,[e],h.events,?_⟩
    simp only [List.mem_singleton,forall_eq]
    omega
  cases h with
  | call o ho =>
    exact hsame (s.store.events_call ho.1 fun d' _ _ heq => ho.2 d' (heq ▸ rfl))
  | append hrow hidle hcall => exact happends _ (appends_append hcall).1
  | finish hrow hstatus hidle hcall => exact happends _ (appends_finish hcall).1
  | record hrow hstatus hidle hcall => exact happends _ (appends_finish hcall).1
  | reject hrow hstatus => exact hsame (s.store.events_call (by simp) (by simp))
  | publish hheld => exact hsame ⟨rfl,rfl⟩
  | subscribe hstart => exact hsame ⟨rfl,rfl⟩
  | advance hadv => exact hsame ⟨rfl,rfl⟩
  | receive hrecv hr => exact hsame ⟨rfl,rfl⟩

/-- Whatever a step does, the handler follows its stream. -/
theorem step_follows (h : Streaming.Step d lastEventId queryResume s s') :
    s.handler.Follows d s.store s'.handler := by
  cases h with
  | subscribe hstart =>
    rw [hstart]
    exact follows_of_none rfl rfl
  | advance hadv => exact follows_advance hadv
  | receive hrecv hr =>
    rw [hrecv]
    exact follows_receive
  | call | append | finish | record | reject | publish => exact .refl d s.store s.handler

theorem step_whole (h : s.handler.Whole) (hstep : Streaming.Step d lastEventId queryResume s s') :
    s'.handler.Whole := by
  cases hstep with
  | subscribe hstart => trivial
  | advance hadv => exact whole_advance h hadv
  | receive hrecv hr =>
    rw [hrecv] at h
    exact whole_receive h
  | call | append | finish | record | reject | publish => exact h

end Store

/-- The ids that a store hands out start at one. -/
def Store.Numbered (store : Store) : Prop := ∀ e ∈ store.events, 0 < e.id

theorem Store.Numbered.step {d : ℕ} {lastEventId queryResume : Option ℤ} {s s' : Streaming}
    (h : s.store.Numbered) (hstep : Streaming.Step d lastEventId queryResume s s') :
    s'.store.Numbered := by
  obtain ⟨-,added,hevents,hadded⟩ := step_events hstep
  intro e he
  rw [hevents] at he
  rcases List.mem_append.mp he with he | he
  · exact h e he
  · have := hadded e he
    omega

/-- The events of a deploy, after a step of any kind. -/
theorem eventsOf_step {d : ℕ} {lastEventId queryResume : Option ℤ} {s s' : Streaming}
    (h : Streaming.Step d lastEventId queryResume s s') :
    eventsOf d s.store <+: eventsOf d s'.store := by
  obtain ⟨-,added,hevents,-⟩ := step_events h
  unfold eventsOf
  rw [hevents,List.filter_append]
  exact List.prefix_append _ _

/-- What a reader that has an initial segment of a deploy's log has not seen. -/
theorem append_beyond_lastId {d : ℕ} {store : Store} {p q : List StoredEvent}
    (hnumbered : store.Numbered) (hp : p <+: q) (hq : q <+: eventsOf d store) :
    p ++ beyond StoredEvent.key (Handler.lastId p) q = q := by
  have hsorted := (eventsOf_ascending d store).sublist hq.sublist
  obtain ⟨rest,hrest⟩ := hp
  rw [← hrest] at hsorted
  obtain ⟨hp,-,hbetween⟩ := List.pairwise_append.mp hsorted
  apply append_beyond ⟨rest,hrest⟩
  · intro x hx
    obtain ⟨init,last,hlast⟩ := (List.eq_nil_or_concat p).resolve_left (List.ne_nil_of_mem hx)
    rw [List.concat_eq_append] at hlast
    subst hlast
    rw [Handler.lastId,List.getLast?_concat]
    rcases List.mem_append.mp hx with hx | hx
    · exact ((List.pairwise_append.mp hp).2.2 x hx last (by simp)).le
    · rw [List.mem_singleton.mp hx]
      rfl
  · intro x hx
    rw [← hrest,List.drop_left] at hx
    unfold Handler.lastId
    cases hlast : p.getLast? with
    | none =>
      have hmem : x ∈ eventsOf d store := hq.subset (hrest ▸ List.mem_append_right p hx)
      have := hnumbered x (mem_eventsOf.mp hmem).1
      simp only [Option.elim_none,StoredEvent.key]
      omega
    | some e => exact hbetween e (List.mem_of_getLast? hlast) x hx

/-- A reader that has more of the log has got further. -/
theorem lastId_lt {d : ℕ} {store : Store} {p q : List StoredEvent}
    (hnumbered : store.Numbered) (hp : p <+: q) (hq : q <+: eventsOf d store) (hne : p ≠ q) :
    Handler.lastId p < Handler.lastId q := by
  have hsorted := (eventsOf_ascending d store).sublist hq.sublist
  obtain ⟨rest,rfl⟩ := hp
  rcases List.eq_nil_or_concat rest with rfl | ⟨init,last,rfl⟩
  · exact absurd (List.append_nil p).symm hne
  · rw [List.concat_eq_append,← List.append_assoc] at hq hsorted ⊢
    have hlast : Handler.lastId (p ++ init ++ [last]) = last.key := by
      rw [Handler.lastId,List.getLast?_concat]
      rfl
    rw [hlast]
    unfold Handler.lastId
    cases hp : p.getLast? with
    | none =>
      have := hnumbered last (mem_eventsOf.mp (hq.subset (by simp))).1
      simp only [Option.elim_none,StoredEvent.key]
      omega
    | some e =>
      exact (List.pairwise_append.mp hsorted).2.2 e (by simp [List.mem_of_getLast? hp]) last
        (by simp)

theorem lastId_le {d : ℕ} {store : Store} {p q : List StoredEvent}
    (hnumbered : store.Numbered) (hp : p <+: q) (hq : q <+: eventsOf d store) :
    Handler.lastId p ≤ Handler.lastId q := by
  by_cases hne : p = q
  · rw [hne]
  · exact (lastId_lt hnumbered hp hq hne).le

namespace Viewer

/-- The resume point of the current connection, before it is clamped. -/
def asked (v : Viewer) : Option ℤ :=
  (resumeFrom (lastEventIdHeader v.source)).or (some (Handler.lastId v.page))

variable {w : SseWriter} {render : StoredEvent → Text} {d : ℕ} {v v' : Viewer}
  {es : List StoredEvent}

/-- What holds of a page whose source had been handed `es` before the current connection. -/
structure Faithful (w : SseWriter) (render : StoredEvent → Text) (d : ℕ) (v : Viewer)
    (es : List StoredEvent) : Prop where
  writers : Writers v.daemon
  sound : Sound False d v.asked v.daemon v.daemon.handler
  numbered : v.daemon.store.Numbered
  items : v.items.filterMap id = v.daemon.handler.sent
  arrived : v.arrived <+: w.wire (eventsSent render v.items)
  rested : v.source.Rested
  events : v.source.events = es.map (shown render)
  lastEventId : v.source.lastEventId = es.getLast?.elim [] fun e => Text.decimal e.id
  told : v.page ++ es <+: eventsOf d v.daemon.store
  backlog : ∀ st, v.daemon.handler.stream = some st →
    v.page ++ es <+: st.backlog ∧ st.backlog <+: eventsOf d v.daemon.store
  seen : ∀ st, v.daemon.handler = .closed st .noContent →
    Handler.lastId st.backlog ≤ st.resume ∧ st.sent = []
  whole : v.daemon.handler.Whole

theorem Faithful.bound (h : Faithful w render d v es)
    (hbound : v.daemon.store.lastEvent < 2^63) : ∀ e ∈ es, e.id < 2^63 := by
  intro e he
  have hmem := h.told.subset (List.mem_append_right v.page he)
  have := v.daemon.store.events_le e (mem_eventsOf.mp hmem).1
  omega

/-- The connection asks for what comes after the last event on the page. -/
theorem Faithful.asked_eq (h : Faithful w render d v es)
    (hbound : v.daemon.store.lastEvent < 2^63) :
    v.asked = some (Handler.lastId (v.page ++ es)) := by
  rw [asked,resumeFrom_header (h.bound hbound) h.lastEventId]
  unfold Handler.lastId
  rw [List.getLast?_append]
  cases es.getLast? <;> rfl

theorem Faithful.resume (h : Faithful w render d v es)
    (hbound : v.daemon.store.lastEvent < 2^63) {st : Stream}
    (hst : v.daemon.handler.stream = some st) : st.resume = Handler.lastId (v.page ++ es) := by
  obtain ⟨hpage,hstored⟩ := h.backlog st hst
  rw [(h.sound.open hst).resume,Handler.resumeAt,h.asked_eq hbound]
  exact min_eq_left (lastId_le h.numbered hpage hstored)

/-- With what has been sent on the current connection, the page is still the deploy's log up to a
point. -/
theorem Faithful.sent (h : Faithful w render d v es) (hbound : v.daemon.store.lastEvent < 2^63) :
    v.page ++ es ++ v.daemon.handler.sent <+: eventsOf d v.daemon.store := by
  cases hst : v.daemon.handler.stream with
  | none =>
    have hnil : v.daemon.handler.sent = [] := by rw [Handler.sent,hst]; rfl
    rw [hnil,List.append_nil]
    exact h.told
  | some st =>
    have hsent : v.daemon.handler.sent = st.sent := by rw [Handler.sent,hst]; rfl
    have hinitial := (h.sound.open hst).initial_segment.2.1
    rw [h.resume hbound hst] at hinitial
    rw [hsent,← append_beyond_lastId h.numbered h.told (List.prefix_refl _)]
    exact (List.prefix_append_right_inj _).mpr hinitial

/-- What the page shows at any moment. -/
theorem Faithful.received (h : Faithful w render d v es)
    (hbound : v.daemon.store.lastEvent < 2^63) : ∃ es', es <+: es' ∧
      v.page ++ es' <+: eventsOf d v.daemon.store ∧
      v.received.events = es'.map (shown render) ∧
      v.received.lastEventId = es'.getLast?.elim [] fun e => Text.decimal e.id := by
  obtain ⟨fs,hfs,hevents,hid⟩ := feed_events h.rested h.arrived
  rw [h.items] at hfs
  refine ⟨es ++ fs,List.prefix_append _ _,?_,?_,?_⟩
  · rw [← List.append_assoc]
    exact ((List.prefix_append_right_inj _).mpr hfs).trans (h.sent hbound)
  · rw [Viewer.received,hevents,h.events,List.map_append]
  · rw [Viewer.received,hid,h.lastEventId,List.getLast?_append]
    cases fs.getLast? <;> rfl

theorem wire_append (w : SseWriter) (render : StoredEvent → Text)
    (items more : List (Option StoredEvent)) :
    w.wire (eventsSent render items) <+: w.wire (eventsSent render (items ++ more)) := by
  unfold SseWriter.wire eventsSent
  rw [List.map_append,List.flatMap_append]
  exact List.prefix_append _ _

theorem Faithful.daemon {s : Streaming} (h : Faithful w render d v es)
    (hstep : Streaming.Step d (resumeFrom (lastEventIdHeader v.source))
      (some (Handler.lastId v.page)) v.daemon s) :
    Faithful w render d { v with
      daemon := s
      items := v.items ++ (s.handler.sent.drop v.daemon.handler.sent.length).map some } es := by
  obtain ⟨hwriters,hsound⟩ := step_sound h.writers h.sound hstep False.elim
  have hfollows := step_follows hstep
  have hgrows := eventsOf_step hstep
  refine ⟨hwriters,hsound,h.numbered.step hstep,?_,h.arrived.trans (wire_append w render _ _),
    h.rested,h.events,h.lastEventId,h.told.trans hgrows,fun st' hst' => ?_,fun st' hst' => ?_,
    step_whole h.whole hstep⟩
  · obtain ⟨new,hnew⟩ := hfollows.sent
    have hmap : (new.map some).filterMap id = new := by
      rw [List.filterMap_map]
      exact List.filterMap_some
    rw [← hnew,List.drop_left,List.filterMap_append,h.items,hmap]
  · rcases hfollows.backlog st' hst' with ⟨st,hst,heq⟩ | hread
    · obtain ⟨hpage,hstored⟩ := h.backlog st hst
      rw [heq] at hpage hstored
      exact ⟨hpage,hstored.trans hgrows⟩
    · rw [hread]
      exact ⟨h.told,hgrows⟩
  · rcases hfollows.seen st' hst' with heq | hseen
    · exact h.seen st' (heq.trans hst')
    · exact hseen

/-- A new connection starts where the source has got to. -/
theorem Faithful.reconnected {s : Streaming} (h : Faithful w render d v es)
    (hbound : v.daemon.store.lastEvent < 2^63) (hstore : s.store = v.daemon.store)
    (hwriters : Writers { s with handler := .start }) :
    ∃ es', Faithful w render d (v.reconnected s) es' := by
  obtain ⟨es',-,htold,hevents,hid⟩ := h.received hbound
  refine ⟨es',hwriters,trivial,?_,rfl,List.nil_prefix,EventStream.Reader.rested_reconnect _,
    hevents,hid,?_,nofun,nofun,trivial⟩
  · change s.store.Numbered
    rw [hstore]
    exact h.numbered
  · change v.page ++ es' <+: eventsOf d s.store
    rw [hstore]
    exact htold

theorem step_lastEvent (hstep : Step w render d v v') :
    v.daemon.store.lastEvent ≤ v'.daemon.store.lastEvent := by
  cases hstep with
  | daemon h => exact (step_events h).1
  | keepAlive | arrive | reconnect | restart => exact le_rfl

/-- Each step of the daemon, the network or the browser keeps the page faithful. -/
theorem step_faithful (h : Faithful w render d v es) (hbound : v.daemon.store.lastEvent < 2^63)
    (hstep : Step w render d v v') : ∃ es', Faithful w render d v' es' := by
  cases hstep with
  | daemon hstep => exact ⟨es,h.daemon hstep⟩
  | keepAlive =>
    refine ⟨es,{ h with items := ?_, arrived := h.arrived.trans (wire_append w render _ _) }⟩
    change (v.items ++ [none]).filterMap id = _
    rw [List.filterMap_append,h.items]
    exact List.append_nil _
  | arrive hmore hcut => exact ⟨es,{ h with arrived := hcut }⟩
  | reconnect => exact h.reconnected hbound rfl { h.writers with }
  | restart => exact h.reconnected hbound rfl (writers_initial v.daemon.store)

theorem faithful_opened {page : List StoredEvent} {s : Streaming} (hwriters : Writers s)
    (hnumbered : s.store.Numbered) (hpage : page <+: eventsOf d s.store) :
    Faithful w render d (opened page s) [] where
  writers := { hwriters with }
  sound := trivial
  numbered := hnumbered
  items := rfl
  arrived := List.nil_prefix
  rested := ⟨rfl,rfl,rfl⟩
  events := rfl
  lastEventId := rfl
  told := by
    rw [List.append_nil]
    exact hpage
  backlog := nofun
  seen := nofun
  whole := trivial

/-- A request that is answered `204 No Content` finds everything it has read on the page. -/
theorem Faithful.noContent (h : Faithful w render d v es)
    (hbound : v.daemon.store.lastEvent < 2^63) {st : Stream}
    (hclosed : v.daemon.handler = .closed st .noContent) : v.page ++ es = st.backlog := by
  have hst : v.daemon.handler.stream = some st := by rw [hclosed]; rfl
  obtain ⟨hpage,hstored⟩ := h.backlog st hst
  obtain ⟨hseen,-⟩ := h.seen st hclosed
  rw [h.resume hbound hst] at hseen
  by_contra hne
  have := lastId_lt h.numbered hpage hstored hne
  omega

theorem run_faithful {v₀ : Viewer} (h : Faithful w render d v₀ es)
    (hrun : Relation.ReflTransGen (Step w render d) v₀ v)
    (hbound : v.daemon.store.lastEvent < 2^63) : ∃ es', Faithful w render d v es' := by
  refine run_induction (fun t => t.daemon.store.lastEvent < 2^63 → ∃ es', Faithful w render d t es')
    (fun _ => ⟨es,h⟩) (fun t t' ht hstep hlater => ?_) hrun hbound
  have hearlier := (step_lastEvent hstep).trans_lt hlater
  obtain ⟨es',hfaithful⟩ := ht hearlier
  exact step_faithful hfaithful hearlier hstep

/-- The daemon before the page is opened. -/
theorem faithful_of_run {store : Store} {lastEventId queryResume : Option ℤ} {s : Streaming}
    {page : List StoredEvent} (hnumbered : store.Numbered)
    (hdaemon : Relation.ReflTransGen (Streaming.Step d lastEventId queryResume) (initial store) s)
    (hpage : page <+: eventsOf d s.store) : Faithful w render d (opened page s) [] := by
  have hwriters := (run_sound (fun _ _ hstep => ⟨hstep,False.elim⟩) hdaemon).1
  have hids : s.store.Numbered := by
    refine run_induction (fun t => t.store.Numbered) hnumbered (fun t t' ht hstep => ?_) hdaemon
    exact ht.step hstep
  exact faithful_opened hwriters hids hpage

/-- The connection has told its source all there was to tell: it was answered `204 No Content`, or
its deploy had ended when it was opened, and the stream has ended and arrived whole. -/
def Served (w : SseWriter) (render : StoredEvent → Text) (v : Viewer) (st : Stream) : Prop :=
  v.daemon.handler = .closed st .noContent ∨
  v.daemon.handler = .closed st .ended ∧ st.alreadyTerminal = true ∧
    v.arrived = w.wire (eventsSent render v.items)

theorem Served.stream {st : Stream} (h : v.Served w render st) :
    v.daemon.handler.stream = some st := by
  rcases h with h | ⟨h,-⟩ <;> rw [h] <;> rfl

/-- With that, the page is where the deploy was when the connection was opened. -/
theorem Faithful.served (h : Faithful w render d v es) (hbound : v.daemon.store.lastEvent < 2^63)
    {st : Stream} (hserved : v.Served w render st) :
    ∃ es', v.received.events = es'.map (shown render) ∧ v.page ++ es' = st.backlog := by
  obtain ⟨hpage,hstored⟩ := h.backlog st hserved.stream
  rcases hserved with hclosed | ⟨hclosed,hterminal,hall⟩
  · -- nothing is sent on such a connection, so nothing has arrived on it
    have hsent : v.items.filterMap id = [] := by
      rw [h.items,hclosed]
      exact (h.seen st hclosed).2
    obtain ⟨fs,hfs,hevents,-⟩ := feed_events h.rested h.arrived
    rw [hsent,List.prefix_nil] at hfs
    subst hfs
    refine ⟨es,?_,h.noContent hbound hclosed⟩
    rw [Viewer.received,hevents,h.events,List.map_nil,List.append_nil]
  · have hsent : v.items.filterMap id = st.sent := by rw [h.items,hclosed]; rfl
    have hwhole := h.whole
    rw [hclosed] at hwhole
    refine ⟨es ++ st.sent,?_,?_⟩
    · rw [Viewer.received,hall,feed_wire (numbered_eventsSent v.items) h.rested,
        (foldl_eventsSent v.items v.source).1,hsent,h.events,List.map_append]
    · rw [hwhole hterminal rfl,h.resume hbound (by rw [hclosed]; rfl),← List.append_assoc,
        append_beyond_lastId h.numbered hpage hstored]

/-- What a source has been handed follows the rows in the log of the deploy, and reaches as far as
the request read once it has been served. -/
def Told (w : SseWriter) (render : StoredEvent → Text) (page log : List StoredEvent) (v : Viewer) :
    Prop :=
  ∃ es, v.received.events = es.map (shown render) ∧ page ++ es <+: log ∧
    ∀ st, v.Served w render st → page ++ es = st.backlog

theorem Told.grows {page log log' : List StoredEvent} (h : Told w render page log v)
    (hlog : log <+: log') : Told w render page log' v := by
  obtain ⟨es,hevents,htold,hserved⟩ := h
  exact ⟨es,hevents,htold.trans hlog,hserved⟩

theorem Faithful.timeline (h : Faithful w render d v es)
    (hbound : v.daemon.store.lastEvent < 2^63) :
    Told w render v.page (eventsOf d v.daemon.store) v := by
  by_cases hserved : ∃ st, v.Served w render st
  · obtain ⟨st,hst⟩ := hserved
    obtain ⟨es',hevents,hbacklog⟩ := h.served hbound hst
    refine ⟨es',hevents,hbacklog ▸ (h.backlog st hst.stream).2,fun st' hst' => ?_⟩
    rw [hbacklog,Option.some.inj (hst.stream.symm.trans hst'.stream)]
  · obtain ⟨es',-,htold,hevents,-⟩ := h.received hbound
    exact ⟨es',hevents,htold,fun st hst => absurd ⟨st,hst⟩ hserved⟩

/-- However often its connection breaks, wherever in the text of an event, however far its stream
lags, and however often the daemon is started again: the rows of the page and the events that one
source has been handed are the deploy's log up to a point, each event once and in order. -/
theorem told_of_opened {s : Streaming} {page : List StoredEvent}
    (hopened : Faithful w render d (opened page s) [])
    (hrun : Relation.ReflTransGen (Step w render d) (opened page s) v)
    (hbound : v.daemon.store.lastEvent < 2^63) :
    Told w render v.page (eventsOf d v.daemon.store) v := by
  obtain ⟨es,hfaithful⟩ := run_faithful hopened hrun hbound
  exact hfaithful.timeline hbound

theorem step_page (hstep : Step w render d v v') : v'.page = v.page ∧
    eventsOf d v.daemon.store <+: eventsOf d v'.daemon.store := by
  cases hstep with
  | daemon h => exact ⟨rfl,eventsOf_step h⟩
  | keepAlive | arrive | reconnect | restart => exact ⟨rfl,List.prefix_refl _⟩

end Viewer

/-- A tab with the page: the sources that are closed, as they were then, and the one that the script
has opened last. -/
structure Tab where
  closed : List Viewer
  viewer : Viewer

namespace Tab
variable (w : SseWriter) (render : StoredEvent → Text) (d : ℕ)

def opened (page : List StoredEvent) (daemon : Streaming) : Tab := ⟨[],.opened page daemon⟩

def sources (t : Tab) : List Viewer := t.closed ++ [t.viewer]

/-- What the script has put below the rows of the page. -/
def appended (t : Tab) : List EventStream.Event := t.sources.flatMap fun v => v.received.events

/-- One step of the source that is open, or of the script. -/
inductive Step (t : Tab) : Tab → Prop
  | source {v : Viewer} (h : Viewer.Step w render d t.viewer v) : Step t { t with viewer := v }
  /-- The source is closed: it was answered without a stream, or the browser has given it up. The
  script opens another one on the same URL, and that one has no last event id to send. -/
  | reopen : Step t ⟨t.sources,.opened t.viewer.page t.viewer.daemon⟩

variable {w render d} {t t' : Tab} {page : List StoredEvent}

/-- What holds of a tab: its source is faithful to the page, and so were those before it. -/
structure Faithful (w : SseWriter) (render : StoredEvent → Text) (d : ℕ)
    (page : List StoredEvent) (t : Tab) : Prop where
  rows : t.viewer.page = page
  source : ∃ es, t.viewer.Faithful w render d es
  closed : ∀ v ∈ t.closed, v.Told w render page (eventsOf d t.viewer.daemon.store)

theorem Faithful.told (h : Faithful w render d page t)
    (hbound : t.viewer.daemon.store.lastEvent < 2^63) :
    ∀ v ∈ t.sources, v.Told w render page (eventsOf d t.viewer.daemon.store) := by
  intro v hv
  rcases List.mem_append.mp hv with hv | hv
  · exact h.closed v hv
  · obtain ⟨es,hes⟩ := h.source
    rw [List.mem_singleton.mp hv,← h.rows]
    exact hes.timeline hbound

theorem step_lastEvent (hstep : Step w render d t t') :
    t.viewer.daemon.store.lastEvent ≤ t'.viewer.daemon.store.lastEvent := by
  cases hstep with
  | source h => exact Viewer.step_lastEvent h
  | reopen => exact le_rfl

theorem step_faithful (h : Faithful w render d page t)
    (hbound : t.viewer.daemon.store.lastEvent < 2^63) (hstep : Step w render d t t') :
    Faithful w render d page t' := by
  obtain ⟨es,hes⟩ := h.source
  cases hstep with
  | source hv =>
    obtain ⟨hpage,hlog⟩ := Viewer.step_page hv
    exact ⟨hpage.trans h.rows,Viewer.step_faithful hes hbound hv,
      fun v hmem => (h.closed v hmem).grows hlog⟩
  | reopen =>
    have hrows : t.viewer.page <+: eventsOf d t.viewer.daemon.store :=
      (List.prefix_append _ _).trans hes.told
    exact ⟨h.rows,⟨[],Viewer.faithful_opened hes.writers hes.numbered hrows⟩,h.told hbound⟩

theorem run_faithful {t₀ : Tab} (h : Faithful w render d page t₀)
    (hrun : Relation.ReflTransGen (Step w render d) t₀ t)
    (hbound : t.viewer.daemon.store.lastEvent < 2^63) : Faithful w render d page t := by
  refine run_induction
    (fun t => t.viewer.daemon.store.lastEvent < 2^63 → Faithful w render d page t)
    (fun _ => h) (fun t t' ht hstep hlater => ?_) hrun hbound
  have hearlier := (step_lastEvent hstep).trans_lt hlater
  exact step_faithful (ht hearlier) hearlier hstep

/-- A row of the timeline is known by the id of its event. -/
theorem nodup_shown {store : Store} : ((eventsOf d store).map (shown render)).Nodup := by
  refine List.pairwise_map.mpr ((eventsOf_ascending d store).imp ?_)
  intro e e' hlt heq
  have hid : spelled (Text.decimal e.id) = spelled (Text.decimal e'.id) :=
    congrArg (fun m : EventStream.Event => spelled m.lastEventId) heq
  rw [spelled_decimal,spelled_decimal,Option.some.injEq] at hid
  rw [StoredEvent.key,StoredEvent.key,hid] at hlt
  exact lt_irrefl _ hlt

/-- A tab is open on the page of a deploy, however often connections break, wherever in the text of
an event, however far a stream lags, however often the daemon is started again, and whenever the
script opens another source. What each source has been handed follows the rows of the page in the
log of the deploy, each event once and in order; when its request is answered `204 No Content`, or
the stream of a deploy that had ended has arrived, it has everything that the request read. So the
events below the rows are there once each as long as only one source has been handed any, and the
first of them is there again with each further source that has. -/
theorem timeline_faithful {store : Store} {lastEventId queryResume : Option ℤ} {s : Streaming}
    (hnumbered : store.Numbered)
    (hdaemon : Relation.ReflTransGen (Streaming.Step d lastEventId queryResume) (initial store) s)
    (hread : s.store.eventsFor d = .ok page)
    (hrun : Relation.ReflTransGen (Step w render d) (opened page s) t)
    (hbound : t.viewer.daemon.store.lastEvent < 2^63) :
    (∀ v ∈ t.sources, ∃ es, v.received.events = es.map (shown render) ∧
      page ++ es <+: eventsOf d t.viewer.daemon.store ∧
      ∀ st, v.Served w render st → page ++ es = st.backlog) ∧
    ((page.map (shown render) ++ t.appended).Nodup ↔
      t.sources.countP (fun v => !v.received.events.isEmpty) ≤ 1) := by
  have hpage : page = eventsOf d s.store := Store.eventsFor_eq_ok hread
  have hopened : (Viewer.opened page s).Faithful w render d [] :=
    Viewer.faithful_of_run hnumbered hdaemon (hpage ▸ List.prefix_refl _)
  have hfaithful := run_faithful ⟨rfl,⟨[],hopened⟩,List.forall_mem_nil _⟩ hrun hbound
  have htold : ∀ v ∈ t.sources, v.Told w render page (eventsOf d t.viewer.daemon.store) :=
    hfaithful.told hbound
  refine ⟨htold,?_⟩
  obtain ⟨es,-,hlog,-⟩ := htold t.viewer (List.mem_append_right _ List.mem_cons_self)
  obtain ⟨rest,hrest⟩ := (List.prefix_append page es).trans hlog
  have hnodup : ((eventsOf d t.viewer.daemon.store).map (shown render)).Nodup := nodup_shown
  rw [← hrest,List.map_append,List.nodup_append'] at hnodup
  obtain ⟨hrows,hafter,hapart⟩ := hnodup
  have hstart : ∀ l ∈ t.sources.map fun v => v.received.events, l <+: rest.map (shown render) := by
    intro l hl
    obtain ⟨v,hv,rfl⟩ := List.mem_map.mp hl
    obtain ⟨es,hevents,hes,-⟩ := htold v hv
    rw [← hrest,List.prefix_append_right_inj] at hes
    rw [hevents]
    exact hes.map _
  have hflat := nodup_flatten_prefixes hafter hstart
  have hbelow : List.Disjoint (page.map (shown render)) t.appended := by
    intro m hm hbelow
    obtain ⟨v,hv,hmem⟩ := List.mem_flatMap.mp hbelow
    exact hapart hm ((hstart _ (List.mem_map_of_mem hv)).subset hmem)
  rw [List.nodup_append',and_iff_right hrows,and_iff_left hbelow,appended,List.flatMap_def,hflat,
    List.countP_map]
  rfl

section Sample

/-- The page shows one event, and the next one, the last of the deploy, arrives. The request that
the browser then makes is answered `204`, so the script opens another source, and that one is
handed the same event again. -/
theorem timeline_repeats : ∃ t : Tab, t.viewer.page.map StoredEvent.id = [1] ∧
    t.appended.map EventStream.Event.lastEventId = [['2'],['2']] ∧
    (∀ v ∈ t.sources, ∃ es, v.received.events = es.map (shown fun _ => "row") ∧
      t.viewer.page ++ es <+: eventsOf 1 t.viewer.daemon.store) ∧
    ¬(t.viewer.page.map (shown fun _ => "row") ++ t.appended).Nodup := by
  have run : ∃ (s : Streaming) (page : List StoredEvent),
      Relation.ReflTransGen (Streaming.Step 1 none none) (initial .empty) s ∧
      s.store.eventsFor 1 = .ok page ∧ ∃ t : Tab, t.viewer.page = page ∧
        page.map StoredEvent.id = [1] ∧ t.viewer.daemon.store.lastEvent < 2^63 ∧
        Relation.ReflTransGen (Step .plain (fun _ => "row") 1) (opened page s) t ∧
        t.sources.countP (fun v => !v.received.events.isEmpty) = 2 ∧
        t.appended.map EventStream.Event.lastEventId = [['2'],['2']] := by
    refine ⟨_,_,.tail (.tail (.tail .refl
      (.call (.createDeploy "web") (silent_createDeploy _)))
      (@Streaming.Step.append _ _ _ _ (.forStage 1 .detect .started none) _ ⟨_,rfl,rfl⟩ rfl rfl))
      (@Streaming.Step.publish _ _ _ _ 1 _ rfl),rfl,_,rfl,?_,?_,
      .tail (.tail (.tail (.tail (.tail (.tail (.tail (.tail (.tail (.tail (.tail (.tail (.tail
        (.tail (.tail (.tail (.tail (.tail (.tail (.tail (.tail .refl
        (.source (.daemon (.subscribe rfl))))
        (.source (.daemon (.advance rfl))))
        (.source (.daemon (.advance rfl))))
        (.source (.daemon (.advance rfl))))
        (.source (.daemon (.advance rfl))))
        (.source (.daemon (@Streaming.Step.finish _ _ _ _ 1 .done none _ ⟨_,rfl,rfl⟩ (by decide)
          rfl rfl))))
        (.source (.daemon (@Streaming.Step.publish _ _ _ _ 1 _ rfl))))
        (.source (.daemon (@Streaming.Step.receive _ _ _ _ _ (.event _ 2) rfl (.event rfl)))))
        (.source (.arrive List.nil_prefix (List.prefix_refl _))))
        (.source .reconnect))
        (.source (.daemon (.subscribe rfl))))
        (.source (.daemon (.advance rfl))))
        (.source (.daemon (.advance rfl))))
        .reopen)
        (.source (.daemon (.subscribe rfl))))
        (.source (.daemon (.advance rfl))))
        (.source (.daemon (.advance rfl))))
        (.source (.daemon (.advance rfl))))
        (.source (.daemon (.advance rfl))))
        (.source (.daemon (.advance rfl))))
        (.source (.arrive List.nil_prefix (List.prefix_refl _))),?_,?_⟩
    all_goals decide +kernel
  obtain ⟨s,page,hdaemon,hread,t,rfl,hpage,hbound,hrun,hcount,hids⟩ := run
  have hnumbered : Store.empty.Numbered := List.forall_mem_nil _
  obtain ⟨htold,honce⟩ := timeline_faithful hnumbered hdaemon hread hrun hbound
  refine ⟨t,hpage,hids,fun v hv => ?_,fun hnodup => ?_⟩
  · obtain ⟨es,hevents,hes,-⟩ := htold v hv
    exact ⟨es,hevents,hes⟩
  · have hle := honce.mp hnodup
    omega

end Sample

end Tab

end Kuadrat
