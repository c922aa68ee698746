import Kuadrat.Daemon.Stream
import Kuadrat.Effect.Segment

/-!
# What a stream has sent

The events a stream has sent are an initial segment of what the store holds past the
resume point. Between the segment and the end of the log every event is still ahead of
the stream: in the list it is sending, in its channel, or with the writer. A stream that
ends because the row had ended has sent them all, if no event came after that.
-/
namespace Kuadrat

open Effect Streaming

/-- The stored events of one deploy. -/
def eventsOf (id : ℕ) (store : Store) : List StoredEvent :=
  store.events.filter fun e => e.event.deployId = id

theorem mem_eventsOf {id : ℕ} {store : Store} {e : StoredEvent} :
    e ∈ eventsOf id store ↔ e ∈ store.events ∧ e.event.deployId = id := by simp [eventsOf]

theorem eventsOf_ascending (id : ℕ) (store : Store) :
    Ascending StoredEvent.key (eventsOf id store) := by
  refine List.Pairwise.filter _ (store.events_sorted.imp ?_)
  intro e e' h
  simpa [StoredEvent.key] using h

theorem key_le_lastEvent {id : ℕ} {store : Store} {e : StoredEvent} (h : e ∈ eventsOf id store) :
    e.key ≤ store.lastEvent := by
  have := store.events_le e (mem_eventsOf.mp h).1
  simpa [StoredEvent.key] using this

/-- The writers publish the events of a deploy in the order of their ids, each after it is
stored; the one an idle writer holds is the latest. -/
structure Writers (s : Streaming) : Prop where
  logged : ∀ e ∈ s.log, e ∈ s.store.events
  ordered : s.log.Pairwise fun e e' => e.event.deployId = e'.event.deployId → e.id < e'.id
  held : ∀ d e, s.held d = some e → e ∈ s.store.events ∧ e.event.deployId = d
  latest : ∀ d e, s.held d = some e → ∀ e' ∈ s.log, e'.event.deployId = d → e'.id < e.id

/-- The step stores no event of a deploy that has already ended. -/
def Timely (id : ℕ) (s s' : Streaming) : Prop :=
  s.store.finished id → eventsOf id s'.store = eventsOf id s.store

instance (id : ℕ) (s s' : Streaming) : Decidable (Timely id s s') :=
  inferInstanceAs (Decidable (_ → _))

/-- What a step of the others makes of the store and the hub, seen from deploy `id`: it may
append `added` to the log of the deploy. -/
structure Grows (id : ℕ) (added : List StoredEvent) (s s' : Streaming) : Prop where
  events : eventsOf id s'.store = eventsOf id s.store ++ added
  added_new : ∀ e ∈ added, (s.store.lastEvent : ℤ) < e.key
  lastEvent : s.store.lastEvent ≤ s'.store.lastEvent
  log : s.log.length ≤ s'.log.length
  ahead : ∀ rx ≤ s.log.length, ∀ e, e ∈ s.log.drop rx ∨ s.held id = some e ∨ e ∈ added →
    e ∈ s'.log.drop rx ∨ s'.held id = some e
  finished : s.store.finished id → s'.store.finished id

-- What comes after the end of the deploy is spoken of only over runs that are `timely`.
variable (timely : Prop)

/-- What holds of every stream that has been opened. -/
structure Open (id : ℕ) (asked : Option ℤ) (s : Streaming) (st : Stream) : Prop where
  rx_le : st.rx ≤ s.log.length
  resume : st.resume = Handler.resumeAt asked st.backlog
  resume_le : st.resume ≤ st.lastSent
  lastSent_le : st.lastSent ≤ s.store.lastEvent
  sent : st.sent = segment StoredEvent.key st.resume st.lastSent (eventsOf id s.store)
  terminal : st.alreadyTerminal → s.store.finished id

/-- Every stored event that has not been sent is still ahead of the stream: in `todo`, which it
is about to send, in its channel, or with the writer. -/
structure Ahead (id : ℕ) (s : Streaming) (st : Stream) (todo : List StoredEvent) : Prop where
  stored : ∀ e ∈ todo, e ∈ eventsOf id s.store
  ascending : Ascending StoredEvent.key todo
  closed : ∀ e ∈ todo, ∀ e' ∈ eventsOf id s.store, st.lastSent < e'.key → e'.key ≤ e.key →
    e' ∈ todo
  nogap : ∀ e ∈ eventsOf id s.store, st.lastSent < e.key →
    e ∈ todo ∨ e ∈ s.log.drop st.rx ∨ s.held id = some e
  frozen : timely → st.alreadyTerminal →
    ∀ e ∈ eventsOf id s.store, st.lastSent < e.key → e ∈ todo

/-- The stream has ended with the terminal event, or for a row that had ended before. -/
def Ended (id : ℕ) (s : Streaming) (st : Stream) : Prop :=
  (∃ e, st.sent.getLast? = some e ∧ isFinished e) ∨
  (st.alreadyTerminal ∧ (timely → ∀ e ∈ eventsOf id s.store, e.key ≤ st.lastSent))

/-- The invariant of the handler, for each of its places. -/
def Sound (id : ℕ) (asked : Option ℤ) (s : Streaming) : Handler → Prop
  | .start | .refused _ => True
  | .subscribed rx => rx ≤ s.log.length
  | .rowRead rx terminal => rx ≤ s.log.length ∧ (terminal → s.store.finished id)
  | .sending st ended todo => Open id asked s st ∧ Ahead timely id s st todo ∧
    (∀ e ∈ todo, st.resume < e.key → st.lastSent < e.key) ∧
    (ended → ∃ e, st.sent.getLast? = some e ∧ isFinished e)
  | .receiving st => Open id asked s st ∧ Ahead timely id s st []
  | .lagged st => Open id asked s st
  | .resending st todo => Open id asked s st ∧ Ahead timely id s st todo
  | .closed st why => Open id asked s st ∧ match why with
    | .ended | .noContent => Ended timely id s st
    | .storeError _ | .hubClosed => True

section Others
variable {timely : Prop} {id : ℕ} {asked : Option ℤ} {added : List StoredEvent} {s s' : Streaming} {st : Stream}

theorem Open.grows (h : Open id asked s st) (hg : Grows id added s s') : Open id asked s' st where
  rx_le := h.rx_le.trans hg.log
  resume := h.resume
  resume_le := h.resume_le
  lastSent_le := by
    have := h.lastSent_le
    have := hg.lastEvent
    omega
  sent := by
    rw [hg.events,segment_append fun e he => ?_]
    · exact h.sent
    · have := h.lastSent_le
      have := hg.added_new e he
      omega
  terminal ht := hg.finished (h.terminal ht)

theorem Ahead.grows {todo : List StoredEvent} (h : Ahead timely id s st todo)
    (hopen : Open id asked s st) (hg : Grows id added s s') (hkept : timely → Timely id s s') :
    Ahead timely id s' st todo where
  stored e he := by
    rw [hg.events]
    exact List.mem_append_left _ (h.stored e he)
  ascending := h.ascending
  closed e he e' he' hsent hle := by
    rw [hg.events] at he'
    rcases List.mem_append.mp he' with he' | he'
    · exact h.closed e he e' he' hsent hle
    · have := hg.added_new e' he'
      have := key_le_lastEvent (h.stored e he)
      omega
  nogap e he hsent := by
    rw [hg.events] at he
    rcases List.mem_append.mp he with he | he
    · rcases h.nogap e he hsent with htodo | hahead | hheld
      · exact .inl htodo
      · exact .inr (hg.ahead _ hopen.rx_le e (.inl hahead))
      · exact .inr (hg.ahead _ hopen.rx_le e (.inr (.inl hheld)))
    · exact .inr (hg.ahead _ hopen.rx_le e (.inr (.inr he)))
  frozen htimely ht := by
    rw [hkept htimely (hopen.terminal ht)]
    exact h.frozen htimely ht

theorem Ended.grows (h : Ended timely id s st) (hopen : Open id asked s st)
    (hkept : timely → Timely id s s') : Ended timely id s' st := by
  rcases h with h | ⟨ht,hall⟩
  · exact .inl h
  · refine .inr ⟨ht,fun htimely => ?_⟩
    rw [hkept htimely (hopen.terminal ht)]
    exact hall htimely

/-- What the others do keeps the invariant of the handler. -/
theorem Sound.grows {handler : Handler} (h : Sound timely id asked s handler) (hg : Grows id added s s')
    (hkept : timely → Timely id s s') : Sound timely id asked s' handler := by
  cases handler with
  | start => trivial
  | refused e => trivial
  | subscribed rx => exact h.trans hg.log
  | rowRead rx terminal => exact ⟨h.1.trans hg.log,fun ht => hg.finished (h.2 ht)⟩
  | sending st ended todo => exact ⟨h.1.grows hg,h.2.1.grows h.1 hg hkept,h.2.2⟩
  | receiving st => exact ⟨h.1.grows hg,h.2.grows h.1 hg hkept⟩
  | lagged st => exact Open.grows h hg
  | resending st todo => exact ⟨h.1.grows hg,h.2.grows h.1 hg hkept⟩
  | closed st why =>
    refine ⟨h.1.grows hg,?_⟩
    cases why with
    | ended => exact Ended.grows h.2 h.1 hkept
    | noContent => exact Ended.grows h.2 h.1 hkept
    | storeError e => trivial
    | hubClosed => trivial

end Others

section Finished
variable {s : Store} {d : ℕ}

theorem finished_iff : s.finished d ↔ ∃ r, s.row d = some r ∧ r.status ≠ .inProgress := by
  unfold Store.finished
  cases s.row d <;> simp

/-- A deploy that has ended stays so, whichever call follows. -/
theorem finished_call {o : StoreOp} (h : s.finished d)
    (ho : ∀ status detail, o = .finishDeploy d status detail ∨
      o = .finishDeployWithEvent d status detail → status ≠ .inProgress) :
    (s.call o).2.finished d := by
  obtain ⟨r,hr,hne⟩ := finished_iff.mp h
  rw [finished_iff]
  by_cases hends : Store.Ends d o
  · obtain ⟨status,detail,hends⟩ := hends.eq
    have hsome : (s.row d).isSome := by simp [hr]
    obtain ⟨r',hr',hs⟩ := Store.row_ended hends hsome
    exact ⟨r',hr',hs ▸ ho status detail hends⟩
  · obtain ⟨r',hr',hs⟩ := Store.status_call s hends hr
    exact ⟨r',hr',hs ▸ hne⟩

end Finished

section Appending
variable {id d : ℕ} {s : Streaming} {store : Store} {event : Event} {e : StoredEvent}

/-- The store with one event more, and the writer of its deploy holding it. -/
structure Appends (s : Streaming) (store : Store) (e : StoredEvent) : Prop where
  events : store.events = s.store.events ++ [e]
  id_eq : e.id = s.store.lastEvent+1
  lastEvent : store.lastEvent = s.store.lastEvent+1

theorem Appends.grows (h : Appends s store e) (hd : e.event.deployId = d) (hidle : s.held d = none)
    (hfinished : s.store.finished id → store.finished id) :
    Grows id (if d = id then [e] else []) s
      { s with store := store, held := Function.update s.held d (some e) } where
  events := by
    unfold eventsOf
    rw [h.events,List.filter_append]
    congr 1
    by_cases hid : d = id <;> simp [hd,hid]
  added_new e' he' := by
    split at he'
    · rw [List.mem_singleton] at he'
      subst he'
      have := h.id_eq
      simp only [StoredEvent.key]
      omega
    · exact nomatch he'
  lastEvent := by
    change s.store.lastEvent ≤ store.lastEvent
    have := h.lastEvent
    omega
  log := le_rfl
  ahead rx hrx e' he' := by
    by_cases hid : d = id
    · subst hid
      rcases he' with he' | he' | he'
      · exact .inl he'
      · rw [hidle] at he'
        exact nomatch he'
      · rw [if_pos rfl,List.mem_singleton] at he'
        exact .inr (by simp [he'])
    · rcases he' with he' | he' | he'
      · exact .inl he'
      · exact .inr (by simpa [Function.update_of_ne (Ne.symm hid)] using he')
      · rw [if_neg hid] at he'
        exact nomatch he'
  finished := hfinished

theorem Appends.writers (h : Appends s store e) (hw : Writers s) (hd : e.event.deployId = d) :
    Writers { s with store := store, held := Function.update s.held d (some e) } where
  logged e' he' := by
    change e' ∈ store.events
    rw [h.events]
    exact List.mem_append_left _ (hw.logged e' he')
  ordered := hw.ordered
  held d' e' he' := by
    change e' ∈ store.events ∧ _
    rw [h.events]
    by_cases hdd : d' = d
    · subst hdd
      simp only [Function.update_self,Option.some.injEq] at he'
      subst he'
      exact ⟨by simp,hd⟩
    · simp only [Function.update_of_ne hdd] at he'
      exact ⟨List.mem_append_left _ (hw.held d' e' he').1,(hw.held d' e' he').2⟩
  latest d' e' he' e'' hlog hdd' := by
    by_cases hdd : d' = d
    · subst hdd
      simp only [Function.update_self,Option.some.injEq] at he'
      subst he'
      have := s.store.events_le e'' (hw.logged e'' hlog)
      have := h.id_eq
      omega
    · simp only [Function.update_of_ne hdd] at he'
      exact hw.latest d' e' he' e'' hlog hdd'

theorem appends_append (hcall : (s.store.call (.appendEvent event)).1 = .ok e) :
    Appends s (s.store.call (.appendEvent event)).2 e ∧ e.event = event := by
  obtain rfl : (⟨s.store.lastEvent+1,event⟩ : StoredEvent) = e := Except.ok.inj hcall
  exact ⟨⟨rfl,rfl,rfl⟩,rfl⟩

theorem appends_finish {status : DeployStatus} {detail : Option Message}
    (hcall : (s.store.call (.finishDeployWithEvent d status detail)).1 = .ok e) :
    Appends s (s.store.call (.finishDeployWithEvent d status detail)).2 e ∧
      e.event = .finished d status detail := by
  obtain ⟨he,hevents,hlast⟩ := Store.events_finishDeployWithEvent hcall
  exact ⟨⟨hevents,by rw [he],hlast⟩,by rw [he]⟩

end Appending

section Quiet
variable {id : ℕ} {s : Streaming}

/-- A call that appends no event changes nothing that a stream can see. -/
theorem call_grows {o : StoreOp} (happend : ∀ event, o ≠ .appendEvent event)
    (hfinish : ∀ d status detail, o ≠ .finishDeployWithEvent d status detail)
    (hstatus : ∀ status detail, o = .finishDeploy id status detail → status ≠ .inProgress) :
    Grows id [] s { s with store := (s.store.call o).2 } where
  events := by
    rw [List.append_nil]
    exact congrArg (List.filter _) (s.store.events_call happend hfinish).1
  added_new := nofun
  lastEvent := (s.store.events_call happend hfinish).2.ge
  log := le_rfl
  ahead rx hrx e he := by
    rcases he with he | he | he
    · exact .inl he
    · exact .inr he
    · exact nomatch he
  finished h := finished_call h fun status detail ho => by
    rcases ho with ho | ho
    · exact hstatus status detail ho
    · exact absurd ho (hfinish id status detail)

theorem call_writers {o : StoreOp} (hw : Writers s) (happend : ∀ event, o ≠ .appendEvent event)
    (hfinish : ∀ d status detail, o ≠ .finishDeployWithEvent d status detail) :
    Writers { s with store := (s.store.call o).2 } where
  logged e he := by
    change e ∈ (s.store.call o).2.events
    rw [(s.store.events_call happend hfinish).1]
    exact hw.logged e he
  ordered := hw.ordered
  held d e he := by
    change e ∈ (s.store.call o).2.events ∧ _
    rw [(s.store.events_call happend hfinish).1]
    exact hw.held d e he
  latest := hw.latest

theorem publish_grows {d : ℕ} {e : StoredEvent} (hheld : s.held d = some e) :
    Grows id [] s { s with log := s.log ++ [e], held := Function.update s.held d none } where
  events := (List.append_nil _).symm
  added_new := nofun
  lastEvent := le_rfl
  log := by simp
  ahead rx hrx e' he' := by
    change e' ∈ (s.log ++ [e]).drop rx ∨ _
    rw [List.drop_append_of_le_length hrx]
    rcases he' with he' | he' | he'
    · exact .inl (List.mem_append_left _ he')
    · by_cases hd : id = d
      · subst hd
        rw [hheld,Option.some.injEq] at he'
        exact .inl (by simp [he'])
      · exact .inr (by simpa [Function.update_of_ne hd] using he')
    · exact nomatch he'
  finished h := h

theorem publish_writers {d : ℕ} {e : StoredEvent} (hw : Writers s) (hheld : s.held d = some e) :
    Writers { s with log := s.log ++ [e], held := Function.update s.held d none } where
  logged e' he' := by
    rcases List.mem_append.mp he' with he' | he'
    · exact hw.logged e' he'
    · rw [List.mem_singleton.mp he']
      exact (hw.held d e hheld).1
  ordered := by
    refine List.pairwise_append.mpr ⟨hw.ordered,List.pairwise_singleton _ _,?_⟩
    intro e' he' e'' he'' hsame
    rw [List.mem_singleton] at he''
    subst he''
    exact hw.latest d e'' hheld e' he' (hsame.trans (hw.held d e'' hheld).2)
  held d' e' he' := by
    by_cases hdd : d' = d
    · subst hdd
      simp at he'
    · exact hw.held d' e' (by simpa [Function.update_of_ne hdd] using he')
  latest d' e' he' e'' hlog hd'' := by
    by_cases hdd : d' = d
    · subst hdd
      simp at he'
    · have he' : s.held d' = some e' := by simpa [Function.update_of_ne hdd] using he'
      rcases List.mem_append.mp hlog with hlog | hlog
      · exact hw.latest d' e' he' e'' hlog hd''
      · rw [List.mem_singleton] at hlog
        subst hlog
        exact absurd (hd''.symm.trans (hw.held d e'' hheld).2) hdd

end Quiet

/-- The invariants do not depend on where the handler stands. -/
theorem handler_grows {id : ℕ} (s : Streaming) (handler : Handler) :
    Grows id [] s { s with handler := handler } :=
  ⟨(List.append_nil _).symm,nofun,le_rfl,le_rfl,
    fun _ _ _ he => he.imp_right fun he => he.resolve_right nofun,fun h => h⟩

section Sending
variable {timely : Prop} {id : ℕ} {asked : Option ℤ} {s : Streaming} {st : Stream} {e : StoredEvent}
  {todo : List StoredEvent}

/-- Sending the next stored event keeps the segment. -/
theorem Open.send (h : Open id asked s st) (he : e ∈ eventsOf id s.store)
    (hnew : st.lastSent < e.key)
    (hnext : ∀ e' ∈ eventsOf id s.store, st.lastSent < e'.key → e.key ≤ e'.key) :
    Open id asked s (st.send e) where
  rx_le := h.rx_le
  resume := h.resume
  resume_le := h.resume_le.trans hnew.le
  lastSent_le := key_le_lastEvent he
  sent := by
    change st.sent ++ [e] = _
    rw [h.sent]
    exact (segment_next (eventsOf_ascending id s.store) he h.resume_le hnew hnext).symm
  terminal := h.terminal

/-- The first of the events to send is the next stored one, if it is new. -/
theorem Ahead.next (h : Ahead timely id s st (e::todo)) :
    ∀ e' ∈ eventsOf id s.store, st.lastSent < e'.key → e.key ≤ e'.key := by
  intro e' he' hsent
  by_contra hlt
  have hlt : e'.key < e.key := by omega
  rcases List.mem_cons.mp (h.closed e List.mem_cons_self e' he' hsent hlt.le) with rfl | htodo
  · omega
  · have := (List.pairwise_cons.mp h.ascending).1 e' htodo
    omega

/-- Once its first event is behind the stream, the rest of the list is what is ahead. -/
theorem Ahead.tail (h : Ahead timely id s st (e::todo)) {sent : List StoredEvent} {lastSent : ℤ}
    (hlast : st.lastSent ≤ lastSent) (hbehind : e.key ≤ lastSent) :
    Ahead timely id s { st with lastSent := lastSent, sent := sent } todo := by
  have hrest : ∀ e' ∈ e::todo, lastSent < e'.key → e' ∈ todo := by
    intro e' he' hlt
    rcases List.mem_cons.mp he' with rfl | he'
    · omega
    · exact he'
  refine ⟨fun e' he' => h.stored e' (List.mem_cons_of_mem _ he'),
    (List.pairwise_cons.mp h.ascending).2,fun e₁ he₁ e' he' hsent hle => ?_,
    fun e' he' hsent => ?_,fun htimely ht e' he' hsent => ?_⟩
  · exact hrest e' (h.closed e₁ (List.mem_cons_of_mem _ he₁) e' he' (hlast.trans_lt hsent) hle) hsent
  · exact (h.nogap e' he' (hlast.trans_lt hsent)).imp_left fun htodo => hrest e' htodo hsent
  · exact hrest e' (h.frozen htimely ht e' he' (hlast.trans_lt hsent)) hsent

theorem Ahead.send (h : Ahead timely id s st (e::todo)) (hnew : st.lastSent < e.key) :
    Ahead timely id s (st.send e) todo :=
  h.tail hnew.le le_rfl

/-- A fresh read of the store is ahead of any stream. -/
theorem ahead_of_read (hread : s.store.eventsFor id = .ok todo) : Ahead timely id s st todo := by
  obtain rfl : todo = eventsOf id s.store := Store.eventsFor_eq_ok hread
  exact ⟨fun _ he => he,eventsOf_ascending id s.store,fun _ _ e' he' _ _ => he',
    fun _ he _ => .inl he,fun _ _ _ he _ => he⟩

theorem sent_getLast (st : Stream) (e : StoredEvent) : (st.send e).sent.getLast? = some e := by
  simp [Stream.send]

end Sending

section Handler
variable {timely : Prop} {id : ℕ} {asked lastEventId queryResume : Option ℤ} {s s' : Streaming} {st : Stream}
  {handler handler' : Handler}

theorem key_le_lastId {e : StoredEvent} (he : e ∈ eventsOf id s.store) :
    e.key ≤ Handler.lastId (eventsOf id s.store) := by
  unfold Handler.lastId
  obtain ⟨init,last,heq⟩ := List.eq_nil_or_concat (eventsOf id s.store) |>.resolve_left
    (List.ne_nil_of_mem he)
  have hsorted := eventsOf_ascending id s.store
  rw [heq] at he hsorted ⊢
  simp only [List.concat_eq_append] at he hsorted ⊢
  rw [List.getLast?_concat]
  rcases List.mem_append.mp he with he | he
  · exact ((List.pairwise_append.mp hsorted).2.2 e he last (by simp)).le
  · rw [List.mem_singleton.mp he]
    rfl

theorem lastId_le_lastEvent : Handler.lastId (eventsOf id s.store) ≤ s.store.lastEvent := by
  unfold Handler.lastId
  cases h : (eventsOf id s.store).getLast? with
  | none => simp
  | some e => exact key_le_lastEvent (List.mem_of_getLast? h)

/-- The stream is opened over all the stored events, or refused to a reader that has them. -/
theorem openStream_sound {rx : ℕ} {terminal : Bool} {backlog : List StoredEvent}
    (hrx : rx ≤ s.log.length) (ht : terminal → s.store.finished id)
    (hread : s.store.eventsFor id = .ok backlog) :
    Sound timely id asked s (Handler.openStream asked rx terminal backlog) := by
  obtain rfl : backlog = eventsOf id s.store := Store.eventsFor_eq_ok hread
  have hclamp : Handler.resumeAt asked (eventsOf id s.store) ≤
      Handler.lastId (eventsOf id s.store) := min_le_right _ _
  have hopen : Open id asked s ⟨rx,terminal,eventsOf id s.store,
      Handler.resumeAt asked (eventsOf id s.store),
      Handler.resumeAt asked (eventsOf id s.store),[]⟩ :=
    ⟨hrx,rfl,le_rfl,hclamp.trans lastId_le_lastEvent,segment_self.symm,ht⟩
  unfold Handler.openStream
  dsimp only
  split
  · rename_i hseen
    simp only [Bool.and_eq_true,decide_eq_true_eq] at hseen
    exact ⟨hopen,.inr ⟨hseen.1,fun _ e he => (key_le_lastId he).trans hseen.2⟩⟩
  · exact ⟨hopen,ahead_of_read hread,fun e _ h => h,by simp⟩

/-- While the stored events are sent, each one is skipped or sent once. -/
theorem sending_sound {ended : Bool} {todo : List StoredEvent}
    (h : Sound timely id asked s (.sending st ended todo))
    (hadv : (Handler.sending st ended todo).advance id lastEventId queryResume s.store =
      some handler') : Sound timely id asked s handler' := by
  obtain ⟨hopen,hahead,hlater,hended⟩ := h
  cases todo with
  | nil =>
    simp only [Handler.advance] at hadv
    split at hadv
    · rename_i hstop
      rw [← Option.some.inj hadv]
      refine ⟨hopen,?_⟩
      simp only [Bool.or_eq_true] at hstop
      rcases hstop with hfin | ht
      · exact .inl (hended hfin)
      · refine .inr ⟨ht,fun htimely e he => ?_⟩
        by_contra hlt
        exact nomatch hahead.frozen htimely ht e he (by omega)
    · rw [← Option.some.inj hadv]
      exact ⟨hopen,hahead⟩
  | cons e todo =>
    have hafter := (List.pairwise_cons.mp hahead.ascending).1
    simp only [Handler.advance] at hadv
    split at hadv
    · rename_i hle
      rw [← Option.some.inj hadv]
      exact ⟨hopen,hahead.tail le_rfl (hle.trans hopen.resume_le),
        fun e' he' => hlater e' (List.mem_cons_of_mem _ he'),hended⟩
    · rename_i hlt
      have hlt : st.resume < e.key := by omega
      have hnew := hlater e List.mem_cons_self hlt
      rw [← Option.some.inj hadv]
      exact ⟨hopen.send (hahead.stored e List.mem_cons_self) hnew hahead.next,
        hahead.send hnew,fun e' he' _ => hafter e' he',
        fun hfin => ⟨e,sent_getLast st e,hfin⟩⟩

/-- The events that the channel has lost are read again, and sent the same way. -/
theorem resending_sound {todo : List StoredEvent}
    (h : Sound timely id asked s (.resending st todo))
    (hadv : (Handler.resending st todo).advance id lastEventId queryResume s.store =
      some handler') : Sound timely id asked s handler' := by
  obtain ⟨hopen,hahead⟩ := h
  cases todo with
  | nil =>
    rw [← Option.some.inj hadv]
    exact ⟨hopen,hahead⟩
  | cons e todo =>
    simp only [Handler.advance] at hadv
    split at hadv
    · rename_i hle
      rw [← Option.some.inj hadv]
      exact ⟨hopen,hahead.tail le_rfl hle⟩
    rename_i hlt
    have hnew : st.lastSent < e.key := by omega
    have hsend := hopen.send (hahead.stored e List.mem_cons_self) hnew hahead.next
    split at hadv
    · rename_i hfin
      rw [← Option.some.inj hadv]
      exact ⟨hsend,.inl ⟨e,sent_getLast st e,hfin⟩⟩
    · rw [← Option.some.inj hadv]
      exact ⟨hsend,hahead.send hnew⟩

/-- The steps of the handler on its own keep its invariant. -/
theorem advance_sound (h : Sound timely id (lastEventId.or queryResume) s handler)
    (hadv : handler.advance id lastEventId queryResume s.store = some handler') :
    Sound timely id (lastEventId.or queryResume) s handler' := by
  cases handler with
  | start => exact nomatch hadv
  | refused e => exact nomatch hadv
  | receiving st => exact nomatch hadv
  | closed st why => exact nomatch hadv
  | subscribed rx =>
    simp only [Handler.advance] at hadv
    cases hrow : s.store.deploy id with
    | none =>
      simp only [hrow,Option.some.injEq] at hadv
      subst hadv
      trivial
    | some row =>
      simp only [hrow,Option.some.injEq] at hadv
      subst hadv
      refine ⟨h,fun ht => finished_iff.mpr ⟨row,hrow,?_⟩⟩
      simpa using ht
  | rowRead rx terminal =>
    simp only [Handler.advance] at hadv
    cases hread : s.store.eventsFor id with
    | error e =>
      simp only [hread,Option.some.injEq] at hadv
      subst hadv
      trivial
    | ok backlog =>
      simp only [hread,Option.some.injEq] at hadv
      subst hadv
      exact openStream_sound h.1 h.2 hread
  | sending st ended todo => exact sending_sound h hadv
  | lagged st =>
    simp only [Handler.advance] at hadv
    cases hread : s.store.eventsFor id with
    | error e =>
      simp only [hread,Option.some.injEq] at hadv
      subst hadv
      exact ⟨h,trivial⟩
    | ok missed =>
      simp only [hread,Option.some.injEq] at hadv
      subst hadv
      exact ⟨h,ahead_of_read hread⟩
  | resending st todo => exact resending_sound h hadv

/-- An event that the channel delivers is the next stored one of its deploy, or was sent. -/
theorem next_of_delivered {e : StoredEvent} (hw : Writers s) (hahead : Ahead timely id s st [])
    (hlog : s.log[st.rx]? = some e) (hid : e.event.deployId = id) :
    ∀ e' ∈ eventsOf id s.store, st.lastSent < e'.key → e.key ≤ e'.key := by
  intro e' he' hsent
  have hdrop : s.log.drop st.rx = e::s.log.drop (st.rx+1) := by
    obtain ⟨hlt,rfl⟩ := List.getElem?_eq_some_iff.mp hlog
    exact List.drop_eq_getElem_cons hlt
  have hsame : e.event.deployId = e'.event.deployId := hid.trans (mem_eventsOf.mp he').2.symm
  rcases hahead.nogap e' he' hsent with htodo | hlater | hheld
  · exact nomatch htodo
  · have hordered := hw.ordered.sublist (List.drop_sublist st.rx s.log)
    rw [hdrop] at hlater hordered
    rcases List.mem_cons.mp hlater with rfl | hlater
    · rfl
    · have := (List.pairwise_cons.mp hordered).1 e' hlater hsame
      simp only [StoredEvent.key]
      omega
  · have := hw.latest id e' hheld e (List.mem_of_getElem? hlog) hid
    simp only [StoredEvent.key]
    omega

theorem receive_sound {r : Recv} (hw : Writers s) (h : Sound timely id asked s (.receiving st))
    (hr : Hub.Delivers s.log st.rx r) : Sound timely id asked s (Handler.receive id st r) := by
  obtain ⟨hopen,hahead⟩ := h
  cases hr with
  | closed => exact ⟨hopen,trivial⟩
  | lagged hlt hle => exact { hopen with rx_le := hle }
  | @event e hlog =>
    obtain ⟨hlt,hget⟩ := List.getElem?_eq_some_iff.mp hlog
    have hpassed : Open id asked s { st with rx := st.rx+1 } := { hopen with rx_le := hlt }
    have hdrop : s.log.drop st.rx = e::s.log.drop (st.rx+1) :=
      hget ▸ List.drop_eq_getElem_cons hlt
    -- Everything still ahead but `e` itself is ahead of the receiver once it has passed `e`.
    have hrest : ∀ e' ∈ eventsOf id s.store, st.lastSent < e'.key → e' ≠ e →
        e' ∈ ([] : List StoredEvent) ∨ e' ∈ s.log.drop (st.rx+1) ∨ s.held id = some e' := by
      intro e' he' hsent hne
      refine (hahead.nogap e' he' hsent).imp_right (Or.imp_left fun hlater => ?_)
      rw [hdrop] at hlater
      exact (List.mem_cons.mp hlater).resolve_left hne
    simp only [Handler.receive]
    split
    · rename_i hskip
      refine ⟨hpassed,{ hahead with nogap := fun e' he' hsent => hrest e' he' hsent ?_ }⟩
      rintro rfl
      rcases hskip with hother | hold
      · exact hother (mem_eventsOf.mp he').2
      · exact absurd hsent (not_lt.mpr hold)
    · rename_i hnot
      push Not at hnot
      obtain ⟨hid,hnew⟩ := hnot
      have hmem : e ∈ eventsOf id s.store :=
        mem_eventsOf.mpr ⟨hw.logged e (List.mem_of_getElem? hlog),hid⟩
      have hnext := next_of_delivered hw hahead hlog hid
      have hsend := Open.send hpassed hmem hnew hnext
      split
      · rename_i hfin
        exact ⟨hsend,.inl ⟨e,sent_getLast _ e,hfin⟩⟩
      · refine ⟨hsend,nofun,.nil,nofun,fun e' he' hsent => ?_,
          fun htimely ht e' he' hsent => hahead.frozen htimely ht e' he' (hnew.trans hsent)⟩
        exact hrest e' he' (hnew.trans hsent) fun heq => absurd hsent (by rw [heq]; exact lt_irrefl _)

end Handler

section Runs
variable {timely : Prop} {id : ℕ} {lastEventId queryResume : Option ℤ} {s s' : Streaming}

theorem writers_initial (store : Store) : Writers (initial store) where
  logged _ he := nomatch he
  ordered := .nil
  held _ _ he := nomatch he
  latest _ _ he := nomatch he

/-- Each step of the writers, the hub or the handler keeps both invariants. -/
theorem step_sound (hw : Writers s) (h : Sound timely id (lastEventId.or queryResume) s s.handler)
    (hstep : Step id lastEventId queryResume s s') (hkept : timely → Timely id s s') :
    Writers s' ∧ Sound timely id (lastEventId.or queryResume) s' s'.handler := by
  cases hstep with
  | call o ho =>
    have hfinish : ∀ d status detail, o ≠ .finishDeployWithEvent d status detail := by
      rintro d status detail rfl
      exact ho.2 d rfl
    refine ⟨call_writers hw ho.1 hfinish,h.grows (call_grows ho.1 hfinish ?_) hkept⟩
    rintro status detail rfl
    exact absurd rfl (ho.2 id)
  | @append event e hrow hidle hcall =>
    obtain ⟨happends,heq⟩ := appends_append hcall
    have hd : e.event.deployId = event.deployId := by rw [heq]
    refine ⟨happends.writers hw hd,h.grows (happends.grows hd hidle ?_) hkept⟩
    exact fun hfin => finished_call hfin (by simp)
  | @finish d status detail e hrow hstatus hidle hcall
  | @record d status detail e hrow hstatus hidle hcall =>
    obtain ⟨happends,heq⟩ := appends_finish hcall
    have hd : e.event.deployId = d := by rw [heq]; rfl
    refine ⟨happends.writers hw hd,h.grows (happends.grows hd hidle ?_) hkept⟩
    refine fun hfin => finished_call hfin fun status' detail' ho => ?_
    rcases ho with ho | ho <;> cases ho
    exact hstatus
  | @reject d status detail hrow hstatus =>
    refine ⟨call_writers hw (by simp) (by simp),
      h.grows (call_grows (by simp) (by simp) ?_) hkept⟩
    rintro status' detail' ho
    cases ho
    exact hstatus
  | publish hheld => exact ⟨publish_writers hw hheld,h.grows (publish_grows hheld) hkept⟩
  | subscribe hstart => exact ⟨{ hw with },le_rfl⟩
  | @advance handler hadv =>
    exact ⟨{ hw with },(advance_sound h hadv).grows (handler_grows s handler) hkept⟩
  | receive hrecv hr =>
    rw [hrecv] at h
    exact ⟨{ hw with },(receive_sound hw h hr).grows (handler_grows s _) hkept⟩

theorem run_sound {step : Streaming → Streaming → Prop} {store : Store}
    (hstep : ∀ t t', step t t' →
      Step id lastEventId queryResume t t' ∧ (timely → Timely id t t'))
    (h : Relation.ReflTransGen step (initial store) s) :
    Writers s ∧ Sound timely id (lastEventId.or queryResume) s s.handler := by
  refine run_induction
    (fun t => Writers t ∧ Sound timely id (lastEventId.or queryResume) t t.handler)
    ⟨writers_initial store,trivial⟩ (fun t t' ht htt' => ?_) h
  exact step_sound ht.1 ht.2 (hstep t t' htt').1 (hstep t t' htt').2

theorem Sound.open {asked : Option ℤ} {handler : Handler} {st : Stream}
    (h : Sound timely id asked s handler) (hst : handler.stream = some st) :
    Open id asked s st := by
  cases handler with
  | start | subscribed | rowRead | refused => exact nomatch hst
  | lagged => exact Option.some.inj hst ▸ h
  | sending | receiving | resending | closed => exact Option.some.inj hst ▸ h.1

/-- What a stream has sent is an initial segment of what is stored past its resume point. -/
theorem Open.initial_segment {asked : Option ℤ} {st : Stream} (h : Open id asked s st) :
    st.resume = Handler.resumeAt asked st.backlog ∧
    st.sent <+: beyond StoredEvent.key st.resume (eventsOf id s.store) ∧
    Ascending StoredEvent.key st.sent := by
  refine ⟨h.resume,?_,?_⟩
  · rw [h.sent]
    exact segment_prefix (eventsOf_ascending id s.store)
  · rw [h.sent]
    exact (eventsOf_ascending id s.store).sublist List.filter_sublist

/-- Along every run, whenever events are stored, a stream has no gap, no duplicate and no
stranger. -/
theorem stream_in_order {store : Store} {st : Stream}
    (h : Relation.ReflTransGen (Step id lastEventId queryResume) (initial store) s)
    (hst : s.handler.stream = some st) :
    st.sent <+: beyond StoredEvent.key st.resume (eventsOf id s.store) := by
  have hsound := (run_sound (fun _ _ hstep => ⟨hstep,False.elim⟩) h).2
  exact (hsound.open hst).initial_segment.2.1

/-- Along every run that stores no event of the deploy after its end: what a stream has sent is
always an initial segment of the deploy's stored events past the clamped resume point, and when it
ends on its own it has sent the terminal event last, or the row had ended when the handler read
it and all of those events have been sent. -/
theorem stream_complete_of_timely {store : Store}
    (h : Relation.ReflTransGen
      (fun t t' => Step id lastEventId queryResume t t' ∧ Timely id t t') (initial store) s) :
    (∀ st, s.handler.stream = some st →
      st.resume = Handler.resumeAt (lastEventId.or queryResume) st.backlog ∧
      st.sent <+: beyond StoredEvent.key st.resume (eventsOf id s.store) ∧
      Ascending StoredEvent.key st.sent) ∧
    ∀ st why, s.handler = .closed st why → (why = .ended ∨ why = .noContent) →
      (∃ e, st.sent.getLast? = some e ∧ e.event.deployId = id ∧ isFinished e) ∨
      (st.alreadyTerminal ∧
        st.sent = beyond StoredEvent.key st.resume (eventsOf id s.store)) := by
  have hsound := (run_sound (fun _ _ hstep => ⟨hstep.1,fun (_ : True) => hstep.2⟩) h).2
  refine ⟨fun st hst => (hsound.open hst).initial_segment,fun st why hclosed hwhy => ?_⟩
  rw [hclosed] at hsound
  obtain ⟨hopen,hended⟩ := hsound
  have hended : Ended True id s st := by rcases hwhy with rfl | rfl <;> exact hended
  rcases hended with ⟨e,hlast,hfin⟩ | ⟨ht,hall⟩
  · refine .inl ⟨e,hlast,?_,hfin⟩
    have hmem := List.mem_of_getLast? hlast
    rw [hopen.sent] at hmem
    exact (mem_eventsOf.mp (List.mem_of_mem_filter hmem)).2
  · refine .inr ⟨ht,?_⟩
    rw [hopen.sent]
    exact segment_eq_beyond (hall trivial)

end Runs

section Sample

theorem silent_createDeploy (app : Text) : Silent (.createDeploy app) :=
  ⟨fun _ => StoreOp.noConfusion,fun _ h => h⟩

theorem silent_acquireLock (app : Text) (d : ℕ) : Silent (.acquireLock app d) :=
  ⟨fun _ => StoreOp.noConfusion,fun _ h => h⟩

/-- A subscriber that lags reads the store again: what it has sent already is skipped, what was
dropped is sent, and the stream ends with the terminal event. -/
theorem stream_of_one_deploy : ∃ (s : Streaming) (st : Stream),
    s.handler = .closed st .ended ∧ st.sent.map StoredEvent.id = [1,2] ∧
    st.sent <+: beyond StoredEvent.key st.resume (eventsOf 1 s.store) ∧
    ((∃ e, st.sent.getLast? = some e ∧ e.event.deployId = 1 ∧ isFinished e) ∨
      (st.alreadyTerminal ∧
        st.sent = beyond StoredEvent.key st.resume (eventsOf 1 s.store))) := by
  have run : ∃ s : Streaming,
      Relation.ReflTransGen (fun t t' => Step 1 none none t t' ∧ Timely 1 t t')
        (initial .empty) s ∧
      match s.handler with
      | .closed st .ended => st.sent.map StoredEvent.id = [1,2]
      | _ => False := by
    refine ⟨_,.tail (.tail (.tail (.tail (.tail (.tail (.tail (.tail (.tail (.tail (.tail (.tail
      (.tail (.tail .refl
      ⟨.call (.createDeploy "web") (silent_createDeploy _),?_⟩)
      ⟨.subscribe rfl,?_⟩)
      ⟨@Step.append _ _ _ _ (.forStage 1 .detect .started none) _ ⟨_,rfl,rfl⟩ rfl rfl,?_⟩)
      ⟨.advance rfl,?_⟩)
      ⟨@Step.publish _ _ _ _ 1 _ rfl,?_⟩)
      ⟨.advance rfl,?_⟩)
      ⟨.advance rfl,?_⟩)
      ⟨.advance rfl,?_⟩)
      ⟨@Step.finish _ _ _ _ 1 .done none _ ⟨_,rfl,rfl⟩ (by decide) rfl rfl,?_⟩)
      ⟨@Step.publish _ _ _ _ 1 _ rfl,?_⟩)
      ⟨@Step.receive _ _ _ _ _ (.lagged 2) rfl (.lagged ?_ ?_),?_⟩)
      ⟨.advance rfl,?_⟩)
      ⟨.advance rfl,?_⟩)
      ⟨.advance rfl,?_⟩,?_⟩
    all_goals decide +kernel
  obtain ⟨s,hrun,hend⟩ := run
  split at hend
  case h_2 => exact hend.elim
  rename_i st hclosed
  have h := stream_complete_of_timely hrun
  exact ⟨s,st,hclosed,hend,(h.1 st (by rw [hclosed]; rfl)).2.1,h.2 st .ended hclosed (.inl rfl)⟩

/-- The hook's delivery to a busy app: `reserve` ends its row, a subscriber reads the row and the
empty log, and only then the terminal event is stored. The stream ends without it. -/
theorem stream_misses_late_event : ∃ (s : Streaming) (st : Stream),
    Relation.ReflTransGen (Step 2 (some (-1)) none) (initial .empty) s ∧
    s.handler = .closed st .ended ∧ st.sent = [] ∧ st.alreadyTerminal ∧
    (beyond StoredEvent.key st.resume (eventsOf 2 s.store)).map StoredEvent.event =
      [.finished 2 .failed (some ["hook ignored: deploy in progress"])] := by
  refine ⟨_,_,.tail (.tail (.tail (.tail (.tail (.tail (.tail (.tail (.tail (.tail .refl
    (.call (.createDeploy "web") (silent_createDeploy _)))
    (.call (.acquireLock "web" 1) (silent_acquireLock _ _)))
    (.call (.createDeploy "web") (silent_createDeploy _)))
    (.call (.acquireLock "web" 2) (silent_acquireLock _ _)))
    (@Step.reject _ _ _ _ 2 .failed (some ["another deploy is already in progress"])
      ⟨_,rfl,rfl⟩ (by decide)))
    (.subscribe rfl))
    (.advance rfl))
    (.advance rfl))
    (@Step.record _ _ _ _ 2 .failed (some ["hook ignored: deploy in progress"]) _
      (by decide +kernel) (by decide) rfl rfl))
    (.advance rfl),rfl,rfl,rfl,rfl⟩

end Sample
end Kuadrat
