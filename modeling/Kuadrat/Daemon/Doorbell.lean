import Kuadrat.Effect.Trace
import Kuadrat.Daemon.Stream
import Kuadrat.Daemon.Webhook
import Kuadrat.Codec.Json
import Kuadrat.Deploy.Records

/-!
# The task that rings the webhook

It takes the events of the hub as they come, and has curl post a message for each one that is
worth it. A delivery is tried three times at most; events that the channel dropped, or whose
deploy cannot be read, are not told of.
-/
namespace Kuadrat

open Effect

/-- What the task does: it waits for the next event, reads the row of its deploy, runs a program
with a document on its standard input, sleeps, and complains. -/
inductive Doorbell
  | recv
  | deploy (deployId : ℕ)
  | runWithStdin (program : Text) (args : List Text) (stdin : Text)
  | sleep (d : Duration)
  | eprintln (line : Message)

@[reducible] def Doorbell.Resp : Doorbell → Type
  | recv => Recv
  | deploy _ => Except Message (Option DeployRow)
  | runWithStdin .. => Except Message CommandOutput
  | sleep _ => Unit
  | eprintln _ => Unit

/-- Terminal outcomes and stage failures only. -/
def EventKind.isNotable : EventKind → Bool
  | finished _ => true
  | stage _ status => status == .failed

/-- Whether this event is worth a message. -/
def isNotable (e : StoredEvent) : Bool := e.event.kind.isNotable

section Payload
variable (debug : Text → Text) (jsonText : Json → Text)

/-- The JSON body: a line of text, and the fields it is made of; `jsonText` writes JSON values. -/
def payload (app : Text) (e : StoredEvent) : Text :=
  let (stage,status) := e.event.kind.columns
  let id := Text.decimal e.event.deployId
  let detail := e.event.detail.map (Message.toText debug)
  let line : Text := app ++ " #" ++ id ++ " " ++ stage ++ " " ++ status
  let text : Text := match detail with
    | some detail => line ++ ": " ++ detail
    | none => line
  jsonText (.obj [("app",.str app),("deploy_id",.num { whole := e.event.deployId }),
    ("detail",detail.elim .null .str),("stage",.str stage.toList),("status",.str status.toList),
    ("text",.str text)])

end Payload

def attempts : ℕ := 3
def retryDelay : Duration := .ofSecs 1

/-- curl reads its options, the URL and the body among them, from its standard input. -/
def curlArgs : List Text :=
  ["--config","-","--fail","--silent","--show-error","--max-time","10"]

/-- One run of curl. -/
def runCurl (config : Text) : Prog Doorbell Doorbell.Resp (Except Message CommandOutput) :=
  .perform (Doorbell.runWithStdin "curl" curlArgs config)

/-- The delay before every try but the first. -/
def pause (first : Bool) : Proc Doorbell Doorbell.Resp Message Unit :=
  if first then return () else .lift (.perform (Doorbell.sleep retryDelay))

/-- The tries that are left. -/
def tries (config : Text) : ℕ → Bool → Message → Proc Doorbell Doorbell.Resp Message Unit
  | 0, _, lastErr => throw lastErr
  | left+1, first, _ => do
    pause first
    match ← (.lift (runCurl config) : Proc Doorbell Doorbell.Resp Message _) with
    | .ok out => if out.success then return () else tries config left false [.text out.stderr.trim]
    | .error err => tries config left false err

/-- Deliver `body` to `url` through curl. -/
def send (url body : Text) : Proc Doorbell Doorbell.Resp Message Unit :=
  tries (curlConfig url body) attempts true ["webhook delivery attempted zero times"]

section Spawn
variable (debug : Text → Text) (jsonText : Json → Text) (url : Text)

/-- The message of one event, if there is one to send. -/
def ring (e : StoredEvent) : Prog Doorbell Doorbell.Resp Unit :=
  if isNotable e then do
    match ← (.perform (Doorbell.deploy e.event.deployId) :
        Prog Doorbell Doorbell.Resp (Except Message (Option DeployRow))) with
    | .ok (some row) =>
      match ← (send url (payload debug jsonText row.app e)).run with
      | .ok _ => return ()
      | .error err => .perform (Doorbell.eprintln (Message.context ["webhook delivery failed"] err))
    | _ => return ()
  else return ()

/-- The loop of the task, for as many receptions as there have been. -/
def ringLoop : ℕ → Prog Doorbell Doorbell.Resp Unit
  | 0 => return ()
  | n+1 => do
    match ← (.perform Doorbell.recv : Prog Doorbell Doorbell.Resp Recv) with
    | .event e _ =>
      ring debug jsonText url e
      ringLoop n
    | .lagged _ => ringLoop n
    | .closed => return ()

end Spawn

section Transcript

abbrev BellTrace := List (Exchange Doorbell Doorbell.Resp)

/-- What the channel has reported, in order. -/
def reports (tr : BellTrace) : List Recv := tr.filterMap fun
  | ⟨.recv,r⟩ => some r
  | _ => none

/-- The documents that curl was run on, each with what came of it. -/
def posts (tr : BellTrace) : List (Text × Except Message CommandOutput) := tr.filterMap fun
  | ⟨.runWithStdin _ _ stdin,r⟩ => some (stdin,r)
  | _ => none

/-- Every deploy that was looked up was found. -/
def AllFound (tr : BellTrace) : Prop :=
  ∀ d r, (⟨.deploy d,r⟩ : Exchange Doorbell Doorbell.Resp) ∈ tr → ∃ row, r = .ok (some row)

theorem reports_append (s t : BellTrace) : reports (s ++ t) = reports s ++ reports t :=
  List.filterMap_append
theorem posts_append (s t : BellTrace) : posts (s ++ t) = posts s ++ posts t :=
  List.filterMap_append

end Transcript

namespace Hub

/-- Where a receiver is after a report. -/
def next (rx : ℕ) : Recv → ℕ
  | .event _ rx' => rx'
  | .lagged rx' => rx'
  | .closed => rx

/-- What a broadcast channel may report, one report after the other. -/
inductive Reports (log : List StoredEvent) : ℕ → List Recv → Prop
  | nil {rx : ℕ} : Reports log rx []
  | cons {rx : ℕ} {r : Recv} {rs : List Recv} (h : Delivers log rx r)
    (hrs : Reports log (next rx r) rs) : Reports log rx (r::rs)

end Hub

/-- The events among the reports. -/
def received (rs : List Recv) : List StoredEvent := rs.filterMap fun
  | .event e _ => some e
  | _ => none

def Recv.isLagged : Recv → Bool
  | lagged _ => true
  | _ => false

section Received
variable {log : List StoredEvent} {rx : ℕ} {rs : List Recv}

theorem drop_eq_cons {e : StoredEvent} (h : log[rx]? = some e) :
    log.drop rx = e::log.drop (rx+1) := by
  obtain ⟨hlt,rfl⟩ := List.getElem?_eq_some_iff.mp h
  exact List.drop_eq_getElem_cons hlt

/-- A receiver gets events that were published after it subscribed, in order and each once. -/
theorem received_sublist (h : Hub.Reports log rx rs) : (received rs).Sublist (log.drop rx) := by
  induction h with
  | nil => exact List.nil_sublist _
  | @cons rx r rs hr _ ih =>
    cases hr with
    | event he =>
      rw [drop_eq_cons he]
      exact ih.cons_cons _
    | @lagged rx' hlt _ =>
      exact ih.trans (List.drop_sublist_drop_left log (Nat.le_of_lt hlt))
    | closed => exact ih

/-- Without a lag it gets them all, up to some point. -/
theorem received_start (h : Hub.Reports log rx rs) (hlag : ∀ r ∈ rs, r.isLagged = false) :
    received rs <+: log.drop rx := by
  induction h with
  | nil => exact List.nil_prefix
  | @cons rx r rs hr _ ih =>
    obtain ⟨hfirst,hrest⟩ := List.forall_mem_cons.mp hlag
    cases hr with
    | event he =>
      rw [drop_eq_cons he]
      exact List.cons_prefix_cons.mpr ⟨rfl,ih hrest⟩
    | lagged hlt hle => cases hfirst
    | closed => exact ih hrest

end Received

/-- curl has delivered the message. -/
def curlDone : Except Message CommandOutput → Bool
  | .ok out => out.success
  | .error _ => false

/-- The results of one delivery with at most `n` tries: the first success ends it. -/
inductive Delivery : ℕ → List (Except Message CommandOutput) → Prop
  | givenUp : Delivery 0 []
  | taken {n : ℕ} {x : Except Message CommandOutput} (h : curlDone x = true) : Delivery (n+1) [x]
  | again {n : ℕ} {x : Except Message CommandOutput} {xs : List (Except Message CommandOutput)}
    (h : curlDone x = false) (hxs : Delivery n xs) : Delivery (n+1) (x::xs)

section Deliveries
variable {n : ℕ} {xs : List (Except Message CommandOutput)}

theorem Delivery.length_le (h : Delivery n xs) : xs.length ≤ n := by
  induction h with
  | givenUp => exact Nat.le_refl 0
  | taken => simp
  | again _ _ ih => simpa using ih

theorem Delivery.ne_nil (h : Delivery (n+1) xs) : xs ≠ [] := by
  cases h <;> simp

/-- Every try but the last one failed; one that was not the last possible succeeded. -/
theorem Delivery.outcomes (h : Delivery n xs) : (∀ x ∈ xs.dropLast, curlDone x = false) ∧
    (xs.length < n → ∃ x, xs.getLast? = some x ∧ curlDone x = true) := by
  induction h with
  | givenUp => exact ⟨nofun,fun h => absurd h (Nat.lt_irrefl 0)⟩
  | @taken n x hx => exact ⟨nofun,fun _ => ⟨x,rfl,hx⟩⟩
  | @again n x xs hx hxs ih =>
    cases xs with
    | nil =>
      refine ⟨nofun,fun hlt => ?_⟩
      cases n with
      | zero => exact absurd hlt (Nat.lt_irrefl 1)
      | succ n => exact absurd rfl hxs.ne_nil
    | cons y ys =>
      refine ⟨?_,fun hlt => ?_⟩
      · rw [List.dropLast_cons_cons]
        exact List.forall_mem_cons.mpr ⟨hx,ih.1⟩
      · obtain ⟨z,hz,htaken⟩ := ih.2 (Nat.lt_of_succ_lt_succ hlt)
        exact ⟨z,by rw [List.getLast?_cons_cons,hz],htaken⟩

variable {config : Text} {first : Bool} {lastErr : Message} {tr : BellTrace}
  {x : Except Message CommandOutput} {r : Except Message Unit}

/-- Nothing of the trace can be seen from outside. -/
structure Silently (tr : BellTrace) : Prop where
  posts : posts tr = []
  reports : reports tr = []
  found : AllFound tr

/-- The trace is that of one delivery with at most `n` tries. -/
def Tried (config : Text) (n : ℕ) (tr : BellTrace) : Prop :=
  ∃ xs, Delivery n xs ∧ posts tr = xs.map (fun x => (config,x)) ∧ reports tr = [] ∧ AllFound tr

theorem AllFound.append {s t : BellTrace} (hs : AllFound s) (ht : AllFound t) :
    AllFound (s ++ t) := by
  intro d r hmem
  rcases List.mem_append.mp hmem with h | h
  · exact hs d r h
  · exact ht d r h

theorem AllFound.of_append {s t : BellTrace} (h : AllFound (s ++ t)) :
    AllFound s ∧ AllFound t :=
  ⟨fun d r hmem => h d r (List.mem_append_left t hmem),
    fun d r hmem => h d r (List.mem_append_right s hmem)⟩

theorem Tried.after {s : BellTrace} (hs : Silently s) (h : Tried config n tr) :
    Tried config n (s ++ tr) := by
  obtain ⟨xs,hxs,hposts,hreports,hfound⟩ := h
  refine ⟨xs,hxs,?_,?_,hs.found.append hfound⟩
  · rw [posts_append,hs.posts,hposts,List.nil_append]
  · rw [reports_append,hs.reports,hreports,List.nil_append]

theorem allFound_curl : AllFound [⟨.runWithStdin "curl" curlArgs config,x⟩] := by
  intro d r hmem
  cases hmem with
  | tail _ h => cases h

theorem tried_taken (hx : curlDone x = true) :
    Tried config (n+1) [⟨.runWithStdin "curl" curlArgs config,x⟩] :=
  ⟨[x],.taken hx,rfl,rfl,allFound_curl⟩

theorem Tried.again (hx : curlDone x = false) (h : Tried config n tr) :
    Tried config (n+1) ([⟨.runWithStdin "curl" curlArgs config,x⟩] ++ tr) := by
  obtain ⟨xs,hxs,hposts,hreports,hfound⟩ := h
  refine ⟨x::xs,.again hx hxs,?_,?_,allFound_curl.append hfound⟩
  · rw [posts_append,hposts]
    rfl
  · rw [reports_append,hreports]
    rfl

/-- The pause before a try leaves no mark. -/
theorem runs_pause (h : Runs (pause first).run tr r) : r = .ok () ∧ Silently tr := by
  cases first with
  | true =>
    obtain ⟨rfl,rfl⟩ := runs_ret.mp h
    exact ⟨rfl,rfl,rfl,nofun⟩
  | false =>
    obtain ⟨u,rfl,hsleep⟩ := runs_lift.mp h
    rw [runs_perform.mp hsleep]
    refine ⟨rfl,rfl,rfl,fun d r hmem => ?_⟩
    cases hmem with
    | tail _ h => cases h

/-- One delivery posts the same document each time, until it has been taken. -/
theorem runs_tries (h : Runs (tries config n first lastErr).run tr r) : Tried config n tr := by
  induction n generalizing first lastErr tr with
  | zero =>
    obtain ⟨rfl,-⟩ := runs_ret.mp h
    exact ⟨[],.givenUp,rfl,rfl,nofun⟩
  | succ n ih =>
    rcases runs_run_bind.mp h with ⟨u,tr₁,tr₂,rfl,hpause,htry⟩ | ⟨e,rfl,hpause⟩
    swap
    · exact absurd (runs_pause hpause).1 (by simp)
    refine Tried.after (runs_pause hpause).2 ?_
    rcases runs_run_bind.mp htry with ⟨x,tr₃,tr₄,rfl,hcurl,hrest⟩ | ⟨e,rfl,hcurl⟩
    swap
    · obtain ⟨x,hx,-⟩ := runs_lift.mp hcurl
      cases hx
    obtain ⟨y,hy,hcurl⟩ := runs_lift.mp hcurl
    cases hy
    rw [runCurl,runs_perform] at hcurl
    subst hcurl
    cases x with
    | error err => exact (ih hrest).again rfl
    | ok out =>
      dsimp only at hrest
      split at hrest
      · rename_i hsuccess
        obtain ⟨rfl,-⟩ := runs_ret.mp hrest
        exact tried_taken hsuccess
      · rename_i hfailed
        exact (ih hrest).again (Bool.eq_false_iff.mpr hfailed)

end Deliveries

/-- One message that was tried: its event, the app of the event's deploy, and how the tries went. -/
structure Rung where
  event : StoredEvent
  app : Text
  results : List (Except Message CommandOutput)

section Ringing
variable (debug : Text → Text) (jsonText : Json → Text) (url : Text)

/-- What curl was run on for a message, try by try. -/
def Rung.posts (g : Rung) : List (Text × Except Message CommandOutput) :=
  g.results.map fun x => (curlConfig url (payload debug jsonText g.app g.event),x)

/-- The messages `rungs` are those for the events `es`, as the trace shows them. -/
structure Rings (es : List StoredEvent) (tr : BellTrace) (rungs : List Rung) : Prop where
  sublist : (rungs.map Rung.event).Sublist (es.filter isNotable)
  posts : posts tr = rungs.flatMap (Rung.posts debug jsonText url)
  deliveries : ∀ g ∈ rungs, Delivery attempts g.results
  all : AllFound tr → rungs.map Rung.event = es.filter isNotable

variable {debug jsonText url} {es es' : List StoredEvent} {tr tr' : BellTrace} {rungs rungs' : List Rung}

theorem Rings.append (h : Rings debug jsonText url es tr rungs)
    (h' : Rings debug jsonText url es' tr' rungs') :
    Rings debug jsonText url (es ++ es') (tr ++ tr') (rungs ++ rungs') where
  sublist := by
    rw [List.map_append,List.filter_append]
    exact h.sublist.append h'.sublist
  posts := by rw [posts_append,h.posts,h'.posts,List.flatMap_append]
  deliveries g hg := (List.mem_append.mp hg).elim (h.deliveries g) (h'.deliveries g)
  all hfound := by
    rw [List.map_append,List.filter_append,h.all hfound.of_append.1,h'.all hfound.of_append.2]

/-- An event for which curl is not run: it is not notable, or its deploy is not there. -/
theorem rings_none {e : StoredEvent} (hposts : Kuadrat.posts tr = [])
    (hskip : isNotable e = false ∨ ¬AllFound tr) : Rings debug jsonText url [e] tr [] where
  sublist := List.nil_sublist _
  posts := hposts
  deliveries := nofun
  all hfound := by
    rw [List.filter_cons_of_neg (by simp [hskip.resolve_right (not_not.mpr hfound)])]
    rfl

theorem runs_ring {e : StoredEvent} (h : Runs (ring debug jsonText url e) tr ()) :
    reports tr = [] ∧ ∃ rungs, Rings debug jsonText url [e] tr rungs := by
  unfold ring at h
  split at h
  swap
  · rename_i hquiet
    obtain ⟨rfl,-⟩ := runs_ret.mp h
    exact ⟨rfl,[],rings_none rfl (.inl (Bool.eq_false_iff.mpr hquiet))⟩
  rename_i hnotable
  obtain ⟨reply,tr',rfl,hrest⟩ := runs_perform_bind.mp h
  have hmissing : (∀ row, reply ≠ .ok (some row)) →
      ¬AllFound (⟨.deploy e.event.deployId,reply⟩::tr') := by
    intro hne hfound
    obtain ⟨row,hrow⟩ := hfound _ reply List.mem_cons_self
    exact hne row hrow
  rcases reply with why | row
  · obtain ⟨rfl,-⟩ := runs_ret.mp hrest
    exact ⟨rfl,[],rings_none rfl (.inr (hmissing nofun))⟩
  cases row with
  | none =>
    obtain ⟨rfl,-⟩ := runs_ret.mp hrest
    exact ⟨rfl,[],rings_none rfl (.inr (hmissing nofun))⟩
  | some row =>
    obtain ⟨r,tr₁,tr₂,rfl,hsend,hend⟩ := runs_bind.mp hrest
    obtain ⟨xs,hxs,hposts,hreports,hfound⟩ := runs_tries hsend
    -- a complaint is no message
    have hquiet : Kuadrat.posts tr₂ = [] ∧ reports tr₂ = [] := by
      cases r with
      | ok u =>
        obtain ⟨rfl,-⟩ := runs_ret.mp hend
        exact ⟨rfl,rfl⟩
      | error why =>
        obtain ⟨-,rfl⟩ := runs_perform.mp hend
        exact ⟨rfl,rfl⟩
    refine ⟨?_,[⟨e,row.app,xs⟩],?_,?_,?_,?_⟩
    · change reports (tr₁ ++ tr₂) = []
      rw [reports_append,hreports,hquiet.2,List.nil_append]
    · rw [List.filter_cons_of_pos hnotable]
      exact List.Sublist.refl _
    · change Kuadrat.posts (tr₁ ++ tr₂) = _
      rw [posts_append,hposts,hquiet.1]
      simp [Rung.posts]
    · simpa using hxs
    · intro _
      rw [List.filter_cons_of_pos hnotable]
      rfl

/-- The task rings for the events it receives, in their order. -/
theorem runs_ringLoop {n : ℕ} (h : Runs (ringLoop debug jsonText url n) tr ()) :
    ∃ rungs, Rings debug jsonText url (received (reports tr)) tr rungs := by
  induction n generalizing tr with
  | zero =>
    obtain ⟨rfl,-⟩ := runs_ret.mp h
    exact ⟨[],List.nil_sublist _,rfl,nofun,fun _ => rfl⟩
  | succ n ih =>
    obtain ⟨reply,tr',rfl,hrest⟩ := runs_perform_bind.mp h
    have hfound : ∀ {es rungs}, Rings debug jsonText url es tr' rungs →
        Rings debug jsonText url es (⟨.recv,reply⟩::tr') rungs := by
      intro es rungs hr
      exact ⟨hr.sublist,hr.posts,hr.deliveries,fun hall => hr.all fun d r hmem =>
        hall d r (List.mem_cons_of_mem _ hmem)⟩
    cases reply with
    | event e rx =>
      obtain ⟨u,tr₁,tr₂,rfl,hring,hloop⟩ := runs_bind.mp hrest
      obtain ⟨hsilent,rungs₁,hrungs₁⟩ := runs_ring hring
      obtain ⟨rungs₂,hrungs₂⟩ := ih hloop
      have heq : received (reports (⟨.recv,.event e rx⟩::(tr₁ ++ tr₂))) =
          [e] ++ received (reports tr₂) := by
        change e::received (reports (tr₁ ++ tr₂)) = _
        rw [reports_append,hsilent]
        rfl
      rw [heq]
      exact ⟨rungs₁ ++ rungs₂,hfound (hrungs₁.append hrungs₂)⟩
    | lagged rx =>
      obtain ⟨rungs,hrungs⟩ := ih hrest
      exact ⟨rungs,hfound hrungs⟩
    | closed =>
      obtain ⟨rfl,-⟩ := runs_ret.mp hrest
      exact ⟨[],List.nil_sublist _,rfl,nofun,fun _ => rfl⟩

/-- Whatever the channel reports and drops, whatever the store answers, and however curl fares: the
messages that the task posts are for notable events published after it subscribed, in their order
and each at most once; one message is tried three times at most, and never again once curl has
taken it. As long as the channel drops nothing and every deploy is found, no notable event is left
out. -/
theorem doorbell_rings_in_order {log : List StoredEvent} {rx n : ℕ}
    (hrun : Runs (ringLoop debug jsonText url n) tr ())
    (hhub : Hub.Reports log rx (reports tr)) : ∃ rungs : List Rung,
    (rungs.map Rung.event).Sublist ((log.drop rx).filter isNotable) ∧
    posts tr = rungs.flatMap (Rung.posts debug jsonText url) ∧
    (∀ g ∈ rungs, 1 ≤ g.results.length ∧ g.results.length ≤ 3 ∧
      (∀ x ∈ g.results.dropLast, curlDone x = false) ∧
      (g.results.length < 3 → ∃ x, g.results.getLast? = some x ∧ curlDone x = true)) ∧
    (AllFound tr → (∀ r ∈ reports tr, r.isLagged = false) →
      rungs.map Rung.event = (received (reports tr)).filter isNotable ∧
      received (reports tr) <+: log.drop rx) := by
  obtain ⟨rungs,hrungs⟩ := runs_ringLoop hrun
  refine ⟨rungs,?_,hrungs.posts,fun g hg => ?_,fun hfound hlag => ?_⟩
  · exact hrungs.sublist.trans ((received_sublist hhub).filter _)
  · have hdelivery : Delivery 3 g.results := hrungs.deliveries g hg
    have hpos := List.length_pos_iff.mpr hdelivery.ne_nil
    exact ⟨hpos,hdelivery.length_le,hdelivery.outcomes⟩
  · exact ⟨hrungs.all hfound,received_start hhub hlag⟩

end Ringing

section Deploys
variable {d : ℕ}

theorem map_event_filter (log : List StoredEvent) : (log.filter isNotable).map StoredEvent.event =
    (log.map StoredEvent.event).filter fun event => event.kind.isNotable := by
  rw [List.filter_map]
  rfl

theorem quiet_passedEvents (stages : List Stage) :
    (passedEvents d stages).filter (fun event => event.kind.isNotable) = [] := by
  induction stages with
  | nil => rfl
  | cons stage stages ih =>
    rw [passedEvents,List.flatMap_cons,← passedEvents,List.filter_append,ih]
    rfl

/-- The events of a timeline that are worth a message. -/
theorem Timeline.notable {events : List Event} {outcome : DeployOutcome}
    (h : Timeline d events outcome) :
    (outcome.failedAt = none ∧
      events.filter (fun event => event.kind.isNotable) = [.finished d .done none]) ∨
    ∃ stage cause detail, outcome.failedAt = some stage ∧
      events.filter (fun event => event.kind.isNotable) =
        [.forStage d stage .failed (some cause),.finished d outcome.status (some detail)] := by
  cases h with
  | done image =>
    refine .inl ⟨rfl,?_⟩
    rw [List.filter_append,quiet_passedEvents]
    rfl
  | rolledBack cause hall =>
    refine .inr ⟨_,cause,cause,rfl,?_⟩
    rw [List.filter_append,List.filter_append,quiet_passedEvents]
    rfl
  | failed cause comp hall =>
    refine .inr ⟨_,cause,cause ++ msg ["; compensation also failed: "] ++ comp,rfl,?_⟩
    rw [List.filter_append,List.filter_append,quiet_passedEvents]
    rfl

/-- A deploy is worth at most two messages, whatever happens on the host: one for the stage that
failed, if one did, and then one for its end. -/
theorem deploy_rings_for (ctx : Ctx) (spec : WorkloadSpec) (repo : Path) (w w' : World)
    (answers : List Answer) (r : Except Message DeployOutcome)
    (hvalid : spec.validate = .ok ())
    (hdec : ∀ json, w.store.spec spec.name = some json → ∃ prev, ctx.codec.ofText json = .ok prev)
    (hrun : (recordingHost ctx.paths).finish answers (runReserved ctx spec repo d).run w =
      some (r,w')) :
    ∃ outcome log, r = .ok outcome ∧ w'.published = w.published ++ log ∧
      ((outcome.failedAt = none ∧
          (log.filter isNotable).map StoredEvent.event = [.finished d .done none]) ∨
        ∃ stage cause detail, outcome.failedAt = some stage ∧
          (log.filter isNotable).map StoredEvent.event =
            [.forStage d stage .failed (some cause),.finished d outcome.status (some detail)]) := by
  have hwp := @sure_runReserved_record ctx w d spec repo hvalid hdec
  obtain ⟨outcome,hr,hagree,-⟩ := Machine.wp_complete _ hwp
    (Machine.allowed_of_forall _ (fun _ _ _ => trivial) _ _) ((Machine.finish_eq_some _).mp hrun)
  obtain ⟨events,htimeline,log,hlog,-,hpublished⟩ := hagree.timeline
  refine ⟨outcome,log,hr,hpublished,?_⟩
  rw [map_event_filter,hlog]
  exact htimeline.notable

/-- A deploy that fails at its first stage rings for that, and for its end. -/
theorem failed_detect_rings : ∃ outcome w' log, (recordingHost .default).finish
      (failedWrite.take 5 ++ [.fail ["no git"]] ++ List.replicate 5 .done)
      (runReserved sampleContext sampleSpec ["","repo"] 1).run sampleWorld =
      some (.ok outcome,w') ∧ w'.published = sampleWorld.published ++ log ∧
    ∃ cause detail, (log.filter isNotable).map StoredEvent.event =
      [.forStage 1 .detect .failed (some cause),.finished 1 .rolledBack (some detail)] := by
  have hrun : ∃ w', (recordingHost .default).finish
      (failedWrite.take 5 ++ [.fail ["no git"]] ++ List.replicate 5 .done)
      (runReserved sampleContext sampleSpec ["","repo"] 1).run sampleWorld =
      some (.ok (.rolledBack .detect ["no git"]),w') := ⟨_,rfl⟩
  obtain ⟨w',hrun⟩ := hrun
  obtain ⟨outcome,log,hr,hpublished,hrings⟩ := deploy_rings_for sampleContext sampleSpec
    ["","repo"] sampleWorld w' _ _ (by decide +kernel) nofun hrun
  cases hr
  refine ⟨_,w',log,hrun,hpublished,?_⟩
  rcases hrings with ⟨hdone,-⟩ | ⟨stage,cause,detail,hstage,hlog⟩
  · cases hdone
  · cases hstage
    exact ⟨cause,detail,hlog⟩

end Deploys

section Sample

/-- The deploy of an app fails in its build. -/
def failedBuild : List StoredEvent :=
  [⟨1,.forStage 1 .build .started none⟩,⟨2,.forStage 1 .build .failed (some ["exit 1"])⟩,
    ⟨3,.finished 1 .failed none⟩]

/-- curl cannot connect at first; the deploy's row has gone by the time of its last event. -/
def failedBuildTrace (row : DeployRow) (document : Text) : BellTrace :=
  [⟨.recv,.event ⟨1,.forStage 1 .build .started none⟩ 1⟩,
    ⟨.recv,.event ⟨2,.forStage 1 .build .failed (some ["exit 1"])⟩ 2⟩,⟨.deploy 1,.ok (some row)⟩,
    ⟨.runWithStdin "curl" curlArgs document,.ok ⟨7,[],[]⟩⟩,⟨.sleep retryDelay,()⟩,
    ⟨.runWithStdin "curl" curlArgs document,.ok ⟨0,[],[]⟩⟩,
    ⟨.recv,.event ⟨3,.finished 1 .failed none⟩ 3⟩,⟨.deploy 1,.ok none⟩,⟨.recv,.closed⟩]

theorem failedBuild_rung : ∃ (document : Text) (rungs : List Rung),
    (rungs.map Rung.event).Sublist (failedBuild.filter isNotable) ∧
    rungs.flatMap (Rung.posts id Json.compact "https://example.com/hook") =
      [(document,.ok ⟨7,[],[]⟩),(document,.ok ⟨0,[],[]⟩)] ∧
    ∀ g ∈ rungs, g.results.length ≤ 3 := by
  let row : DeployRow := ⟨1,"web",.build,.inProgress,none⟩
  let document := curlConfig "https://example.com/hook"
    (payload id Json.compact "web" ⟨2,.forStage 1 .build .failed (some ["exit 1"])⟩)
  have hrun : Runs (ringLoop id Json.compact "https://example.com/hook" 5)
      (failedBuildTrace row document) () :=
    .op (.op (.op (.op (.op (.op (.op (.op (.op (.ret ())))))))))
  have hhub : Hub.Reports failedBuild 0 (reports (failedBuildTrace row document)) :=
    .cons (.event rfl) (.cons (.event rfl) (.cons (.event rfl) (.cons .closed .nil)))
  obtain ⟨rungs,hsublist,hposts,hrungs,-⟩ := doorbell_rings_in_order hrun hhub
  exact ⟨document,rungs,hsublist,hposts.symm,fun g hg => (hrungs g hg).2.1⟩

end Sample

end Kuadrat
