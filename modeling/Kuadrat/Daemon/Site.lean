import Kuadrat.Daemon.Links
import Kuadrat.Mcp.Serve
import Kuadrat.Store.Course

/-!
# Browsing

The pages that the handlers make of the store, and where a browser gets from them: whatever
calls the store has seen, no page asks for an app or a deploy that the store does not have, and a
registration leads to the page of what was registered.
-/
namespace Kuadrat

open Html Url
open Mcp (Method pathSegment SerdeJson)

/-- `recent_deploys`: newest first, the limit saturated to `i64`. -/
def Store.recentDeploys (s : Store) (app : Text) (limit : ℕ) : List DeployRow :=
  ((s.deploys.filter fun r => r.app = app).reverse).take (min limit (2^63-1))

/-- What the host answers while a page is made. -/
structure HostReads where
  status : Text → Except Message WorkloadState
  tail : Text → ℕ → Except Message (List Text)

inductive Response
  | page (code : ℕ) (screen : Screen)
  | redirect (location : Text)

section Handlers
variable (debug : Text → Text) (json : SerdeJson) (host : HostReads)

/-- `Redirect::to`; a location that a header cannot hold is a panic. -/
def redirectTo (location : Text) : Option Response :=
  if location.all fun c => 32 ≤ c.toNat && c.toNat < 127 then some (.redirect location) else none

/-- A status read that fails is reported as a status. -/
def summarise (c : AppConfig) : AppSummary :=
  ⟨c.name,c.repoPath,c.route,match host.status c.name with
    | .ok state => state
    | .error _ => .unknown⟩

/-- A store read that fails renders an empty list. -/
def index (s : Store) : Response :=
  .page 200 (.index (match s.listAppConfigs with
    | .ok configs => configs.map (summarise host)
    | .error _ => []))

/-- The image in the spec that an app was last deployed with. -/
def currentImage (s : Store) (name : Text) : Option Text :=
  (s.currentSpec name).bind fun t => match json.fromStr t with
    | .ok v => (v.get "image").bind Json.asStr
    | .error _ => none

def storeUnavailable (what : Text) (e : Message) : Response :=
  .page 500 (.storeUnavailable what e)

def appDetail (s : Store) (name : Text) (following : Bool) : Response :=
  match s.appConfig name with
  | .ok (some config) => .page 200 (.app {
      config := config
      status := (summarise host { config with name := name }).status
      image := currentImage json s name
      deploys := s.recentDeploys name recentDeploysShown
      following := following
      journal := host.tail name logLines })
  | .ok none => .page 404 (.notFound "app")
  | .error e => storeUnavailable "the registration" e

def deployDetail (s : Store) (d : ℕ) : Response :=
  match s.deploy d with
  | none => .page 404 (.notFound "deploy")
  | some row => match s.eventsFor d with
    | .ok events => .page 200 (.deploy row events)
    | .error e => storeUnavailable "the deploy's events" e

/-- The form has a name and a path; a rejected one is shown again with the reason. -/
def registerForm (s : Store) (name repoPath : Text) : Option Response × Store :=
  let (r,s') := s.call (.registerApp ⟨name,repoPath,none⟩)
  match r with
  | .ok _ => (redirectTo (appHref name),s')
  | .error e => (some (.page 400 (.registration (some (e.toText debug)))),s')

end Handlers

/-- The stores that calls lead to. -/
inductive Store.Called : Store → Prop
  | empty : Called .empty
  | call {s : Store} (o : StoreOp) (h : Called s) : Called (s.call o).2

section Slugs
variable {s : Store}

/-- Every registered name has a slug. -/
def Store.Slugged (s : Store) : Prop := ∀ name, s.checkout name ≠ none → slug name ≠ []

theorem slugged_registerApp (h : s.Slugged) (config : AppConfig) :
    (s.call (.registerApp config)).2.Slugged := by
  have hcall : s.call (.registerApp config) =
      s.commit ((s.registerApp config).map fun s' => ((),s')) := rfl
  rcases registerApp_cases s config with ⟨hw,-,hok⟩ | ⟨-,why,herr⟩
  · rw [hcall,hok]
    intro name hname
    by_cases heq : name = config.name
    · subst heq
      simp only [AppConfig.wellFormed,Bool.and_eq_true,Bool.not_eq_true'] at hw
      simpa using hw.1
    · refine h name fun hnone => hname ?_
      change ((s.configs.insert config.name config.toRow).lookup name).map _ = none
      rwa [AList.lookup_insert_ne heq]
  · rw [hcall,herr]
    exact h

theorem slugged_call (h : s.Slugged) (o : StoreOp) : (s.call o).2.Slugged := by
  by_cases ho : ∃ config, o = .registerApp config
  · obtain ⟨config,rfl⟩ := ho
    exact slugged_registerApp h config
  · intro name
    rw [Store.checkout_call fun config heq => ho ⟨config,heq⟩]
    exact h name

theorem Store.Called.slugged (h : s.Called) : s.Slugged := by
  induction h with
  | empty => exact fun name h => absurd rfl h
  | call o _ ih => exact slugged_call ih o

end Slugs

section Found
variable {s : Store}

/-- The app or the deploy that a request is about is in the store. -/
def Found (s : Store) (a : Arrival) : Prop :=
  match a.endpoint,a.params with
  | .appDetail,[name] | .appLogStream,[name] | .deploy,[name] =>
    ∃ config, s.appConfig name = .ok (some config)
  | .deployDetail,[t] | .deployStream,[t] =>
    ∃ d : ℕ, parseI64 t = some (d : ℤ) ∧ (s.deploy d).isSome = true
  | _,_ => True

theorem found_deploy {d : ℕ} {row : DeployRow} (hs : s.lastDeploy < 2^63) (h : s.row d = some row)
    (query : Option Text) : Found s ⟨.deployDetail,[Text.decimal d],query⟩ ∧
      Found s ⟨.deployStream,[Text.decimal d],query⟩ := by
  have hle : d ≤ s.lastDeploy := by
    by_contra hlt
    rw [Store.row_eq_none_of_lt (Nat.lt_of_not_le hlt)] at h
    cases h
  have hparse : parseI64 (Text.decimal d) = some (d : ℤ) := parseI64_decimal (by omega)
  have hsome : (s.deploy d).isSome = true := Option.isSome_of_eq_some h
  exact ⟨⟨d,hparse,hsome⟩,d,hparse,hsome⟩

theorem found_name {name : Text} {config : AppConfig} (h : s.appConfig name = .ok (some config))
    (query : Option Text) : Found s ⟨.appDetail,[name],query⟩ ∧
      Found s ⟨.appLogStream,[name],query⟩ ∧ Found s ⟨.deploy,[name],query⟩ :=
  ⟨⟨config,h⟩,⟨config,h⟩,config,h⟩

theorem mem_recentDeploys {app : Text} {limit : ℕ} {row : DeployRow}
    (h : row ∈ s.recentDeploys app limit) : s.row row.id = some row := by
  have hmem := List.mem_reverse.mp (List.mem_of_mem_take h)
  exact Store.row_of_mem (List.mem_of_mem_filter hmem)

theorem exists_of_mapM_ok {α β : Type} {f : α → Except Message β} {l : List α} {out : List β}
    (h : l.mapM f = .ok out) {b : β} (hb : b ∈ out) : ∃ a ∈ l, f a = .ok b := by
  induction l generalizing out with
  | nil =>
    cases h
    cases hb
  | cons a l ih =>
    rw [List.mapM_cons] at h
    cases ha : f a with
    | error e =>
      rw [ha] at h
      cases h
    | ok c =>
      rw [ha] at h
      cases hl : l.mapM f with
      | error e =>
        rw [hl] at h
        cases h
      | ok rest =>
        rw [hl] at h
        cases h
        rcases List.mem_cons.mp hb with rfl | hb
        · exact ⟨a,List.mem_cons_self,ha⟩
        · obtain ⟨a',ha',hfa'⟩ := ih hl hb
          exact ⟨a',List.mem_cons_of_mem _ ha',hfa'⟩

/-- Every configuration that is listed is found by its name. -/
theorem appConfig_of_listed {configs : List AppConfig} (h : s.listAppConfigs = .ok configs)
    {config : AppConfig} (hmem : config ∈ configs) : s.appConfig config.name = .ok (some config) := by
  obtain ⟨row,hrow,hread⟩ := exists_of_mapM_ok h hmem
  have hentry := (List.perm_insertionSort _ s.configs.entries).mem_iff.mp hrow
  have hname := name_of_readRow hread
  have hlookup : s.configs.lookup config.name = some row.2 := by
    rw [hname]
    exact AList.mem_lookup_iff.mpr hentry
  rw [Store.appConfig_eq,hlookup]
  dsimp only
  rw [hname,hread]
  rfl

end Found

section Browsing
variable (debug : Text → Text) (json : SerdeJson) (host : HostReads)

/-- What the daemon answers a browser out of one store, and the store after it. -/
inductive Answers (s : Store) : Response → Store → Prop
  | index : Answers s (index host s) s
  | appDetail (name : Text) (following : Bool) :
    Answers s (appDetail json host s name following) s
  | deployDetail (d : ℕ) : Answers s (deployDetail s d) s
  | registerForm {name repoPath : Text} {r : Response} {s' : Store}
    (h : registerForm debug s name repoPath = (some r,s')) : Answers s r s'
  /-- The redeploy button: the deploy that was reserved. -/
  | deploy (app : Text) :
    Answers s (.redirect ("/deploy/" ++ Text.decimal (s.createDeploy app).1)) (s.createDeploy app).2

/-- What a browser asks for when it has got a response. -/
def Response.leadsTo : Response → Option (List (Method × Text))
  | page _ screen => (Html.read (screen.html debug)).map requests
  | redirect location => some [asked location]

variable {s s' : Store}

/-- What a browser gets from a page, and where its requests arrive. -/
theorem page_arrives {v : Screen} (code : ℕ) (hnames : ∀ name ∈ v.names, slug name ≠ []) :
    ∃ asked, (Response.page code v).leadsTo debug = some asked ∧
      asked.map arriveAt = v.intended.map some := by
  have hread : Html.read (v.html debug) = some _ := read_tokens (v.nodes debug)
  refine ⟨_,by rw [Response.leadsTo,hread,Option.map_some],?_⟩
  rw [requests_merge]
  exact requests_screen debug v hnames

theorem page_leadsTo {v : Screen} {code : ℕ} (hnames : ∀ name ∈ v.names, slug name ≠ [])
    (hfound : ∀ a ∈ v.intended, Found s a) :
    ∃ asked, (Response.page code v).leadsTo debug = some asked ∧
      ∀ r ∈ asked, ∃ a, arriveAt r = some a ∧ Found s a := by
  obtain ⟨asked,hasked,harrive⟩ := page_arrives debug code hnames
  refine ⟨asked,hasked,fun r hr => ?_⟩
  obtain ⟨a,ha,heq⟩ := List.mem_map.mp (harrive ▸ List.mem_map_of_mem hr : arriveAt r ∈ _)
  exact ⟨a,heq.symm,hfound a ha⟩

theorem found_shell : ∀ a ∈ Screen.intended.shell, Found s a := by
  intro a ha
  simp only [Screen.intended.shell,List.mem_cons,List.not_mem_nil,or_false] at ha
  rcases ha with rfl | rfl | rfl | rfl <;> trivial

theorem slug_of_found (hs : s.Slugged) {name : Text} {config : AppConfig}
    (h : s.appConfig name = .ok (some config)) : slug name ≠ [] := by
  refine hs name ?_
  rw [(Store.of_appConfig h).2]
  simp

theorem index_leadsTo (hs : s.Slugged) : ∃ asked, (index host s).leadsTo debug = some asked ∧
    ∀ r ∈ asked, ∃ a, arriveAt r = some a ∧ Found s a := by
  have hlisted : ∀ configs : List AppConfig,
      (∀ c ∈ configs, s.appConfig c.name = .ok (some c)) →
      ∃ asked, (Response.page 200 (.index (configs.map (summarise host)))).leadsTo debug =
        some asked ∧ ∀ r ∈ asked, ∃ a, arriveAt r = some a ∧ Found s a := by
    intro configs hfound
    refine page_leadsTo debug ?_ ?_
    · intro name hname
      rw [Screen.names,List.map_map] at hname
      obtain ⟨c,hc,rfl⟩ := List.mem_map.mp hname
      exact slug_of_found hs (hfound c hc)
    · intro a ha
      rw [Screen.intended,List.map_map] at ha
      rcases List.mem_append.mp ha with ha | ha
      · rcases List.mem_append.mp ha with ha | ha
        · exact found_shell a ha
        · obtain ⟨c,hc,rfl⟩ := List.mem_map.mp ha
          exact (found_name (hfound c hc) none).1
      · obtain rfl := List.mem_singleton.mp ha
        trivial
  unfold index
  split
  · rename_i configs hconfigs
    exact hlisted configs fun c hc => appConfig_of_listed hconfigs hc
  · exact hlisted [] (List.forall_mem_nil _)

theorem appDetail_leadsTo (hs : s.Slugged) (hids : s.lastDeploy < 2^63) (name : Text)
    (following : Bool) :
    ∃ asked, (appDetail json host s name following).leadsTo debug = some asked ∧
      ∀ r ∈ asked, ∃ a, arriveAt r = some a ∧ Found s a := by
  unfold appDetail
  split
  · rename_i config hconfig
    obtain ⟨rfl,-⟩ := Store.of_appConfig hconfig
    refine page_leadsTo debug ?_ ?_
    · intro name hname
      obtain rfl := List.mem_singleton.mp hname
      exact slug_of_found hs hconfig
    · intro a ha
      rw [Screen.intended] at ha
      rcases List.mem_append.mp ha with ha | ha
      · exact found_shell a ha
      rcases List.mem_append.mp ha with ha | ha
      · rcases List.mem_cons.mp ha with rfl | ha
        · exact (found_name hconfig none).2.2
        · obtain ⟨row,hrow,rfl⟩ := List.mem_map.mp ha
          exact (found_deploy hids (mem_recentDeploys hrow) none).1
      · rcases List.mem_cons.mp ha with rfl | ha
        · exact (found_name hconfig _).1
        · split at ha
          · obtain rfl := List.mem_singleton.mp ha
            exact (found_name hconfig none).2.1
          · cases ha
  · exact page_leadsTo debug (List.forall_mem_nil _) found_shell
  · exact page_leadsTo debug (List.forall_mem_nil _) found_shell

theorem deployDetail_leadsTo (hids : s.lastDeploy < 2^63) (d : ℕ) :
    ∃ asked, (deployDetail s d).leadsTo debug = some asked ∧
      ∀ r ∈ asked, ∃ a, arriveAt r = some a ∧ Found s a := by
  unfold deployDetail
  split
  · exact page_leadsTo debug (List.forall_mem_nil _) found_shell
  · rename_i row hrow
    obtain rfl : row.id = d := Store.id_of_row hrow
    split
    · refine page_leadsTo debug (List.forall_mem_nil _) ?_
      intro a ha
      rw [Screen.intended] at ha
      rcases List.mem_append.mp ha with ha | ha
      · exact found_shell a ha
      · split at ha
        · obtain rfl := List.mem_singleton.mp ha
          exact (found_deploy hids hrow _).2
        · cases ha
    · exact page_leadsTo debug (List.forall_mem_nil _) found_shell

theorem redirectTo_appHref (name : Text) :
    redirectTo (appHref name) = some (.redirect (appHref name)) := by
  refine if_pos (List.all_eq_true.mpr fun c hc => ?_)
  have hvisible : 32 ≤ c.toNat ∧ c.toNat < 127 := by
    rcases List.mem_append.mp hc with h | h
    · have hfixed : ("/app/" : Text).all (fun c => 32 ≤ c.toNat && c.toNat < 127) = true := rfl
      simpa using List.all_eq_true.mp hfixed c h
    · exact visibleAscii_pathSegment name c h
  simpa using hvisible

/-- The form sends the browser to a page, with the registration in the store, or back to the
form with the store as it was. -/
theorem registerForm_cases (s : Store) (name repoPath : Text) :
    (∃ s', registerForm debug s name repoPath = (some (.redirect (appHref name)),s') ∧
      slug name ≠ [] ∧ s'.appConfig name = .ok (some ⟨name,repoPath,none⟩)) ∨
    ∃ why, registerForm debug s name repoPath =
      (some (.page 400 (.registration (some (Message.toText debug why)))),s) := by
  have hcall : s.call (.registerApp ⟨name,repoPath,none⟩) =
      s.commit ((s.registerApp ⟨name,repoPath,none⟩).map fun s' => ((),s')) := rfl
  rcases registerApp_cases s ⟨name,repoPath,none⟩ with ⟨hw,-,hok⟩ | ⟨-,why,herr⟩
  · obtain ⟨t,hok,hconfigs⟩ : ∃ t, s.registerApp ⟨name,repoPath,none⟩ = .ok t ∧
        t.configs = s.configs.insert name (AppConfig.toRow ⟨name,repoPath,none⟩) := ⟨_,hok,rfl⟩
    refine .inl ⟨t,?_,?_,?_⟩
    · rw [registerForm,hcall,hok]
      exact congrArg (·,t) (redirectTo_appHref name)
    · simp only [AppConfig.wellFormed,Bool.and_eq_true,Bool.not_eq_true'] at hw
      simpa using hw.1
    · have hread := (Store.readRow_toRow ⟨name,repoPath,none⟩).1 nofun
      rw [Store.appConfig_eq,hconfigs,AList.lookup_insert]
      dsimp only
      rw [hread]
      rfl
  · refine .inr ⟨why,?_⟩
    rw [registerForm,hcall,herr]
    rfl

/-- A registration leads to the page of what was registered, or says why it was rejected. -/
theorem registerForm_leadsTo {name repoPath : Text} {r : Response}
    (h : registerForm debug s name repoPath = (some r,s')) :
    ∃ asked, r.leadsTo debug = some asked ∧
      ∀ q ∈ asked, ∃ a, arriveAt q = some a ∧ Found s' a := by
  rcases registerForm_cases debug s name repoPath with ⟨t,hform,hslug,hconfig⟩ | ⟨why,hform⟩
  · rw [hform] at h
    cases h
    refine ⟨_,rfl,fun q hq => ?_⟩
    obtain rfl := List.mem_singleton.mp hq
    exact ⟨_,(arrive_name hslug).1,(found_name hconfig none).1⟩
  · rw [hform] at h
    cases h
    refine page_leadsTo debug (List.forall_mem_nil _) fun a ha => ?_
    rcases List.mem_append.mp ha with ha | ha
    · exact found_shell a ha
    · obtain rfl := List.mem_singleton.mp ha
      trivial

/-- Whatever calls the store has seen: a browser can read what the daemon answers, and each of
its requests arrives at a handler that has the app or the deploy it is about. -/
theorem no_dead_links (hs : s.Called) {r : Response} (h : Answers debug json host s r s')
    (hids : s'.lastDeploy < 2^63) :
    ∃ asked, r.leadsTo debug = some asked ∧
      ∀ q ∈ asked, ∃ a, arriveAt q = some a ∧ Found s' a := by
  cases h with
  | index => exact index_leadsTo debug host hs.slugged
  | appDetail name following => exact appDetail_leadsTo debug json host hs.slugged hids name following
  | deployDetail d => exact deployDetail_leadsTo debug hids d
  | registerForm h => exact registerForm_leadsTo debug h
  | deploy app =>
    refine ⟨_,rfl,fun q hq => ?_⟩
    obtain rfl := List.mem_singleton.mp hq
    have hrow := (Store.row_createDeploy (s := s) app (s.createDeploy app).1).trans (if_pos rfl)
    exact ⟨_,(arrive_id _ 0).1,(found_deploy hids hrow none).1⟩

end Browsing

/-- An app that was registered and deployed twice. -/
def deployedTwice : Store :=
  [.registerApp ⟨"my app","/srv/web",none⟩,.createDeploy "my app",.createDeploy "my app"].foldl
    (fun s o => (s.call o).2) .empty

def steadyHost : HostReads := ⟨fun _ => .ok .running,fun _ _ => .ok []⟩

def myAppArrivals : List Arrival := Screen.intended.shell ++ [⟨.deploy,["my app"],none⟩,
  ⟨.deployDetail,["2"],none⟩,⟨.deployDetail,["1"],none⟩,⟨.appDetail,["my app"],none⟩,
  ⟨.appLogStream,["my app"],none⟩]

/-- Its page, with the logs followed, leads to both deploys, the newest one first. -/
theorem my_app_found : ∃ asked,
    (appDetail Mcp.eraJson steadyHost deployedTwice "my app" true).leadsTo id = some asked ∧
    asked.map arriveAt = myAppArrivals.map some ∧
    ∀ q ∈ asked, ∃ a, arriveAt q = some a ∧ Found deployedTwice a := by
  have hcalled : deployedTwice.Called := .call _ (.call _ (.call _ .empty))
  obtain ⟨asked,hasked,hfound⟩ := no_dead_links id Mcp.eraJson steadyHost hcalled
    (.appDetail "my app" true) (by decide)
  obtain ⟨page,hpage,hname,harrivals⟩ : ∃ page,
      appDetail Mcp.eraJson steadyHost deployedTwice "my app" true = .page 200 (.app page) ∧
      page.config.name = "my app" ∧ (Screen.app page).intended = myAppArrivals :=
    ⟨_,rfl,rfl,by decide +kernel⟩
  refine ⟨asked,hasked,?_,hfound⟩
  have hnames : ∀ name ∈ (Screen.app page).names, slug name ≠ [] := by
    intro name hmem
    rw [List.mem_singleton.mp hmem,hname]
    decide
  obtain ⟨asked',hasked',harrive⟩ := page_arrives id 200 hnames
  rw [hpage,hasked'] at hasked
  cases hasked
  rw [harrive,harrivals]

end Kuadrat
