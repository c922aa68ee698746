import Kuadrat.Daemon.Pages

/-!
# Where the pages lead

The requests that a browser makes from a page: its stylesheet and scripts, its links, its forms
and its stream. Each arrives at the route it is for, with the name or the id of what the page
is about.
-/
namespace Kuadrat

open Html Url
open Mcp (Method pathSegment)

def asked (target : Text) : Method × Text := (.get,target)

def posted (target : Text) : Method × Text := (.post,target)

/-- The value of an attribute. -/
def Html.Tag.value (tag : Tag) (name : Text) : Option Text := (tag.attrs.lookup name).join

/-- A reference into the page itself. -/
def isFragment (ref : Text) : Bool := ref.head? == some '#'

def Html.Tag.requests (tag : Tag) : List (Method × Text) :=
  (((tag.value "href").filter fun ref => !isFragment ref).toList ++
    (tag.value "src").toList).map (.get,·) ++
  (tag.value "action").toList.map
    ((if tag.value "method" = some "post".toList then .post else .get),·) ++
  (tag.value "sse-connect").toList.map (.get,·)

def Html.Token.requests : Token → List (Method × Text)
  | .start tag => tag.requests
  | _ => []

/-- The requests that a browser makes from what it has read, in the order of the page. -/
def requests (m : List Token) : List (Method × Text) := m.flatMap Token.requests

section Requests

theorem requests_append (m m' : List Token) : requests (m ++ m') = requests m ++ requests m' :=
  List.flatMap_append

theorem requests_flush (t : Text) : requests (flush t) = [] := by
  rw [flush]
  split <;> rfl

theorem requests_merge (m : List Token) (t : Text) : requests (merge t m) = requests m := by
  induction m generalizing t with
  | nil => exact requests_flush t
  | cons k m ih =>
    cases k with
    | text u => exact ih (t ++ u)
    | start _ | stop _ | doctype =>
      rw [merge,requests_append,requests_flush,List.nil_append,requests,List.flatMap_cons]
      · exact congrArg _ (ih [])
      · rintro u ⟨⟩

/-- The requests of some nodes, one after the other. -/
def Html.Node.requests (n : Node vocabulary) : List (Method × Text) := Kuadrat.requests n.tokens

theorem requests_cons (n : Node vocabulary) (ns : Nodes) :
    requests (tokens (n::ns)) = n.requests ++ requests (tokens ns) := by
  rw [tokens,requests_append]
  rfl

theorem requests_map {α : Type} (l : List α) (f : α → Node vocabulary) :
    requests (tokens (l.map f)) = l.flatMap fun a => (f a).requests := by
  induction l with
  | nil => rfl
  | cons a l ih => rw [List.map_cons,requests_cons,ih,List.flatMap_cons]

/-- An element that is not void asks for what its tag and its children ask for. -/
theorem requests_el {e : Element} (h : e.word ∉ voids) (attrs : List (Attr × Option Text))
    (children : Nodes) : (el e attrs children).requests =
      (startTag (V := vocabulary) e attrs).requests ++ requests (tokens children) := by
  have htokens : (el e attrs children).tokens = .start (startTag (V := vocabulary) e attrs)::
      (tokens children ++ [.stop e.word]) := by
    change _::(if e.word ∈ voids then [] else tokens children ++ [.stop e.word]) = _
    rw [if_neg h]
  rw [Node.requests,htokens,requests,List.flatMap_cons,List.flatMap_append]
  exact congrArg _ (List.append_nil _)

theorem requests_nil : requests (tokens ([] : Nodes)) = [] := rfl

/-- The attribute with a name. -/
def Attr.ofWord (t : Text) : Option Attr :=
  [action,ariaLive,charset,cls,content,forId,href,hxExt,hxSwap,id,lang,method,name,opened,rel,
    required,sseConnect,sseSwap,src,type].find? fun a => a.word == t

theorem word_injective {a b : Attr} (h : a.word = b.word) : a = b := by
  have hword : ∀ a : Attr, Attr.ofWord a.word = some a := by
    intro a
    cases a <;> rfl
  exact Option.some.inj ((hword a).symm.trans ((congrArg _ h).trans (hword b)))

theorem value_startTag (e : Element) (attrs : List (Attr × Option Text)) (a : Attr) :
    (startTag (V := vocabulary) e attrs).value a.word = (attrs.lookup a).join := by
  have hlookup : (attrs.map fun b => (b.1.word,b.2)).lookup a.word = attrs.lookup a := by
    induction attrs with
    | nil => rfl
    | cons b attrs ih =>
      by_cases hab : a = b.1
      · subst hab
        rw [List.map_cons,List.lookup_cons_self]
        exact List.lookup_cons_self.symm
      · have hword : a.word ≠ b.1.word := fun heq => hab (word_injective heq)
        rw [List.map_cons,List.lookup_cons,List.lookup_cons,beq_eq_false_iff_ne.mpr hab,
          beq_eq_false_iff_ne.mpr hword,ih]
  exact congrArg Option.join hlookup

/-- The requests of a tag by its attributes. -/
def attrRequests (attrs : List (Attr × Option Text)) : List (Method × Text) :=
  ((((attrs.lookup .href).join).filter fun ref => !isFragment ref).toList ++
    ((attrs.lookup .src).join).toList).map (.get,·) ++
  ((attrs.lookup .action).join).toList.map
    ((if (attrs.lookup .method).join = some "post".toList then .post else .get),·) ++
  ((attrs.lookup .sseConnect).join).toList.map (.get,·)

theorem requests_startTag (e : Element) (attrs : List (Attr × Option Text)) :
    (startTag (V := vocabulary) e attrs).requests = attrRequests attrs := by
  have hvalue := value_startTag e attrs
  rw [attrRequests,← hvalue .href,← hvalue .src,← hvalue .action,← hvalue .method,
    ← hvalue .sseConnect]
  rfl

def shellRequests : List (Method × Text) :=
  [(.get,"/assets/kuadrat.css"),(.get,"/assets/htmx.min.js"),(.get,"/assets/sse.min.js"),(.get,"/")]

theorem requests_layout (title : Text) (body : Nodes) :
    requests (tokens (layout title body)) = shellRequests ++ requests (tokens body) := by
  simp (disch := decide) only [layout,requests_cons,requests_el,requests_startTag,
    requests_nil,List.append_nil]
  rfl

theorem requests_registrationForm (error : Option Text) :
    requests (tokens (registrationForm error)) = [posted "/apps"] := by
  cases error <;> rfl

theorem requests_appListRow (summary : AppSummary) :
    (appListRow summary).requests = [asked (appHref summary.name)] := by
  obtain ⟨name,repoPath,route,status⟩ := summary
  cases route <;> rfl

theorem requests_index (apps : List AppSummary) : requests (tokens (indexPage apps)) =
    shellRequests ++ (apps.map fun summary => asked (appHref summary.name)) ++
      [posted "/apps"] := by
  rw [indexPage,requests_layout,List.append_assoc]
  refine congrArg (shellRequests ++ ·) ?_
  cases apps with
  | nil => rfl
  | cons summary apps =>
    have hrows : requests (tokens ((summary::apps).map appListRow)) =
        (summary::apps).map fun summary => asked (appHref summary.name) := by
      rw [requests_map,List.map_eq_flatMap]
      exact List.flatMap_congr fun summary _ => requests_appListRow summary
    simp (disch := decide) only [reduceCtorEq,if_false,requests_cons,requests_el,requests_startTag,
      hrows,requests_registrationForm,requests_nil,List.append_nil]
    rfl

theorem requests_followBar (page : AppPage) : requests (tokens (followBar page)) =
    [asked (appHref page.config.name ++ if page.following then [] else "?follow=1")] := by
  obtain ⟨⟨name,repoPath,route⟩,status,image,deploys,following,journal⟩ := page
  cases following
  · rfl
  · dsimp only
    rw [if_pos rfl,List.append_nil]
    rfl

/-- The stream of an app's page is there only when it is asked for and can be read. -/
def AppPage.follows (page : AppPage) : Bool :=
  page.following && match page.journal with
    | .ok _ => true
    | .error _ => false

theorem requests_logSection (debug : Text → Text) (page : AppPage) :
    (logSection debug page).requests =
      if page.follows then [asked (appHref page.config.name ++ "/logs/stream")] else [] := by
  obtain ⟨⟨name,repoPath,route⟩,status,image,deploys,following,journal⟩ := page
  rcases following with _ | _ <;> rcases journal with e | lines <;> try rfl
  cases lines <;> rfl

theorem requests_deployHistory (debug : Text → Text) (deploys : List DeployRow) :
    (deployHistory debug deploys).requests =
      deploys.map fun row => asked ("/deploy/" ++ Text.decimal row.id) := by
  cases deploys with
  | nil => rfl
  | cons row rows =>
    have hrow : ∀ row, (deployHistoryRow debug row).requests =
        [asked ("/deploy/" ++ Text.decimal row.id)] := by
      rintro ⟨d,app,stage,status,detail⟩
      cases detail <;> rfl
    have hrows : requests (tokens ((row::rows).map (deployHistoryRow debug))) =
        (row::rows).map fun row => asked ("/deploy/" ++ Text.decimal row.id) := by
      rw [requests_map,List.map_eq_flatMap]
      exact List.flatMap_congr fun row _ => hrow row
    simp (disch := decide) only [deployHistory,reduceCtorEq,if_false,requests_cons,requests_el,
      requests_startTag,hrows,requests_nil,List.append_nil]
    rfl

theorem requests_app (debug : Text → Text) (page : AppPage) :
    requests (tokens (appPage debug page)) = shellRequests ++
      (posted ("/api/apps/" ++ pathSegment page.config.name ++ "/deploy")::
        (page.deploys.map fun row => asked ("/deploy/" ++ Text.decimal row.id)) ++
        asked (appHref page.config.name ++ if page.following then [] else "?follow=1")::
        if page.follows then [asked (appHref page.config.name ++ "/logs/stream")] else []) := by
  have hfacts : (appFacts page).requests = [] := by
    obtain ⟨⟨name,repoPath,route⟩,status,image,deploys,following,journal⟩ := page
    cases route <;> cases image <;> rfl
  rw [appPage,requests_layout]
  refine congrArg (shellRequests ++ ·) ?_
  simp (disch := decide) only [requests_cons,requests_el,requests_startTag,hfacts,
    requests_deployHistory,requests_followBar,requests_logSection,requests_nil,List.append_nil]
  rfl

theorem requests_deploy (debug : Text → Text) (row : DeployRow) (events : List StoredEvent) :
    requests (tokens (deployDetailPage debug row events)) = shellRequests ++
      if row.status = .inProgress then
        [asked ("/deploy/" ++ Text.decimal row.id ++ "/stream?resume=" ++
          Text.decimal (lastShown events))]
      else [] := by
  have hrow : ∀ e, (eventRow debug e).requests = [] := by
    rintro ⟨d,deployId,kind,detail⟩
    cases detail <;> rfl
  have hrows : requests (tokens (events.map (eventRow debug))) = [] := by
    rw [requests_map,List.flatMap_eq_nil_iff]
    exact fun e _ => hrow e
  rw [deployDetailPage,requests_layout]
  refine congrArg (shellRequests ++ ·) ?_
  simp (disch := decide) only [deployPage,requests_cons,requests_el,requests_startTag,hrows,
    requests_nil,List.append_nil]
  by_cases hlive : row.status = .inProgress
  · rw [hlive]
    rfl
  · rw [decide_eq_false hlive,if_neg hlive]
    rfl

end Requests

section Arrivals
variable {name : Text}

def arriveAt (r : Method × Text) : Option Arrival := arrive r.1 r.2

/-- A name stands in its route as one segment. -/
theorem arrive_name (h : slug name ≠ []) :
    arriveAt (asked (appHref name)) = some ⟨.appDetail,[name],none⟩ ∧
    arriveAt (asked (appHref name ++ "?follow=1")) = some ⟨.appDetail,[name],some "follow=1"⟩ ∧
    arriveAt (asked (appHref name ++ "/logs/stream")) = some ⟨.appLogStream,[name],none⟩ ∧
    arriveAt (posted ("/api/apps/" ++ pathSegment name ++ "/deploy")) =
      some ⟨.deploy,[name],none⟩ := by
  have hwhole := whole_pathSegment h
  obtain ⟨hpage,hstream,hdeploy,-⟩ := resolve_pages (pathSegment_ne_nil h)
  have hdecode : [pathSegment name].mapM (fun param => Utf8.decode (percentDecode param)) =
      some [name] := by
    simp [decode_pathSegment]
  have happ : ∀ s ∈ (["app",pathSegment name] : List Text), WholeSegment s := by
    simp only [List.forall_mem_cons]
    exact ⟨by decide,hwhole,nofun⟩
  refine ⟨?_,?_,?_,?_⟩
  · have harrive := arrive_pathText _ happ hpage hdecode
    simpa [arriveAt,asked,posted,appHref] using harrive
  · have harrive := arrive_query _ "follow=1" happ hpage hdecode (by decide)
    simpa [arriveAt,asked,posted,appHref] using harrive
  · have harrive := arrive_pathText ["app",pathSegment name,"logs","stream"] (by
      simp only [List.forall_mem_cons]
      exact ⟨by decide,hwhole,by decide,by decide,nofun⟩) hstream hdecode
    simpa [arriveAt,asked,posted,appHref] using harrive
  · have harrive := arrive_pathText ["api","apps",pathSegment name,"deploy"] (by
      simp only [List.forall_mem_cons]
      exact ⟨by decide,by decide,hwhole,by decide,nofun⟩) hdeploy hdecode
    simpa [arriveAt,asked,posted,appHref] using harrive

/-- The requests of the shell. -/
theorem arrive_shell : shellRequests.map arriveAt =
    [some ⟨.css,[],none⟩,some ⟨.htmx,[],none⟩,some ⟨.sse,[],none⟩,some ⟨.index,[],none⟩] := by
  decide

theorem arrive_apps : arriveAt (posted "/apps") = some ⟨.registerForm,[],none⟩ := by
  decide

theorem arrive_id (d last : ℕ) :
    arriveAt (asked ("/deploy/" ++ Text.decimal d)) = some ⟨.deployDetail,[Text.decimal d],none⟩ ∧
    arriveAt (asked ("/deploy/" ++ Text.decimal d ++ "/stream?resume=" ++ Text.decimal last)) =
      some ⟨.deployStream,[Text.decimal d],some ("resume=" ++ Text.decimal last)⟩ := by
  have hwhole := whole_decimal d
  obtain ⟨-,-,-,hpage,hstream⟩ := resolve_pages
    (show Text.decimal d ≠ [] from Nat.toDigits_ne_nil)
  have hdecode : [Text.decimal d].mapM (fun param => Utf8.decode (percentDecode param)) =
      some [Text.decimal d] := by
    simp [decode_decimal]
  constructor
  · have harrive := arrive_pathText ["deploy",Text.decimal d] (by
      simp only [List.forall_mem_cons]
      exact ⟨by decide,hwhole,nofun⟩) hpage hdecode
    simpa [arriveAt,asked] using harrive
  · have harrive := arrive_query ["deploy",Text.decimal d,"stream"] ("resume=" ++ Text.decimal last) (by
      simp only [List.forall_mem_cons]
      exact ⟨by decide,hwhole,by decide,nofun⟩) hstream hdecode (by
        intro hmem
        rcases List.mem_append.mp hmem with h | h
        · exact absurd h (by decide)
        · exact notMem_decimal rfl last h)
    simpa [arriveAt,asked] using harrive

end Arrivals

section Intended

/-- Where the requests of a page are meant to go. -/
def Screen.intended : Screen → List Arrival
  | .index apps => shell ++ (apps.map fun summary => ⟨.appDetail,[summary.name],none⟩) ++
      [⟨.registerForm,[],none⟩]
  | .registration _ => shell ++ [⟨.registerForm,[],none⟩]
  | .app page => shell ++ (⟨.deploy,[page.config.name],none⟩::
      (page.deploys.map fun row => ⟨.deployDetail,[Text.decimal row.id],none⟩) ++
      ⟨.appDetail,[page.config.name],if page.following then none else some "follow=1"⟩::
      if page.follows then [⟨.appLogStream,[page.config.name],none⟩] else [])
  | .deploy row events => shell ++
      if row.status = .inProgress then
        [⟨.deployStream,[Text.decimal row.id],some ("resume=" ++ Text.decimal (lastShown events))⟩]
      else []
  | .notFound _ | .storeUnavailable _ _ => shell
  | .event _ | .line _ => []
where
  shell : List Arrival := [⟨.css,[],none⟩,⟨.htmx,[],none⟩,⟨.sse,[],none⟩,⟨.index,[],none⟩]

/-- The names that a page shows as names of apps. -/
def Screen.names : Screen → List Text
  | .index apps => apps.map AppSummary.name
  | .app page => [page.config.name]
  | _ => []

theorem requests_screen (debug : Text → Text) (v : Screen) (h : ∀ name ∈ v.names, slug name ≠ []) :
    (requests (tokens (v.nodes debug))).map arriveAt = v.intended.map some := by
  have hshell : shellRequests.map arriveAt = Screen.intended.shell.map some := arrive_shell
  cases v with
  | index apps =>
    have hrows : (apps.map fun summary => asked (appHref summary.name)).map arriveAt =
        (apps.map fun summary => (⟨.appDetail,[summary.name],none⟩ : Arrival)).map some := by
      rw [List.map_map,List.map_map]
      refine List.map_congr_left fun summary hmem => ?_
      exact (arrive_name (h summary.name (List.mem_map_of_mem hmem))).1
    simp only [Screen.nodes,Screen.intended,requests_index,List.map_append,hshell,hrows,
      List.map_cons,List.map_nil,arrive_apps]
  | registration error =>
    have hform : requests (tokens (registrationPage error)) = shellRequests ++ [posted "/apps"] := by
      cases error <;> rfl
    simp only [Screen.nodes,Screen.intended,hform,List.map_append,hshell,List.map_cons,
      List.map_nil,arrive_apps]
  | app page =>
    obtain ⟨hpage,hfollow,hstream,hdeploy⟩ := arrive_name (h _ (List.mem_singleton.mpr rfl))
    have hrows : (page.deploys.map fun row => asked ("/deploy/" ++ Text.decimal row.id)).map arriveAt =
        (page.deploys.map fun row =>
          (⟨.deployDetail,[Text.decimal row.id],none⟩ : Arrival)).map some := by
      rw [List.map_map,List.map_map]
      exact List.map_congr_left fun row _ => (arrive_id row.id 0).1
    have hbar : arriveAt
        (asked (appHref page.config.name ++ if page.following then [] else "?follow=1")) =
        some ⟨.appDetail,[page.config.name],if page.following then none else some "follow=1"⟩ := by
      cases page.following with
      | false => exact hfollow
      | true => simpa using hpage
    simp only [Screen.nodes,requests_app,Screen.intended,List.map_append,List.map_cons,hshell,
      hrows,hbar,hdeploy]
    cases page.follows with
    | false => rfl
    | true => simp only [if_true,List.map_cons,List.map_nil,hstream]
  | deploy row events =>
    rw [Screen.nodes,requests_deploy,Screen.intended,List.map_append,List.map_append,hshell]
    split
    · exact congrArg _ (congrArg (· :: []) (arrive_id row.id (lastShown events)).2)
    · rfl
  | notFound what => exact arrive_shell
  | storeUnavailable what e => exact arrive_shell
  | event e =>
    obtain ⟨d,deployId,kind,detail⟩ := e
    cases detail <;> rfl
  | line l => rfl

/-- Every request that a browser can make from a page arrives at the handler it is meant for,
with the name, the id and the query of what the page shows. -/
theorem links_arrive (debug : Text → Text) (v : Screen) (h : ∀ name ∈ v.names, slug name ≠ []) :
    ∃ m, Html.read (v.html debug) = some m ∧
      (requests m).map arriveAt = v.intended.map some := by
  refine ⟨_,read_tokens (v.nodes debug),?_⟩
  rw [requests_merge]
  exact requests_screen debug v h

/-- A page with a name that is not ASCII. -/
theorem cafe_links_arrive : ∃ m,
    Html.read ((Screen.index [⟨"café","/srv/web",none,.running⟩]).html id) = some m ∧
    (requests m).map arriveAt =
      (Screen.index [⟨"café","/srv/web",none,.running⟩]).intended.map some :=
  links_arrive id _ (by decide)

end Intended

end Kuadrat
