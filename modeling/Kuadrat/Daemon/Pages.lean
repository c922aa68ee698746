import Kuadrat.Codec.Html
import Kuadrat.Daemon.Router
import Kuadrat.Daemon.Stream
import Kuadrat.Store.Registry

/-!
# The operator's pages

The markup of every page and of the rows that the streams append, as the pages build it. What is
in a page's texts is whatever an application wrote to its journal; a browser finds the same
tags whatever that was, and the page's links, forms and streams arrive at the routes they are for.
-/
namespace Kuadrat

open Html
open Mcp (Method pathSegment)

inductive Element
  | a | body | button | code | dd | details | div | dl | dt | form | h1 | h2 | head | header
  | html | input | label | li | link | main | metadata | p | pre | script | span | summary
  | table | tbody | td | th | thead | title | tr | ul
  deriving DecidableEq

def Element.word : Element → Text
  | a => "a"
  | body => "body"
  | button => "button"
  | code => "code"
  | dd => "dd"
  | details => "details"
  | div => "div"
  | dl => "dl"
  | dt => "dt"
  | form => "form"
  | h1 => "h1"
  | h2 => "h2"
  | head => "head"
  | header => "header"
  | html => "html"
  | input => "input"
  | label => "label"
  | li => "li"
  | link => "link"
  | main => "main"
  | metadata => "meta"
  | p => "p"
  | pre => "pre"
  | script => "script"
  | span => "span"
  | summary => "summary"
  | table => "table"
  | tbody => "tbody"
  | td => "td"
  | th => "th"
  | thead => "thead"
  | title => "title"
  | tr => "tr"
  | ul => "ul"

inductive Attr
  | action | ariaLive | charset | cls | content | forId | href | hxExt | hxSwap | id | lang
  | method | name | opened | rel | required | sseConnect | sseSwap | src | type
  deriving DecidableEq

def Attr.word : Attr → Text
  | action => "action"
  | ariaLive => "aria-live"
  | charset => "charset"
  | cls => "class"
  | content => "content"
  | forId => "for"
  | href => "href"
  | hxExt => "hx-ext"
  | hxSwap => "hx-swap"
  | id => "id"
  | lang => "lang"
  | method => "method"
  | name => "name"
  | opened => "open"
  | rel => "rel"
  | required => "required"
  | sseConnect => "sse-connect"
  | sseSwap => "sse-swap"
  | src => "src"
  | type => "type"

def vocabulary : Vocabulary where
  Element := Element
  Attr := Attr
  element := Element.word
  attr := Attr.word
  isName_element := by intro e; cases e <;> decide
  isName_attr := by intro a; cases a <;> decide

abbrev Nodes := List (Node vocabulary)

def el (e : Element) (attrs : List (Attr × Option Text)) (children : Nodes) : Node vocabulary :=
  .element e attrs children

/-- What `state.label()` says of a workload; an unreadable state is `Unknown` too. -/
inductive WorkloadState
  | running
  | stopped
  | failed
  | notInstalled
  | unknown
  deriving DecidableEq

def WorkloadState.label : WorkloadState → String
  | running => "Running"
  | stopped => "Stopped"
  | failed => "Failed"
  | notInstalled => "Not installed"
  | unknown => "Unknown"

structure AppSummary where
  name : Text
  repoPath : Text
  route : Option Route
  status : WorkloadState
  deriving DecidableEq

/-- What the page of an app is made of. -/
structure AppPage where
  config : AppConfig
  status : WorkloadState
  image : Option Text
  deploys : List DeployRow
  following : Bool
  journal : Except Message (List Text)

section Markup
variable (debug : Text → Text)

def statusPill (label : String) : Node vocabulary :=
  let cls := match label with
    | "Running" => "pill pill-ok"
    | "Failed" => "pill pill-err"
    | "Stopped" | "Not installed" => "pill pill-off"
    | _ => "pill"
  el .span [(.cls,some cls.toList)] [.text label.toList]

def deployStatusPill (status : String) : Node vocabulary :=
  let cls := match status with
    | "done" => "pill pill-ok"
    | "failed" => "pill pill-err"
    | "rolled_back" => "pill pill-warn"
    | _ => "pill"
  el .span [(.cls,some cls.toList)] [.text status.toList]

def recentDeploysShown : ℕ := 10
def logLines : ℕ := 100

/-- The shell every page shares. -/
def layout (title : Text) (body : Nodes) : Nodes := [
  .doctype,
  el .html [(.lang,some "en")] [
    el .head [] [
      el .metadata [(.charset,some "utf-8")] [],
      el .metadata [(.name,some "viewport"),
        (.content,some "width=device-width, initial-scale=1")] [],
      el .title [] [.text "kuadrat — ",.text title],
      el .link [(.rel,some "stylesheet"),(.href,some "/assets/kuadrat.css")] [],
      el .script [(.src,some "/assets/htmx.min.js")] [],
      el .script [(.src,some "/assets/sse.min.js")] []],
    el .body [] [
      el .a [(.cls,some "skip-link"),(.href,some "#content")] [.text "Skip to content"],
      el .header [(.cls,some "topbar")] [
        el .a [(.cls,some "home"),(.href,some "/")] [el .span [(.cls,some "mark")] [],
          .text "kuadrat"],
        el .span [(.cls,some "version")] [.text "v",.text "0.2.0"]],
      el .main [(.id,some "content")] body]]]

def appHref (name : Text) : Text := "/app/" ++ pathSegment name

def registrationForm (error : Option Text) : Nodes :=
  (match error with
    | some reason => [el .p [(.id,some "register-error")] [.text reason]]
    | none => []) ++ [
  el .form [(.method,some "post"),(.action,some "/apps")] [
    el .div [] [
      el .label [(.forId,some "register-name")] [.text "Name"],
      el .input [(.id,some "register-name"),(.type,some "text"),(.name,some "name"),
        (.required,none)] []],
    el .div [] [
      el .label [(.forId,some "register-repo-path")] [.text "Repo path"],
      el .input [(.id,some "register-repo-path"),(.type,some "text"),(.name,some "repo_path"),
        (.required,none)] []],
    el .button [(.type,some "submit")] [.text "Register"]]]

def dash : Node vocabulary := el .span [(.cls,some "muted")] [.text "—"]

def appListRow (summary : AppSummary) : Node vocabulary :=
  el .tr [] [
    el .td [] [el .a [(.cls,some "mono"),(.href,some (appHref summary.name))]
      [.text summary.name]],
    el .td [(.cls,some "col-repo mono muted")] [.text summary.repoPath],
    el .td [] [match summary.route with
      | some route => el .span [(.cls,some "chip")] [.text route.domain]
      | none => dash],
    el .td [] [statusPill summary.status.label]]

/-- The app list. -/
def indexPage (apps : List AppSummary) : Nodes :=
  layout "apps" ([
    el .h1 [] [.text "Apps"],
    if apps = [] then
      el .div [(.cls,some "empty")] [
        el .span [(.cls,some "mark")] [],
        el .p [(.cls,some "lede")] [.text "No apps yet"],
        el .p [] [.text "Register a repo below, then deploy it with ",
          el .code [] [.text "kuadrat deploy <app> <path>"],.text "."]]
    else
      el .table [(.id,some "apps")] [
        el .thead [] [el .tr [] [
          el .th [] [.text "Name"],
          el .th [(.cls,some "col-repo")] [.text "Repo"],
          el .th [] [.text "Route"],
          el .th [] [.text "Status"]]],
        el .tbody [] (apps.map appListRow)],
    el .details ((.id,some "register-panel")::(.cls,some "panel")::
        (if apps = [] then [(.opened,none)] else [])) [
      el .summary [] [.text "Register an app"],
      el .div [(.cls,some "panel-body")] (registrationForm none)]])

def registrationPage (error : Option Text) : Nodes :=
  layout "register" (el .h1 [] [.text "Register an app"]::registrationForm error)

def logReadError (e : Message) : Node vocabulary :=
  el .p [(.id,some "log-error")] [.text "Could not read the journal: ",.text (e.toText debug)]

def logSection (page : AppPage) : Node vocabulary :=
  match page.following, page.journal with
  | true, .ok _ => el .ul [(.cls,some "log-tail"),(.hxExt,some "sse"),
      (.sseConnect,some (appHref page.config.name ++ "/logs/stream")),
      (.sseSwap,some "message"),(.hxSwap,some "beforeend")] []
  | false, .ok [] => el .p [(.id,some "log-empty")] [.text "No output yet."]
  | false, .ok lines => el .pre [(.id,some "log-tail")] [.text (Text.join "\n" lines)]
  | _, .error e => logReadError debug e

def deployHistoryRow (d : DeployRow) : Node vocabulary :=
  el .tr [] [
    el .td [] [el .a [(.cls,some "mono"),(.href,some ("/deploy/" ++ Text.decimal d.id))]
      [.text (Text.decimal d.id)]],
    el .td [] [.text d.stage.asStr.toList],
    el .td [] [deployStatusPill d.status.asStr],
    el .td [] [match d.detail with
      | some detail => el .span [(.cls,some "muted")] [.text (detail.toText debug)]
      | none => dash]]

def followBar (page : AppPage) : Nodes :=
  if page.following then [
    el .span [] [.text "journal — following"],
    el .a [(.cls,some "log-follow"),(.href,some (appHref page.config.name))]
      [.text "Stop following"]]
  else [
    el .span [] [.text "journal — last ",.text (Text.decimal logLines),.text " lines"],
    el .a [(.cls,some "log-follow"),(.href,some (appHref page.config.name ++ "?follow=1"))]
      [.text "Follow"]]

def appFacts (page : AppPage) : Node vocabulary :=
  el .dl [(.id,some "app-facts"),(.cls,some "facts")] [
    el .dt [] [.text "Repo"],
    el .dd [] [.text page.config.repoPath],
    el .dt [] [.text "Route"],
    el .dd [] (match page.config.route with
      | some route => [.text route.domain,.text ":",.text (Text.decimal route.port.toNat)]
      | none => [dash]),
    el .dt [] [.text "Image"],
    el .dd [] [match page.image with
      | some image => .text image
      | none => dash]]

def deployHistory (deploys : List DeployRow) : Node vocabulary :=
  if deploys = [] then el .p [(.cls,some "muted")] [.text "No deploys yet."]
  else
    el .table [(.id,some "deploy-history")] [
      el .thead [] [el .tr [] [
        el .th [] [.text "Deploy"],
        el .th [] [.text "Stage"],
        el .th [] [.text "Status"],
        el .th [] [.text "Detail"]]],
      el .tbody [] (deploys.map (deployHistoryRow debug))]

/-- The page of an app. -/
def appPage (page : AppPage) : Nodes :=
  layout page.config.name [
    el .div [(.cls,some "page-bar")] [
      el .h1 [] [.text page.config.name],
      statusPill page.status.label,
      el .form [(.id,some "redeploy"),(.method,some "post"),
          (.action,some ("/api/apps/" ++ pathSegment page.config.name ++ "/deploy"))] [
        el .button [(.type,some "submit")] [.text "Redeploy"]]],
    appFacts page,
    el .h2 [] [.text "Recent deploys"],
    deployHistory debug page.deploys,
    el .h2 [] [.text "Log"],
    el .div [(.cls,some "console")] [
      el .div [(.cls,some "console-top")] (followBar page),
      el .div [(.cls,some "console-body")] [logSection debug page]]]

/-- One line of a followed journal. -/
def logLine (line : Text) : Nodes := [el .li [(.cls,some "log-line")] [.text line]]

/-- One row of a timeline, on the page and in the stream. -/
def eventRow (e : StoredEvent) : Node vocabulary :=
  let (stage,status) := e.event.kind.columns
  let marker := match status with
    | "succeeded" | "done" => "deploy-event ev-ok"
    | "failed" => "deploy-event ev-err"
    | "rolled_back" => "deploy-event ev-warn"
    | _ => "deploy-event"
  el .li [(.cls,some marker.toList)] ([
    el .span [(.cls,some "event-stage")] [.text stage.toList],
    .text " ",
    el .span [(.cls,some "event-status")] [.text status.toList]] ++
    (match e.event.detail with
      | some detail => [.text " ",el .span [(.cls,some "event-detail")]
          [.text "— ",.text (detail.toText debug)]]
      | none => []))

/-- An attribute that is only there when it has a value. -/
def optional (a : Attr) (v : Option Text) : List (Attr × Option Text) :=
  v.toList.map fun v => (a,some v)

def lastShown (events : List StoredEvent) : ℕ := events.getLast?.elim 0 StoredEvent.id

def deployPage (row : DeployRow) (events : List StoredEvent) (live : Bool) : Nodes :=
  let when (v : Text) := if live then some v else none
  let connect : Text := "/deploy/" ++ Text.decimal row.id ++ "/stream?resume=" ++
    Text.decimal (lastShown events)
  [el .div [(.cls,some "page-bar")] ([
      el .h1 [] [.text "Deploy ",.text (Text.decimal row.id),.text " — ",.text row.app],
      deployStatusPill row.status.asStr] ++
      (if live then [el .span [(.cls,some "pill pill-ok")] [.text "live"]] else [])),
    el .ul ((.id,some ("timeline" : Text))::(optional .ariaLive (when "polite") ++
        optional .hxExt (when "sse") ++ optional .sseConnect (when connect) ++
        optional .sseSwap (when "message") ++ optional .hxSwap (when "beforeend")))
      (events.map (eventRow debug))]

/-- The page of a deploy, live or finished. -/
def deployDetailPage (row : DeployRow) (events : List StoredEvent) : Nodes :=
  layout ("deploy " ++ Text.decimal row.id)
    (deployPage debug row events (row.status = .inProgress))

def notFoundPage (what : Text) : Nodes :=
  layout "not found" [el .h1 [] [.text "Not found"],
    el .p [] [.text "No such ",.text what,.text "."]]

def storeUnavailablePage (what : Text) (e : Message) : Nodes :=
  layout "error" [el .h1 [] [.text "Could not read ",.text what],
    el .p [(.id,some "store-error")] [.text "The store could not be read: ",
      .text (e.toText debug)]]

/-- What the daemon renders: its pages, and the rows that its streams append. -/
inductive Screen
  | index (apps : List AppSummary)
  | registration (error : Option Text)
  | app (page : AppPage)
  | deploy (row : DeployRow) (events : List StoredEvent)
  | notFound (what : Text)
  | storeUnavailable (what : Text) (e : Message)
  | event (e : StoredEvent)
  | line (line : Text)

def Screen.nodes : Screen → Nodes
  | index apps => indexPage apps
  | registration error => registrationPage error
  | app page => appPage debug page
  | deploy row events => deployDetailPage debug row events
  | notFound what => notFoundPage what
  | storeUnavailable what e => storeUnavailablePage debug what e
  | event e => [eventRow debug e]
  | line l => logLine l

/-- `Markup::into_string`. -/
def Screen.html (v : Screen) : Text := Html.render (tokens (v.nodes debug))

end Markup

section Blank

def Route.blank (route : Route) : Route := { route with domain := [] }

def AppSummary.blank (summary : AppSummary) : AppSummary :=
  { summary with name := [],repoPath := [],route := summary.route.map Route.blank }

def DeployRow.blank (row : DeployRow) : DeployRow :=
  { row with app := [],detail := row.detail.map fun _ => [] }

def StoredEvent.blank (e : StoredEvent) : StoredEvent :=
  { e with event := { e.event with detail := e.event.detail.map fun _ => [] } }

def AppPage.blank (page : AppPage) : AppPage :=
  { page with
    config := ⟨[],[],page.config.route.map Route.blank⟩
    image := page.image.map fun _ => []
    deploys := page.deploys.map DeployRow.blank
    journal := match page.journal with
      | .ok lines => .ok (lines.map fun _ => [])
      | .error _ => .error [] }

/-- The view with every text gone that the daemon did not write itself. -/
def Screen.blank : Screen → Screen
  | index apps => .index (apps.map AppSummary.blank)
  | registration error => .registration (error.map fun _ => [])
  | app page => .app page.blank
  | deploy row events => .deploy row.blank (events.map StoredEvent.blank)
  | notFound _ => .notFound []
  | storeUnavailable _ _ => .storeUnavailable [] []
  | event e => .event e.blank
  | line _ => .line []

variable (debug : Text → Text)

theorem strip_layout {title title' : Text} {body body' : Nodes} (h : strip body = strip body') :
    strip (layout title body) = strip (layout title' body') := by
  simp only [layout,el,strip,Node.strip,h]

theorem strip_appListRow (summary : AppSummary) :
    (appListRow summary.blank).strip = (appListRow summary).strip := by
  obtain ⟨name,repoPath,route,status⟩ := summary
  cases route <;> rfl

theorem strip_index (apps : List AppSummary) :
    strip (indexPage (apps.map AppSummary.blank)) = strip (indexPage apps) := by
  refine strip_layout ?_
  cases apps with
  | nil => rfl
  | cons summary apps =>
    have hrows : strip ((summary::apps).map AppSummary.blank |>.map appListRow) =
        strip ((summary::apps).map appListRow) := by
      rw [List.map_map,strip_map,strip_map]
      exact List.map_congr_left fun summary _ => strip_appListRow summary
    simp only [List.map_cons,reduceCtorEq,if_false,el,strip,Node.strip] at hrows ⊢
    rw [hrows]

theorem strip_deployHistoryRow (row : DeployRow) :
    (deployHistoryRow debug row.blank).strip = (deployHistoryRow debug row).strip := by
  obtain ⟨d,app,stage,status,detail⟩ := row
  cases detail <;> rfl

theorem strip_logSection (page : AppPage) :
    (logSection debug page.blank).strip = (logSection debug page).strip := by
  obtain ⟨config,status,image,deploys,following,journal⟩ := page
  rcases following with _ | _ <;> rcases journal with e | lines <;> try rfl
  cases lines <;> rfl

theorem strip_appFacts (page : AppPage) : (appFacts page.blank).strip = (appFacts page).strip := by
  obtain ⟨⟨name,repoPath,route⟩,status,image,deploys,following,journal⟩ := page
  cases route <;> cases image <;> rfl

theorem strip_followBar (page : AppPage) : strip (followBar page.blank) = strip (followBar page) := by
  obtain ⟨config,status,image,deploys,following,journal⟩ := page
  cases following <;> rfl

theorem strip_deployHistory (deploys : List DeployRow) :
    (deployHistory debug (deploys.map DeployRow.blank)).strip =
      (deployHistory debug deploys).strip := by
  cases deploys with
  | nil => rfl
  | cons row rows =>
    have hrows : strip (((row::rows).map DeployRow.blank).map (deployHistoryRow debug)) =
        strip ((row::rows).map (deployHistoryRow debug)) := by
      rw [List.map_map,strip_map,strip_map]
      exact List.map_congr_left fun row _ => strip_deployHistoryRow debug row
    simp only [deployHistory,List.map_cons,reduceCtorEq,if_false,el,strip,Node.strip] at hrows ⊢
    rw [hrows]

theorem strip_app (page : AppPage) :
    strip (appPage debug page.blank) = strip (appPage debug page) := by
  refine strip_layout ?_
  have hdeploys : page.blank.deploys = page.deploys.map DeployRow.blank := rfl
  have hstatus : page.blank.status = page.status := rfl
  simp only [el,strip,Node.strip,strip_appFacts,strip_followBar,strip_logSection,hdeploys,
    strip_deployHistory,hstatus]
  rfl

theorem strip_eventRow (e : StoredEvent) :
    (eventRow debug e.blank).strip = (eventRow debug e).strip := by
  obtain ⟨d,deployId,kind,detail⟩ := e
  cases detail <;> rfl

theorem strip_deploy (row : DeployRow) (events : List StoredEvent) :
    strip (deployDetailPage debug row.blank (events.map StoredEvent.blank)) =
      strip (deployDetailPage debug row events) := by
  have hrows : strip ((events.map StoredEvent.blank).map (eventRow debug)) =
      strip (events.map (eventRow debug)) := by
    rw [List.map_map,strip_map,strip_map]
    exact List.map_congr_left fun e _ => strip_eventRow debug e
  refine strip_layout ?_
  have hstatus : row.blank.status = row.status := rfl
  simp only [deployPage,el,strip,Node.strip,hrows,hstatus]
  by_cases hlive : row.status = .inProgress
  · rw [hlive]
    rfl
  · rw [decide_eq_false hlive]
    rfl

theorem strip_screen (v : Screen) : strip (v.blank.nodes debug) = strip (v.nodes debug) := by
  cases v with
  | index apps => exact strip_index apps
  | registration error => cases error <;> rfl
  | app page => exact strip_app debug page
  | deploy row events => exact strip_deploy debug row events
  | notFound what => rfl
  | storeUnavailable what e => rfl
  | event e => exact congrArg (· :: []) (strip_eventRow debug e)
  | line l => rfl

end Blank

section ReadBack
variable (debug : Text → Text)

/-- What `sanitize` makes of one character. -/
def sanitizeChar (c : Char) : Char := if c = '\r' ∨ c = '\n' then ' ' else c

theorem mild_sanitizeChar : Mild sanitizeChar := by
  intro c
  by_cases hcr : c = '\r'
  · subst hcr
    exact .inr ⟨rfl,rfl⟩
  by_cases hlf : c = '\n'
  · subst hlf
    exact .inr ⟨rfl,rfl⟩
  · exact .inl (if_neg (by simp [hcr,hlf]))

/-- What a browser makes of a screen whose characters were changed on the way. -/
theorem read_screen {f : Char → Char} (hf : Mild f) (v : Screen) :
    ∃ m, Html.read ((v.html debug).map f) = some m ∧
      m = merge [] ((tokens (v.nodes debug)).map (Token.change f)) ∧ nest [] m = some [] ∧
      shape m = shape (tokens (v.blank.nodes debug)) := by
  refine ⟨_,hf.read_tokens (v.nodes debug),rfl,?_,?_⟩
  · have hnest := nest_tokens (v.nodes debug) [] []
    rw [List.append_nil] at hnest
    rw [nest_merge,nest_change,hnest]
    rfl
  · rw [shape_merge,shape_change,← shape_strip,← shape_strip (v.blank.nodes debug),
      strip_screen]

/-- A browser reads a page, or a row that came over a stream, as the tags and texts it was made
of, every tag closed where it was opened; which tags these are depends on no text but the
daemon's own. -/
theorem screen_read_back (v : Screen) :
    (∃ m, Html.read (v.html debug) = some m ∧ m = merge [] (tokens (v.nodes debug)) ∧
      nest [] m = some [] ∧ shape m = shape (tokens (v.blank.nodes debug))) ∧
    ∃ m, Html.read (sanitize (v.html debug)) = some m ∧
      m = merge [] ((tokens (v.nodes debug)).map (Token.change sanitizeChar)) ∧
      nest [] m = some [] ∧ shape m = shape (tokens (v.blank.nodes debug)) := by
  constructor
  · have hid := read_screen debug (f := id) (fun c => .inl rfl) v
    have hchange : (tokens (v.nodes debug)).map (Token.change id) = tokens (v.nodes debug) := by
      conv_rhs => rw [← List.map_id (tokens (v.nodes debug))]
      exact List.map_congr_left fun k _ => change_id k
    rwa [List.map_id,hchange] at hid
  · exact read_screen debug mild_sanitizeChar v

end ReadBack

end Kuadrat
