import Kuadrat.Daemon.Wire
import Kuadrat.Mcp.Segment

/-!
# The routes of the daemon

The table of the daemon's routes, and what arrives where: a client removes the dot segments of
the path, the router compares its segments with those of a route, and decodes what stands at the
place of a parameter.
-/
namespace Kuadrat

open Mcp (Method pathSegment)
open Url Utf8

/-- The handlers behind the routes. -/
inductive Endpoint
  | index
  | appDetail
  | appLogStream
  | deployDetail
  | deployStream
  | registerForm
  | listApps
  | register
  | getApp
  | deploy
  | github
  | gitlab
  | reconcileApi
  | logs
  | logsStream
  | getDeploy
  | deployEvents
  | htmx
  | sse
  | css
  deriving DecidableEq

/-- A segment of a route; nothing stands for a parameter. -/
abbrev RoutePiece := Option Text

def fixed (s : String) : RoutePiece := some s.toList

/-- `api::router`. -/
def routes : List (Method × List RoutePiece × Endpoint) := [
  (.get,[fixed ""],.index),
  (.get,[fixed "app",none],.appDetail),
  (.get,[fixed "app",none,fixed "logs",fixed "stream"],.appLogStream),
  (.get,[fixed "deploy",none],.deployDetail),
  (.get,[fixed "deploy",none,fixed "stream"],.deployStream),
  (.post,[fixed "apps"],.registerForm),
  (.get,[fixed "api",fixed "apps"],.listApps),
  (.post,[fixed "api",fixed "apps"],.register),
  (.get,[fixed "api",fixed "apps",none],.getApp),
  (.post,[fixed "api",fixed "apps",none,fixed "deploy"],.deploy),
  (.post,[fixed "hooks",fixed "github",none],.github),
  (.post,[fixed "hooks",fixed "gitlab",none],.gitlab),
  (.post,[fixed "api",fixed "reconcile"],.reconcileApi),
  (.get,[fixed "api",fixed "apps",none,fixed "logs"],.logs),
  (.get,[fixed "api",fixed "apps",none,fixed "logs",fixed "stream"],.logsStream),
  (.get,[fixed "api",fixed "deploys",none],.getDeploy),
  (.get,[fixed "api",fixed "deploys",none,fixed "events"],.deployEvents),
  (.get,[fixed "assets",fixed "htmx.min.js"],.htmx),
  (.get,[fixed "assets",fixed "sse.min.js"],.sse),
  (.get,[fixed "assets",fixed "kuadrat.css"],.css)]

/-- What stands at the places of the parameters. A parameter may be empty, but not at the end of a
path. -/
def matchPieces : List RoutePiece → List Text → Option (List Text)
  | [], [] => some []
  | some s::pieces, t::ts => if s = t then matchPieces pieces ts else none
  | none::pieces, t::ts =>
    if t = [] ∧ pieces = [] then none else (matchPieces pieces ts).map (t::·)
  | _, _ => none

/-- A request at its handler, with the parameters decoded. -/
structure Arrival where
  endpoint : Endpoint
  params : List Text := []
  query : Option Text := none
  deriving DecidableEq

/-- The route of the segments of a path. -/
def resolve (method : Method) (ss : List Text) : Option (Endpoint × List Text) :=
  routes.findSome? fun route =>
    if route.1 = method then (matchPieces route.2.1 ss).map (route.2.2,·) else none

/-- Where a request arrives; nowhere is a 404, a 405, or a parameter that is no UTF-8. The parameter
of a handler that takes an id is still a text, which the handler then reads as a number. -/
def arrive (method : Method) (target : Text) : Option Arrival :=
  match segments (removeDotSegments (pathOf target)) with
  | []::ss => (resolve method ss).bind fun r =>
    (r.2.mapM fun param => decode (percentDecode param)).map fun params =>
      ⟨r.1,params,queryOf target⟩
  | _ => none

/-- `wants_html`. -/
def wantsHtml (accept : Option Text) : Bool :=
  (accept.bind headerStr).any fun a => a.tails.any fun t => "text/html".toList.isPrefixOf t

/-- A text that a header can hold, as an encoded path segment is. -/
def VisibleAscii (t : Text) : Prop := ∀ c ∈ t, 32 ≤ c.toNat ∧ c.toNat < 127

section Arrive
variable {method : Method} {ss : List Text} {endpoint : Endpoint} {params decoded : List Text}

/-- Segments that a path keeps as they are. -/
def WholeSegment (s : Text) : Prop := Plain s ∧ ∀ c ∈ s, endsPath c = false

theorem arrive_of_segments (target : Text) (hss : segments (removeDotSegments (pathOf target)) = []::ss)
    (hroute : resolve method ss = some (endpoint,params))
    (hparams : params.mapM (fun param => decode (percentDecode param)) = some decoded) :
    arrive method target = some ⟨endpoint,decoded,queryOf target⟩ := by
  rw [arrive,hss]
  dsimp only
  rw [hroute,Option.bind_some,hparams]
  rfl

theorem segments_whole (h : ∀ s ∈ ss, WholeSegment s) :
    segments (removeDotSegments (pathText ss)) = []::ss := by
  rw [removeDotSegments_plain fun s hs => (h s hs).1,
    segments_pathText fun s hs => (h s hs).1.no_slash]

/-- A path of whole segments arrives where the table says. -/
theorem arrive_pathText (ss : List Text) (h : ∀ s ∈ ss, WholeSegment s) (hroute : resolve method ss = some (endpoint,params))
    (hparams : params.mapM (fun param => decode (percentDecode param)) = some decoded) :
    arrive method (pathText ss) = some ⟨endpoint,decoded,none⟩ := by
  have hpath := inPath_pathText fun s hs => (h s hs).2
  have harrive := arrive_of_segments (pathText ss)
    (by rw [pathOf_plain hpath]; exact segments_whole h) hroute hparams
  rwa [queryOf_plain hpath] at harrive

theorem arrive_query (ss : List Text) (query : Text) (h : ∀ s ∈ ss, WholeSegment s) (hroute : resolve method ss = some (endpoint,params))
    (hparams : params.mapM (fun param => decode (percentDecode param)) = some decoded)
    (hquery : '#' ∉ query) :
    arrive method (pathText ss ++ '?'::query) = some ⟨endpoint,decoded,some query⟩ := by
  have hpath := inPath_pathText fun s hs => (h s hs).2
  have harrive := arrive_of_segments (pathText ss ++ '?'::query)
    (by rw [pathOf_query hpath]; exact segments_whole h) hroute hparams
  rwa [queryOf_query hpath hquery] at harrive

end Arrive

/-- The routes of the pages, with a parameter that is not empty. -/
theorem resolve_pages {t : Text} (h : t ≠ []) :
    resolve .get ["app",t] = some (.appDetail,[t]) ∧
    resolve .get ["app",t,"logs","stream"] = some (.appLogStream,[t]) ∧
    resolve .post ["api","apps",t,"deploy"] = some (.deploy,[t]) ∧
    resolve .get ["deploy",t] = some (.deployDetail,[t]) ∧
    resolve .get ["deploy",t,"stream"] = some (.deployStream,[t]) := by
  obtain ⟨c,cs,rfl⟩ := List.exists_cons_of_ne_nil h
  exact ⟨rfl,rfl,rfl,rfl,rfl⟩

section Names
variable {name : Text}

instance (s : Text) : Decidable (WholeSegment s) :=
  decidable_of_iff ('/' ∉ s ∧ s ≠ ['.'] ∧ s ≠ ['.','.'] ∧ s.any endsPath = false)
    ⟨fun ⟨h₁,h₂,h₃,h₄⟩ => ⟨⟨h₁,h₂,h₃⟩,by simpa using h₄⟩,
      fun ⟨⟨h₁,h₂,h₃⟩,h₄⟩ => ⟨h₁,h₂,h₃,by simpa using h₄⟩⟩

/-- A name with a slug is encoded as a segment that a path keeps. -/
theorem whole_pathSegment (h : slug name ≠ []) : WholeSegment (pathSegment name) := by
  have hdot : pathSegment ['.'] = ['.'] := by decide
  have hdots : pathSegment ['.','.'] = ['.','.'] := by decide
  refine ⟨⟨Mcp.not_mem_pathSegment (by decide) name,?_,?_⟩,fun c hc => Mcp.pathSegment_inPath hc⟩
  · intro heq
    obtain rfl := Mcp.pathSegment_injective (heq.trans hdot.symm)
    exact h (by decide)
  · intro heq
    obtain rfl := Mcp.pathSegment_injective (heq.trans hdots.symm)
    exact h (by decide)

theorem pathSegment_ne_nil (h : slug name ≠ []) : pathSegment name ≠ [] := by
  intro heq
  obtain rfl := Mcp.pathSegment_injective (heq.trans (show [] = pathSegment [] by decide))
  exact h (by decide)

theorem decode_pathSegment (name : Text) : decode (percentDecode (pathSegment name)) = some name := by
  rw [Mcp.percentDecode_pathSegment,decode_bytes]

theorem visibleAscii_pathSegment (name : Text) : VisibleAscii (pathSegment name) := by
  intro c hc
  rcases Mcp.pathSegment_chars hc with rfl | h
  · decide
  · simp only [Mcp.isUnreserved,Bool.or_eq_true,Bool.and_eq_true,decide_eq_true_eq,beq_iff_eq] at h
    omega

theorem whole_decimal (n : ℕ) : WholeSegment (Text.decimal n) := by
  have hne : ∀ {t : Text}, (∃ c ∈ t, c.isDigit = false) → Text.decimal n ≠ t := by
    rintro t ⟨c,hc,hdigit⟩ rfl
    exact notMem_decimal hdigit n hc
  refine ⟨⟨notMem_decimal rfl n,hne ⟨'.',by simp⟩,hne ⟨'.',by simp⟩⟩,?_⟩
  intro c hc
  rw [endsPath,Bool.or_eq_false_iff,beq_eq_false_iff_ne,beq_eq_false_iff_ne]
  constructor <;> rintro rfl <;> exact notMem_decimal rfl n hc

/-- A text without an escape sign stands for itself. -/
theorem decode_plain {t : Text} (h : '%' ∉ t) : decode (percentDecode t) = some t := by
  have hbytes : percentDecode t = bytes t := by
    induction t with
    | nil => rfl
    | cons c t ih =>
      obtain ⟨hc,ht⟩ := not_or.mp (List.mem_cons.not.mp h)
      rw [percentDecode_plain (Ne.symm hc),ih ht]
      rfl
  rw [hbytes,decode_bytes]

theorem decode_decimal (n : ℕ) : decode (percentDecode (Text.decimal n)) = some (Text.decimal n) :=
  decode_plain (notMem_decimal rfl n)

end Names

end Kuadrat
