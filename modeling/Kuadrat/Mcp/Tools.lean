import Kuadrat.Effect.Program
import Kuadrat.Codec.Json
import Kuadrat.Text

/-!
# The tools of the MCP server

The six tools, the requests to the daemon they stand for, and what is made of its answers.
Objects are written with their members in the order of the keys, as `json!` keeps them.
-/
namespace Kuadrat.Mcp

open Effect

inductive Method
  | get
  | post
  deriving DecidableEq

/-- What asking the daemon produced. -/
inductive DaemonAnswer
  | ok (body : Text)
  | refused (status : Option ℕ) (message : Text)
  | unreachable

/-- What the server does to the outside: it asks the daemon, and writes to its client. -/
inductive Act
  | request (method : Method) (path : Text)
  | writeAll (text : Text)
  | flush

@[reducible] def Act.Resp : Act → Type
  | request .. => DaemonAnswer
  | writeAll _ => Except Message Unit
  | flush => Except Message Unit

abbrev Serve := Proc Act Act.Resp Message

/-- What dispatching a tool produced. -/
inductive Dispatched
  | result (text : Text) (isError : Bool)
  | unknownTool
  | badArguments (why : Text)

def tool (name description : String) (inputSchema : Json) : Json :=
  .obj [("description",.str description),("inputSchema",inputSchema),("name",.str name)]

def property (type description : String) : Json :=
  .obj [("description",.str description),("type",.str type)]

def noArguments : Json := .obj [("additionalProperties",.bool false),("type",.str "object")]

def arguments (properties : List (Text × Json)) (required : String) : Json :=
  .obj [("additionalProperties",.bool false),("properties",.obj properties),
    ("required",.arr [.str required]),("type",.str "object")]

/-- The `tools/list` array. -/
def definitions : Json :=
  .arr [
    tool "list_apps" ("List every registered app: name, repo path, route, and live host status " ++
      "(Running, Stopped, Not installed, …).") noArguments,
    tool "get_app" ("One registered app by name, with its live host status. An unregistered name " ++
      "is an error, not an empty result.")
      (arguments [("name",property "string" "The app's registered name")] "name"),
    tool "deploy" ("Deploy a registered app. Returns \x7bdeploy_id\x7d immediately; the deploy " ++
      "runs in the background — poll get_deploy to watch its stages. A 409 means a deploy of " ++
      "this app is already running.")
      (arguments [("name",property "string" "The app's registered name")] "name"),
    tool "get_deploy" ("Stage, status, detail, and the full event list for one deploy. Status " ++
      "in_progress means keep polling; succeeded, rolled_back, and failed are terminal.")
      (arguments [("deploy_id",property "integer" "The id deploy returned")] "deploy_id"),
    tool "tail_logs" ("The last n journal lines for an app (default 100, clamped server-side). " ++
      "A bounded snapshot — read it in one turn.")
      (arguments [("n",property "integer" "Lines to return (default 100)"),
        ("name",property "string" "The app's registered name")] "name"),
    tool "reconcile" ("Roll back deploys left in progress by a crash. Waits for the deploy slot, " ++
      "so it cannot interrupt a live deploy. Returns the outcomes; an empty list means nothing " ++
      "was stranded.") noArguments]

def strArg (args : Json) (key : Text) : Except Text Text :=
  match (args.get key).bind Json.asStr with
  | some s => .ok s
  | none => .error ("missing or non-string argument: " ++ key)

def intArg (args : Json) (key : Text) : Except Text ℕ :=
  match (args.get key).bind Json.asU64 with
  | some n => .ok n
  | none => .error ("missing or non-integer argument: " ++ key)

def hexUpper (n : ℕ) : Char := if n < 10 then Char.ofNat (48+n) else Char.ofNat (55+n)

/-- RFC 3986's unreserved marks. -/
def isUnreserved (b : ℕ) : Bool :=
  (65 ≤ b && b ≤ 90) || (97 ≤ b && b ≤ 122) || (48 ≤ b && b ≤ 57) || b == 45 || b == 46 ||
    b == 95 || b == 126

/-- Percent-encode one path segment. -/
def pathSegment (s : Text) : Text :=
  (s.flatMap String.utf8EncodeChar).flatMap fun b =>
    if isUnreserved b.toNat then [Char.ofNat b.toNat]
    else ['%',hexUpper (b.toNat/16),hexUpper (b.toNat%16)]

/-- The request that a tool stands for; an argument fault never reaches the daemon. -/
def routeOf (name : Text) (arguments : Json) : Except Dispatched (Method × Text) :=
  if name = "list_apps" then .ok (.get,"/api/apps")
  else if name = "get_app" then
    ((strArg arguments "name").mapError .badArguments).map fun n =>
      (.get,"/api/apps/" ++ pathSegment n)
  else if name = "deploy" then
    ((strArg arguments "name").mapError .badArguments).map fun n =>
      (.post,"/api/apps/" ++ pathSegment n ++ "/deploy")
  else if name = "get_deploy" then
    ((intArg arguments "deploy_id").mapError .badArguments).map fun id =>
      (.get,"/api/deploys/" ++ Text.decimal id)
  else if name = "tail_logs" then
    match strArg arguments "name" with
    | .error why => .error (.badArguments why)
    | .ok n =>
      match arguments.get "n" with
      | none => .ok (.get,"/api/apps/" ++ pathSegment n ++ "/logs?n=" ++ Text.decimal 100)
      | some v =>
        match v.asU64 with
        | some lines => .ok (.get,"/api/apps/" ++ pathSegment n ++ "/logs?n=" ++ Text.decimal lines)
        | none => .error (.badArguments "non-integer argument: n")
  else if name = "reconcile" then .ok (.post,"/api/reconcile")
  else .error .unknownTool

def DaemonAnswer.dispatched : DaemonAnswer → Dispatched
  | ok body => .result body false
  | refused _ message => .result message true
  | unreachable => .result ("the kuadrat daemon stopped answering — restart it with " ++
    "`kuadrat serve` and retry" : String) true

/-- Route one call to the daemon. -/
def dispatchTool (name : Text) (arguments : Json) : Prog Act Act.Resp Dispatched :=
  match routeOf name arguments with
  | .error fault => return fault
  | .ok (method,path) => do
    let answer ← .perform (Act.request method path)
    return answer.dispatched

end Kuadrat.Mcp
