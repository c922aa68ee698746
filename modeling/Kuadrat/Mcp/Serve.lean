import Kuadrat.Codec.Utf8
import Kuadrat.Mcp.Tools
import Mathlib.Data.Int.Notation

/-!
# The JSON-RPC server on standard input

Requests come one a line. `serde_json` is known by its reader, which may refuse any text,
and by its writer, whose texts are JSON and say the value they were written from.
-/
namespace Kuadrat.Mcp

open Effect

abbrev Bytes := List UInt8

/-- The bytes as text, when they are valid UTF-8. -/
def utf8 (line : Bytes) : Option Text := Utf8.decode line

/-- The lines that `AsyncBufReadExt::lines` finds: a line ends in `\n` or `\r\n`, and what
follows the last end is a line when it is not empty. -/
def lines (input : Bytes) : List Bytes :=
  let pieces := input.splitOn 10
  pieces.dropLast.map (fun l => if l.getLast? = some 13 then l.dropLast else l) ++
    pieces.getLast?.toList.filter fun l => !l.isEmpty

structure SerdeJson where
  fromStr : Text → Except Text Json
  toString : Json → Text
  writes : ∀ v, Json.Writes v (toString v)

structure Incoming where
  id : Option Json
  method : Text
  params : Json

/-- Which protocol era the process is speaking. -/
inductive Era
  | undetermined
  | legacy
  deriving DecidableEq

def modernVersion : Text := "2026-07-28"
def legacyVersions : List Text := ["2025-11-25","2025-06-18","2025-03-26"]

def serverInfo : Json := .obj [("name",.str "kuadrat"),("version",.str "0.2.0")]

def capabilities : Json := .obj [("tools",.obj [])]

/-- The modern per-request protocol version, when the request declares one. -/
def metaVersion (params : Json) : Option Text :=
  ((params.get "_meta").bind fun m => m.get "io.modelcontextprotocol/protocolVersion").bind
    Json.asStr

def member (key : String) (v : Json) : Text × Json := (key,v)

def ofInt (code : ℤ) : Json := .num { negative := code < 0, whole := code.natAbs }

/-- `result["resultType"]`, which the modern era has. -/
def resultType (modern : Bool) : List (Text × Json) :=
  if modern then [("resultType",.str "complete")] else []

def response (id result : Json) : Json :=
  .obj [("id",id),("jsonrpc",.str "2.0"),("result",result)]

def errorOf (id : Option Json) (code : ℤ) (message : Text) (data : Option Json) : Json :=
  .obj [("error",.obj (member "code" (ofInt code)::((data.map (member "data")).toList ++
    [member "message" (.str message)]))),("id",id.getD .null),("jsonrpc",.str "2.0")]

section Server
variable (json : SerdeJson)

def parseLine (line : Text) : Except Text Incoming :=
  match json.fromStr line with
  | .error e => .error ("parse error: " ++ e)
  | .ok v =>
    match (v.get "method").bind Json.asStr with
    | none => .error "missing method"
    | some method => .ok ⟨(v.get "id").filter fun id => !id.isNull,method,(v.get "params").getD .null⟩

def responseLine (id result : Json) : Text := json.toString (response id result)

def errorLine (id : Option Json) (code : ℤ) (message : Text) (data : Option Json) : Text :=
  json.toString (errorOf id code message data)

/-- One method, one line out. -/
def dispatch (req : Incoming) (id : Json) (modern : Bool) : Prog Act Act.Resp Text :=
  if req.method = "server/discover" then
    return responseLine json id (.obj [
      ("_meta",.obj [("io.modelcontextprotocol/serverInfo",serverInfo)]),
      ("capabilities",capabilities),("resultType",.str "complete"),
      ("supportedVersions",.arr [.str modernVersion])])
  else if req.method = "ping" then return responseLine json id (.obj (resultType modern))
  else if req.method = "tools/list" then
    return responseLine json id (.obj (resultType modern ++ [member "tools" definitions]))
  else if req.method = "tools/call" then do
    let name := ((req.params.get "name").bind Json.asStr).getD []
    match ← dispatchTool name ((req.params.get "arguments").getD (.obj [])) with
    | .result text isError =>
      return responseLine json id (.obj (
        ("content",.arr [.obj [("text",.str text),("type",.str "text")]])::
        ("isError",.bool isError)::resultType modern))
    | .unknownTool => return errorLine json (some id) (-32602) ("Unknown tool: " ++ name) none
    | .badArguments why => return errorLine json (some id) (-32602) why none
  else return errorLine json (some id) (-32601) ("method not found: " ++ req.method) none

def servedMethods : List Text := ["server/discover","ping","tools/list","tools/call"]

def answerInitialize (req : Incoming) (id : Json) : Text :=
  let requested := ((req.params.get "protocolVersion").bind Json.asStr).getD []
  let negotiated := if legacyVersions.contains requested then requested else "2025-11-25"
  responseLine json id (.obj [("capabilities",capabilities),("protocolVersion",.str negotiated),
    ("serverInfo",serverInfo)])

/-- The answer to one request, `none` for a notification, and the era after it. -/
def handle (req : Incoming) (era : Era) : Prog Act Act.Resp (Option Text × Era) :=
  match req.id with
  | none => return (none,era)
  | some id =>
    -- `initialize` selects legacy semantics for the rest of the process.
    if req.method = "initialize" then return (some (answerInitialize json req id),.legacy)
    else if !servedMethods.contains req.method then
      return (some (errorLine json (some id) (-32601) ("method not found: " ++ req.method) none),era)
    else
      match metaVersion req.params with
      | some v =>
        if v ≠ modernVersion then
          return (some (errorLine json (some id) (-32022) "Unsupported protocol version"
            (some (.obj [("requested",.str v),("supported",.arr [.str modernVersion])]))),era)
        else do
          let out ← dispatch json req id true
          return (some out,era)
      | none =>
        if era = .legacy then do
          let out ← dispatch json req id false
          return (some out,era)
        -- The compatibility probe needs no era; everything else does.
        else if req.method = "server/discover" then do
          let out ← dispatch json req id true
          return (some out,era)
        else
          return (some (errorLine json (some id) (-32600) ("send initialize first, or declare a " ++
            "protocol version in _meta (io.modelcontextprotocol/protocolVersion)" : String)
            none),era)

def writeLine (out : Text) : Serve Unit := do
  .mk (.perform (Act.writeAll out))
  .mk (.perform (Act.writeAll ['\n']))
  .mk (.perform Act.flush)

/-- What is written for one line of text, and the era after it. -/
def serveLine (era : Era) (line : Text) : Serve Era := do
  if line.trim.isEmpty then return era
  let (out,era) ← match parseLine json line with
    | .error fault => pure (some (errorLine json none (-32700) fault none),era)
    | .ok req => .lift (handle json req era)
  match out with
  | some out =>
    writeLine out
    return era
  | none => return era

def serveLines : Era → List Bytes → Serve Unit
  | _, [] => return ()
  | era, line::rest => do
    match utf8 line with
    | none => bail ["stream did not contain valid UTF-8"]
    | some text =>
      let era ← serveLine json era text
      serveLines era rest

/-- Read JSON-RPC a line at a time, answer each, and return at the end of the input. -/
def serve (input : Bytes) : Serve Unit := serveLines json .undetermined (lines input)

end Server
end Kuadrat.Mcp
