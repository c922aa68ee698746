import Kuadrat.Daemon.Resolve
import Kuadrat.Daemon.Router
import Kuadrat.Effect.Trace
import Kuadrat.Mcp.Gate

/-!
# The clients of the daemon

The command line and the MCP server ask the daemon through curl. What they make of curl's output is
the daemon's own answer, whatever is in it; a deploy runs here only when the daemon was not
reached.
-/
namespace Kuadrat

open Effect Url
open Mcp (Method DaemonAnswer SerdeJson pathSegment)

/-- An answer of the daemon on the wire. -/
structure Reply where
  status : ℕ
  body : Text
  deriving DecidableEq

def StatusCode.number : StatusCode → ℕ
  | badRequest => 400
  | unauthorized => 401
  | notFound => 404
  | conflict => 409
  | internalServerError => 500

/-- `Value::as_i64`. -/
def Json.asI64 : Json → Option ℤ
  | .num n =>
    if !n.fraction.isEmpty || n.exponent.isSome then none
    else if n.negative then if n.whole ≤ 2^63 then some (-(n.whole : ℤ)) else none
    else if n.whole < 2^63 then some (n.whole : ℤ) else none
  | _ => none

/-- What curl is asked for. -/
structure Ask where
  method : Method := .get
  headers : List Text := []
  failWithBody : Bool := false
  direct : Bool := false
  statusTrailer : Bool := false
  url : Text := []
  deriving DecidableEq

/-- What follows the body in the output: a line with the status. -/
def statusLine : Text := "\n%\x7bhttp_code\x7d"

/-- curl reads its arguments; options that the clients do not use are left out. -/
def Ask.read (ask : Ask) : List Text → Option Ask
  | [] => some ask
  | o::rest =>
    if o = "-sS" then ask.read rest
    else if o = "--fail-with-body" then { ask with failWithBody := true }.read rest
    else match rest with
      | [] => if o.head? = some '-' then none else some { ask with url := o }
      | v::rest =>
        if o = "-X" then
          if v = "POST" then { ask with method := .post }.read rest else none
        else if o = "-H" then { ask with headers := ask.headers ++ [v] }.read rest
        else if o = "--noproxy" then { ask with direct := v == "*".toList }.read rest
        else if o = "-w" then
          if v = statusLine then { ask with statusTrailer := true }.read rest else none
        else none

/-- The value of a header that was asked to be sent. -/
def Ask.header (ask : Ask) (name : Text) : Option Text :=
  ask.headers.findSome? fun line =>
    if (name ++ ": ").isPrefixOf line then some (line.drop (name.length+2)) else none

/-- The path and the query of the URL. -/
def Ask.target (ask : Ask) : Text := (ask.url.drop "http://".length).dropWhile (· != '/')

/-- What curl comes to with a daemon that would give these replies. -/
inductive Curl (serve : Ask → Reply) (args : List Text) : Except Message CommandOutput → Prop
  | unspawned (why : Message) : Curl serve args (.error why)
  /-- Nothing is listening. -/
  | unconnected {out : CommandOutput} (h : out.status = 7) : Curl serve args (.ok out)
  /-- The exchange broke off, with what was printed until then. -/
  | broken {out : CommandOutput} (h : out.status ∉ ([0,7,22] : List ℤ)) : Curl serve args (.ok out)
  | replied {ask : Ask} (stderr : Text) (h : Ask.read {} args = some ask) :
    Curl serve args (.ok {
      status := if ask.failWithBody = true ∧ 400 ≤ (serve ask).status then 22 else 0
      stdout := (serve ask).body ++
        if ask.statusTrailer then '\n'::Text.decimal (serve ask).status else []
      stderr := stderr })

section Clients

/-- `split_status`. -/
def splitStatus (stdout : Text) : Text × Option ℕ :=
  match stdout.rsplitOnce '\n' with
  | some (body,code) =>
    if code.length = 3 && code.all Char.isDigit then (body,spelled code) else (stdout,none)
  | none => (stdout,none)

def couldNotConnect : ℤ := 7

variable (json : SerdeJson)

def parseJson (body : Text) : Option Json :=
  match json.fromStr body with
  | .ok v => some v
  | .error _ => none

def parseDeployId (body : Text) : Option ℤ :=
  (parseJson json body).bind fun v => (v.get "deploy_id").bind Json.asI64

/-- `parse_error_message` and `error_message`. -/
def errorMessage (body : Text) : Option Text :=
  (parseJson json body).bind fun v => (v.get "error").bind Json.asStr

/-- Outcome of asking a daemon to run a deploy. -/
inductive Handoff
  | accepted (deployId : ℤ)
  | unreachable
  | refused (status : Option ℕ) (message : Text)
  deriving DecidableEq

/-- The arguments of both clients. -/
def Mcp.curlArgs (method : Method) (url : Text) : List Text :=
  "-sS".toList::((match method with
    | .post => ["-X".toList,"POST".toList]
    | .get => []) ++
  ["-H".toList,"Accept: application/json".toList,"--fail-with-body".toList,"--noproxy".toList,
    "*".toList,"-w".toList,statusLine,url])

/-- What the clients do on their host. -/
inductive ClientAct
  | run (program : String) (args : List Text)
  | writeAll (text : Text)
  | flush

@[reducible] def ClientAct.Resp : ClientAct → Type
  | run .. => Except Message CommandOutput
  | writeAll _ => Except Message Unit
  | flush => Except Message Unit

def handoffOf : Except Message CommandOutput → Handoff
  | .error _ => .unreachable
  | .ok out =>
    if out.status = couldNotConnect then .unreachable
    else
      let (body,status) := splitStatus out.stdout
      if out.status = 0 then
        match parseDeployId json body with
        | some deployId => .accepted deployId
        | none => .refused status ("daemon returned an unreadable response: " ++ body)
      else .refused status ((errorMessage json body).getD body.trim)

def deployUrl (listen app : Text) : Text :=
  "http://" ++ listen ++ "/api/apps/" ++ pathSegment app ++ "/deploy"

def tryDeploy (listen app : Text) : Prog ClientAct ClientAct.Resp Handoff := do
  let out ← .perform (.run "curl" (Mcp.curlArgs .post (deployUrl listen app)))
  return handoffOf json out

/-- With a root the daemon is never asked. -/
def tryDeployUnlessRooted (listen app : Text) (rooted : Bool) :
    Prog ClientAct ClientAct.Resp Handoff :=
  if rooted then return .unreachable else tryDeploy json listen app

def answerOf : Except Message CommandOutput → DaemonAnswer
  | .error _ => .unreachable
  | .ok out =>
    if out.status = couldNotConnect then .unreachable
    else
      let (body,status) := splitStatus out.stdout
      if out.status = 0 then .ok body
      else .refused status ((errorMessage json body).getD body.trim)

/-- `CurlDaemon::request`. -/
def curlRequest (listen : Text) (method : Method) (pathAndQuery : Text) :
    Prog ClientAct ClientAct.Resp DaemonAnswer := do
  let out ← .perform (.run "curl" (Mcp.curlArgs method ("http://" ++ listen ++ pathAndQuery)))
  return answerOf json out

/-- The acts of the MCP server, on its host. -/
def onHost (listen : Text) : ∀ act : Mcp.Act, Prog ClientAct ClientAct.Resp act.Resp
  | .request method path => curlRequest json listen method path
  | .writeAll t => .perform (ClientAct.writeAll t)
  | .flush => .perform ClientAct.flush

end Clients

section Replies
variable (debug : Text → Text) (json : SerdeJson)

def errorBody (message : Text) : Json := .obj [("error",.str message)]

/-- `ApiError::into_response`. -/
def ApiError.reply (e : ApiError) : Reply :=
  ⟨e.code.number,json.toString (errorBody (e.msg.toText debug))⟩

def acceptedBody (deployId : ℕ) : Json := .obj [("deploy_id",.num { whole := deployId })]

/-- The answer of the deploy handler: browsers are sent to the page of the deploy. -/
def deployReply (accept : Option Text) : ApiResult ℕ → Reply
  | .ok deployId =>
    if wantsHtml accept then ⟨303,[]⟩ else ⟨200,json.toString (acceptedBody deployId)⟩
  | .error e => e.reply debug json

/-- The daemon, by what its deploy handler comes to for an app. -/
def serveDeploys (start : Text → ApiResult ℕ) (other : Ask → Reply) (ask : Ask) : Reply :=
  match arrive ask.method ask.target with
  | some ⟨.deploy,[name],_⟩ => deployReply debug json (ask.header "Accept") (start name)
  | _ => other ask

end Replies

section Told
variable {json : SerdeJson}

theorem length_status {n : ℕ} (h : 100 ≤ n ∧ n < 1000) : (Text.decimal n).length = 3 := by
  have hle : (Text.decimal n).length ≤ 3 :=
    (Nat.length_toDigits_le_iff (by decide) (by decide)).mpr (by omega)
  have hgt : ¬(Text.decimal n).length ≤ 2 := by
    intro hle
    have hlt := (Nat.length_toDigits_le_iff (b := 10) (k := 2) (by decide) (by decide)).mp hle
    omega
  omega

/-- The body is split from the line with the status, whatever lines it has itself. -/
theorem splitStatus_reply {n : ℕ} (h : 100 ≤ n ∧ n < 1000) (body : Text) :
    splitStatus (body ++ '\n'::Text.decimal n) = (body,some n) := by
  have hall : (Text.decimal n).all Char.isDigit = true :=
    List.all_eq_true.mpr fun d hd => digit_of_mem_decimal hd
  rw [splitStatus,Text.rsplitOnce_append '\n' body _ (notMem_decimal rfl n)]
  dsimp only
  rw [length_status h,hall,if_pos (by decide),spelled_decimal]

/-- What the clients ask curl for: past any proxy, and for the status behind the body. -/
def clientAsk (method : Method) (url : Text) : Ask where
  method := method
  headers := ["Accept: application/json"]
  failWithBody := true
  direct := true
  statusTrailer := true
  url := url

theorem read_curlArgs (method : Method) {url : Text} (hurl : url.head? = some 'h') :
    Ask.read {} (Mcp.curlArgs method url) = some (clientAsk method url) := by
  obtain ⟨rest,rfl⟩ : ∃ rest, url = 'h'::rest := by
    cases url with
    | nil => cases hurl
    | cons c rest =>
      cases hurl
      exact ⟨rest,rfl⟩
  cases method <;> rfl

/-- The daemon was not reached. -/
def NotReached (r : Except Message CommandOutput) : Prop :=
  (∃ why, r = .error why) ∨ ∃ out, r = .ok out ∧ out.status = 7

/-- The exchange with the daemon went wrong; it may have got the request. With the status 22 curl
has the whole of a reply that is an error. -/
def BrokeOff (out : CommandOutput) : Prop := out.status ∉ ([0,7,22] : List ℤ)

theorem BrokeOff.status {out : CommandOutput} (h : BrokeOff out) :
    out.status ≠ 7 ∧ out.status ≠ 0 ∧ out.status ≠ 22 := by
  simp only [BrokeOff,List.mem_cons,List.not_mem_nil,or_false,not_or] at h
  exact ⟨h.2.1,h.1,h.2.2⟩

/-- curl has a reply of the daemon. -/
def Answered (r : Except Message CommandOutput) : Prop :=
  ¬NotReached r ∧ ∀ out, r = .ok out → ¬BrokeOff out

/-- The ways an exchange goes, for the arguments of the clients. -/
theorem curl_cases {serve : Ask → Reply} {method : Method} {url : Text}
    (hurl : url.head? = some 'h') {r : Except Message CommandOutput}
    (h : Curl serve (Mcp.curlArgs method url) r) :
    NotReached r ∨ (∃ out, r = .ok out ∧ BrokeOff out) ∨ ∃ stderr, r = .ok {
      status := if 400 ≤ (serve (clientAsk method url)).status then 22 else 0
      stdout := (serve (clientAsk method url)).body ++
        '\n'::Text.decimal (serve (clientAsk method url)).status
      stderr := stderr } := by
  cases h with
  | unspawned why => exact .inl (.inl ⟨why,rfl⟩)
  | unconnected h => exact .inl (.inr ⟨_,rfl,h⟩)
  | broken h => exact .inr (.inl ⟨_,rfl,h⟩)
  | replied stderr h =>
    rw [read_curlArgs method hurl] at h
    cases h
    refine .inr (.inr ⟨stderr,?_⟩)
    by_cases hcode : 400 ≤ (serve (clientAsk method url)).status
    · rw [if_pos ⟨rfl,hcode⟩,if_pos hcode]
      rfl
    · rw [if_neg fun h => hcode h.2,if_neg hcode]
      rfl

/-- What the command line makes of a reply. -/
theorem handoffOf_reply (reply : Reply) (h : 100 ≤ reply.status ∧ reply.status < 1000)
    (stderr : Text) :
    handoffOf json (.ok ⟨if 400 ≤ reply.status then 22 else 0,
      reply.body ++ '\n'::Text.decimal reply.status,stderr⟩) =
    if 400 ≤ reply.status then
      .refused (some reply.status) ((errorMessage json reply.body).getD reply.body.trim)
    else match parseDeployId json reply.body with
      | some deployId => .accepted deployId
      | none => .refused (some reply.status)
          ("daemon returned an unreadable response: " ++ reply.body) := by
  have hsplit := splitStatus_reply h reply.body
  by_cases hcode : 400 ≤ reply.status
  · simp only [handoffOf,if_pos hcode,hsplit]
    rfl
  · simp only [handoffOf,if_neg hcode,hsplit]
    rfl

theorem handoffOf_notReached {r : Except Message CommandOutput} (h : NotReached r) :
    handoffOf json r = .unreachable := by
  rcases h with ⟨why,rfl⟩ | ⟨out,rfl,hstatus⟩
  · rfl
  · exact if_pos hstatus

/-- Of an exchange that broke off the command line tells what curl printed, with the status if it
stands there. -/
theorem handoffOf_brokeOff {out : CommandOutput} (h : BrokeOff out) :
    handoffOf json (.ok out) = .refused (splitStatus out.stdout).2
      ((errorMessage json (splitStatus out.stdout).1).getD (splitStatus out.stdout).1.trim) :=
  (if_neg h.status.1).trans (if_neg h.status.2.1)

end Told

section Handoff
variable {debug : Text → Text} {json : SerdeJson} {start : Text → ApiResult ℕ} {other : Ask → Reply}
  {listen app : Text}

theorem target_clientAsk (method : Method) (h : '/' ∉ listen) {path : Text}
    (hpath : path.head? = some '/') : (clientAsk method ("http://" ++ listen ++ path)).target = path := by
  obtain ⟨rest,rfl⟩ : ∃ rest, path = '/'::rest := by
    cases path with
    | nil => cases hpath
    | cons c rest =>
      cases hpath
      exact ⟨rest,rfl⟩
  have hdrop : (("http://" : Text) ++ listen ++ '/'::rest).drop "http://".length =
      listen ++ '/'::rest := rfl
  rw [Ask.target,clientAsk,hdrop,List.dropWhile_append_of_pos,List.dropWhile_cons_of_neg (by simp)]
  intro c hc
  simpa using fun heq : c = '/' => h (heq ▸ hc)

theorem deployPath_eq (app : Text) : pathText ["api","apps",pathSegment app,"deploy"] =
    "/api/apps/" ++ (pathSegment app ++ "/deploy") := by
  simp [pathText]

theorem deployUrl_eq (listen app : Text) : deployUrl listen app =
    "http://" ++ listen ++ pathText ["api","apps",pathSegment app,"deploy"] := by
  rw [deployPath_eq]
  unfold deployUrl
  simp only [List.append_assoc]

/-- The deploy handler answers the command line for the app it was asked about, in JSON. -/
theorem serveDeploys_ask (hlisten : '/' ∉ listen) (happ : slug app ≠ []) :
    serveDeploys debug json start other (clientAsk .post (deployUrl listen app)) =
      match start app with
      | .ok deployId => ⟨200,json.toString (acceptedBody deployId)⟩
      | .error e => e.reply debug json := by
  have hwhole : ∀ s ∈ (["api","apps",pathSegment app,"deploy"] : List Text), WholeSegment s := by
    simp only [List.forall_mem_cons]
    exact ⟨by decide,by decide,whole_pathSegment happ,by decide,nofun⟩
  have hdecode : [pathSegment app].mapM (fun param => Utf8.decode (percentDecode param)) =
      some [app] := by
    simp [decode_pathSegment]
  have harrive := arrive_pathText _ hwhole (resolve_pages (pathSegment_ne_nil happ)).2.2.1 hdecode
  have hhtml : wantsHtml (some ("application/json" : Text)) = false := by decide
  have haccept : (clientAsk .post (deployUrl listen app)).header "Accept" =
      some ("application/json" : Text) := rfl
  have hmethod : (clientAsk .post (deployUrl listen app)).method = .post := rfl
  have htarget : (clientAsk .post (deployUrl listen app)).target =
      pathText ["api","apps",pathSegment app,"deploy"] := by
    rw [deployUrl_eq,target_clientAsk .post hlisten (by rfl)]
  rw [serveDeploys,hmethod,haccept,htarget,harrive]
  dsimp only
  cases start app with
  | ok deployId => simp only [deployReply,hhtml,Bool.false_eq_true,if_false]
  | error e => rfl

theorem status_range (e : ApiError) : 400 ≤ e.code.number ∧ e.code.number < 1000 := by
  cases e.code <;> decide

/-- What the answer of the daemon is told as. -/
def told (debug : Text → Text) : ApiResult ℕ → Handoff
  | .ok deployId => .accepted deployId
  | .error e => .refused (some e.code.number) (e.msg.toText debug)

/-- The value that the daemon writes into its answer. -/
def saidBody (debug : Text → Text) : ApiResult ℕ → Json
  | .ok deployId => acceptedBody deployId
  | .error e => errorBody (e.msg.toText debug)

theorem parseDeployId_accepted {deployId : ℕ} (h : deployId < 2^63)
    (hread : json.fromStr (json.toString (acceptedBody deployId)) = .ok (acceptedBody deployId)) :
    parseDeployId json (json.toString (acceptedBody deployId)) = some (deployId : ℤ) := by
  have hget : (acceptedBody deployId).get "deploy_id" = some (.num { whole := deployId }) := rfl
  simp only [parseDeployId,parseJson,hread,Option.bind_some,hget]
  exact if_pos h

theorem errorMessage_error {message : Text}
    (hread : json.fromStr (json.toString (errorBody message)) = .ok (errorBody message)) :
    errorMessage json (json.toString (errorBody message)) = some message := by
  have hget : (errorBody message).get "error" = some (.str message) := rfl
  simp only [errorMessage,parseJson,hread,Option.bind_some,hget,Json.asStr]

/-- What is told when curl came back with `r`. -/
structure HandedOff (debug : Text → Text) (json : SerdeJson) (r : Except Message CommandOutput)
    (said : ApiResult ℕ) (handoff : Handoff) : Prop where
  unreached : NotReached r → handoff = .unreachable
  broken : ∀ out, r = .ok out → BrokeOff out → handoff = .refused (splitStatus out.stdout).2
    ((errorMessage json (splitStatus out.stdout).1).getD (splitStatus out.stdout).1.trim)
  answered : Answered r → handoff = told debug said

/-- curl has a reply when it says so by its status. -/
theorem answered_ok {out : CommandOutput} (h : out.status = 0 ∨ out.status = 22) :
    Answered (.ok out) := by
  refine ⟨?_,fun out' heq hbroke => ?_⟩
  · rintro (⟨_,⟨⟩⟩ | ⟨_,heq,hseven⟩)
    cases heq
    rcases h with h | h <;> rw [h] at hseven <;> cases hseven
  · cases heq
    exact h.elim hbroke.status.2.1 hbroke.status.2.2

/-- The command line asks the daemon once, past any proxy, unless it has a root of its own; then it
tells exactly what the daemon said of this app, a refusal with its status and its message. It goes on
by itself only when the daemon was not reached; when the exchange broke off it is a refusal too. -/
theorem deploy_handoff (hlisten : '/' ∉ listen) (happ : slug app ≠ [])
    (hread : json.fromStr (json.toString (saidBody debug (start app))) =
      .ok (saidBody debug (start app)))
    (hid : ∀ deployId, start app = .ok deployId → deployId < 2^63) {rooted : Bool}
    {tr : List (Exchange ClientAct ClientAct.Resp)} {handoff : Handoff}
    (h : Runs (tryDeployUnlessRooted json listen app rooted) tr handoff) :
    if rooted then tr = [] ∧ handoff = .unreachable
    else ∃ r, tr = [⟨.run "curl" (Mcp.curlArgs .post (deployUrl listen app)),r⟩] ∧
      (Curl (serveDeploys debug json start other) (Mcp.curlArgs .post (deployUrl listen app)) r →
        HandedOff debug json r (start app) handoff) := by
  cases rooted with
  | true =>
    rw [tryDeployUnlessRooted,if_pos rfl] at h
    exact runs_ret.mp h
  | false =>
    rw [tryDeployUnlessRooted,if_neg Bool.false_ne_true,tryDeploy,runs_perform_bind] at h
    obtain ⟨r,tr',rfl,hret⟩ := h
    obtain ⟨rfl,rfl⟩ := runs_ret.mp hret
    refine ⟨r,rfl,fun hcurl => ?_⟩
    refine ⟨handoffOf_notReached,fun out hr hbroke => hr ▸ handoffOf_brokeOff hbroke,
      fun hanswered => ?_⟩
    rcases curl_cases (by rfl) hcurl with hnot | ⟨out,rfl,hbroke⟩ | ⟨stderr,rfl⟩
    · exact absurd hnot hanswered.1
    · exact absurd hbroke (hanswered.2 out rfl)
    · rw [serveDeploys_ask hlisten happ]
      cases hstart : start app with
      | ok deployId =>
        rw [hstart] at hread
        refine (handoffOf_reply ⟨200,_⟩ ⟨by simp,by simp⟩ stderr).trans ?_
        rw [if_neg (by simp),parseDeployId_accepted (hid deployId hstart) hread]
        rfl
      | error e =>
        rw [hstart] at hread
        obtain ⟨hlow,hhigh⟩ := status_range e
        refine (handoffOf_reply (e.reply debug json) ⟨Nat.le_trans (by decide) hlow,hhigh⟩
          stderr).trans ?_
        refine (if_pos hlow).trans ?_
        rw [ApiError.reply,errorMessage_error hread]
        rfl

def busy : ApiError := .conflict ["another deploy of ",.text "web"," is already in progress"]

/-- A reader that knows the body of one refusal. -/
def busyJson : SerdeJson where
  fromStr t :=
    if t = (errorBody (busy.msg.toText id)).compact then .ok (errorBody (busy.msg.toText id))
    else .error "expected value at line 1 column 1"
  toString := Json.compact
  writes := Json.writes_compact

/-- A daemon that deploys the app already refuses, and the refusal is told as it is. -/
theorem busy_daemon_refuses :
    Answered (.ok ⟨22,(errorBody (busy.msg.toText id)).compact ++ "\n409",[]⟩) ∧
    HandedOff id busyJson (.ok ⟨22,(errorBody (busy.msg.toText id)).compact ++ "\n409",[]⟩)
      (.error busy) (.refused (some 409) "another deploy of web is already in progress") := by
  have hread : busyJson.fromStr (busyJson.toString (saidBody id (.error busy))) =
      .ok (saidBody id (.error busy)) := by
    simp only [busyJson,saidBody,if_pos]
  have hcurl : Curl (serveDeploys id busyJson (fun _ => .error busy) fun _ => ⟨404,[]⟩)
      (Mcp.curlArgs .post (deployUrl "127.0.0.1:7457" "web"))
      (.ok ⟨22,(errorBody (busy.msg.toText id)).compact ++ "\n409",[]⟩) := by
    have hasked := @read_curlArgs .post (deployUrl "127.0.0.1:7457" "web") rfl
    have hreplied := @Curl.replied (serveDeploys id busyJson (fun _ => .error busy)
      fun _ => ⟨404,[]⟩) _ _ [] hasked
    rw [serveDeploys_ask (by decide) (by decide)] at hreplied
    exact hreplied
  obtain ⟨r,htr,htold⟩ := @deploy_handoff id busyJson (fun _ => .error busy) (fun _ => ⟨404,[]⟩)
    "127.0.0.1:7457" "web" (by decide) (by decide) hread (fun _ h => by cases h) false _ _
    (.op (.ret _))
  cases htr
  exact ⟨answered_ok (.inr rfl),htold hcurl⟩

end Handoff

section Session
variable {json : SerdeJson} {daemon : Method → Text → Reply} {listen : Text}

end Session

end Kuadrat
