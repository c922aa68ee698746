import Kuadrat.Daemon.Clients
import Kuadrat.Daemon.Pages
import Kuadrat.Daemon.System
import Kuadrat.Journal

/-!
# The logs of an app over HTTP

The handlers that read and follow a journal, and what arrives of it: in a browser on the stream of
an app, and at a caller of the MCP server's `tail_logs`.
-/
namespace Kuadrat.Logs

open Effect Url Utf8
open EventStream (Reader)
open Mcp (Method SerdeJson DaemonAnswer pathSegment)

/-- A handler that reads the journal. -/
abbrev LogApi := Proc Journalctl Journalctl.Resp ApiError

def logStreamBacklog : ℕ := 100

section Handlers

def logsUnread (name : Text) (why : Message) : ApiError :=
  .internal (Message.context ["reading logs for ",.text name] why)

/-- A reading for a registered app; nothing is read for an app that nobody registered. -/
def registered {α : Type} (s : Store) (name : Text) (p : Reading α) : LogApi α := do
  let _ ← (.mk (.ret (registration name (s.appConfig name))) : LogApi AppConfig)
  p.mapError (logsUnread name)

structure LogsOut where
  name : Text
  lines : List Text

/-- `api::logs`. -/
def logs (s : Store) (name : Text) (n : Option ℕ) : LogApi (Option LogsOut) := do
  let lines ← registered s name (tail name (n.getD 100))
  return lines.map fun lines => ⟨name,lines⟩

/-- A stream of lines, and how each is written. -/
structure LogStream where
  lines : LineStream
  render : Text → Text

def followed (render : Text → Text) (s : Store) (name : Text) : LogApi (Option LogStream) := do
  let stream ← registered s name (follow name logStreamBacklog)
  return stream.map fun lines => ⟨lines,render⟩

/-- One line on the wire, as JSON. -/
def lineEvent (json : SerdeJson) (line : Text) : Text := json.toString (.obj [("line",.str line)])

/-- `api::logs_stream`. -/
def logsStream (json : SerdeJson) : (s : Store) → (name : Text) → LogApi (Option LogStream) :=
  followed (lineEvent json)

/-- `pages::app_log_stream`. -/
def appLogStream : (s : Store) → (name : Text) → LogApi (Option LogStream) :=
  followed fun line => Html.render (Html.tokens (logLine line))

/-- The lines that `lines_sse` takes of a stream. -/
def linesUntilFailure : LineStream → List Text
  | .ok line::rest => line::linesUntilFailure rest
  | _ => []

end Handlers

section Following
variable (matching : Text → Entry → Bool) (journal later : List Entry)

/-- What `journalctl` yields when it follows: the entries it starts with, then those that come, up
to a point. -/
inductive Follows (args : List Text) : Except Message LineStream → Prop
  | unspawned (why : Message) : Follows args (.error why)
  | opened {q : Query} (h : Query.read {} args = some q) (hfollow : q.follow = true)
    {ls : List Text} (failure : List Message)
    (hls : ls <+: printedLines none
      (q.entries matching journal ++ later.filter (q.selects matching))) :
    Follows args (.ok (ls.map .ok ++ failure.map .error))

/-- The lines of an app from the last hundred of its entries on. -/
def followedLines (name : Text) : List Text :=
  printedLines none (lastEntries matching journal name none logStreamBacklog ++
    later.filter fun e => e.unit == unitName name)

variable {matching journal later} {name : Text} {render : Text → Text}

theorem linesUntilFailure_map (ls : List Text) (failure : List Message) :
    linesUntilFailure (ls.map .ok ++ failure.map .error) = ls := by
  induction ls with
  | nil => cases failure <;> rfl
  | cons l ls ih => exact congrArg (l::·) ih

/-- What a stream has yielded before it failed, if it did. -/
def Yielded (ls : List Text) (answer : Except Message LineStream) : Prop :=
  ∃ failure : List Message, answer = .ok (ls.map .ok ++ failure.map .error)

/-- A stream that was opened has yielded lines of the app. -/
theorem lines_follows {answer : Except Message LineStream}
    (h : Follows matching journal later (baseArgs name logStreamBacklog ++ ["-f".toList]) answer) :
    (∃ why, answer = .error why) ∨
      ∃ ls, ls <+: followedLines matching journal later name ∧ Yielded ls answer := by
  cases h with
  | unspawned why => exact .inl ⟨why,rfl⟩
  | @opened q h hfollow ls failure hls =>
    rw [read_baseArgs] at h
    have hq : q = { asked name logStreamBacklog with grep := none, follow := true } := by
      rw [Query.read.eq_def] at h
      exact (Option.some.inj h).symm
    have hselects : q.selects matching = fun e => e.unit == unitName name := by
      funext e
      simp [hq,Query.selects,asked,beq_eq_decide]
    rw [hselects,hq,entries_asked] at hls
    exact .inr ⟨ls,hls,failure,rfl⟩

end Following

section Runs
variable {matching : Text → Entry → Bool} {journal journal' later : List Entry} {s : Store}
  {name : Text} {render : Text → Text} {tr : List (Exchange Journalctl Journalctl.Resp)}

theorem runs_mapError {ε ε' α : Type} {p : Proc Journalctl Journalctl.Resp ε α} {f : ε → ε'}
    {r : Except ε' α} :
    Runs (p.mapError f).run tr r ↔ ∃ r', Runs p.run tr r' ∧ r = r'.mapError f := by
  rw [Proc.run_mapError,runs_bind]
  constructor
  · rintro ⟨r',tr₁,tr₂,rfl,h,hret⟩
    obtain ⟨rfl,rfl⟩ := runs_ret.mp hret
    exact ⟨r',by rwa [List.append_nil],rfl⟩
  · rintro ⟨r',h,rfl⟩
    exact ⟨r',tr,[],(List.append_nil tr).symm,h,.ret _⟩

/-- The journal is only read for a registered app. -/
theorem run_registered {α : Type} {p : Reading α} {r : ApiResult α}
    (h : Runs (registered s name p).run tr r) :
    (∃ e, registration name (s.appConfig name) = .error e ∧ tr = [] ∧ r = .error e) ∨
    ∃ config r', registration name (s.appConfig name) = .ok config ∧ Runs p.run tr r' ∧
      r = r'.mapError (logsUnread name) := by
  rcases runs_run_bind.mp h with ⟨config,tr₁,tr₂,rfl,hreg,hrest⟩ | ⟨e,rfl,hreg⟩
  · obtain ⟨rfl,hok⟩ := runs_ret.mp hreg
    obtain ⟨r',hp,hr⟩ := runs_mapError.mp hrest
    exact .inr ⟨config,r',hok.symm,hp,hr⟩
  · obtain ⟨rfl,herror⟩ := runs_ret.mp hreg
    exact .inl ⟨e,herror.symm,rfl,rfl⟩

/-- A result that is handed on. -/
theorem run_map {α β : Type} {p : LogApi α} {f : α → β} {r : ApiResult β}
    (h : Runs (do let a ← p; return f a : LogApi β).run tr r) :
    ∃ r', Runs p.run tr r' ∧ r = r'.map f := by
  rcases runs_run_bind.mp h with ⟨a,tr₁,tr₂,rfl,hp,hret⟩ | ⟨e,rfl,hp⟩
  · obtain ⟨rfl,rfl⟩ := runs_ret.mp hret
    exact ⟨.ok a,by rwa [List.append_nil],rfl⟩
  · exact ⟨.error e,hp,rfl⟩

/-- A stream in a browser: it shows these lines, each as it is written, and the first of them when
it is cut. -/
structure Watched (render : Text → Text) (ls : List Text) (stream : LogStream) : Prop where
  whole : ∀ (w : SseWriter) items, items.filterMap id = linesUntilFailure stream.lines →
    (Reader.feed {} (w.wire (linesSent stream.render items))).events =
      ls.map fun l => ⟨[],"message".toList,sanitize (render l)⟩
  cut : ∀ (w : SseWriter) items cut, items.filterMap id <+: linesUntilFailure stream.lines →
    cut <+: w.wire (linesSent stream.render items) → ∃ seen, seen <+: ls ∧
      (Reader.feed {} cut).events = seen.map fun l => ⟨[],"message".toList,sanitize (render l)⟩

/-- What comes of following the log of a registered app, once `journalctl` answered the bounded
reading before it. -/
def Followed (matching : Text → Entry → Bool) (journal' later : List Entry) (name : Text)
    (render : Text → Text) (answer : Except Message CommandOutput)
    (rest : List (Exchange Journalctl Journalctl.Resp)) (r : ApiResult (Option LogStream)) : Prop :=
  (¬Readable answer ∧ rest = [] ∧ ∃ e, r = .error e ∧ e.code = .internalServerError) ∨
  (Readable answer ∧ ∃ opened,
    rest = [⟨.runStreaming (baseArgs name logStreamBacklog ++ ["-f".toList]),opened⟩] ∧
    (Follows matching journal' later (baseArgs name logStreamBacklog ++ ["-f".toList]) opened →
      (∃ why e, opened = .error why ∧ r = .error e ∧ e.code = .internalServerError) ∨
      ∃ ls stream, ls <+: followedLines matching journal' later name ∧ Yielded ls opened ∧
        r = .ok (some stream) ∧ Watched render ls stream))

/-- A stream shows the lines that `journalctl` has yielded. -/
theorem watched_of_yielded {ls : List Text} {lines : LineStream} (h : Yielded ls (.ok lines)) :
    Watched render ls ⟨lines,render⟩ := by
  have hrested : Reader.Rested {} := ⟨rfl,rfl,rfl⟩
  obtain ⟨failure,heq⟩ := h
  obtain rfl := Except.ok.inj heq
  have huntil : linesUntilFailure (ls.map .ok ++ failure.map .error) = ls :=
    linesUntilFailure_map ls failure
  constructor
  · intro w items hitems
    rw [feed_wire_lines hrested rfl,hitems,huntil]
    rfl
  · intro w items cut hitems hcut
    obtain ⟨seen,hseen,hevents⟩ := feed_lines hrested rfl hcut
    exact ⟨seen,hseen.trans (huntil ▸ hitems),hevents⟩

/-- Whoever follows a log: nothing is read for an app that is not registered; for one that is, a
bounded reading comes first, and no stream is opened for a journal that cannot be read; and a
browser on the stream has every line that `journalctl` yielded before it failed, lines of that app
alone, from the last hundred entries on, in order and each as it is written, or the first of them
when the stream is cut. -/
theorem log_followed {r : ApiResult (Option LogStream)}
    (h : Runs (followed render s name).run tr r) :
    (tr = [] ∧ ∃ e, r = .error e ∧
      (registration name (s.appConfig name) = .error e ∨ slug name = [])) ∨
    ∃ config answer rest, registration name (s.appConfig name) = .ok config ∧ slug name ≠ [] ∧
      tr = ⟨.run (baseArgs name logStreamBacklog),answer⟩::rest ∧
      (Answers matching journal (baseArgs name logStreamBacklog) answer →
        Followed matching journal' later name render answer rest r) := by
  obtain ⟨r₂,hrun,rfl⟩ := run_map h
  rcases run_registered hrun with ⟨e,he,rfl,rfl⟩ | ⟨config,r₁,hreg,hread,rfl⟩
  · exact .inl ⟨rfl,e,rfl,.inl he⟩
  obtain ⟨tr₁,rtail,htail,hfollow⟩ := run_follow hread
  rcases run_tail htail with ⟨hnil,rfl,why,rfl⟩ | ⟨hslug,answer,rfl,rfl⟩
  · rcases hfollow with ⟨_,_,⟨⟩,-⟩ | ⟨⟨⟩,-⟩ | ⟨_,-,rfl,rfl⟩
    exact .inl ⟨rfl,_,rfl,.inr hnil⟩
  have htold : Answers matching journal (baseArgs name logStreamBacklog) answer →
      Told (lastEntries matching journal name none logStreamBacklog) answer (linesOf name answer) :=
    fun hanswer => linesOf_told hanswer fun q hq => @read_boundedArgs matching journal name _ none q hq
  refine .inr ?_
  rcases hfollow with ⟨shown,opened,hok,rfl,rfl⟩ | ⟨hnone,rfl,rfl⟩ | ⟨why,herror,rfl,rfl⟩
  · refine ⟨config,answer,_,hreg,hslug,rfl,fun hanswer => .inr ⟨(htold hanswer).answered.mp ⟨_,hok⟩,opened,rfl,?_⟩⟩
    intro hopened
    rcases lines_follows hopened with ⟨why,rfl⟩ | ⟨ls,hls,hyielded⟩
    · exact .inl ⟨why,_,rfl,rfl,rfl⟩
    · obtain ⟨failure,rfl⟩ := id hyielded
      exact .inr ⟨ls,_,hls,hyielded,rfl,watched_of_yielded hyielded⟩
  · refine ⟨config,answer,[],hreg,hslug,rfl,fun hanswer => ?_⟩
    obtain ⟨ls,hls,-⟩ := (htold hanswer).shown none hnone
    cases hls
  · refine ⟨config,answer,[],hreg,hslug,rfl,fun hanswer => .inl ⟨fun hreadable => ?_,rfl,_,rfl,rfl⟩⟩
    obtain ⟨x,hx⟩ := (htold hanswer).answered.mpr hreadable
    rw [hx] at herror
    cases herror

/-- The log of a registered app is read once, and then followed until `journalctl` fails. -/
theorem web_log_followed : Followed (fun _ _ => true) [webUp] [webUpAgain] "web" id
    (.ok ⟨0,printed [webUp],[]⟩)
    [⟨.runStreaming (baseArgs "web" logStreamBacklog ++ ["-f".toList]),
      .ok [.ok webUp.first,.ok (bootMark "c4d1"),.error ["broken pipe"]]⟩]
    (.ok (some ⟨[.ok webUp.first,.ok (bootMark "c4d1"),.error ["broken pipe"]],id⟩)) ∧
    Follows (fun _ _ => true) [webUp] [webUpAgain] (baseArgs "web" logStreamBacklog ++ ["-f".toList])
      (.ok [.ok webUp.first,.ok (bootMark "c4d1"),.error ["broken pipe"]]) := by
  have hreg : registration "web" (registeredStore.appConfig "web") =
      .ok ⟨"web","/srv/web",none⟩ := by decide +kernel
  have hrun : Runs (followed id registeredStore "web").run
      [⟨.run (baseArgs "web" logStreamBacklog),.ok ⟨0,printed [webUp],[]⟩⟩,
        ⟨.runStreaming (baseArgs "web" logStreamBacklog ++ ["-f".toList]),
          .ok [.ok webUp.first,.ok (bootMark "c4d1"),.error ["broken pipe"]]⟩]
      (.ok (some ⟨[.ok webUp.first,.ok (bootMark "c4d1"),.error ["broken pipe"]],id⟩)) := by
    unfold followed registered
    rw [hreg]
    exact .op (.op (.ret _))
  rcases @log_followed (fun _ _ => true) [webUp] [webUp] [webUpAgain] registeredStore "web" id _ _
    hrun with ⟨hnil,-⟩ | ⟨config,answer,rest,-,-,htr,hfollowed⟩
  · cases hnil
  cases htr
  refine ⟨hfollowed (.read (read_bareArgs "web" logStreamBacklog) []),?_⟩
  exact @Follows.opened (fun _ _ => true) [webUp] [webUpAgain] _
    { asked "web" logStreamBacklog with follow := true } (by rw [read_baseArgs]; rfl) rfl
    [webUp.first,bootMark "c4d1"] [["broken pipe"]] (by decide +kernel)

end Runs

section Query

/-- A part of a form: a plus is a space; nothing is a part that is no text. -/
def formDecode (t : Text) : Option Text :=
  decode (percentDecode (t.map fun c => if c = '+' then ' ' else c))

/-- The value of one piece of a query, if it is for the key. -/
def valueFor (key piece : Text) : Option (Option Text) :=
  if !piece.isEmpty && formDecode (piece.takeWhile (· != '=')) == some key then
    some (formDecode ((piece.dropWhile (· != '=')).drop 1))
  else none

end Query

section Tool
variable (debug : Text → Text) (json : SerdeJson) (matching : Text → Entry → Bool)
  (journal : List Entry) (s : Store)

def LogsOut.value (out : LogsOut) : Json :=
  .obj [("name",.str out.name),("lines",.arr (out.lines.map .str))]

/-- What the caller of the tool is told of it. -/
def told (r : ApiResult (Option LogsOut)) : Option Mcp.Dispatched :=
  match r with
  | .ok (some out) => some (.result (json.toString out.value) false)
  | .ok none => none
  | .error e => some (.result (e.msg.toText debug) true)

variable {debug json matching journal s} {name listen : Text} {n : ℕ}

end Tool

end Kuadrat.Logs
