import Kuadrat.Mcp.Session

/-!
# The era gate

Clients of two protocol generations share one dispatcher. What the daemon is asked for while
a line is handled, and which results are marked as modern, depend on the line and on whether
an `initialize` request came before it.
-/
namespace Kuadrat.Mcp

open Effect

section Gate
variable (json : SerdeJson)

/-- The line is a request: JSON with a string method and an id that is not null. -/
def IsRequest (line method : Text) (params : Json) : Prop :=
  line.trim.isEmpty = false ∧ ∃ v id, json.fromStr line = .ok v ∧
    (v.get "method").bind Json.asStr = some method ∧ v.get "id" = some id ∧ id.isNull = false ∧
    params = (v.get "params").getD .null

/-- The line asks for nothing: it is blank, or a notification. -/
def Silent (line : Text) : Prop :=
  line.trim.isEmpty = true ∨ ∃ v method, json.fromStr line = .ok v ∧
    (v.get "method").bind Json.asStr = some method ∧ ∀ id, v.get "id" = some id → id.isNull = true

/-- A call of one of the six tools with the arguments that it takes. -/
inductive WellTyped (args : Json) : Text → Prop
  | listApps : WellTyped args "list_apps"
  | getApp {name : Text} : (args.get "name").bind Json.asStr = some name → WellTyped args "get_app"
  | deploy {name : Text} : (args.get "name").bind Json.asStr = some name → WellTyped args "deploy"
  | getDeploy {id : ℕ} : (args.get "deploy_id").bind Json.asU64 = some id →
      WellTyped args "get_deploy"
  | tailLogs {name : Text} : (args.get "name").bind Json.asStr = some name →
      (∀ v, args.get "n" = some v → v.asU64.isSome) → WellTyped args "tail_logs"
  | reconcile : WellTyped args "reconcile"

/-- A well-typed call of a tool. -/
def CallsTool (params : Json) : Prop :=
  ∃ tool, (params.get "name").bind Json.asStr = some tool ∧
    WellTyped ((params.get "arguments").getD (.obj [])) tool

/-- An `initialize` request is among the lines. -/
def Initialized (earlier : List Text) : Prop :=
  ∃ line ∈ earlier, ∃ params, IsRequest json line "initialize" params

/-- The line may reach the daemon: a well-typed tool call that declares the modern version, or
declares none after the legacy era has begun. -/
def Gate (earlier : List Text) (line : Text) : Prop :=
  ∃ params, IsRequest json line "tools/call" params ∧ CallsTool params ∧
    (metaVersion params = some modernVersion ∨
      (metaVersion params = none ∧ Initialized json earlier))

/-- The methods whose results both eras share. -/
def eraMethods : List Text := ["ping","tools/list","tools/call"]

/-- A result in `v` has a `resultType` exactly when `modern` holds; an error has no result. -/
def Marked (modern : Prop) (v : Json) : Prop :=
  ∀ result, v.get "result" = some result → ((result.get "resultType").isSome = true ↔ modern)

/-- The daemon is asked once when `p` holds, and else not at all. -/
structure AsksOnceIf (p : Prop) (contacts : List Act) : Prop where
  requests : ∀ act ∈ contacts, ∃ method path, act = .request method path
  once : p → contacts.length = 1
  never : ¬p → contacts = []

/-- What is done to write an answer. -/
def written : Option Text → List Act
  | none => []
  | some t => [.writeAll t,.writeAll ['\n'],.flush]

/-- What is done for one line after the `earlier` ones: the daemon is asked if the gate is open,
then the answer is written. A result tells whether its request was modern. -/
def Handled (earlier : List Text) (line : Text) (acts : List Act) : Prop :=
  ∃ contacts answer, acts = contacts ++ written answer ∧
    AsksOnceIf (Gate json earlier line) contacts ∧ (answer = none ↔ Silent json line) ∧
    ∀ method params, IsRequest json line method params → method ∈ eraMethods →
      ∃ v, answer = some (json.toString v) ∧ Marked (metaVersion params = some modernVersion) v

/-- A session by its lines, and by what is done for each. -/
inductive Session : List Text → List Text → List (List Act) → Prop
  | nil {earlier : List Text} : Session earlier [] []
  | cons {earlier rest : List Text} {line : Text} {acts : List Act} {logs : List (List Act)} :
    Handled json earlier line acts → Session (earlier ++ [line]) rest logs →
    Session earlier (line::rest) (acts::logs)

end Gate

theorem strArg_eq_ok {args : Json} {key s : Text} :
    strArg args key = .ok s ↔ (args.get key).bind Json.asStr = some s := by
  unfold strArg
  split
  · rename_i h
    rw [h,Except.ok.injEq,Option.some.injEq]
  · rename_i h
    simp [h]

theorem intArg_eq_ok {args : Json} {key : Text} {n : ℕ} :
    intArg args key = .ok n ↔ (args.get key).bind Json.asU64 = some n := by
  unfold intArg
  split
  · rename_i h
    rw [h,Except.ok.injEq,Option.some.injEq]
  · rename_i h
    simp [h]

theorem map_mapError_eq_ok {ε ε' α β : Type} {r : Except ε α} {f : ε → ε'} {g : α → β} {b : β} :
    (r.mapError f).map g = .ok b ↔ ∃ a, r = .ok a ∧ g a = b := by
  cases r with
  | error e => simp [Except.mapError,Except.map]
  | ok a => simp [Except.mapError,Except.map]

section Routes
variable {args : Json}

theorem wellTyped_of_routeOf {tool : Text} {route : Method × Text}
    (h : routeOf tool args = .ok route) : WellTyped args tool := by
  unfold routeOf at h
  split at h
  · rename_i htool
    exact htool ▸ .listApps
  split at h
  · rename_i htool
    obtain ⟨name,hname,-⟩ := map_mapError_eq_ok.mp h
    exact htool ▸ .getApp (strArg_eq_ok.mp hname)
  split at h
  · rename_i htool
    obtain ⟨name,hname,-⟩ := map_mapError_eq_ok.mp h
    exact htool ▸ .deploy (strArg_eq_ok.mp hname)
  split at h
  · rename_i htool
    obtain ⟨id,hid,-⟩ := map_mapError_eq_ok.mp h
    exact htool ▸ .getDeploy (intArg_eq_ok.mp hid)
  split at h
  · rename_i htool
    split at h
    · cases h
    rename_i name hname
    refine htool ▸ .tailLogs (strArg_eq_ok.mp hname) fun v hv => ?_
    rw [hv] at h
    cases hlines : v.asU64 with
    | none => simp [hlines] at h
    | some lines => rfl
  split at h
  · rename_i htool
    exact htool ▸ .reconcile
  · cases h

theorem WellTyped.routeOf_eq_ok {tool : Text} (h : WellTyped args tool) :
    ∃ route, routeOf tool args = .ok route := by
  cases h with
  | listApps => exact ⟨(.get,"/api/apps"),rfl⟩
  | getApp hname =>
    exact ⟨_,map_mapError_eq_ok.mpr ⟨_,strArg_eq_ok.mpr hname,rfl⟩⟩
  | deploy hname =>
    exact ⟨_,map_mapError_eq_ok.mpr ⟨_,strArg_eq_ok.mpr hname,rfl⟩⟩
  | getDeploy hid =>
    exact ⟨_,map_mapError_eq_ok.mpr ⟨_,intArg_eq_ok.mpr hid,rfl⟩⟩
  | tailLogs hname hn =>
    rw [routeOf,if_neg (by decide),if_neg (by decide),if_neg (by decide),if_neg (by decide),
      if_pos rfl,strArg_eq_ok.mpr hname]
    cases hget : args.get "n" with
    | none => exact ⟨_,rfl⟩
    | some v =>
      obtain ⟨lines,hlines⟩ := Option.isSome_iff_exists.mp (hn v hget)
      simp only [hlines]
      exact ⟨_,rfl⟩
  | reconcile => exact ⟨(.post,"/api/reconcile"),rfl⟩

end Routes

theorem callsTool_iff {params : Json} : CallsTool params ↔ ∃ route,
    routeOf (((params.get "name").bind Json.asStr).getD [])
      ((params.get "arguments").getD (.obj [])) = .ok route := by
  constructor
  · rintro ⟨tool,htool,htyped⟩
    rw [htool]
    exact htyped.routeOf_eq_ok
  · rintro ⟨route,hroute⟩
    have htyped := wellTyped_of_routeOf hroute
    cases htool : (params.get "name").bind Json.asStr with
    | some tool =>
      rw [htool] at htyped
      exact ⟨tool,htool,htyped⟩
    | none =>
      -- no tool has the empty name
      rw [htool] at htyped
      generalize hname : Option.getD (none : Option Text) [] = name at htyped
      cases htyped with
      | _ => exact absurd hname (by decide)

namespace AsksOnceIf
variable {p q : Prop} {contacts : List Act}

theorem congr (h : AsksOnceIf p contacts) (hpq : p ↔ q) : AsksOnceIf q contacts :=
  ⟨h.requests,fun hq => h.once (hpq.mpr hq),fun hq => h.never fun hp => hq (hpq.mp hp)⟩

theorem silent (h : ¬p) : AsksOnceIf p [] := ⟨by simp,fun hp => absurd hp h,fun _ => rfl⟩

theorem asked (h : p) (method : Method) (path : Text) : AsksOnceIf p [.request method path] :=
  ⟨by simp,fun _ => rfl,fun hp => absurd h hp⟩

end AsksOnceIf

/-- What was done so far, and whether a write has failed. -/
structure Journal where
  acts : List Act := []
  broken : Bool := false

def failed : (e : Act) → e.Resp → Bool
  | .request .., _ => false
  | .writeAll _, r => !r.isOk
  | .flush, r => !r.isOk

/-- Every act is noted; the daemon answers what it likes, and a write may fail. -/
def journal : Spec Act Act.Resp Journal where
  pre _ _ := True
  post j e r j' := j' = ⟨j.acts ++ [e],j.broken || failed e r⟩

section Lines
variable {json : SerdeJson} {j : Journal}

/-- What an answer to `req` is to be: written from a JSON value that tells of the era. -/
def Answers (json : SerdeJson) (req : Incoming) (modern : Prop) (t : Text) : Prop :=
  ∃ v, t = json.toString v ∧ (req.method ∈ eraMethods → Marked modern v)

theorem answers_error (req : Incoming) (p : Prop) (id : Option Json) (code : ℤ) (message : Text)
    (data : Option Json) : Answers json req p (errorLine json id code message data) :=
  ⟨_,rfl,fun _ result h => by cases h⟩

theorem answers_result (req : Incoming) (id : Json) {members : List (Text × Json)} {modern : Bool}
    (h : (members.lookup "resultType".toList).isSome = modern) :
    Answers json req (modern = true) (responseLine json id (.obj members)) := by
  refine ⟨_,rfl,fun _ result hresult => ?_⟩
  cases hresult
  rw [Json.get,h]

/-- Only a tool call contacts the daemon, and only when it is well typed. -/
theorem dispatch_gate (req : Incoming) (id : Json) (modern : Bool) :
    wp journal (dispatch json req id modern) (fun t j' => ∃ contacts,
      j' = ⟨j.acts ++ contacts,j.broken⟩ ∧
      AsksOnceIf (req.method = "tools/call" ∧ CallsTool req.params) contacts ∧
      Answers json req (modern = true) t) j := by
  have hquiet : j = ⟨j.acts ++ [],j.broken⟩ := by rw [List.append_nil]
  have hother : ∀ method : Text, req.method = method → method ≠ "tools/call" →
      AsksOnceIf (req.method = "tools/call" ∧ CallsTool req.params) [] :=
    fun method hmethod hne => .silent fun h => hne (hmethod.symm.trans h.1)
  unfold dispatch
  split
  · rename_i hmethod
    refine ⟨[],hquiet,hother _ hmethod (by decide),_,rfl,fun hera => ?_⟩
    rw [hmethod] at hera
    exact absurd hera (by decide)
  split
  · rename_i hmethod
    refine ⟨[],hquiet,hother _ hmethod (by decide),answers_result req id ?_⟩
    cases modern with
    | true => rfl
    | false => rfl
  split
  · rename_i hmethod
    refine ⟨[],hquiet,hother _ hmethod (by decide),answers_result req id ?_⟩
    cases modern with
    | true => rfl
    | false => rfl
  split
  · rename_i hmethod
    refine wp_seq (P := fun _ j' => ∃ contacts, j' = ⟨j.acts ++ contacts,j.broken⟩ ∧
      AsksOnceIf (req.method = "tools/call" ∧ CallsTool req.params) contacts) ?_ ?_
    · unfold dispatchTool
      cases hroute : routeOf (((req.params.get "name").bind Json.asStr).getD [])
          ((req.params.get "arguments").getD (.obj [])) with
      | error fault =>
        refine ⟨[],hquiet,.silent fun h => ?_⟩
        obtain ⟨route,hok⟩ := callsTool_iff.mp h.2
        rw [hroute] at hok
        cases hok
      | ok route =>
        refine ⟨trivial,fun r j' hr => ?_⟩
        rw [hr]
        exact ⟨_,congrArg _ (Bool.or_false _),
          .asked ⟨hmethod,callsTool_iff.mpr ⟨route,hroute⟩⟩ _ _⟩
    · rintro d j' ⟨contacts,rfl,hasks⟩
      cases d with
      | result text isError =>
        refine ⟨contacts,rfl,hasks,answers_result req id ?_⟩
        cases modern with
        | true => rfl
        | false => rfl
      | unknownTool => exact ⟨contacts,rfl,hasks,answers_error _ _ _ _ _ _⟩
      | badArguments => exact ⟨contacts,rfl,hasks,answers_error _ _ _ _ _ _⟩
  · rename_i hmethod
    exact ⟨[],hquiet,.silent fun h => hmethod h.1,answers_error _ _ _ _ _ _⟩

/-- The era that a request leaves behind. -/
def nextEra (req : Incoming) (era : Era) : Era :=
  if req.method = "initialize" then .legacy else era

/-- The gate for a request in an era. -/
def Open (req : Incoming) (era : Era) : Prop :=
  req.method = "tools/call" ∧ CallsTool req.params ∧
    (metaVersion req.params = some modernVersion ∨
      (metaVersion req.params = none ∧ era = .legacy))

/-- An answer without a dispatch leaves the daemon alone. -/
theorem undispatched {req : Incoming} {era era' : Era} {p : Prop} {t : Text}
    (hshut : ¬Open req era) (hera : nextEra req era = era') (ht : Answers json req p t) :
    ∃ contacts t', j = ⟨j.acts ++ contacts,j.broken⟩ ∧ AsksOnceIf (Open req era) contacts ∧
      Answers json req p t' ∧ (some t,era') = (some t',nextEra req era) :=
  ⟨[],t,by rw [List.append_nil],.silent hshut,ht,by rw [hera]⟩

theorem dispatched {req : Incoming} (id : Json) {era : Era} {modern : Bool}
    (hera : nextEra req era = era)
    (hopen : req.method = "tools/call" → (metaVersion req.params = some modernVersion ∨
      (metaVersion req.params = none ∧ era = .legacy)))
    (hmodern : req.method ∈ eraMethods →
      (modern = true ↔ metaVersion req.params = some modernVersion)) :
    wp journal (do
      let out ← dispatch json req id modern
      return (some out,era)) (fun p j' => ∃ contacts t,
        j' = ⟨j.acts ++ contacts,j.broken⟩ ∧ AsksOnceIf (Open req era) contacts ∧
        Answers json req (metaVersion req.params = some modernVersion) t ∧
        p = (some t,nextEra req era)) j := by
  refine wp_seq (dispatch_gate req id modern) ?_
  rintro t j' ⟨contacts,rfl,hasks,v,rfl,hmarked⟩
  refine ⟨contacts,_,rfl,hasks.congr ?_,⟨v,rfl,fun hmethod result hresult => ?_⟩,by rw [hera]⟩
  · exact ⟨fun h => ⟨h.1,h.2,hopen h.1⟩,fun h => ⟨h.1,h.2.1⟩⟩
  · exact (hmarked hmethod result hresult).trans (hmodern hmethod)

/-- A request is answered once, and the daemon is asked if the gate is open. -/
theorem handle_gate {req : Incoming} {id : Json} (hid : req.id = some id) (era : Era) :
    wp journal (handle json req era) (fun p j' => ∃ contacts t,
      j' = ⟨j.acts ++ contacts,j.broken⟩ ∧ AsksOnceIf (Open req era) contacts ∧
      Answers json req (metaVersion req.params = some modernVersion) t ∧
      p = (some t,nextEra req era)) j := by
  unfold handle
  rw [hid]
  dsimp only
  split
  · rename_i hinit
    refine undispatched (fun h => ?_) (if_pos hinit) ⟨_,rfl,fun hera => ?_⟩
    · exact absurd (hinit.symm.trans h.1) (by decide)
    · rw [hinit] at hera
      exact absurd hera (by decide)
  rename_i hinit
  have hera : nextEra req era = era := if_neg hinit
  split
  · rename_i hserved
    refine undispatched (fun h => ?_) hera (answers_error _ _ _ _ _ _)
    rw [h.1] at hserved
    exact absurd hserved (by decide)
  split
  · rename_i v hv
    split
    · rename_i hver
      refine undispatched (fun h => ?_) hera (answers_error _ _ _ _ _ _)
      rcases h.2.2 with hmodern | ⟨hnone,-⟩
      · exact hver (Option.some.inj (hv.symm.trans hmodern))
      · rw [hv] at hnone
        cases hnone
    · rename_i hver
      have hmodern : metaVersion req.params = some modernVersion := by rw [hv,not_not.mp hver]
      exact dispatched id hera (fun _ => .inl hmodern) fun _ => ⟨fun _ => hmodern,fun _ => rfl⟩
  rename_i hnone
  have hunmarked : metaVersion req.params ≠ some modernVersion := by
    rintro h
    cases hnone.symm.trans h
  split
  · rename_i hlegacy
    exact dispatched id hera (fun _ => .inr ⟨hnone,hlegacy⟩) fun _ =>
      ⟨fun h => absurd h Bool.false_ne_true,fun h => absurd h hunmarked⟩
  rename_i hlegacy
  split
  · rename_i hdiscover
    refine dispatched id hera (fun h => ?_) fun h => ?_
    · exact absurd (hdiscover.symm.trans h) (by decide)
    · rw [hdiscover] at h
      exact absurd h (by decide)
  · refine undispatched (fun h => ?_) hera (answers_error _ _ _ _ _ _)
    rcases h.2.2 with hmodern | ⟨-,h⟩
    · exact hunmarked hmodern
    · exact hlegacy h

/-- One write or flush: it is noted, and the journal is broken if it fails. -/
def Wrote (j : Journal) (act : Act) (r : Except Message Unit) (j' : Journal) : Prop :=
  j'.acts = j.acts ++ [act] ∧ j'.broken = (j.broken || !r.isOk)

theorem writeAll_journal (t : Text) :
    wp journal (Prog.perform (Act.writeAll t)) (Wrote j (.writeAll t)) j :=
  ⟨trivial,fun r j' hr => by subst hr; exact ⟨rfl,rfl⟩⟩

theorem flush_journal : wp journal (Prog.perform Act.flush) (Wrote j .flush) j :=
  ⟨trivial,fun r j' hr => by subst hr; exact ⟨rfl,rfl⟩⟩

/-- What was done for an answer: all of it, or a part if the journal broke. -/
def Done (j : Journal) (acts : List Act) {α : Type} (r : Except Message α) (j' : Journal) : Prop :=
  match r with
  | .ok _ => j'.acts = j.acts ++ acts ∧ j'.broken = j.broken
  | .error _ => j'.broken = true ∧ ∃ part, part <+: acts ∧ j'.acts = j.acts ++ part

/-- What follows a part that was done in full is done behind it. -/
theorem Done.append {α : Type} {j₁ j' : Journal} {acts acts' : List Act} {r : Except Message α}
    (h : Done j₁ acts' r j') (hacts : j₁.acts = j.acts ++ acts) (hbroken : j₁.broken = j.broken) :
    Done j (acts ++ acts') r j' := by
  cases r with
  | ok a =>
    refine ⟨?_,h.2.trans hbroken⟩
    rw [h.1,hacts,List.append_assoc]
  | error e =>
    obtain ⟨hbroke,part,hpart,hacts'⟩ := h
    refine ⟨hbroke,acts ++ part,(List.prefix_append_right_inj acts).mpr hpart,?_⟩
    rw [hacts',hacts,List.append_assoc]

theorem writeLine_journal (t : Text) :
    wp journal (writeLine t).run (Done j (written (some t))) j := by
  refine wp_run_seq (writeAll_journal t) (fun _ j₁ h₁ => ?_) fun e j₁ h₁ => ?_
  · refine wp_run_seq (writeAll_journal ['\n']) (fun _ j₂ h₂ => ?_) fun e j₂ h₂ => ?_
    · refine wp_mono flush_journal fun r j₃ h₃ => ?_
      have hacts : j₃.acts = j.acts ++ written (some t) := by
        rw [h₃.1,h₂.1,h₁.1]
        simp [written]
      cases r with
      | ok _ => exact ⟨hacts,by rw [h₃.2,h₂.2,h₁.2]; simp [Except.isOk,Except.toBool]⟩
      | error e => exact ⟨h₃.2.trans (Bool.or_true _),_,List.prefix_refl _,hacts⟩
    · refine ⟨h₂.2.trans (Bool.or_true _),[.writeAll t,.writeAll ['\n']],⟨[.flush],rfl⟩,?_⟩
      rw [h₂.1,h₁.1,List.append_assoc]
      rfl
  · exact ⟨h₁.2.trans (Bool.or_true _),[.writeAll t],⟨[.writeAll ['\n'],.flush],rfl⟩,h₁.1⟩

/-- What is read from a line. -/
theorem parseLine_eq_ok {line : Text} {req : Incoming} : parseLine json line = .ok req ↔
    ∃ v, json.fromStr line = .ok v ∧ (v.get "method").bind Json.asStr = some req.method ∧
      req.id = (v.get "id").filter (!·.isNull) ∧ req.params = (v.get "params").getD .null := by
  unfold parseLine
  constructor
  · intro h
    split at h
    · cases h
    rename_i v hv
    split at h
    · cases h
    rename_i method hmethod
    cases h
    exact ⟨v,hv,hmethod,rfl,rfl⟩
  · rintro ⟨v,hv,hmethod,hid,hparams⟩
    rw [hv]
    simp only [hmethod,← hid,← hparams]

/-- A request is a line that is read with an id. -/
theorem isRequest_iff {line method : Text} {params : Json} (hblank : line.trim.isEmpty = false) :
    IsRequest json line method params ↔ ∃ req id, parseLine json line = .ok req ∧
      req.id = some id ∧ method = req.method ∧ params = req.params := by
  unfold IsRequest
  rw [and_iff_right hblank]
  constructor
  · rintro ⟨v,id,hv,hmethod,hid,hnull,rfl⟩
    refine ⟨⟨_,method,_⟩,id,parseLine_eq_ok.mpr ⟨v,hv,hmethod,rfl,rfl⟩,?_,rfl,rfl⟩
    exact Option.filter_eq_some_iff.mpr ⟨hid,by simp [hnull]⟩
  · rintro ⟨req,id,hreq,hid,rfl,rfl⟩
    obtain ⟨v,hv,hmethod,hfilter,hparams⟩ := parseLine_eq_ok.mp hreq
    obtain ⟨hget,hnull⟩ := Option.filter_eq_some_iff.mp (hfilter.symm.trans hid)
    exact ⟨v,id,hv,hmethod,hget,by simpa using hnull,hparams⟩

theorem silent_iff {line : Text} (hblank : line.trim.isEmpty = false) :
    Silent json line ↔ ∃ req, parseLine json line = .ok req ∧ req.id = none := by
  unfold Silent
  rw [hblank,or_iff_right Bool.false_ne_true]
  constructor
  · rintro ⟨v,method,hv,hmethod,hid⟩
    refine ⟨⟨_,method,_⟩,parseLine_eq_ok.mpr ⟨v,hv,hmethod,rfl,rfl⟩,?_⟩
    refine Option.filter_eq_none_iff.mpr fun id h => ?_
    simp [hid id h]
  · rintro ⟨req,hreq,hid⟩
    obtain ⟨v,hv,hmethod,hfilter,-⟩ := parseLine_eq_ok.mp hreq
    refine ⟨v,req.method,hv,hmethod,fun id h => ?_⟩
    simpa using Option.filter_eq_none_iff.mp (hfilter.symm.trans hid) id h

theorem initialized_snoc {earlier : List Text} {line : Text} :
    Initialized json (earlier ++ [line]) ↔
      Initialized json earlier ∨ ∃ params, IsRequest json line "initialize" params := by
  simp only [Initialized,List.mem_append,List.mem_singleton]
  constructor
  · rintro ⟨l,hl | rfl,hreq⟩
    · exact .inl ⟨l,hl,hreq⟩
    · exact .inr hreq
  · rintro (⟨l,hl,hreq⟩ | hreq)
    · exact ⟨l,.inl hl,hreq⟩
    · exact ⟨line,.inr rfl,hreq⟩

section Line
variable {earlier : List Text} {line : Text}

section NoRequest
variable (hno : ∀ method params, ¬IsRequest json line method params)
include hno

theorem handled_noRequest {answer : Option Text} (hsilent : answer = none ↔ Silent json line) :
    Handled json earlier line (written answer) :=
  ⟨[],answer,rfl,.silent fun ⟨_,hreq,_⟩ => hno _ _ hreq,hsilent,
    fun _ _ hreq => absurd hreq (hno _ _)⟩

theorem initialized_noRequest : Initialized json (earlier ++ [line]) ↔ Initialized json earlier := by
  rw [initialized_snoc]
  exact or_iff_left fun ⟨_,h⟩ => hno _ _ h

end NoRequest

section Request
variable {req : Incoming} {id : Json} (hblank : line.trim.isEmpty = false)
  (hreq : parseLine json line = .ok req) (hid : req.id = some id)
include hblank hreq hid

theorem isRequest_of_parse {method : Text} {params : Json} :
    IsRequest json line method params ↔ method = req.method ∧ params = req.params := by
  rw [isRequest_iff hblank]
  constructor
  · rintro ⟨req',id',hreq',-,h⟩
    cases hreq.symm.trans hreq'
    exact h
  · exact fun h => ⟨req,id,hreq,hid,h⟩

theorem gate_iff_open {era : Era} (hera : era = .legacy ↔ Initialized json earlier) :
    Gate json earlier line ↔ Open req era := by
  unfold Gate Open
  rw [hera]
  constructor
  · rintro ⟨params,hcall,h⟩
    obtain ⟨hmethod,rfl⟩ := (isRequest_of_parse hblank hreq hid).mp hcall
    exact ⟨hmethod.symm,h⟩
  · rintro ⟨hmethod,h⟩
    exact ⟨_,(isRequest_of_parse hblank hreq hid).mpr ⟨hmethod.symm,rfl⟩,h⟩

theorem nextEra_iff {era : Era} (hera : era = .legacy ↔ Initialized json earlier) :
    nextEra req era = .legacy ↔ Initialized json (earlier ++ [line]) := by
  rw [initialized_snoc,nextEra]
  simp only [isRequest_of_parse hblank hreq hid,exists_and_left,exists_eq,and_true]
  split
  · rename_i hinit
    exact iff_of_true rfl (.inr hinit.symm)
  · rename_i hinit
    rw [hera,or_iff_left fun h => hinit h.symm]

theorem handled_request {era : Era} (hera : era = .legacy ↔ Initialized json earlier)
    {contacts : List Act} {t : Text} (hasks : AsksOnceIf (Open req era) contacts)
    (hanswers : Answers json req (metaVersion req.params = some modernVersion) t) :
    Handled json earlier line (contacts ++ written (some t)) := by
  refine ⟨contacts,some t,rfl,hasks.congr (gate_iff_open hblank hreq hid hera).symm,?_,?_⟩
  · rw [silent_iff hblank]
    refine iff_of_false (Option.some_ne_none t) ?_
    rintro ⟨req',hreq',hnone⟩
    cases hreq.symm.trans hreq'
    cases hid.symm.trans hnone
  · intro method params hline hmethod
    obtain ⟨rfl,rfl⟩ := (isRequest_of_parse hblank hreq hid).mp hline
    obtain ⟨v,rfl,hmarked⟩ := hanswers
    exact ⟨v,rfl,hmarked hmethod⟩

end Request

/-- What holds after a line: it was handled, all of it if nothing failed, and the era tells
whether an `initialize` request has come. -/
def LineDone (json : SerdeJson) (earlier : List Text) (line : Text) (j : Journal)
    (r : Except Message Era) (j' : Journal) : Prop :=
  ∃ acts, Handled json earlier line acts ∧ Done j acts r j' ∧
    ∀ era, r = .ok era → (era = .legacy ↔ Initialized json (earlier ++ [line]))

/-- The answer is written behind what was asked of the daemon. -/
theorem answer_lineDone {era : Era} {contacts : List Act} {t : Text}
    (hhandled : Handled json earlier line (contacts ++ written (some t)))
    (hera : era = .legacy ↔ Initialized json (earlier ++ [line])) :
    wp journal (do
      writeLine t
      return era : Serve Era).run (LineDone json earlier line j)
      ⟨j.acts ++ contacts,j.broken⟩ := by
  refine wp_run_seq (writeLine_journal t) (fun _ j' h => ?_) fun e j' h => ?_
  · have hdone : Done ⟨j.acts ++ contacts,j.broken⟩ (written (some t)) (.ok era) j' := h
    refine ⟨_,hhandled,hdone.append rfl rfl,fun era' he => ?_⟩
    cases he
    exact hera
  · have hdone : Done ⟨j.acts ++ contacts,j.broken⟩ (written (some t))
        (.error e : Except Message Era) j' := h
    refine ⟨_,hhandled,hdone.append rfl rfl,fun era' he => ?_⟩
    cases he

/-- Nothing is written for a line that asks for nothing. -/
theorem silent_lineDone {era : Era} (hno : ∀ method params, ¬IsRequest json line method params)
    (hsilent : Silent json line) (hera : era = .legacy ↔ Initialized json earlier) :
    LineDone json earlier line j (.ok era) j := by
  have hquiet : Handled json earlier line (written none) :=
    handled_noRequest hno (iff_of_true rfl hsilent)
  refine ⟨_,hquiet,⟨(List.append_nil _).symm,rfl⟩,fun era' he => ?_⟩
  cases he
  exact hera.trans (initialized_noRequest hno).symm

/-- One line, in an era that tells whether an `initialize` request came before it. -/
theorem serveLine_gate {era : Era} (hera : era = .legacy ↔ Initialized json earlier) :
    wp journal (serveLine json era line).run (LineDone json earlier line j) j := by
  unfold serveLine
  cases hblank : line.trim.isEmpty with
  | true =>
    rw [if_pos rfl]
    refine silent_lineDone (fun _ _ h => ?_) (.inl hblank) hera
    exact Bool.false_ne_true (h.1.symm.trans hblank)
  | false =>
    rw [if_neg Bool.false_ne_true]
    cases hparse : parseLine json line with
    | error fault =>
      have hno : ∀ method params, ¬IsRequest json line method params := by
        intro method params h
        obtain ⟨req,id,hreq,-⟩ := (isRequest_iff hblank).mp h
        cases hparse.symm.trans hreq
      have hanswered : (some (errorLine json none (-32700) fault none) = none ↔
          Silent json line) := by
        rw [silent_iff hblank]
        refine iff_of_false (Option.some_ne_none _) ?_
        rintro ⟨req,hreq,-⟩
        cases hparse.symm.trans hreq
      have hnext : era = .legacy ↔ Initialized json (earlier ++ [line]) :=
        hera.trans (initialized_noRequest hno).symm
      have hhandled : Handled json earlier line ([] ++ written _) :=
        handled_noRequest hno hanswered
      have h := answer_lineDone (j := j) hhandled hnext
      rwa [List.append_nil] at h
    | ok req =>
      cases hid : req.id with
      | none =>
        have hsilent : Silent json line := (silent_iff hblank).mpr ⟨req,hparse,hid⟩
        have hno : ∀ method params, ¬IsRequest json line method params := by
          intro method params h
          obtain ⟨req',id,hreq,hid',-⟩ := (isRequest_iff hblank).mp h
          cases hparse.symm.trans hreq
          cases hid.symm.trans hid'
        dsimp only
        rw [handle,hid]
        exact silent_lineDone hno hsilent hera
      | some id =>
        refine wp_run_seq (P := fun r j' => ∃ contacts t, j' = ⟨j.acts ++ contacts,j.broken⟩ ∧
          AsksOnceIf (Open req era) contacts ∧
          Answers json req (metaVersion req.params = some modernVersion) t ∧
          r = .ok (some t,nextEra req era))
          ((wp_bind _ _ _ _).mpr (wp_mono (handle_gate hid era) ?_)) ?_ ?_
        · rintro p j' ⟨contacts,t,hj,hasks,hanswers,rfl⟩
          exact ⟨contacts,t,hj,hasks,hanswers,rfl⟩
        · rintro p j' ⟨contacts,t,rfl,hasks,hanswers,hp⟩
          cases hp
          exact answer_lineDone (handled_request hblank hparse hid hera hasks hanswers)
            (nextEra_iff hblank hparse hid hera)
        · rintro e j' ⟨contacts,t,-,-,-,hp⟩
          cases hp

end Line

theorem journal_answers (j : Journal) (act : Act) : ∃ r j', journal.post j act r j' := by
  cases act with
  | request method path => exact ⟨.unreachable,_,rfl⟩
  | writeAll t => exact ⟨.ok (),_,rfl⟩
  | flush => exact ⟨.ok (),_,rfl⟩

/-- Every line can be handled, whatever came before it. -/
theorem exists_handled (json : SerdeJson) (earlier : List Text) (line : Text) :
    ∃ acts, Handled json earlier line acts := by
  have hera : ∃ era : Era, era = .legacy ↔ Initialized json earlier := by
    by_cases h : Initialized json earlier
    · exact ⟨.legacy,iff_of_true rfl h⟩
    · exact ⟨.undetermined,iff_of_false (by decide) h⟩
  obtain ⟨era,hera⟩ := hera
  obtain ⟨r,j',acts,hacts,-⟩ :=
    exists_of_wp journal_answers (@serveLine_gate json {} earlier line era hera)
  exact ⟨acts,hacts⟩

theorem exists_session (json : SerdeJson) (earlier texts : List Text) :
    ∃ logs, Session json earlier texts logs := by
  induction texts generalizing earlier with
  | nil => exact ⟨[],.nil⟩
  | cons line rest ih =>
    obtain ⟨acts,hacts⟩ := exists_handled json earlier line
    obtain ⟨logs,hlogs⟩ := ih (earlier ++ [line])
    exact ⟨acts::logs,.cons hacts hlogs⟩

/-- The lines are handled one after the other, until a write fails. -/
theorem serveLines_gate {input : List Bytes} {texts earlier : List Text} {era : Era}
    (htexts : input.map utf8 = texts.map some) (hera : era = .legacy ↔ Initialized json earlier) :
    wp journal (serveLines json era input).run (fun r j' =>
      ∃ logs, Session json earlier texts logs ∧ Done j logs.flatten r j') j := by
  induction input generalizing texts earlier era j with
  | nil =>
    obtain rfl : texts = [] := by simpa using htexts.symm
    exact ⟨[],.nil,(List.append_nil _).symm,rfl⟩
  | cons bytes input ih =>
    cases texts with
    | nil => cases htexts
    | cons line texts =>
      obtain ⟨hline,hrest⟩ := List.cons.inj htexts
      rw [serveLines,hline]
      refine wp_run_seq (serveLine_gate hera) (fun era' j' h => ?_) fun e j' h => ?_
      · obtain ⟨acts,hhandled,⟨hacts,hbroken⟩,hera'⟩ := h
        refine wp_mono (ih hrest (hera' era' rfl)) fun r j'' hr => ?_
        obtain ⟨logs,hlogs,hdone⟩ := hr
        exact ⟨_,.cons hhandled hlogs,hdone.append hacts hbroken⟩
      · obtain ⟨acts,hhandled,⟨hbroken,part,hpart,hacts⟩,-⟩ := h
        obtain ⟨logs,hlogs⟩ := exists_session json (earlier ++ [line]) texts
        refine ⟨_,.cons hhandled hlogs,hbroken,part,?_,hacts⟩
        exact hpart.trans (List.prefix_append _ _)

/-- What a session has done is a beginning of what the era gate allows for its lines, and all
of it unless a write failed. -/
theorem era_gate (json : SerdeJson) (input : Bytes) (texts : List Text)
    (htexts : (lines input).map utf8 = texts.map some) :
    wp journal (serve json input).run (fun r j => ∃ logs, Session json [] texts logs ∧
      j.acts <+: logs.flatten ∧ (j.broken = false → r = .ok () ∧ j.acts = logs.flatten)) {} := by
  have hnone : Era.undetermined = .legacy ↔ Initialized json [] :=
    iff_of_false (by decide) fun ⟨_,hmem,_⟩ => by cases hmem
  refine wp_mono (serveLines_gate htexts hnone) fun r j h => ?_
  obtain ⟨logs,hlogs,hdone⟩ := h
  refine ⟨logs,hlogs,?_⟩
  cases r with
  | ok u =>
    rw [hdone.1]
    exact ⟨List.prefix_refl _,fun _ => ⟨rfl,rfl⟩⟩
  | error e =>
    obtain ⟨hbroken,part,hpart,hacts⟩ := hdone
    rw [hacts]
    exact ⟨hpart,fun h => absurd (h.symm.trans hbroken) Bool.false_ne_true⟩

end Lines

section Sample

def initializeLine : Text :=
  "\x7b\"id\":1,\"jsonrpc\":\"2.0\",\"method\":\"initialize\",\"params\":\x7b\x7d\x7d"

def listAppsLine : Text := ("\x7b\"id\":2,\"jsonrpc\":\"2.0\",\"method\":\"tools/call\"," ++
  "\"params\":\x7b\"name\":\"list_apps\"\x7d\x7d" : String)

/-- The same call, with a version of its own. -/
def modernLine : Text := ("\x7b\"id\":0,\"jsonrpc\":\"2.0\",\"method\":\"tools/call\"," ++
  "\"params\":\x7b\"_meta\":\x7b\"io.modelcontextprotocol/protocolVersion\":\"2026-07-28\"\x7d," ++
  "\"name\":\"list_apps\"\x7d\x7d" : String)

def listApps : Json := .obj [("name",.str "list_apps")]

def modernListApps : Json := .obj [
  ("_meta",.obj [("io.modelcontextprotocol/protocolVersion",.str modernVersion)]),
  ("name",.str "list_apps")]

def requestOf (id : ℕ) (method : Text) (params : Json) : Json :=
  .obj [("id",.num { whole := id }),("jsonrpc",.str "2.0"),("method",.str method),("params",params)]

/-- A reader that knows the three requests. -/
def eraJson : SerdeJson where
  fromStr t :=
    if t = modernLine then .ok (requestOf 0 "tools/call" modernListApps)
    else if t = initializeLine then .ok (requestOf 1 "initialize" (.obj []))
    else if t = listAppsLine then .ok (requestOf 2 "tools/call" listApps)
    else .error "expected value at line 1 column 1"
  toString := Json.compact
  writes := Json.writes_compact

def eraLines : List Text := [modernLine,initializeLine,listAppsLine]

def eraInput : Bytes := Utf8.bytes (eraLines.flatMap (· ++ ['\n']))

theorem reads_modern : eraJson.fromStr modernLine =
    .ok (requestOf 0 "tools/call" modernListApps) := by
  simp only [eraJson,if_pos]

theorem reads_initialize : eraJson.fromStr initializeLine =
    .ok (requestOf 1 "initialize" (.obj [])) := by
  have hne : initializeLine ≠ modernLine := by decide +kernel
  simp only [eraJson,if_neg hne,if_pos]

theorem reads_listApps : eraJson.fromStr listAppsLine =
    .ok (requestOf 2 "tools/call" listApps) := by
  have hmodern : listAppsLine ≠ modernLine := by decide +kernel
  have hinit : listAppsLine ≠ initializeLine := by decide +kernel
  simp only [eraJson,if_neg hmodern,if_neg hinit,if_pos]

/-- A line that is read as a request is that request. -/
theorem isRequest_of_reads {line method method' : Text} {params params' : Json} {id : ℕ}
    (hblank : line.trim.isEmpty = false)
    (hread : eraJson.fromStr line = .ok (requestOf id method params)) :
    IsRequest eraJson line method' params' ↔ method' = method ∧ params' = params := by
  have hparse : parseLine eraJson line = .ok ⟨some (.num { whole := id }),method,params⟩ :=
    parseLine_eq_ok.mpr ⟨_,hread,rfl,rfl,rfl⟩
  exact isRequest_of_parse hblank hparse rfl

theorem modern_request {method : Text} {params : Json} :
    IsRequest eraJson modernLine method params ↔ method = "tools/call" ∧ params = modernListApps :=
  isRequest_of_reads (by decide +kernel) reads_modern

theorem listApps_request {method : Text} {params : Json} :
    IsRequest eraJson listAppsLine method params ↔ method = "tools/call" ∧ params = listApps :=
  isRequest_of_reads (by decide +kernel) reads_listApps

/-- What is done for a call when the gate is open. -/
theorem Handled.call {earlier : List Text} {line : Text} {acts : List Act} {params : Json}
    {json : SerdeJson} (h : Handled json earlier line acts) (hgate : Gate json earlier line)
    (hreq : IsRequest json line "tools/call" params) : ∃ asked v,
      acts = asked::written (some (json.toString v)) ∧
      Marked (metaVersion params = some modernVersion) v := by
  obtain ⟨contacts,answer,rfl,hasks,-,hresult⟩ := h
  obtain ⟨asked,rfl⟩ := List.length_eq_one_iff.mp (hasks.once hgate)
  obtain ⟨v,rfl,hmarked⟩ := hresult _ _ hreq (by decide)
  exact ⟨asked,v,rfl,hmarked⟩

theorem Session.three {json : SerdeJson} {l l' l'' : Text} {logs : List (List Act)}
    (h : Session json [] [l,l',l''] logs) : ∃ first second third, logs = [first,second,third] ∧
      Handled json [] l first ∧ Handled json [l,l'] l'' third := by
  obtain _ | ⟨hfirst,h⟩ := h
  obtain _ | ⟨-,h⟩ := h
  obtain _ | ⟨hlast,h⟩ := h
  cases h
  exact ⟨_,_,_,rfl,hfirst,hlast⟩

/-- A modern call is let through at once, one without a version only after `initialize`. Of their
results the first one has a `resultType`, and the second one has none. -/
theorem eras_mixed : ¬Gate eraJson [modernLine] listAppsLine ∧
    wp journal (serve eraJson eraInput).run (fun r j => j.broken = false → r = .ok () ∧
      ∃ asked v initialized asked' v', j.acts = (asked::written (some (eraJson.toString v))) ++
        initialized ++ asked'::written (some (eraJson.toString v')) ∧
        (∀ result, v.get "result" = some result → (result.get "resultType").isSome = true) ∧
        ∀ result, v'.get "result" = some result → (result.get "resultType").isSome = false) {} := by
  have hlines : lines eraInput = eraLines.map Utf8.bytes := by decide +kernel
  have hinit : IsRequest eraJson initializeLine "initialize" (.obj []) :=
    (isRequest_of_reads (by decide +kernel) reads_initialize).mpr ⟨rfl,rfl⟩
  have hmodern : Gate eraJson [] modernLine :=
    ⟨_,modern_request.mpr ⟨rfl,rfl⟩,⟨_,rfl,.listApps⟩,.inl (by decide)⟩
  have hlegacy : Gate eraJson [modernLine,initializeLine] listAppsLine :=
    ⟨_,listApps_request.mpr ⟨rfl,rfl⟩,⟨_,rfl,.listApps⟩,
      .inr ⟨rfl,_,List.mem_cons_of_mem _ List.mem_cons_self,_,hinit⟩⟩
  have htexts : (lines eraInput).map utf8 = eraLines.map some := by
    rw [hlines,List.map_map]
    exact List.map_congr_left fun line _ => Utf8.decode_bytes line
  generalize eraInput = input at htexts ⊢
  refine ⟨?_,wp_mono (era_gate eraJson input eraLines htexts) fun r j h hbroken => ?_⟩
  · intro hgate
    obtain ⟨params,hline,-,hversion⟩ := hgate
    rw [(listApps_request.mp hline).2] at hversion
    rcases hversion with hversion | ⟨-,l,hl,params',hrequest⟩
    · exact absurd hversion (by decide)
    · rw [List.mem_singleton.mp hl] at hrequest
      exact absurd (modern_request.mp hrequest).1 (by decide)
  · obtain ⟨logs,hlogs,-,hall⟩ := h
    obtain ⟨hr,hacts⟩ := hall hbroken
    obtain ⟨first,initialized,last,rfl,hfirst,hlast⟩ := hlogs.three
    obtain ⟨asked,v,rfl,hv⟩ := hfirst.call hmodern (modern_request.mpr ⟨rfl,rfl⟩)
    obtain ⟨asked',v',rfl,hv'⟩ := hlast.call hlegacy (listApps_request.mpr ⟨rfl,rfl⟩)
    refine ⟨hr,asked,v,initialized,asked',v',by rw [hacts]; simp,fun result hresult => ?_,
      fun result hresult => ?_⟩
    · exact (hv result hresult).mpr (by decide)
    · exact Bool.eq_false_iff.mpr fun h => absurd ((hv' result hresult).mp h) (by decide)

end Sample

end Kuadrat.Mcp
