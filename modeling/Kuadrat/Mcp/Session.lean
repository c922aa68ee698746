import Kuadrat.Mcp.Serve

/-!
# One answer for each request

The client reads what is written, and the daemon answers what it likes. A session goes on
to the end of its input exactly when every line can be read as text.
-/
namespace Kuadrat.Mcp

open Effect

/-- The state is what has been written; every write is carried out. -/
def client : Spec Act Act.Resp Text where
  pre _ _ := True
  post out e r out' := match e, r with
    | .request .., _ => out' = out
    | .writeAll t, r => r = .ok () ∧ out' = out ++ t
    | .flush, r => r = .ok () ∧ out' = out

/-- What a client is owed for one line. -/
inductive Owed
  | nothing
  | answer (id : Json)
  | parseError

/-- A request is a JSON object with a string method; without an id it is a notification. -/
def owedFor (json : SerdeJson) (line : Bytes) : Owed :=
  match utf8 line with
  | none => .parseError
  | some text =>
    if text.trim.isEmpty then .nothing
    else match json.fromStr text with
      | .error _ => .parseError
      | .ok v =>
        match (v.get "method").bind Json.asStr with
        | none => .parseError
        | some _ =>
          match (v.get "id").filter fun id => !id.isNull with
          | none => .nothing
          | some id => .answer id

/-- The lines written for one line meet what is owed: none, or one JSON text with the id. -/
def Owed.Met : Owed → List Text → Prop
  | nothing, out => out = []
  | answer id, out => ∃ t v, out = [t] ∧ Json.Writes v t ∧ v.get "jsonrpc" = some (.str "2.0") ∧
    v.get "id" = some id
  | parseError, out => ∃ t v, out = [t] ∧ Json.Writes v t ∧ v.get "jsonrpc" = some (.str "2.0") ∧
    v.get "id" = some .null ∧ (v.get "error").bind (Json.get "code") =
      some (.num { negative := true, whole := 32700 })

/-- The output is, in the order of the input lines, what is owed for each, one text a line. -/
def Paired (json : SerdeJson) (input : List Bytes) (out : Text) : Prop :=
  ∃ answers : List (List Text), List.Forall₂ (fun line => (owedFor json line).Met) input answers ∧
    out = answers.flatten.flatMap (· ++ ['\n']) ∧ ∀ t ∈ answers.flatten, '\n' ∉ t

section Rules
variable {out : Text}

theorem client_answers (out : Text) (e : Act) : ∃ r out', client.post out e r out' := by
  cases e with
  | request method path => exact ⟨.unreachable,out,rfl⟩
  | writeAll t => exact ⟨.ok (),out ++ t,rfl,rfl⟩
  | flush => exact ⟨.ok (),out,rfl,rfl⟩

theorem writeLine_sure (t : Text) :
    wpSure client (writeLine t) (fun _ out' => out' = out ++ (t ++ ['\n'])) out := by
  refine wpSure_seq (P := fun _ out' => out' = out ++ t)
    ⟨trivial,fun r out' hr => ⟨(),hr.1,hr.2⟩⟩ fun _ out₁ h₁ => ?_
  refine wpSure_seq (P := fun _ out' => out' = out ++ (t ++ ['\n']))
    ⟨trivial,fun r out' hr => ⟨(),hr.1,?_⟩⟩ fun _ out₂ h₂ => ?_
  · rw [hr.2,h₁,List.append_assoc]
  · exact ⟨trivial,fun r out' hr => ⟨(),hr.1,hr.2.trans h₂⟩⟩

end Rules

section Answers
variable (json : SerdeJson) {out : Text}

/-- The text of a JSON-RPC message that carries `id`. -/
def Carries (id : Json) (t : Text) : Prop :=
  ∃ v, t = json.toString v ∧ v.get "jsonrpc" = some (.str "2.0") ∧ v.get "id" = some id

variable {json}

theorem carries_response (id result : Json) : Carries json id (responseLine json id result) :=
  ⟨_,rfl,rfl,rfl⟩

theorem carries_error (id : Json) (code : ℤ) (message : Text) (data : Option Json) :
    Carries json id (errorLine json (some id) code message data) :=
  ⟨_,rfl,rfl,rfl⟩

theorem dispatch_carries (req : Incoming) (id : Json) (modern : Bool) :
    wp client (dispatch json req id modern) (fun t out' => Carries json id t ∧ out' = out) out := by
  unfold dispatch
  split
  · exact ⟨carries_response _ _,rfl⟩
  split
  · exact ⟨carries_response _ _,rfl⟩
  split
  · exact ⟨carries_response _ _,rfl⟩
  split
  · refine wp_seq (P := fun _ out' => out' = out) ?_ fun d out₁ h₁ => ?_
    · unfold dispatchTool
      split
      · rfl
      · exact ⟨trivial,fun r out' hr => hr⟩
    · cases d with
      | result => exact ⟨carries_response _ _,h₁⟩
      | unknownTool => exact ⟨carries_error _ _ _ _,h₁⟩
      | badArguments => exact ⟨carries_error _ _ _ _,h₁⟩
  · exact ⟨carries_error _ _ _ _,rfl⟩

/-- A notification gets nothing, and every other request one text with its id. -/
theorem handle_carries (req : Incoming) (era : Era) :
    wp client (handle json req era) (fun p out' => out' = out ∧ match req.id with
      | none => p.1 = none
      | some id => ∃ t, p.1 = some t ∧ Carries json id t) out := by
  unfold handle
  cases req.id with
  | none => exact ⟨rfl,rfl⟩
  | some id =>
    have hdispatch : ∀ modern, wp client (do
        let t ← dispatch json req id modern
        return (some t,era)) (fun p out' => out' = out ∧
          ∃ t, p.1 = some t ∧ Carries json id t) out := fun modern =>
      wp_seq (dispatch_carries req id modern) fun t out₁ h₁ => ⟨h₁.2,t,rfl,h₁.1⟩
    dsimp only
    split
    · exact ⟨rfl,_,rfl,carries_response _ _⟩
    split
    · exact ⟨rfl,_,rfl,carries_error _ _ _ _⟩
    split
    · split
      · exact ⟨rfl,_,rfl,carries_error _ _ _ _⟩
      · exact hdispatch true
    split
    · exact hdispatch false
    split
    · exact hdispatch true
    · exact ⟨rfl,_,rfl,carries_error _ _ _ _⟩

theorem met_of_carries {id : Json} {t : Text} (h : Carries json id t) :
    (Owed.answer id).Met [t] := by
  obtain ⟨v,rfl,hversion,hid⟩ := h
  exact ⟨_,v,rfl,json.writes v,hversion,hid⟩

/-- A line of text gets what is owed for it. -/
theorem serveLine_met {line : Bytes} {text : Text} (htext : utf8 line = some text) (era : Era) :
    wpSure client (serveLine json era text) (fun _ out' => ∃ answers : List Text,
      (owedFor json line).Met answers ∧ out' = out ++ answers.flatMap (· ++ ['\n'])) out := by
  unfold serveLine owedFor
  rw [htext]
  dsimp only
  by_cases hblank : text.trim.isEmpty = true
  · rw [if_pos hblank,if_pos hblank]
    exact wpSure_pure ⟨[],rfl,(List.append_nil _).symm⟩
  rw [if_neg hblank,if_neg hblank]
  -- What is written when the line is answered with `t`, and when it is not answered.
  have hsome : ∀ (owed : Owed) (t : Text) (era' : Era), owed.Met [t] →
      wpSure client (do
        writeLine t
        return era') (fun _ out' => ∃ answers : List Text, owed.Met answers ∧
          out' = out ++ answers.flatMap (· ++ ['\n'])) out := by
    intro owed t era' ht
    refine wpSure_seq (writeLine_sure t) fun _ out₁ h₁ => wpSure_pure ⟨[t],ht,?_⟩
    rw [h₁,List.flatMap_singleton]
  unfold parseLine
  cases hjson : json.fromStr text with
  | error e => exact hsome .parseError _ era ⟨_,_,rfl,json.writes _,rfl,rfl,rfl⟩
  | ok v =>
    dsimp only
    cases hmethod : (v.get "method").bind Json.asStr with
    | none => exact hsome .parseError _ era ⟨_,_,rfl,json.writes _,rfl,rfl,rfl⟩
    | some method =>
      dsimp only
      have hhandle := @handle_carries json out
        ⟨(v.get "id").filter fun id => !id.isNull,method,(v.get "params").getD .null⟩ era
      dsimp only at hhandle
      cases hid : (v.get "id").filter fun id => !id.isNull with
      | none =>
        rw [hid] at hhandle
        refine wpSure_seq (P := fun p out' => out' = out ∧ p.1 = none)
          ((wp_bind _ _ _ _).mpr (wp_mono hhandle fun p out' h => ⟨p,rfl,h⟩)) fun p out₁ h₁ => ?_
        obtain ⟨rfl,hp⟩ := h₁
        rw [hp]
        exact wpSure_pure ⟨[],rfl,(List.append_nil _).symm⟩
      | some id =>
        rw [hid] at hhandle
        refine wpSure_seq (P := fun p out' => out' = out ∧ ∃ t, p.1 = some t ∧ Carries json id t)
          ((wp_bind _ _ _ _).mpr (wp_mono hhandle fun p out' h => ⟨p,rfl,h⟩)) fun p out₁ h₁ => ?_
        obtain ⟨rfl,t,hp,ht⟩ := h₁
        rw [hp]
        exact hsome (.answer id) t p.2 (met_of_carries ht)

/-- Every text that is written is one line. -/
theorem met_oneLine {owed : Owed} {answers : List Text} (h : owed.Met answers) :
    ∀ t ∈ answers, '\n' ∉ t := by
  intro t ht
  cases owed with
  | nothing =>
    rw [show answers = [] from h] at ht
    cases ht
  | answer id =>
    obtain ⟨t',v,rfl,hw,-⟩ := h
    rw [List.mem_singleton.mp ht]
    exact hw.oneLine
  | parseError =>
    obtain ⟨t',v,rfl,hw,-⟩ := h
    rw [List.mem_singleton.mp ht]
    exact hw.oneLine

/-- Lines of text are answered one after the other, to the end. -/
theorem serveLines_paired {input : List Bytes} (hutf8 : ∀ line ∈ input, (utf8 line).isSome)
    (era : Era) : wpSure client (serveLines json era input) (fun _ out' => ∃ answers : List (List Text),
      List.Forall₂ (fun line => (owedFor json line).Met) input answers ∧
      out' = out ++ answers.flatten.flatMap (· ++ ['\n']) ∧ ∀ t ∈ answers.flatten, '\n' ∉ t) out := by
  induction input generalizing era out with
  | nil => exact wpSure_pure ⟨[],.nil,(List.append_nil _).symm,by simp⟩
  | cons line rest ih =>
    obtain ⟨text,htext⟩ := Option.isSome_iff_exists.mp (hutf8 line List.mem_cons_self)
    rw [serveLines,htext]
    refine wpSure_seq (serveLine_met htext era) fun era' out₁ h₁ => ?_
    obtain ⟨answers,hmet,rfl⟩ := h₁
    refine wpSure_mono (ih (fun l hl => hutf8 l (List.mem_cons_of_mem _ hl)) era') fun _ out₂ h₂ => ?_
    obtain ⟨more,hmore,rfl,hlines⟩ := h₂
    refine ⟨answers::more,.cons hmet hmore,?_,fun t ht => ?_⟩
    · rw [List.flatten_cons,List.flatMap_append,List.append_assoc]
    · rcases List.mem_append.mp ht with ht | ht
      · exact met_oneLine hmet t ht
      · exact hlines t ht

/-- A line that is no text ends the session with an error, whatever comes after it. -/
theorem serveLines_ends {input : List Bytes} (hline : ∃ line ∈ input, utf8 line = none) (era : Era) :
    wp client (serveLines json era input).run (fun r _ => ∃ why, r = .error why) out := by
  induction input generalizing era out with
  | nil =>
    obtain ⟨line,hmem,-⟩ := hline
    cases hmem
  | cons line rest ih =>
    rw [serveLines]
    cases htext : utf8 line with
    | none => exact ⟨_,rfl⟩
    | some text =>
      have hrest : ∃ line ∈ rest, utf8 line = none := by
        obtain ⟨line',hmem,hnone⟩ := hline
        rcases List.mem_cons.mp hmem with rfl | hmem
        · rw [htext] at hnone
          cases hnone
        · exact ⟨line',hmem,hnone⟩
      exact wp_run_seq (@serveLine_met json _ _ _ htext era) (fun era' _ _ => ih hrest era')
        fun e _ h => ⟨e,rfl⟩

end Answers

/-- The session answers every line and returns without an error exactly when every line is
valid UTF-8. -/
theorem paired_iff_utf8 (json : SerdeJson) (input : Bytes) :
    wp client (serve json input).run (fun r out => r = .ok () ∧ Paired json (lines input) out) [] ↔
      ∀ line ∈ lines input, (utf8 line).isSome := by
  constructor
  · intro h
    by_contra hline
    push Not at hline
    obtain ⟨line,hmem,hnone⟩ := hline
    have hends := @serveLines_ends json [] _
      ⟨line,hmem,Option.not_isSome_iff_eq_none.mp hnone⟩ .undetermined
    obtain ⟨r,out,hok,why,herr⟩ := exists_of_wp client_answers (wp_and h hends)
    rw [hok.1] at herr
    cases herr
  · intro hutf8
    refine wp_mono (@serveLines_paired json [] _ hutf8 .undetermined)
      fun r out hr => ?_
    obtain ⟨_,rfl,answers,hmet,hout,hlines⟩ := hr
    exact ⟨rfl,answers,hmet,hout,hlines⟩

def pingLine : Text := "\x7b\"jsonrpc\":\"2.0\",\"id\":1,\"method\":\"ping\"\x7d"

/-- A reader that knows one request. -/
def pingJson : SerdeJson where
  fromStr t :=
    if t = pingLine then
      .ok (.obj [("id",.num { whole := 1 }),("jsonrpc",.str "2.0"),("method",.str "ping")])
    else .error "expected value at line 1 column 1"
  toString := Json.compact
  writes := Json.writes_compact

/-- A line of one byte that is no text, and a request after it. -/
def strayInput : Bytes := [255,10] ++ pingLine.flatMap String.utf8EncodeChar ++ [10]

/-- The request after a stray byte is owed an answer, and the session ends without one. -/
theorem stray_byte_ends_session :
    lines strayInput = [[255],pingLine.flatMap String.utf8EncodeChar] ∧
    owedFor pingJson (pingLine.flatMap String.utf8EncodeChar) = .answer (.num { whole := 1 }) ∧
    wp client (serve pingJson strayInput).run (fun r out => (∃ why, r = .error why) ∧ out = []) [] ∧
    ¬wp client (serve pingJson strayInput).run
      (fun r out => r = .ok () ∧ Paired pingJson (lines strayInput) out) [] := by
  have hlines : lines strayInput = [[255],pingLine.flatMap String.utf8EncodeChar] := by
    decide +kernel
  have hstray : utf8 [255] = none := by decide +kernel
  have hping : utf8 (pingLine.flatMap String.utf8EncodeChar) = some pingLine := by decide +kernel
  have hends : wp client (serve pingJson strayInput).run
      (fun r out => (∃ why, r = .error why) ∧ out = []) [] := by
    rw [serve,hlines,serveLines,hstray]
    exact ⟨⟨_,rfl⟩,rfl⟩
  refine ⟨hlines,?_,hends,fun h => ?_⟩
  · rw [owedFor,hping]
    rfl
  · obtain ⟨r,out,hok,⟨why,herr⟩,-⟩ := exists_of_wp client_answers (wp_and h hends)
    rw [hok.1] at herr
    cases herr

end Kuadrat.Mcp
