import Kuadrat.Codec.Url
import Kuadrat.Mcp.Gate

/-!
# App names in request paths

Three tools put the name of an app into the path of their request. The client that sends the
request removes the dot segments of the path; the daemon cuts it at the slashes and decodes
what stands at the place of the name.
-/
namespace Kuadrat.Mcp

open Effect Utf8 Url

/-- The tools that take the name of an app. -/
inductive NameTool
  | getApp
  | deploy
  | tailLogs
  deriving DecidableEq

namespace NameTool

def name : NameTool → Text
  | getApp => "get_app"
  | deploy => "deploy"
  | tailLogs => "tail_logs"

def method : NameTool → Method
  | getApp => .get
  | deploy => .post
  | tailLogs => .get

/-- What follows the name in the route of the tool. -/
def rest : NameTool → List Text
  | getApp => []
  | deploy => ["deploy"]
  | tailLogs => ["logs"]

/-- The query of the tool: how many lines, 100 when the caller does not say. -/
def query (args : Json) : NameTool → Option Text
  | tailLogs => some ("n=" ++ Text.decimal (((args.get "n").bind Json.asU64).getD 100) : Text)
  | _ => none

end NameTool

/-- The segments of the route of a tool, around the one for the name. -/
def NameTool.route (t : NameTool) (segment : Text) : List Text :=
  ("api" : Text)::("apps" : Text)::segment::t.rest

/-- The request arrives at the route of the tool, with its query, for the app of that name. -/
def Arrives (t : NameTool) (args : Json) (name : Text) (method : Method) (target : Text) : Prop :=
  method = t.method ∧ queryOf target = t.query args ∧
    ∃ segment, segments (removeDotSegments (pathOf target)) = [] :: t.route segment ∧
      decode (percentDecode segment) = some name

section Encoding

/-- What one byte is encoded as. -/
def encodeByte (b : UInt8) : Text :=
  if isUnreserved b.toNat then [Char.ofNat b.toNat]
  else ['%',hexUpper (b.toNat/16),hexUpper (b.toNat%16)]

theorem pathSegment_eq (s : Text) : pathSegment s = (bytes s).flatMap encodeByte := rfl

theorem isUnreserved_lt {n : ℕ} (h : isUnreserved n = true) : 45 ≤ n ∧ n < 128 := by
  simp only [isUnreserved,Bool.or_eq_true,Bool.and_eq_true,decide_eq_true_eq,beq_iff_eq] at h
  omega

theorem toNat_ofNat_lt {n : ℕ} (h : n < 128) : (Char.ofNat n).toNat = n := by
  have hvalid : n.isValidChar := .inl (by omega)
  delta Char.ofNat
  rw [dif_pos hvalid]
  rfl

theorem isDigit_hexUpper : ∀ {n : ℕ}, n < 16 → Hex.IsDigit n (hexUpper n) := by
  decide

/-- An encoded byte is read back, whatever follows it. -/
theorem percentDecode_encodeByte (b : UInt8) (rest : Text) :
    percentDecode (encodeByte b ++ rest) = b::percentDecode rest := by
  unfold encodeByte
  split
  · rename_i hun
    obtain ⟨hlow,hhigh⟩ := isUnreserved_lt hun
    have hchar := toNat_ofNat_lt hhigh
    have hne : Char.ofNat b.toNat ≠ '%' := by
      intro heq
      rw [heq] at hchar
      change 37 = b.toNat at hchar
      omega
    rw [List.singleton_append,percentDecode_plain hne,utf8EncodeChar_ascii (by omega),hchar,
      UInt8.ofNat_toNat]
    rfl
  · have hb := b.toNat_lt
    rw [List.cons_append,List.cons_append,List.singleton_append,
      percentDecode_escape (isDigit_hexUpper (by omega)) (isDigit_hexUpper (by omega)),
      Nat.div_add_mod,UInt8.ofNat_toNat]

theorem percentDecode_pathSegment (s : Text) : percentDecode (pathSegment s) = bytes s := by
  rw [pathSegment_eq]
  induction bytes s with
  | nil => rfl
  | cons b bs ih => rw [List.flatMap_cons,percentDecode_encodeByte,ih]

theorem isUnreserved_hexUpper : ∀ {n : ℕ}, n < 16 → isUnreserved (hexUpper n).toNat = true := by
  decide

/-- An encoded segment is made of unreserved characters and the escape sign. -/
theorem pathSegment_chars {s : Text} {c : Char} (h : c ∈ pathSegment s) :
    c = '%' ∨ isUnreserved c.toNat = true := by
  rw [pathSegment_eq] at h
  obtain ⟨b,-,hc⟩ := List.mem_flatMap.mp h
  have hb := b.toNat_lt
  unfold encodeByte at hc
  split at hc
  · rename_i hun
    obtain rfl := List.mem_singleton.mp hc
    rw [toNat_ofNat_lt (isUnreserved_lt hun).2]
    exact .inr hun
  · simp only [List.mem_cons,List.not_mem_nil,or_false] at hc
    rcases hc with rfl | rfl | rfl
    · exact .inl rfl
    · exact .inr (isUnreserved_hexUpper (by omega))
    · exact .inr (isUnreserved_hexUpper (by omega))

/-- A separator does not occur in an encoded segment. -/
theorem not_mem_pathSegment {c : Char} (hc : c ≠ '%' ∧ isUnreserved c.toNat = false) (s : Text) :
    c ∉ pathSegment s := by
  intro h
  rcases pathSegment_chars h with h | h
  · exact hc.1 h
  · exact Bool.false_ne_true (hc.2.symm.trans h)

theorem pathSegment_inPath {s : Text} {c : Char} (h : c ∈ pathSegment s) : endsPath c = false := by
  rw [endsPath,Bool.or_eq_false_iff,beq_eq_false_iff_ne,beq_eq_false_iff_ne]
  constructor
  · rintro rfl
    exact not_mem_pathSegment (by decide) s h
  · rintro rfl
    exact not_mem_pathSegment (by decide) s h

theorem pathSegment_injective {s t : Text} (h : pathSegment s = pathSegment t) : s = t := by
  have hdecode := congrArg percentDecode h
  rw [percentDecode_pathSegment,percentDecode_pathSegment] at hdecode
  exact bytes_injective hdecode

end Encoding

section Route
variable {t : NameTool} {args : Json} {name : Text} {method : Method} {target : Text}

/-- What stands behind the path of the tool's request. -/
def NameTool.queryText (t : NameTool) (args : Json) : Text :=
  match t.query args with
  | none => []
  | some query => '?' :: query

theorem routeOf_of_dispatchTool {tool : Text} {k : DaemonAnswer → Prog Act Act.Resp Dispatched}
    (h : dispatchTool tool args = .op (.request method target) k) :
    routeOf tool args = .ok (method,target) := by
  unfold dispatchTool at h
  split at h
  · cases h
  · rename_i hroute
    cases h
    exact hroute

theorem routeOf_tailLogs (hname : strArg args "name" = .ok name) {route : Method × Text}
    (h : routeOf "tail_logs" args = .ok route) : ∃ lines : ℕ,
      ((args.get "n").bind Json.asU64).getD 100 = lines ∧
      route = (.get,"/api/apps/" ++ pathSegment name ++ "/logs?n=" ++ Text.decimal lines) := by
  rw [routeOf,if_neg (by decide),if_neg (by decide),if_neg (by decide),if_neg (by decide),
    if_pos rfl,hname] at h
  cases hn : args.get "n" with
  | none =>
    rw [hn] at h
    exact ⟨100,rfl,(Except.ok.inj h).symm⟩
  | some v =>
    rw [hn] at h
    cases hv : v.asU64 with
    | none =>
      simp only [hv] at h
      cases h
    | some lines =>
      simp only [hv] at h
      exact ⟨lines,congrArg (Option.getD · 100) hv,(Except.ok.inj h).symm⟩

/-- The request of a tool that takes a name: the path of its route, then its query. -/
theorem routeOf_name (hname : strArg args "name" = .ok name)
    (hroute : routeOf t.name args = .ok (method,target)) :
    method = t.method ∧ target = pathText (t.route (pathSegment name)) ++ t.queryText args := by
  cases t with
  | getApp =>
    change ((strArg args "name").mapError _).map _ = _ at hroute
    rw [hname] at hroute
    cases hroute
    refine ⟨rfl,?_⟩
    simp only [NameTool.route,NameTool.rest,NameTool.queryText,NameTool.query,pathText_cons,
      pathText_nil,List.append_nil]
    rfl
  | deploy =>
    change ((strArg args "name").mapError _).map _ = _ at hroute
    rw [hname] at hroute
    cases hroute
    refine ⟨rfl,?_⟩
    simp only [NameTool.route,NameTool.rest,NameTool.queryText,NameTool.query,pathText_cons,
      pathText_nil,List.append_nil]
    rw [List.append_assoc]
    rfl
  | tailLogs =>
    obtain ⟨lines,hlines,heq⟩ := routeOf_tailLogs hname hroute
    obtain ⟨rfl,rfl⟩ := Prod.mk.inj heq
    refine ⟨rfl,?_⟩
    simp only [NameTool.route,NameTool.rest,NameTool.queryText,NameTool.query,pathText_cons,
      pathText_nil,List.append_nil,hlines,List.append_assoc,List.cons_append]
    generalize Text.decimal lines = n
    rfl

/-- The segments of the routes that are not names. -/
def fixedSegments : List Text := ["api","apps","deploy","logs"]

theorem forall_route {P : Text → Prop} {segment : Text} (hfixed : ∀ s ∈ fixedSegments, P s)
    (h : P segment) : ∀ s ∈ t.route segment, P s := by
  obtain ⟨hapi,happs,hdeploy,hlogs⟩ : P "api" ∧ P "apps" ∧ P "deploy" ∧ P "logs" :=
    ⟨hfixed _ (by decide),hfixed _ (by decide),hfixed _ (by decide),hfixed _ (by decide)⟩
  refine List.forall_mem_cons.mpr ⟨hapi,List.forall_mem_cons.mpr ⟨happs,
    List.forall_mem_cons.mpr ⟨h,?_⟩⟩⟩
  cases t with
  | getApp => exact fun _ hs => nomatch hs
  | deploy => exact List.forall_mem_singleton.mpr hdeploy
  | tailLogs => exact List.forall_mem_singleton.mpr hlogs

theorem plain_route {segment : Text} (h : Plain segment) : ∀ s ∈ t.route segment, Plain s := by
  refine forall_route (fun s hs => ?_) h
  have hfixed : (fixedSegments.all fun s => !s.contains '/' && s != ['.'] && s != ['.','.']) = true :=
    by decide
  have hs' := List.all_eq_true.mp hfixed s hs
  simp only [Bool.and_eq_true,Bool.not_eq_true',bne_iff_ne] at hs'
  exact ⟨by simpa using hs'.1.1,hs'.1.2,hs'.2⟩

theorem inPath_route {segment : Text} (h : ∀ c ∈ segment, endsPath c = false) :
    ∀ c ∈ pathText (t.route segment), endsPath c = false := by
  refine inPath_pathText (forall_route (fun s hs c hc => ?_) h)
  have hfixed : (fixedSegments.all fun s => s.all fun c => !endsPath c) = true := by decide
  simpa using List.all_eq_true.mp (List.all_eq_true.mp hfixed s hs) c hc

/-- The path and the query come apart again. -/
theorem target_parts (t : NameTool) (args : Json) (name : Text) :
    pathOf (pathText (t.route (pathSegment name)) ++ t.queryText args) =
      pathText (t.route (pathSegment name)) ∧
    queryOf (pathText (t.route (pathSegment name)) ++ t.queryText args) = t.query args := by
  have hpath := inPath_route (t := t) fun _ => pathSegment_inPath (s := name)
  unfold NameTool.queryText
  cases hq : t.query args with
  | none =>
    dsimp only
    rw [List.append_nil]
    exact ⟨pathOf_plain hpath,queryOf_plain hpath⟩
  | some query =>
    refine ⟨pathOf_query hpath query,queryOf_query hpath ?_⟩
    cases t with
    | getApp => cases hq
    | deploy => cases hq
    | tailLogs =>
      cases hq
      intro hmem
      rcases List.mem_append.mp hmem with h | h
      · exact absurd h (by decide)
      · exact absurd (JsonNumber.isDigit_of_mem_digits h) (by decide)

theorem arrives_of_plain (hplain : Plain (pathSegment name)) :
    Arrives t args name t.method (pathText (t.route (pathSegment name)) ++ t.queryText args) := by
  obtain ⟨hpath,hquery⟩ := target_parts t args name
  refine ⟨rfl,hquery,pathSegment name,?_,?_⟩
  · rw [hpath,removeDotSegments_plain (plain_route hplain),
      segments_pathText fun s hs => (plain_route hplain s hs).no_slash]
  · rw [percentDecode_pathSegment,decode_bytes]

/-- What is left of the route behind a name that was removed. -/
def NameTool.stray (t : NameTool) : List Text := if t.rest = [] then [[]] else t.rest

/-- The name `.` is removed from the path. -/
theorem dot_strays (t : NameTool) :
    segments (removeDotSegments (pathText (t.route (pathSegment ".")))) =
      [] :: ("api" : Text)::("apps" : Text)::t.stray := by
  cases t with
  | getApp => decide +kernel
  | deploy => decide +kernel
  | tailLogs => decide +kernel

/-- The name `..` takes the segment before it along. -/
theorem dots_stray (t : NameTool) :
    segments (removeDotSegments (pathText (t.route (pathSegment "..")))) =
      [] :: ("api" : Text)::t.stray := by
  cases t with
  | getApp => decide +kernel
  | deploy => decide +kernel
  | tailLogs => decide +kernel

theorem not_arrives_dots (hdots : name = "." ∨ name = "..") :
    ¬Arrives t args name method (pathText (t.route (pathSegment name)) ++ t.queryText args) := by
  rintro ⟨-,-,segment,hsegments,hdecode⟩
  rw [(target_parts t args name).1] at hsegments
  rcases hdots with rfl | rfl
  · rw [dot_strays] at hsegments
    cases t with
    | getApp =>
      -- the segment is there, but it is empty
      cases hsegments
      cases hdecode
    | deploy => cases hsegments
    | tailLogs => cases hsegments
  · rw [dots_stray] at hsegments
    cases t with
    | getApp => cases hsegments
    | deploy => cases hsegments
    | tailLogs => cases hsegments

end Route

/-- The name stays in its segment exactly when it is no dot segment. -/
theorem arrives_iff_no_dots (t : NameTool) (args : Json) (name : Text) (method : Method)
    (target : Text) (k : DaemonAnswer → Prog Act Act.Resp Dispatched)
    (hname : strArg args "name" = .ok name)
    (hcall : dispatchTool t.name args = .op (.request method target) k) :
    Arrives t args name method target ↔ name ≠ "." ∧ name ≠ ".." := by
  obtain ⟨rfl,rfl⟩ := routeOf_name hname (routeOf_of_dispatchTool hcall)
  constructor
  · intro h
    refine ⟨?_,?_⟩
    · rintro rfl
      exact not_arrives_dots (.inl rfl) h
    · rintro rfl
      exact not_arrives_dots (.inr rfl) h
  · intro h
    refine arrives_of_plain ⟨not_mem_pathSegment (by decide) name,fun hdot => ?_,fun hdots => ?_⟩
    · exact h.1 (pathSegment_injective hdot)
    · exact h.2 (pathSegment_injective hdots)

theorem slash_name_arrives : ∃ k, dispatchTool "get_app" (.obj [("name",.str "a/b")]) =
    .op (.request .get "/api/apps/a%2Fb") k ∧
    Arrives .getApp (.obj [("name",.str "a/b")]) "a/b" .get "/api/apps/a%2Fb" :=
  ⟨fun answer => .ret answer.dispatched,rfl,
    (arrives_iff_no_dots .getApp _ "a/b" _ _ (fun answer => .ret answer.dispatched) rfl rfl).mpr
      (by decide)⟩

/-- The logs of an app with the name `.` are asked for at the place of an app `logs`. -/
theorem dot_name_strays : ∃ k, dispatchTool "tail_logs" (.obj [("name",.str ".")]) =
    .op (.request .get "/api/apps/./logs?n=100") k ∧
    segments (removeDotSegments (pathOf "/api/apps/./logs?n=100")) =
      [] :: NameTool.getApp.route "logs" ∧
    ¬Arrives .tailLogs (.obj [("name",.str ".")]) "." .get "/api/apps/./logs?n=100" := by
  have htarget : ("/api/apps/" ++ pathSegment "." ++ "/logs?n=" ++ Text.decimal 100 : Text) =
    "/api/apps/./logs?n=100" := by decide +kernel
  have hsegments : segments (removeDotSegments (pathOf "/api/apps/./logs?n=100")) =
    [] :: NameTool.getApp.route "logs" := by decide +kernel
  refine ⟨fun answer => .ret answer.dispatched,?_,hsegments,?_⟩
  · rw [← htarget]
    rfl
  · rintro ⟨-,-,segment,h,-⟩
    rw [hsegments] at h
    cases h

end Kuadrat.Mcp
