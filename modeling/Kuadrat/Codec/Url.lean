import Mathlib.Data.List.TakeWhile
import Kuadrat.Codec.Hex

/-!
# The path and the query of a URL

What a client makes of a request target: the path without its dot segments, cut at the
slashes, and the bytes that a percent-encoded segment stands for.
-/
namespace Kuadrat.Url

/-- The bytes of a percent-encoded text; a `%` without two digits behind it stands for itself. -/
def percentDecode : List Char → List UInt8
  | '%' :: hi :: lo :: rest =>
    match Hex.value hi, Hex.value lo with
    | some a, some b => UInt8.ofNat (16*a+b) :: percentDecode rest
    | _, _ => String.utf8EncodeChar '%' ++ percentDecode (hi::lo::rest)
  | c :: rest => String.utf8EncodeChar c ++ percentDecode rest
  | [] => []

/-- The character ends the path: a query or a fragment follows. -/
def endsPath (c : Char) : Bool := c == '?' || c == '#'

/-- The path of a request target. -/
def pathOf (target : List Char) : List Char := target.takeWhile fun c => !endsPath c

/-- The query of a request target, when it has one. -/
def queryOf (target : List Char) : Option (List Char) :=
  match target.dropWhile fun c => !endsPath c with
  | '?' :: query => some (query.takeWhile (· != '#'))
  | _ => none

def segments (path : List Char) : List (List Char) := path.splitOn '/'

/-- A path of the segments, each behind a slash. -/
def pathText (segments : List (List Char)) : List Char := segments.flatMap ('/' :: ·)

/-- The first segment of a path with the slash before it, and what follows it. -/
def firstSegment : List Char → List Char × List Char
  | [] => ([],[])
  | c::rest => (c::rest.takeWhile (· != '/'),rest.dropWhile (· != '/'))

/-- The output without its last segment and the slash before it. -/
def dropSegment (out : List Char) : List Char := ((out.reverse.dropWhile (· != '/')).drop 1).reverse

/-- The loop of RFC 3986, section 5.2.4, with its input and its output; each turn shortens the
input, so that its length is fuel enough. -/
def removeDots : ℕ → List Char → List Char → List Char
  | 0, _, out => out
  | fuel+1, input, out =>
    let (segment,rest) := firstSegment input
    -- steps 2A and 2D: a dot segment at the start of a relative path
    if segment = ['.'] ∨ segment = ['.','.'] then removeDots fuel (rest.drop 1) out
    -- step 2B
    else if segment = ['/','.'] then removeDots fuel (if rest = [] then ['/'] else rest) out
    -- step 2C
    else if segment = ['/','.','.'] then
      removeDots fuel (if rest = [] then ['/'] else rest) (dropSegment out)
    -- step 2E
    else removeDots fuel rest (out ++ segment)

def removeDotSegments (path : List Char) : List Char := removeDots path.length path []

theorem percentDecode_plain {c : Char} (h : c ≠ '%') (rest : List Char) :
    percentDecode (c::rest) = String.utf8EncodeChar c ++ percentDecode rest := by
  rw [percentDecode]
  exact fun _ _ _ hc => absurd hc h

theorem percentDecode_escape {a b : ℕ} {hi lo : Char} (ha : Hex.IsDigit a hi)
    (hb : Hex.IsDigit b lo) (rest : List Char) :
    percentDecode ('%' :: hi::lo::rest) = UInt8.ofNat (16*a+b) :: percentDecode rest := by
  rw [percentDecode,Hex.value_eq_some.mpr ha,Hex.value_eq_some.mpr hb]

section Target
variable {path : List Char} (h : ∀ c ∈ path, endsPath c = false)
include h

theorem pathOf_plain : pathOf path = path :=
  List.takeWhile_eq_self_iff.mpr fun c hc => by rw [h c hc]; rfl

theorem queryOf_plain : queryOf path = none := by
  rw [queryOf,List.dropWhile_eq_nil_iff.mpr fun c hc => by rw [h c hc]; rfl]

theorem pathOf_query (query : List Char) : pathOf (path ++ '?' :: query) = path := by
  rw [pathOf,List.takeWhile_append_of_pos fun c hc => by rw [h c hc]; rfl,
    List.takeWhile_cons_of_neg (by decide),List.append_nil]

theorem queryOf_query {query : List Char} (hq : '#' ∉ query) :
    queryOf (path ++ '?' :: query) = some query := by
  rw [queryOf,List.dropWhile_append_of_pos fun c hc => by rw [h c hc]; rfl,
    List.dropWhile_cons_of_neg (by decide)]
  refine congrArg some (List.takeWhile_eq_self_iff.mpr fun c hc => ?_)
  simpa using fun heq : c = '#' => hq (heq ▸ hc)

end Target

@[simp] theorem pathText_nil : pathText [] = [] := rfl

@[simp] theorem pathText_cons (s : List Char) (ss : List (List Char)) :
    pathText (s::ss) = '/' :: (s ++ pathText ss) := rfl

theorem splitOn_append_pathText {s : List Char} {ss : List (List Char)} (hs : '/' ∉ s)
    (h : ∀ s ∈ ss, '/' ∉ s) : (s ++ pathText ss).splitOn '/' = s::ss := by
  induction ss generalizing s with
  | nil => rw [pathText_nil,List.append_nil,List.splitOn_eq_singleton hs]
  | cons s' ss ih =>
    obtain ⟨hs',hss⟩ := List.forall_mem_cons.mp h
    rw [pathText_cons,List.splitOn_append_cons_self_of_not_mem hs,ih hs' hss]

/-- A path falls into its segments, behind the nothing before its first slash. -/
theorem segments_pathText {ss : List (List Char)} (h : ∀ s ∈ ss, '/' ∉ s) :
    segments (pathText ss) = [] :: ss := by
  cases ss with
  | nil => rfl
  | cons s ss => exact splitOn_append_pathText (s := []) List.not_mem_nil h

theorem inPath_pathText {ss : List (List Char)} (h : ∀ s ∈ ss, ∀ c ∈ s, endsPath c = false) :
    ∀ c ∈ pathText ss, endsPath c = false := by
  intro c hc
  obtain ⟨s,hs,hc⟩ := List.mem_flatMap.mp hc
  rcases List.mem_cons.mp hc with rfl | hc
  · rfl
  · exact h s hs c hc

theorem takeWhile_pathText (ss : List (List Char)) : (pathText ss).takeWhile (· != '/') = [] := by
  cases ss with
  | nil => rfl
  | cons s ss => exact List.takeWhile_cons_of_neg (by decide)

theorem dropWhile_pathText (ss : List (List Char)) :
    (pathText ss).dropWhile (· != '/') = pathText ss := by
  cases ss with
  | nil => rfl
  | cons s ss => exact List.dropWhile_cons_of_neg (by decide)

theorem firstSegment_pathText {s : List Char} (h : '/' ∉ s) (ss : List (List Char)) :
    firstSegment (pathText (s::ss)) = ('/' :: s,pathText ss) := by
  have hs : ∀ c ∈ s, (c != '/') = true := fun c hc => by simpa using fun heq : c = '/' => h (heq ▸ hc)
  rw [pathText_cons,firstSegment,List.takeWhile_append_of_pos hs,List.dropWhile_append_of_pos hs,
    takeWhile_pathText,dropWhile_pathText,List.append_nil]

/-- A segment that the removal of dot segments leaves alone. -/
structure Plain (s : List Char) : Prop where
  no_slash : '/' ∉ s
  not_dot : s ≠ ['.']
  not_dots : s ≠ ['.','.']

theorem removeDots_plain {ss : List (List Char)} (h : ∀ s ∈ ss, Plain s) {fuel : ℕ}
    (hfuel : ss.length ≤ fuel) (out : List Char) :
    removeDots fuel (pathText ss) out = out ++ pathText ss := by
  induction ss generalizing fuel out with
  | nil =>
    rw [pathText_nil,List.append_nil]
    induction fuel with
    | zero => rfl
    | succ fuel ih => simpa [removeDots,firstSegment] using ih (Nat.zero_le _)
  | cons s ss ih =>
    obtain ⟨hs,hss⟩ := List.forall_mem_cons.mp h
    cases fuel with
    | zero => simp at hfuel
    | succ fuel =>
      rw [removeDots,firstSegment_pathText hs.no_slash]
      have hdot := hs.not_dot
      have hdots := hs.not_dots
      simp only [List.cons.injEq,show ('/' = '.') = False from eq_false (by decide),false_and,
        or_self,if_false,true_and]
      rw [if_neg hdot,if_neg hdots,ih hss (Nat.le_of_succ_le_succ hfuel),pathText_cons,
        List.append_assoc,List.cons_append]

theorem length_le_pathText (ss : List (List Char)) : ss.length ≤ (pathText ss).length := by
  induction ss with
  | nil => rfl
  | cons s ss ih =>
    rw [pathText_cons,List.length_cons,List.length_cons,List.length_append]
    omega

/-- A path of plain segments has nothing to remove. -/
theorem removeDotSegments_plain {ss : List (List Char)} (h : ∀ s ∈ ss, Plain s) :
    removeDotSegments (pathText ss) = pathText ss :=
  removeDots_plain h (length_le_pathText ss) []

end Kuadrat.Url
