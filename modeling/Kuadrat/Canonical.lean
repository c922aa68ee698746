import Kuadrat.Slug

/-!
# The canonical form of a name

A slug is the words of its name with single dashes between them. The words depend only on
what each character of the name stands for.
-/
namespace Kuadrat

def isSlugSeparator (c : Char) : Bool := c == ' ' || c == '-' || c == '_'

/-- What a character of a name stands for in its slug; most stand for nothing. -/
def slugKey (c : Char) : Option Char :=
  if c.isAlphanum then some c.toLower else if isSlugSeparator c then some '-' else none

/-- The pieces of a name between its separators. -/
def slugPieces (name : Text) : List Text := (name.filterMap slugKey).splitOn '-'

abbrev wordsOf (pieces : List Text) : List Text := pieces.filter fun w => !w.isEmpty

def slugWords (name : Text) : List Text := wordsOf (slugPieces name)

/-- A dash before each word. -/
def dashed (words : List Text) : Text := words.flatMap ('-' :: ·)

theorem join_cons (w : Text) (words : List Text) :
    Text.join "-" (w::words) = w ++ dashed words := by
  induction words generalizing w with
  | nil => simp [Text.join,dashed]
  | cons v words ih =>
    have hstep : Text.join "-" (w::v::words) = w ++ '-' :: Text.join "-" (v::words) := by
      simp [Text.join,List.intercalate_cons_cons]
    rw [hstep,ih]
    simp [dashed]

def stripDashes (t : Text) : Text := (t.reverse.dropWhile (· == '-')).reverse

theorem stripDashes_snoc {o : Text} {c : Char} (h : c ≠ '-') : stripDashes (o ++ [c]) = o ++ [c] := by
  simp [stripDashes,h]

theorem stripDashes_dash (o : Text) : stripDashes (o ++ ['-']) = stripDashes o := by
  simp [stripDashes]

theorem not_isAlphanum_of_isSlugSeparator {c : Char} (h : isSlugSeparator c = true) :
    c.isAlphanum = false := by
  simp only [isSlugSeparator,Bool.or_eq_true,beq_iff_eq] at h
  rcases h with (rfl | rfl) | rfl
  · rfl
  · rfl
  · rfl

theorem toLower_ne_dash {c : Char} (h : c.isAlphanum = true) : c.toLower ≠ '-' := by
  intro heq
  have hlow := alphanum_toLower h
  rw [heq] at hlow
  exact absurd hlow (by decide)

section Step
variable {out : Text} {dash : Bool} {c : Char}

theorem slugStep_alphanum (h : c.isAlphanum = true) :
    slugStep (out,dash) c = (out ++ [c.toLower],false) := if_pos h

theorem slugStep_other (h : c.isAlphanum = false) (hsep : isSlugSeparator c = false) :
    slugStep (out,dash) c = (out,dash) := by
  unfold isSlugSeparator at hsep
  rw [slugStep,if_neg (by simp [h]),hsep]
  simp

theorem slugStep_separator (h : c.isAlphanum = false) (hsep : isSlugSeparator c = true) :
    slugStep (out,dash) c =
      if !dash && !out.isEmpty then (out ++ ['-'],true) else (out,dash) := by
  unfold isSlugSeparator at hsep
  rw [slugStep,if_neg (by simp [h]),hsep,Bool.true_and]

theorem slugKey_alphanum (h : c.isAlphanum = true) : slugKey c = some c.toLower := if_pos h

theorem slugKey_separator (h : c.isAlphanum = false) (hsep : isSlugSeparator c = true) :
    slugKey c = some '-' := by
  rw [slugKey,if_neg (by simp [h]),if_pos hsep]

theorem slugKey_other (h : c.isAlphanum = false) (hsep : isSlugSeparator c = false) :
    slugKey c = none := by
  rw [slugKey,if_neg (by simp [h]),if_neg (by simp [hsep])]

end Step

section Pieces
variable {c : Char} {t p : Text} {ps : List Text}

theorem slugPieces_alphanum (h : c.isAlphanum = true) (hp : slugPieces t = p::ps) :
    slugPieces (c::t) = (c.toLower::p)::ps := by
  have hne : (c.toLower == '-') = false := beq_eq_false_iff_ne.mpr (toLower_ne_dash h)
  rw [slugPieces,List.filterMap_cons_some (slugKey_alphanum h),List.splitOn_cons_eq_if_modifyHead,
    hne,if_neg (by simp)]
  rw [slugPieces] at hp
  rw [hp]
  rfl

theorem slugPieces_separator (h : c.isAlphanum = false) (hsep : isSlugSeparator c = true)
    (hp : slugPieces t = p::ps) : slugPieces (c::t) = []::p::ps := by
  rw [slugPieces,List.filterMap_cons_some (slugKey_separator h hsep),
    List.splitOn_cons_eq_if_modifyHead,if_pos (by simp)]
  rw [slugPieces] at hp
  rw [hp]

theorem slugPieces_other (h : c.isAlphanum = false) (hsep : isSlugSeparator c = false) :
    slugPieces (c::t) = slugPieces t := by
  rw [slugPieces,List.filterMap_cons_none (slugKey_other h hsep)]
  rfl

end Pieces

/-- The loop, from a text that ends in a word and from one that ends in a dash: the first
piece goes on with the open word, and each later word has a dash before it. -/
theorem stripDashes_foldl (t : Text) : ∃ p ps, slugPieces t = p::ps ∧
    (∀ o c, c ≠ '-' → stripDashes (t.foldl slugStep (o ++ [c],false)).1 =
      o ++ [c] ++ p ++ dashed (wordsOf ps)) ∧
    ∀ o c, c ≠ '-' → stripDashes (t.foldl slugStep (o ++ [c] ++ ['-'],true)).1 =
      o ++ [c] ++ dashed (wordsOf (p::ps)) := by
  induction t with
  | nil =>
    refine ⟨[],[],rfl,fun o c hc => ?_,fun o c hc => ?_⟩
    · simp [stripDashes_snoc hc,dashed]
    · rw [List.foldl_nil,stripDashes_dash,stripDashes_snoc hc]
      simp [dashed]
  | cons x t ih =>
    obtain ⟨p,ps,hp,hword,hdash⟩ := ih
    cases hx : x.isAlphanum with
    | true =>
      have hne := toLower_ne_dash hx
      refine ⟨_,_,slugPieces_alphanum hx hp,fun o c hc => ?_,fun o c hc => ?_⟩
      · rw [List.foldl_cons,slugStep_alphanum hx,hword _ _ hne]
        simp
      · rw [List.foldl_cons,slugStep_alphanum hx,hword _ _ hne]
        simp [dashed]
    | false =>
      cases hsep : isSlugSeparator x with
      | true =>
        refine ⟨_,_,slugPieces_separator hx hsep hp,fun o c hc => ?_,fun o c hc => ?_⟩
        · rw [List.foldl_cons,slugStep_separator hx hsep,if_pos (by simp),hdash _ _ hc]
          simp
        · rw [List.foldl_cons,slugStep_separator hx hsep,if_neg (by simp),hdash _ _ hc]
          simp
      | false =>
        refine ⟨p,ps,(slugPieces_other hx hsep).trans hp,fun o c hc => ?_,fun o c hc => ?_⟩
        · rw [List.foldl_cons,slugStep_other hx hsep,hword _ _ hc]
        · rw [List.foldl_cons,slugStep_other hx hsep,hdash _ _ hc]

theorem stripDashes_slugFold (t : Text) : stripDashes (slugFold t).1 = Text.join "-" (slugWords t) := by
  unfold slugWords
  induction t with
  | nil => rfl
  | cons x t ih =>
    obtain ⟨p,ps,hp,hword,-⟩ := stripDashes_foldl t
    rw [slugFold,List.foldl_cons]
    cases hx : x.isAlphanum with
    | true =>
      have h := hword [] _ (toLower_ne_dash hx)
      have hwords : wordsOf ((x.toLower::p)::ps) = (x.toLower::p)::wordsOf ps := rfl
      rw [slugStep_alphanum hx,slugPieces_alphanum hx hp,hwords,join_cons]
      exact h
    | false =>
      cases hsep : isSlugSeparator x with
      | true =>
        rw [slugStep_separator hx hsep,if_neg (by simp),ih,slugPieces_separator hx hsep hp,hp]
        simp
      | false => rw [slugStep_other hx hsep,ih,slugPieces_other hx hsep]

theorem not_isAlphanum_of_isWhitespace {c : Char} (h : isWhitespace c = true) : c.isAlphanum = false := by
  rw [Bool.eq_false_iff]
  intro hal
  rw [not_isWhitespace_of_alphanum hal] at h
  exact Bool.false_ne_true h

theorem slugWords_cons {c : Char} (h : c.isAlphanum = false) (t : Text) :
    slugWords (c::t) = slugWords t := by
  unfold slugWords
  obtain ⟨p,ps,hp,-⟩ := stripDashes_foldl t
  cases hsep : isSlugSeparator c with
  | true =>
    rw [slugPieces_separator h hsep hp,hp]
    rfl
  | false => rw [slugPieces_other h hsep]

theorem slugWords_snoc {c : Char} (h : c.isAlphanum = false) (t : Text) :
    slugWords (t ++ [c]) = slugWords t := by
  rw [slugWords,slugWords,slugPieces,slugPieces,List.filterMap_append]
  cases hsep : isSlugSeparator c with
  | true =>
    rw [List.filterMap_cons_some (slugKey_separator h hsep),List.filterMap_nil,
      List.splitOn_append_cons_self]
    simp
  | false => rw [List.filterMap_cons_none (slugKey_other h hsep),List.filterMap_nil,List.append_nil]

/-- White space at the ends adds no word. -/
theorem slugWords_dropWhile (t : Text) : slugWords (t.dropWhile isWhitespace) = slugWords t := by
  induction t with
  | nil => rfl
  | cons c t ih =>
    cases h : isWhitespace c with
    | true => rw [List.dropWhile_cons_of_pos h,ih,slugWords_cons (not_isAlphanum_of_isWhitespace h)]
    | false => rw [List.dropWhile_cons_of_neg (by simp [h])]

theorem slugWords_trimEnd (t : Text) : slugWords t.trimEnd = slugWords t := by
  induction t using List.reverseRecOn with
  | nil => rfl
  | append_singleton t c ih =>
    rw [Text.trimEnd,List.reverse_append,List.reverse_singleton,List.singleton_append]
    cases h : isWhitespace c with
    | true =>
      rw [List.dropWhile_cons_of_pos h,slugWords_snoc (not_isAlphanum_of_isWhitespace h)]
      exact ih
    | false => simp [List.dropWhile_cons_of_neg,h]

/-- The slug of a name is its words, joined by dashes. -/
theorem slug_eq_join (name : Text) : slug name = Text.join "-" (slugWords name) := by
  calc slug name = stripDashes (slugFold name.trim).1 := rfl
    _ = Text.join "-" (slugWords name.trim) := stripDashes_slugFold _
    _ = Text.join "-" (slugWords name) := by
      rw [Text.trim,slugWords_trimEnd,Text.trimStart,slugWords_dropWhile]

/-- The characters that the words of a slug are made of: `a` to `z` and `0` to `9`. -/
def isRunChar (c : Char) : Bool := c.isLower || c.isDigit

theorem not_isUpper_toLower (c : Char) : c.toLower.isUpper = false := by
  refine decide_eq_false ?_
  delta Char.toLower
  split
  · next hup =>
    simp only [ge_iff_le,UInt32.le_iff_toNat_le,UInt32.toNat_add,
      show 'A'.val.toNat = 65 from rfl,show 'Z'.val.toNat = 90 from rfl,
      show ('a'.val - 'A'.val).toNat = 32 from rfl] at hup ⊢
    omega
  · next hup => exact hup

theorem isAlphanum_eq (c : Char) : c.isAlphanum = (c.isUpper || c.isLower || c.isDigit) := rfl

theorem toLower_of_not_alphanum {c : Char} (h : c.isAlphanum = false) : c.toLower = c := by
  delta Char.toLower
  refine dif_neg fun hup => ?_
  have hupper : c.isUpper = true := decide_eq_true hup
  simp [isAlphanum_eq,hupper] at h

theorem isRunChar_toLower {c : Char} (h : c.isAlphanum = true) : isRunChar c.toLower = true := by
  have hlow := alphanum_toLower h
  have hup := not_isUpper_toLower c
  simpa [isAlphanum_eq,isRunChar,hup] using hlow

theorem slugPieces_chars (name : Text) : ∀ w ∈ slugPieces name, ∀ c ∈ w, isRunChar c = true := by
  induction name with
  | nil => simp [slugPieces]
  | cons x name ih =>
    obtain ⟨p,ps,hp,-⟩ := stripDashes_foldl name
    rw [hp] at ih
    obtain ⟨hhead,htail⟩ := List.forall_mem_cons.mp ih
    cases hx : x.isAlphanum with
    | true =>
      rw [slugPieces_alphanum hx hp]
      exact List.forall_mem_cons.mpr
        ⟨List.forall_mem_cons.mpr ⟨isRunChar_toLower hx,hhead⟩,htail⟩
    | false =>
      cases hsep : isSlugSeparator x with
      | true =>
        rw [slugPieces_separator hx hsep hp]
        exact List.forall_mem_cons.mpr ⟨by simp,ih⟩
      | false =>
        rw [slugPieces_other hx hsep,hp]
        exact ih

theorem slugWords_eq_nil (name : Text) :
    slugWords name = [] ↔ ∀ c ∈ name, c.isAlphanum = false := by
  induction name with
  | nil => simp [slugWords,slugPieces]
  | cons x name ih =>
    cases hx : x.isAlphanum with
    | true =>
      obtain ⟨p,ps,hp,-⟩ := stripDashes_foldl name
      simp [slugWords,slugPieces_alphanum hx hp,hx]
    | false => rw [slugWords_cons hx,ih,List.forall_mem_cons,and_iff_right hx]

/-- Empty, or runs of `a-z0-9` with single dashes between them: no path separator, no dot, and
no dash at an end or beside another. -/
structure IsSlug (t : Text) : Prop where
  runs : ∃ words, t = Text.join "-" words ∧ ∀ w ∈ words, w ≠ [] ∧ ∀ c ∈ w, isRunChar c = true
  no_separator : '/' ∉ t ∧ '.' ∉ t
  head_ne : t.head? ≠ some '-'
  last_ne : t.getLast? ≠ some '-'
  no_double : ¬ ['-','-'] <:+: t

section Runs
variable {words : List Text} (h : ∀ w ∈ words, w ≠ [] ∧ ∀ c ∈ w, isRunChar c = true)
include h

/-- A split at the dashes gives the words back, and none of them is empty. -/
theorem splitOn_join : words = [] ∨ (Text.join "-" words).splitOn '-' = words := by
  refine or_iff_not_imp_left.mpr fun hne => List.splitOn_intercalate '-' ?_ hne
  intro w hw hmem
  exact absurd ((h w hw).2 '-' hmem) (by decide)

theorem not_mem_splitOn_join {t : Text} (ht : t = Text.join "-" words) (hne : t ≠ []) :
    [] ∉ t.splitOn '-' := by
  subst ht
  rcases splitOn_join h with rfl | hsplit
  · exact absurd rfl hne
  · rw [hsplit]
    exact fun hmem => (h [] hmem).1 rfl

theorem join_chars : ∀ c ∈ Text.join "-" words, isRunChar c = true ∨ c = '-' := by
  induction words with
  | nil => exact fun c hc => nomatch hc
  | cons w words ih =>
    intro c hc
    rw [join_cons,List.mem_append] at hc
    rcases hc with hc | hc
    · exact .inl ((h w List.mem_cons_self).2 c hc)
    · obtain ⟨v,hv,hc⟩ := List.mem_flatMap.mp hc
      rcases List.mem_cons.mp hc with rfl | hc
      · exact .inr rfl
      · exact .inl ((h v (List.mem_cons_of_mem _ hv)).2 c hc)

theorem not_mem_join {c : Char} (hrun : isRunChar c = false) (hdash : c ≠ '-') :
    c ∉ Text.join "-" words := by
  intro hmem
  rcases join_chars h c hmem with hc | hc
  · exact Bool.false_ne_true (hrun.symm.trans hc)
  · exact hdash hc

theorem isSlug_of_runs {t : Text} (ht : t = Text.join "-" words) : IsSlug t where
  runs := ⟨words,ht,h⟩
  no_separator := by
    rw [ht]
    exact ⟨not_mem_join h (by decide) (by decide),not_mem_join h (by decide) (by decide)⟩
  head_ne := by
    intro hhead
    obtain ⟨b,rfl⟩ := List.head?_eq_some_iff.mp hhead
    refine not_mem_splitOn_join h ht (by simp) ?_
    simp [List.splitOn_cons_eq_if_modifyHead]
  last_ne := by
    intro hlast
    obtain ⟨a,rfl⟩ := List.getLast?_eq_some_iff.mp hlast
    refine not_mem_splitOn_join h ht (by simp) ?_
    rw [List.splitOn_append_cons_self]
    simp
  no_double := by
    rintro ⟨a,b,rfl⟩
    refine not_mem_splitOn_join h ht (by simp) ?_
    rw [List.append_assoc,List.cons_append,List.splitOn_append_cons_self,List.singleton_append,
      List.splitOn_cons_eq_if_modifyHead]
    simp

end Runs

/-- Characters that differ in ASCII case only, or separate words alike. -/
def Exchangeable (c d : Char) : Prop :=
  c.toLower = d.toLower ∨ (isSlugSeparator c = true ∧ isSlugSeparator d = true)

theorem Exchangeable.slugKey_eq {c d : Char} (h : Exchangeable c d) : slugKey c = slugKey d := by
  rcases h with h | ⟨hc,hd⟩
  · cases hc : c.isAlphanum with
    | true =>
      cases hd : d.isAlphanum with
      | true => rw [slugKey_alphanum hc,slugKey_alphanum hd,h]
      | false =>
        have hlow := alphanum_toLower hc
        rw [h,toLower_of_not_alphanum hd,hd] at hlow
        exact absurd hlow Bool.false_ne_true
    | false =>
      cases hd : d.isAlphanum with
      | true =>
        have hlow := alphanum_toLower hd
        rw [← h,toLower_of_not_alphanum hc,hc] at hlow
        exact absurd hlow Bool.false_ne_true
      | false =>
        rw [toLower_of_not_alphanum hc,toLower_of_not_alphanum hd] at h
        rw [h]
  · rw [slugKey_separator (not_isAlphanum_of_isSlugSeparator hc) hc,
      slugKey_separator (not_isAlphanum_of_isSlugSeparator hd) hd]

theorem slug_isSlug (name : Text) : IsSlug (slug name) := by
  refine isSlug_of_runs (fun w hw => ?_) (slug_eq_join name)
  obtain ⟨hw,hne⟩ := List.mem_filter.mp hw
  exact ⟨by simpa using hne,slugPieces_chars name w hw⟩

theorem slug_eq_nil (name : Text) : slug name = [] ↔ ∀ c ∈ name, c.isAlphanum = false := by
  rw [slug_eq_join,← slugWords_eq_nil]
  cases hw : slugWords name with
  | nil => simp [Text.join]
  | cons w words =>
    have hne : w ≠ [] := by
      have hmem : w ∈ slugWords name := by rw [hw]; exact List.mem_cons_self
      simpa using (List.mem_filter.mp hmem).2
    rw [join_cons]
    simp [hne]

theorem slug_congr {s t : Text} (h : s.filterMap slugKey = t.filterMap slugKey) :
    slug s = slug t := by
  rw [slug_eq_join,slug_eq_join,slugWords,slugWords,slugPieces,slugPieces,h]

/-- The slug of a name is canonical: its form, when it is empty, that it is its own slug, and
what of the name it does not depend on. -/
theorem slug_canonical (name : Text) :
    IsSlug (slug name) ∧ (slug name = [] ↔ ∀ c ∈ name, c.isAlphanum = false) ∧
    slug (slug name) = slug name ∧
    (∀ name', List.Forall₂ Exchangeable name name' → slug name' = slug name) ∧
    ∀ before after c, name = before ++ after → c.isAlphanum = false → isSlugSeparator c = false →
      slug (before ++ c::after) = slug name := by
  refine ⟨slug_isSlug name,slug_eq_nil name,slug_slug name,fun name' h => ?_,?_⟩
  · refine slug_congr ?_
    induction h with
    | nil => rfl
    | cons hc _ ih => rw [List.filterMap_cons,List.filterMap_cons,hc.slugKey_eq,ih]
  · rintro before after c rfl hal hsep
    refine slug_congr ?_
    rw [List.filterMap_append,List.filterMap_append,
      List.filterMap_cons_none (slugKey_other hal hsep)]

end Kuadrat
