import Mathlib.Data.List.DropRight
import Mathlib.Data.List.Induction
import Kuadrat.Spec

/-!
# Slugs

A slug is its own slug: its characters are letters, digits and single dashes between them.
-/
namespace Kuadrat

theorem alphanum_toLower {c : Char} (h : c.isAlphanum = true) : c.toLower.isAlphanum = true := by
  delta Char.toLower
  split
  · next hup =>
    have hlow : 65 ≤ c.toNat := hup.1
    have hhigh : c.toNat ≤ 90 := hup.2
    have hval : (c.val + ('a'.val - 'A'.val)).toNat = c.toNat + 32 := by
      rw [UInt32.toNat_add]
      exact Nat.mod_eq_of_lt (by change c.toNat + 32 < 4294967296; omega)
    have ha : 'a'.val ≤ c.val + ('a'.val - 'A'.val) := by
      rw [UInt32.le_iff_toNat_le,hval]
      change 97 ≤ c.toNat + 32
      omega
    have hz : c.val + ('a'.val - 'A'.val) ≤ 'z'.val := by
      rw [UInt32.le_iff_toNat_le,hval]
      change c.toNat + 32 ≤ 122
      omega
    exact Bool.or_eq_true_iff.mpr (.inl (Bool.or_eq_true_iff.mpr
      (.inr (Bool.and_eq_true_iff.mpr ⟨decide_eq_true ha,decide_eq_true hz⟩))))
  · exact h

theorem toLower_toLower (c : Char) : c.toLower.toLower = c.toLower := by
  delta Char.toLower
  split
  · split
    · next hup hagain =>
      simp only [ge_iff_le,UInt32.le_iff_toNat_le,UInt32.toNat_add,
        show 'A'.val.toNat = 65 from rfl,show 'Z'.val.toNat = 90 from rfl,
        show ('a'.val - 'A'.val).toNat = 32 from rfl] at hup hagain
      omega
    · rfl
  · rfl

theorem slug_chars (name : Text) : ∀ c ∈ slug name, c.isAlphanum = true ∨ c = '-' := by
  have hfold : ∀ (l : Text) (acc : Text × Bool), (∀ c ∈ acc.1, c.isAlphanum = true ∨ c = '-') →
      ∀ c ∈ (l.foldl slugStep acc).1, c.isAlphanum = true ∨ c = '-' := by
    intro l
    induction l with
    | nil => exact fun acc h => h
    | cons ch l ih =>
      intro acc h
      refine ih _ ?_
      unfold slugStep
      split
      · next hch =>
        intro c hc
        rcases List.mem_append.mp hc with hc | hc
        · exact h c hc
        · exact .inl (List.mem_singleton.mp hc ▸ alphanum_toLower hch)
      · split
        · intro c hc
          rcases List.mem_append.mp hc with hc | hc
          · exact h c hc
          · exact .inr (List.mem_singleton.mp hc)
        · exact h
  intro c hc
  have hmem := List.mem_reverse.mp (List.dropWhile_subset _ (List.mem_reverse.mp hc))
  exact hfold name.trim ([],false) (fun c hc => nomatch hc) c hmem

/-- What a fold over a text has made of it. -/
abbrev slugFold (t : Text) : Text × Bool := t.foldl slugStep ([],false)

theorem slugFold_append (t : Text) (c : Char) : slugFold (t ++ [c]) = slugStep (slugFold t) c := by
  simp [slugFold,List.foldl_append]

/-- A step keeps its text, or adds one character that it would add again. -/
theorem slugStep_cases (acc : Text × Bool) (c : Char) : slugStep acc c = acc ∨
    ∃ d, (slugStep acc c).1 = acc.1 ++ [d] ∧ slugStep acc d = slugStep acc c := by
  unfold slugStep
  split
  · rename_i hc
    have hd := alphanum_toLower hc
    refine .inr ⟨c.toLower,rfl,?_⟩
    rw [if_pos hd,toLower_toLower]
  · split
    · rename_i hcond
      refine .inr ⟨'-',rfl,?_⟩
      rw [if_neg (by decide),if_pos ?_]
      simp only [Bool.and_eq_true] at hcond ⊢
      exact ⟨⟨by decide,hcond.1.2⟩,hcond.2⟩
    · exact .inl rfl

/-- What the fold has made stays as it is when it is folded again. -/
theorem slugFold_slugFold (t : Text) : slugFold (slugFold t).1 = slugFold t := by
  induction t using List.reverseRecOn with
  | nil => rfl
  | append_singleton t c ih =>
    rw [slugFold_append]
    rcases slugStep_cases (slugFold t) c with h | ⟨d,hd,hstep⟩
    · rw [h,ih]
    · rw [hd,slugFold_append,ih,hstep]

theorem length_slugFold (t : Text) : (slugFold t).1.length ≤ t.length := by
  induction t using List.reverseRecOn with
  | nil => simp
  | append_singleton t c ih =>
    rw [slugFold_append]
    rcases slugStep_cases (slugFold t) c with h | ⟨d,hd,-⟩
    · rw [h,List.length_append]
      omega
    · rw [hd,List.length_append,List.length_append]
      simp only [List.length_singleton]
      omega

/-- A part of a text that the fold leaves alone is left alone. -/
theorem slugFold_prefix {t p : Text} (h : (slugFold t).1 = t) (hp : p <+: t) :
    (slugFold p).1 = p := by
  induction t using List.reverseRecOn with
  | nil => rw [List.prefix_nil.mp hp]; rfl
  | append_singleton t c ih =>
    rcases List.prefix_concat_iff.mp hp with rfl | hp
    · exact h
    · refine ih ?_ hp
      rw [slugFold_append] at h
      rcases slugStep_cases (slugFold t) c with hsame | ⟨d,hd,-⟩
      · rw [hsame] at h
        have hlen := length_slugFold t
        rw [h,List.length_append,List.length_singleton] at hlen
        omega
      · rw [hd] at h
        exact (List.append_inj' h rfl).1

theorem trim_of_chars {t : Text} (h : ∀ c ∈ t, isWhitespace c = false) : t.trim = t := by
  have hdrop : ∀ l : Text, (∀ c ∈ l, isWhitespace c = false) → l.dropWhile isWhitespace = l := by
    intro l hl
    cases l with
    | nil => rfl
    | cons c l => rw [List.dropWhile_cons_of_neg (by simp [hl c List.mem_cons_self])]
  unfold Text.trim Text.trimStart Text.trimEnd
  rw [hdrop t h,hdrop t.reverse fun c hc => h c (List.mem_reverse.mp hc),List.reverse_reverse]

theorem not_isWhitespace_of_alphanum {c : Char} (h : c.isAlphanum = true) :
    isWhitespace c = false := by
  have hrange : 48 ≤ c.toNat ∧ c.toNat ≤ 122 := by
    delta Char.isAlphanum Char.isAlpha Char.isUpper Char.isLower Char.isDigit at h
    simp only [Bool.or_eq_true,Bool.and_eq_true,decide_eq_true_eq,ge_iff_le,
      UInt32.le_iff_toNat_le] at h
    change _ ≤ c.val.toNat ∧ c.val.toNat ≤ _
    rcases h with (⟨hlow,hhigh⟩ | ⟨hlow,hhigh⟩) | ⟨hlow,hhigh⟩
    · exact ⟨Nat.le_trans (by decide) hlow,Nat.le_trans hhigh (by decide)⟩
    · exact ⟨Nat.le_trans (by decide) hlow,Nat.le_trans hhigh (by decide)⟩
    · exact ⟨Nat.le_trans (by decide) hlow,Nat.le_trans hhigh (by decide)⟩
  simp only [isWhitespace,Bool.or_eq_false_iff,Bool.and_eq_false_iff,decide_eq_false_iff_not,
    beq_eq_false_iff_ne]
  omega

/-- What is left of a text without its last dashes is a beginning of it. -/
theorem dropWhile_reverse_prefix (p : Char → Bool) (t : Text) :
    (t.reverse.dropWhile p).reverse <+: t := by
  have h := List.reverse_prefix.mpr (List.dropWhile_suffix p (l := t.reverse))
  rwa [List.reverse_reverse] at h

theorem slug_slug (name : Text) : slug (slug name) = slug name := by
  have hblank : ∀ c ∈ slug name, isWhitespace c = false := by
    intro c hc
    rcases slug_chars name c hc with hal | rfl
    · exact not_isWhitespace_of_alphanum hal
    · decide
  have hprefix : slug name <+: (slugFold name.trim).1 := dropWhile_reverse_prefix _ _
  have hfold := slugFold_prefix (congrArg Prod.fst (slugFold_slugFold name.trim)) hprefix
  calc slug (slug name)
      = (((slugFold (slug name).trim).1).reverse.dropWhile (· == '-')).reverse := rfl
    _ = ((slug name).reverse.dropWhile (· == '-')).reverse := by rw [trim_of_chars hblank,hfold]
    _ = slug name := by
      unfold slug
      rw [List.reverse_reverse]
      exact congrArg List.reverse (List.dropWhile_idempotent _ _)

end Kuadrat
