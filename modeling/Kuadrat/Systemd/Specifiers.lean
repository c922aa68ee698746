import Kuadrat.Systemd.Words

/-!
# Percent signs

systemd expands `%` and one more character as a specifier; a pair of percent signs stands for
one. A text all of whose percent signs are paired has no specifier in it.
-/
namespace Kuadrat.Systemd

/-- Every `%` is one half of a pair. -/
def paired : List Char → Bool
  | '%':: '%'::l => paired l
  | '%'::_ => false
  | _::l => paired l
  | [] => true

section Paired
variable {a b : List Char}

theorem paired_cons {c : Char} (h : c ≠ '%') (l : List Char) : paired (c::l) = paired l := by
  conv_lhs => unfold paired
  split
  · next heq => exact absurd (List.cons.inj heq).1 h
  · next heq => exact absurd (List.cons.inj heq).1 h
  · next heq => rw [(List.cons.inj heq).2]
  · next heq => cases heq

theorem unescapePercent_cons {c : Char} (h : c ≠ '%') (l : List Char) :
    unescapePercent (c::l) = c::unescapePercent l :=
  unescapePercent.eq_2 c l fun _ hc _ => h hc

theorem paired_lone (h : ∀ l, a = '%'::l → False) : paired ('%'::a) = false := paired.eq_2 a h

theorem paired_append (h : paired a = true) : paired (a ++ b) = paired b := by
  induction a using paired.induct with
  | case1 l ih => exact ih h
  | case2 l hl =>
    rw [paired_lone hl] at h
    cases h
  | case3 c l _ hc ih =>
    rw [paired_cons hc] at h
    rw [List.cons_append,paired_cons hc]
    exact ih h
  | case4 => rfl

theorem paired_of_not_mem (h : '%' ∉ a) : paired a = true := by
  induction a with
  | nil => rfl
  | cons c l ih =>
    rw [paired_cons fun hc => h (hc ▸ List.mem_cons_self)]
    exact ih fun hl => h (List.mem_cons_of_mem _ hl)

theorem unescapePercent_of_not_mem (h : '%' ∉ a) : unescapePercent a = a := by
  induction a with
  | nil => rfl
  | cons c l ih =>
    rw [unescapePercent_cons fun hc => h (hc ▸ List.mem_cons_self),
      ih fun hl => h (List.mem_cons_of_mem _ hl)]

theorem length_unescapePercent (a : List Char) : (unescapePercent a).length ≤ a.length := by
  induction a using unescapePercent.induct with
  | case1 l ih =>
    rw [unescapePercent,List.length_cons,List.length_cons,List.length_cons]
    omega
  | case2 c l hl ih =>
    rw [unescapePercent.eq_2 c l hl,List.length_cons,List.length_cons]
    omega
  | case3 => rfl

/-- A text with its percent signs paired stands for itself only when it has none. -/
theorem literal_iff : paired a = true ∧ unescapePercent a = a ↔ '%' ∉ a := by
  constructor
  · intro h
    obtain ⟨hp,hu⟩ := h
    induction a using paired.induct with
    | case1 l ih =>
      have hlen := length_unescapePercent l
      rw [unescapePercent,List.cons.injEq] at hu
      rw [hu.2,List.length_cons] at hlen
      omega
    | case2 l hl =>
      rw [paired_lone hl] at hp
      cases hp
    | case3 c l _ hc ih =>
      rw [paired_cons hc] at hp
      rw [unescapePercent_cons hc,List.cons.injEq] at hu
      rw [List.mem_cons,not_or]
      exact ⟨fun h => hc h.symm,ih hp hu.2⟩
    | case4 => exact List.not_mem_nil
  · exact fun h => ⟨paired_of_not_mem h,unescapePercent_of_not_mem h⟩

/-- Rewriting the other characters leaves the pairs together. -/
theorem paired_flatMap {f : Char → List Char} (hpercent : f '%' = ['%'])
    (hf : ∀ c, c ≠ '%' → '%' ∉ f c) (h : paired a = true) : paired (a.flatMap f) = true := by
  induction a using paired.induct with
  | case1 l ih =>
    rw [List.flatMap_cons,List.flatMap_cons,hpercent]
    exact ih h
  | case2 l hl =>
    rw [paired_lone hl] at h
    cases h
  | case3 c l _ hc ih =>
    rw [paired_cons hc] at h
    rw [List.flatMap_cons,paired_append (paired_of_not_mem (hf c hc))]
    exact ih h
  | case4 => rfl

theorem paired_intercalate {sep : List Char} {words : List (List Char)} (hsep : '%' ∉ sep)
    (h : ∀ w ∈ words, paired w = true) : paired (List.intercalate sep words) = true := by
  induction words with
  | nil => rfl
  | cons w rest ih =>
    have hw := h w List.mem_cons_self
    have hrest := ih fun x hx => h x (List.mem_cons_of_mem _ hx)
    cases rest with
    | nil => simpa [List.intercalate] using hw
    | cons w' rest =>
      have hsplit : List.intercalate sep (w::w'::rest) =
          w ++ (sep ++ List.intercalate sep (w'::rest)) := by simp [List.intercalate]
      rw [hsplit,paired_append hw,paired_append (paired_of_not_mem hsep)]
      exact hrest

end Paired
end Kuadrat.Systemd
