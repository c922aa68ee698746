import Mathlib.Data.List.Nodup
import Mathlib.Logic.Relation
import Mathlib.Tactic.Order

/-!
# Segments of a growing log

A log is a list whose keys ascend and that grows at its end. A reader that keeps one
key, the last one it has seen, has read a segment of the log.
-/
namespace Kuadrat.Effect

section Segment
variable {α κ : Type} [LinearOrder κ] (key : α → κ)

def Ascending (l : List α) : Prop := l.Pairwise fun x y => key x < key y

/-- What the log holds past `a`. -/
def beyond (a : κ) (l : List α) : List α := l.filter fun x => a < key x

/-- What the log holds past `a` and up to `b`. -/
def segment (a b : κ) (l : List α) : List α := l.filter fun x => a < key x ∧ key x ≤ b

variable {key} {a b : κ} {l m : List α} {x : α}

theorem segment_cons (y : α) : segment key a b (y::l) =
    if a < key y ∧ key y ≤ b then y::segment key a b l else segment key a b l := by
  simp [segment,List.filter_cons]

theorem segment_eq_nil (h : ∀ x ∈ l, b < key x) : segment key a b l = [] := by
  unfold segment
  rw [List.filter_eq_nil_iff]
  intro x hx
  have := h x hx
  simp only [decide_eq_true_eq,not_and,not_le]
  exact fun _ => this

theorem segment_self : segment key a a l = [] := by
  unfold segment
  rw [List.filter_eq_nil_iff]
  intro x _
  simp only [decide_eq_true_eq,not_and,not_le]
  exact id

/-- What is appended past the reader does not change its segment. -/
theorem segment_append (h : ∀ x ∈ m, b < key x) :
    segment key a b (l ++ m) = segment key a b l := by
  have hm := segment_eq_nil (a := a) h
  unfold segment at hm ⊢
  rw [List.filter_append,hm,List.append_nil]

theorem segment_eq_beyond (h : ∀ x ∈ l, key x ≤ b) : segment key a b l = beyond key a l := by
  unfold segment beyond
  apply List.filter_congr
  intro x hx
  simp [h x hx]

/-- The segment of a reader is an initial one of what the log holds past `a`. -/
theorem segment_prefix (h : Ascending key l) : segment key a b l <+: beyond key a l := by
  induction l with
  | nil => exact List.prefix_refl _
  | cons y l ih =>
    obtain ⟨hy,hl⟩ := List.pairwise_cons.mp h
    by_cases hb : key y ≤ b
    · by_cases ha : a < key y
      · simpa [segment,beyond,ha,hb] using ih hl
      · simpa [segment,beyond,ha] using ih hl
    · have hnil : segment key a b (y::l) = [] := by
        apply segment_eq_nil
        intro z hz
        rcases List.mem_cons.mp hz with rfl | hz
        · order
        · have := hy z hz
          order
      rw [hnil]
      exact List.nil_prefix

/-- Reading the next entry appends it to the segment. -/
theorem segment_next (h : Ascending key l) (hx : x ∈ l) (hab : a ≤ b) (hbx : b < key x)
    (hnext : ∀ y ∈ l, b < key y → key x ≤ key y) :
    segment key a (key x) l = segment key a b l ++ [x] := by
  induction l with
  | nil => exact nomatch hx
  | cons y l ih =>
    obtain ⟨hy,hl⟩ := List.pairwise_cons.mp h
    by_cases hyb : key y ≤ b
    · have hxl : x ∈ l := by
        rcases List.mem_cons.mp hx with rfl | hxl
        · order
        · exact hxl
      have hxy := hy x hxl
      have ih := ih hl hxl fun z hz => hnext z (List.mem_cons_of_mem _ hz)
      rw [segment_cons,segment_cons,ih]
      by_cases ha : a < key y
      · rw [if_pos ⟨ha,hxy.le⟩,if_pos ⟨ha,hyb⟩,List.cons_append]
      · rw [if_neg fun h => ha h.1,if_neg fun h => ha h.1]
    · -- The first entry past the reader is the one it reads.
      have hle := hnext y List.mem_cons_self (by order)
      have hxy : x = y := by
        rcases List.mem_cons.mp hx with rfl | hxl
        · rfl
        · have := hy x hxl
          order
      subst hxy
      have hrest : segment key a (key x) l = [] := segment_eq_nil hy
      have hread : segment key a b l = [] := segment_eq_nil fun z hz => hbx.trans (hy z hz)
      have hax : a < key x := by order
      rw [segment_cons,segment_cons,if_pos ⟨hax,le_rfl⟩,if_neg fun h => hyb h.2,hrest,hread,
        List.nil_append]

/-- A log is one of its initial segments and what it holds past that. -/
theorem append_beyond (h : m <+: l) (hbefore : ∀ x ∈ m, key x ≤ a)
    (hafter : ∀ x ∈ l.drop m.length, a < key x) : m ++ beyond key a l = l := by
  obtain ⟨n,rfl⟩ := h
  rw [List.drop_left] at hafter
  have hm : beyond key a m = [] := by
    apply List.filter_eq_nil_iff.mpr
    intro x hx
    simpa using hbefore x hx
  have hn : beyond key a n = n := by
    apply List.filter_eq_self.mpr
    intro x hx
    simpa using hafter x hx
  unfold beyond at hm hn ⊢
  rw [List.filter_append,hm,hn,List.nil_append]

/-- Of readers that all start at one place, no two read the same if at most one reads at all. -/
theorem nodup_flatten_prefixes {ls : List (List α)} (hl : l.Nodup) (h : ∀ m ∈ ls, m <+: l) :
    ls.flatten.Nodup ↔ ls.countP (fun m => !m.isEmpty) ≤ 1 := by
  induction ls with
  | nil => simp
  | cons m ls ih =>
    obtain ⟨hm,hls⟩ := List.forall_mem_cons.mp h
    cases m with
    | nil => simpa using ih hls
    | cons x m =>
      have hfirst : (x::m).Nodup := hl.sublist hm.sublist
      have hrest : ls.flatten.Nodup ∧ List.Disjoint (x::m) ls.flatten ↔ ls.flatten = [] := by
        refine ⟨fun hnodup => ?_,fun hnil => by simp [hnil]⟩
        rw [List.flatten_eq_nil_iff]
        intro m' hm'
        cases m' with
        | nil => rfl
        | cons y m' =>
          -- they would both have read the first entry
          obtain ⟨rest,rfl⟩ := hm
          obtain ⟨rfl,-⟩ := List.cons_prefix_cons.mp (hls _ hm')
          exact absurd (List.mem_flatten.mpr ⟨_,hm',List.mem_cons_self⟩)
            (hnodup.2 List.mem_cons_self)
      have hcount : ls.flatten = [] ↔ ls.countP (fun m => !m.isEmpty) = 0 := by
        rw [List.countP_eq_zero,List.flatten_eq_nil_iff]
        simp
      rw [List.flatten_cons,List.nodup_append',and_iff_right hfirst,hrest,hcount,
        List.countP_cons_of_pos rfl]
      omega

end Segment

/-- What holds at the start and is kept by every step holds all along a run. -/
theorem run_induction {σ : Type} {step : σ → σ → Prop} {s s' : σ} (I : σ → Prop) (hs : I s)
    (hstep : ∀ t t', I t → step t t' → I t') (h : Relation.ReflTransGen step s s') : I s' := by
  induction h with
  | refl => exact hs
  | tail _ hlast ih => exact hstep _ _ ih hlast

end Kuadrat.Effect
