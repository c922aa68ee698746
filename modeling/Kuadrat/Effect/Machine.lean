import Kuadrat.Effect.Program

/-!
# Running a program against its environment

A `Machine` answers operations from a script of environment choices. `advance`
runs a program along a script: a script that ends at a `ret` is a complete run,
any other one leaves the rest of the program, which is what a crash sees.
-/
namespace Kuadrat.Effect

/-- The environment's part of a step: `step s e x` is what choice `x` makes of operation
`e` in state `s`, or `none` when `x` is not a possible answer there. -/
structure Machine (E : Type) (R : E → Type) (X σ : Type) where
  step : σ → (e : E) → X → Option (R e × σ)

namespace Machine
variable {E : Type} {R : E → Type} {X α β σ : Type} (M : Machine E R X σ)

def advance : List X → Prog E R α → σ → Option (Prog E R α × σ)
  | [], p, s => some (p,s)
  | _::_, .ret _, _ => none
  | x::xs, .op e k, s => (M.step s e x).bind fun rs => advance xs (k rs.1) rs.2

@[simp] theorem advance_nil (p : Prog E R α) (s : σ) : M.advance [] p s = some (p,s) := rfl

theorem advance_ret {xs : List X} {a : α} {p : Prog E R α} {s s' : σ} :
    M.advance xs (.ret a) s = some (p,s') ↔ xs = [] ∧ p = .ret a ∧ s' = s := by
  cases xs with
  | nil => simp [eq_comm]
  | cons x xs => simp [advance]

theorem advance_cons {x : X} {xs : List X} {p p' : Prog E R α} {s s' : σ} :
    M.advance (x::xs) p s = some (p',s') ↔ ∃ e k r t, p = .op e k ∧
      M.step s e x = some (r,t) ∧ M.advance xs (k r) t = some (p',s') := by
  cases p with
  | ret a => simp [advance]
  | op e k =>
    simp only [advance,Option.bind_eq_some_iff]
    constructor
    · rintro ⟨⟨r,t⟩,h,ht⟩
      exact ⟨e,k,r,t,rfl,h,ht⟩
    · rintro ⟨e',k',r,t,hp,h,ht⟩
      cases hp
      exact ⟨(r,t),h,ht⟩

/-- The steps of a machine as a specification: `C` is demanded at every operation, and the
environment is held to the choices that `ok` allows. -/
def spec (ok : (e : E) → X → Prop) (C : σ → Prop) : Spec E R σ where
  pre s _ := C s
  post s e r s' := ∃ x, ok e x ∧ M.step s e x = some (r,s')

/-- Every choice of the script is one that `ok` allows for the operation it answers. -/
def Allowed (ok : (e : E) → X → Prop) : List X → Prog E R α → σ → Prop
  | x::xs, .op e k, s => ok e x ∧ ∀ r t, M.step s e x = some (r,t) → Allowed ok xs (k r) t
  | _, _, _ => True

theorem allowed_of_forall {ok : (e : E) → X → Prop} {xs : List X}
    (h : ∀ e, ∀ x ∈ xs, ok e x) (p : Prog E R α) (s : σ) : M.Allowed ok xs p s := by
  induction xs generalizing p s with
  | nil => cases p <;> trivial
  | cons x xs ih =>
    cases p with
    | ret a => trivial
    | op e k => exact ⟨h e x (by simp),fun r t _ => ih (fun e y hy => h e y (by simp [hy])) _ _⟩

/-- Soundness of the weakest precondition along a script: it still holds of the rest of
the program wherever the script stops. -/
theorem wp_advance {ok : (e : E) → X → Prop} {C : σ → Prop} {Q : α → σ → Prop}
    {xs : List X} {p p' : Prog E R α} {s s' : σ} (h : wp (M.spec ok C) p Q s)
    (hok : M.Allowed ok xs p s) (hr : M.advance xs p s = some (p',s')) :
    wp (M.spec ok C) p' Q s' := by
  induction xs generalizing p s with
  | nil => simp only [advance_nil,Option.some.injEq,Prod.mk.injEq] at hr; rwa [← hr.1,← hr.2]
  | cons x xs ih =>
    obtain ⟨e,k,r,t,rfl,hs,ht⟩ := (M.advance_cons).mp hr
    exact ih (h.2 r t ⟨x,hok.1,hs⟩) (hok.2 r t hs) ht

/-- A complete run ends in the postcondition. -/
theorem wp_complete {ok : (e : E) → X → Prop} {C : σ → Prop} {Q : α → σ → Prop}
    {xs : List X} {p : Prog E R α} {a : α} {s s' : σ} (h : wp (M.spec ok C) p Q s)
    (hok : M.Allowed ok xs p s) (hr : M.advance xs p s = some (.ret a,s')) : Q a s' :=
  M.wp_advance h hok hr

/-- The same environment, when in some states it gives none but good replies. -/
def restrictIn (good : σ → (e : E) → R e → Bool) : Machine E R X σ where
  step s e x := (M.step s e x).filter fun rs => good s e rs.1

theorem restrictIn_post {good : σ → (e : E) → R e → Bool} {ok : (e : E) → X → Prop}
    {C : σ → Prop} {s s' : σ} {e : E} {r : R e} :
    ((M.restrictIn good).spec ok C).post s e r s' ↔
      good s e r = true ∧ (M.spec ok C).post s e r s' := by
  simp only [spec,restrictIn,Option.filter_eq_some_iff]
  constructor
  · rintro ⟨x,hx,hs,hg⟩
    exact ⟨hg,x,hx,hs⟩
  · rintro ⟨hg,x,hx,hs⟩
    exact ⟨x,hx,hs,hg⟩

/-- The same environment, when it gives none but good replies. -/
def restrict (good : (e : E) → R e → Bool) : Machine E R X σ := M.restrictIn fun _ => good

theorem restrict_post {good : (e : E) → R e → Bool} {ok : (e : E) → X → Prop} {C : σ → Prop}
    {s s' : σ} {e : E} {r : R e} : ((M.restrict good).spec ok C).post s e r s' ↔
      good e r = true ∧ (M.spec ok C).post s e r s' := M.restrictIn_post

section Notes
variable {τ : Type} (note : τ → σ → (e : E) → R e → τ)

/-- The machine with notes beside its state: each operation is noted with its answer and the
state before it. -/
def noted : Machine E R X (σ × τ) where
  step s e x := (M.step s.1 e x).map fun rt => (rt.1,rt.2,note s.2 s.1 e rt.1)

theorem noted_step {s s' : σ × τ} {e : E} {x : X} {r : R e} :
    (M.noted note).step s e x = some (r,s') ↔
      M.step s.1 e x = some (r,s'.1) ∧ s'.2 = note s.2 s.1 e r := by
  simp only [noted,Option.map_eq_some_iff]
  constructor
  · rintro ⟨⟨r',t⟩,hs,heq⟩
    cases heq
    exact ⟨hs,rfl⟩
  · rintro ⟨hs,hn⟩
    exact ⟨(r,s'.1),hs,by rw [← hn]⟩

/-- Taking notes changes nothing about the state. -/
theorem wp_noted {ok : (e : E) → X → Prop} {C : σ → Prop} {Q : α → σ → Prop}
    {p : Prog E R α} {s : σ × τ} (h : wp (M.spec ok C) p Q s.1) :
    wp ((M.noted note).spec ok fun s => C s.1) p (fun a s' => Q a s'.1) s := by
  induction p generalizing s with
  | ret a => exact h
  | op e k ih =>
    refine ⟨h.1,fun r s' hr => ?_⟩
    obtain ⟨x,hx,hs⟩ := hr
    exact ih r (h.2 r s'.1 ⟨x,hx,((M.noted_step note).mp hs).1⟩)

/-- Operations that are not worth a note leave the notes as they are. -/
theorem wp_noted_quiet {ok : (e : E) → X → Prop} {A : E → Prop} {p : Prog E R α} {s : σ × τ}
    (hp : All A p) (hA : ∀ n t e r, A e → note n t e r = n) :
    wp ((M.noted note).spec ok fun _ => True) p (fun _ s' => s'.2 = s.2) s := by
  refine wp_of_all (fun s' : σ × τ => s'.2 = s.2) hp rfl (fun _ _ _ _ => trivial)
    fun s' e r s'' he hs hr => ?_
  obtain ⟨x,-,hstep⟩ := hr
  rw [((M.noted_step note).mp hstep).2,hA _ _ _ _ he,hs]

end Notes

/-- Wherever a run is cut, the state satisfies `C`, provided the postcondition implies it. -/
theorem wp_cut {ok : (e : E) → X → Prop} {C : σ → Prop} {Q : α → σ → Prop}
    {xs : List X} {p p' : Prog E R α} {s s' : σ} (h : wp (M.spec ok C) p Q s)
    (hQ : ∀ a s, Q a s → C s) (hok : M.Allowed ok xs p s)
    (hr : M.advance xs p s = some (p',s')) : C s' := by
  have hp := M.wp_advance h hok hr
  cases p' with
  | ret a => exact hQ a s' hp
  | op e k => exact hp.1

/-- The result and the final state of a complete run. -/
def finish (xs : List X) (p : Prog E R α) (s : σ) : Option (α × σ) :=
  match M.advance xs p s with
  | some (.ret a,s') => some (a,s')
  | _ => none

theorem finish_eq_some {xs : List X} {p : Prog E R α} {a : α} {s s' : σ} :
    M.finish xs p s = some (a,s') ↔ M.advance xs p s = some (.ret a,s') := by
  unfold finish
  split
  · rename_i h
    simp [h]
  · rename_i h
    simp only [reduceCtorEq,false_iff]
    exact h a s'

/-- A run of a program is a run of every program that begins with it. -/
theorem advance_bind {xs : List X} {p p' : Prog E R α} {s s' : σ} (f : α → Prog E R β)
    (h : M.advance xs p s = some (p',s')) : M.advance xs (p >>= f) s = some (p' >>= f,s') := by
  induction xs generalizing p s with
  | nil => simp only [advance_nil,Option.some.injEq,Prod.mk.injEq] at h; rw [h.1,h.2,advance_nil]
  | cons x xs ih =>
    obtain ⟨e,k,r,t,rfl,hs,ht⟩ := (M.advance_cons).mp h
    exact (M.advance_cons).mpr ⟨e,_,r,t,rfl,hs,ih ht⟩

/-- What a script does is what its second part does after the first. -/
theorem advance_split {xs ys : List X} {p p' p'' : Prog E R α} {s s' s'' : σ}
    (hx : M.advance xs p s = some (p',s')) (h : M.advance (xs++ys) p s = some (p'',s'')) :
    M.advance ys p' s' = some (p'',s'') := by
  induction xs generalizing p s with
  | nil => simp only [advance_nil,Option.some.injEq,Prod.mk.injEq] at hx; rwa [← hx.1,← hx.2]
  | cons x xs ih =>
    obtain ⟨e,k,r,t,rfl,hs,ht⟩ := (M.advance_cons).mp hx
    obtain ⟨e',k',r',t',hp,hs',ht'⟩ := (M.advance_cons).mp h
    cases hp
    rw [hs] at hs'
    cases hs'
    exact ih ht ht'

/-- A complete run cannot be continued. -/
theorem finish_unique {xs ys : List X} {p : Prog E R α} {a b : α} {s t u : σ}
    (h : M.finish xs p s = some (a,t)) (h' : M.finish (xs++ys) p s = some (b,u)) :
    ys = [] ∧ b = a ∧ u = t := by
  have hrest := M.advance_split (M.finish_eq_some.mp h) (M.finish_eq_some.mp h')
  obtain ⟨hys,hret,hstate⟩ := M.advance_ret.mp hrest
  exact ⟨hys,Prog.ret.inj hret,hstate⟩

theorem finish_perform {xs : List X} {e : E} {r : R e} {s t : σ}
    (h : M.finish xs (.perform e) s = some (r,t)) : ∃ x, xs = [x] ∧ M.step s e x = some (r,t) := by
  rw [finish_eq_some] at h
  cases xs with
  | nil => cases h
  | cons x xs =>
    obtain ⟨e',k,r',t',hop,hs,hrest⟩ := M.advance_cons.mp h
    cases hop
    obtain ⟨rfl,hret,rfl⟩ := M.advance_ret.mp hrest
    cases hret
    exact ⟨x,rfl,hs⟩

/-- A complete run of two programs in a row is one of the first, then one of the second. -/
theorem finish_bind {xs : List X} {p : Prog E R α} {f : α → Prog E R β} {b : β} {s u : σ}
    (h : M.finish xs (p >>= f) s = some (b,u)) : ∃ ys zs a t, xs = ys ++ zs ∧
      M.finish ys p s = some (a,t) ∧ M.finish zs (f a) t = some (b,u) := by
  rw [finish_eq_some] at h
  induction p generalizing xs s with
  | ret a => exact ⟨[],xs,a,s,rfl,rfl,M.finish_eq_some.mpr h⟩
  | op e k ih =>
    cases xs with
    | nil => cases h
    | cons x xs =>
      obtain ⟨e',k',r,t,hop,hs,hrest⟩ := M.advance_cons.mp h
      cases hop
      obtain ⟨ys,zs,a,t',rfl,hp,hf⟩ := ih r hrest
      refine ⟨x::ys,zs,a,t',rfl,?_,hf⟩
      rw [finish_eq_some] at hp ⊢
      exact M.advance_cons.mpr ⟨e,k,r,t,rfl,hs,hp⟩

theorem allowed_split {ok : (e : E) → X → Prop} {xs ys : List X} {p p' : Prog E R α} {s s' : σ}
    (h : M.Allowed ok (xs++ys) p s) (hx : M.advance xs p s = some (p',s')) :
    M.Allowed ok ys p' s' := by
  induction xs generalizing p s with
  | nil => simp only [advance_nil,Option.some.injEq,Prod.mk.injEq] at hx; rwa [← hx.1,← hx.2]
  | cons x xs ih =>
    obtain ⟨e,k,r,t,rfl,hs,ht⟩ := (M.advance_cons).mp hx
    exact ih (h.2 r t hs) ht

section Possibility
variable {M} {ε : Type}

/-- Some choices of the environment bring the program to its end in `Q`. -/
def can (M : Machine E R X σ) : Prog E R α → (α → σ → Prop) → σ → Prop
  | .ret a, Q, s => Q a s
  | .op e k, Q, s => ∃ x r t, M.step s e x = some (r,t) ∧ can M (k r) Q t

theorem can_bind {p : Prog E R α} {f : α → Prog E R β} {Q : β → σ → Prop} {s : σ}
    (h : M.can p (fun a t => M.can (f a) Q t) s) : M.can (p >>= f) Q s := by
  induction p generalizing s with
  | ret a => exact h
  | op e k ih =>
    obtain ⟨x,r,t,hs,hk⟩ := h
    exact ⟨x,r,t,hs,ih r hk⟩

theorem can_mono {p : Prog E R α} {Q Q' : α → σ → Prop} {s : σ} (h : M.can p Q s)
    (hq : ∀ a t, Q a t → Q' a t) : M.can p Q' s := by
  induction p generalizing s with
  | ret a => exact hq a s h
  | op e k ih =>
    obtain ⟨x,r,t,hs,hk⟩ := h
    exact ⟨x,r,t,hs,ih r hk⟩

theorem can_finish {p : Prog E R α} {Q : α → σ → Prop} {s : σ} (h : M.can p Q s) :
    ∃ xs a t, M.finish xs p s = some (a,t) ∧ Q a t := by
  simp only [finish_eq_some]
  induction p generalizing s with
  | ret a => exact ⟨[],a,s,rfl,h⟩
  | op e k ih =>
    obtain ⟨x,r,t,hs,hk⟩ := h
    obtain ⟨xs,a,t',hxs,hq⟩ := ih r hk
    exact ⟨x::xs,a,t',(M.advance_cons).mpr ⟨e,k,r,t,rfl,hs,hxs⟩,hq⟩

/-- The program can succeed, and end in `Q`. -/
def canOk (M : Machine E R X σ) (p : Proc E R ε α) (Q : α → σ → Prop) (s : σ) : Prop :=
  M.can p.run (fun r t => ∃ a, r = .ok a ∧ Q a t) s

theorem canOk_pure {a : α} {Q : α → σ → Prop} {s : σ} (h : Q a s) :
    M.canOk (pure a : Proc E R ε α) Q s := ⟨a,rfl,h⟩

/-- The rule of sequence for programs that can succeed. -/
theorem canOk_seq {p : Proc E R ε α} {f : α → Proc E R ε β} {P : α → σ → Prop}
    {Q : β → σ → Prop} {s : σ} (h : M.canOk p P s) (hf : ∀ a t, P a t → M.canOk (f a) Q t) :
    M.canOk (p >>= f) Q s := by
  unfold canOk
  rw [Prog.run_bind]
  refine can_bind (can_mono h fun r t hr => ?_)
  obtain ⟨a,rfl,ha⟩ := hr
  exact hf a t ha

/-- What a program does before another one that goes on from there. -/
theorem can_run_seq {p : Proc E R ε α} {f : α → Proc E R ε β} {P : α → σ → Prop}
    {Q : Except ε β → σ → Prop} {s : σ} (h : M.canOk p P s)
    (hf : ∀ a t, P a t → M.can (f a).run Q t) : M.can (p >>= f).run Q s := by
  rw [Prog.run_bind]
  refine can_bind (can_mono h fun r t hr => ?_)
  obtain ⟨a,rfl,ha⟩ := hr
  exact hf a t ha

theorem canOk_forM {l : List α} {f : α → Proc E R ε PUnit} (I : σ → Prop) {s : σ} (hs : I s)
    (hstep : ∀ a ∈ l, ∀ s, I s → M.canOk (f a) (fun _ => I) s) :
    M.canOk (forM l f) (fun _ => I) s := by
  induction l generalizing s with
  | nil => exact canOk_pure hs
  | cons a rest ih =>
    rw [List.forM_cons]
    exact canOk_seq (hstep a List.mem_cons_self s hs) fun _ t h =>
      ih h fun b hb => hstep b (List.mem_cons_of_mem _ hb)

/-- What every run ends in, one that is possible ends in. -/
theorem can_and_wp {C : σ → Prop} {p : Prog E R α} {Q Q' : α → σ → Prop} {s : σ}
    (h : M.can p Q s) (hq : wp (M.spec (fun _ _ => True) C) p Q' s) :
    M.can p (fun a t => Q a t ∧ Q' a t) s := by
  induction p generalizing s with
  | ret a => exact ⟨h,hq⟩
  | op e k ih =>
    obtain ⟨x,r,t,hs,hk⟩ := h
    exact ⟨x,r,t,hs,ih r hk (hq.2 r t ⟨x,trivial,hs⟩)⟩

theorem canOk_and {C : σ → Prop} {p : Proc E R ε α} {Q Q' : α → σ → Prop} {s : σ}
    (h : M.canOk p Q s) (hq : wpOk (M.spec (fun _ _ => True) C) p Q' s) :
    M.canOk p (fun a t => Q a t ∧ Q' a t) s :=
  can_mono (can_and_wp h hq) fun _ _ hr => hr.1.imp fun a ha => ⟨ha.1,ha.2,hr.2 a ha.1⟩

theorem canOk_mono {p : Proc E R ε α} {Q Q' : α → σ → Prop} {s : σ} (h : M.canOk p Q s)
    (hq : ∀ a t, Q a t → Q' a t) : M.canOk p Q' s :=
  can_mono h fun _ _ hr => hr.imp fun a ha => ⟨ha.1,hq a _ ha.2⟩

end Possibility

end Machine
end Kuadrat.Effect
