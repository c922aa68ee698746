import Kuadrat.Effect.Program
import Mathlib.Data.List.Forall2

/-!
# Runs of a program with their exchanges

`Runs p tr a`: the program `p` ends with `a` after the operations of `tr`, each with the answer
that it got. The environment may answer anything.
-/
namespace Kuadrat.Effect

/-- An operation with its answer. -/
abbrev Exchange (E : Type) (R : E → Type) := Sigma R

variable {E : Type} {R : E → Type} {ε α β : Type}

inductive Runs : Prog E R α → List (Exchange E R) → α → Prop
  | ret (a : α) : Runs (.ret a) [] a
  | op {e : E} {k : R e → Prog E R α} {r : R e} {tr : List (Exchange E R)} {a : α}
    (h : Runs (k r) tr a) : Runs (.op e k) (⟨e,r⟩::tr) a

section Inversion
variable {tr : List (Exchange E R)} {a b : α}

@[simp] theorem runs_ret : Runs (.ret a : Prog E R α) tr b ↔ tr = [] ∧ b = a := by
  constructor
  · intro h
    cases h
    exact ⟨rfl,rfl⟩
  · rintro ⟨rfl,rfl⟩
    exact .ret _

theorem runs_op {e : E} {k : R e → Prog E R α} :
    Runs (.op e k) tr a ↔ ∃ r tr', tr = ⟨e,r⟩::tr' ∧ Runs (k r) tr' a := by
  constructor
  · intro h
    cases h with
    | op h => exact ⟨_,_,rfl,h⟩
  · rintro ⟨r,tr',rfl,h⟩
    exact .op h

@[simp] theorem runs_perform {e : E} {r : R e} :
    Runs (.perform e : Prog E R (R e)) tr r ↔ tr = [⟨e,r⟩] := by
  rw [Prog.perform,runs_op]
  constructor
  · rintro ⟨r',tr',rfl,h⟩
    obtain ⟨rfl,rfl⟩ := runs_ret.mp h
    rfl
  · rintro rfl
    exact ⟨r,[],rfl,.ret r⟩

theorem runs_bind {p : Prog E R β} {f : β → Prog E R α} : Runs (p >>= f) tr a ↔
    ∃ b tr₁ tr₂, tr = tr₁ ++ tr₂ ∧ Runs p tr₁ b ∧ Runs (f b) tr₂ a := by
  induction p generalizing tr with
  | ret b =>
    rw [Prog.ret_bind]
    constructor
    · exact fun h => ⟨b,[],tr,rfl,.ret b,h⟩
    · rintro ⟨b',tr₁,tr₂,rfl,hb,h⟩
      obtain ⟨rfl,rfl⟩ := runs_ret.mp hb
      exact h
  | op e k ih =>
    rw [Prog.op_bind,runs_op]
    constructor
    · rintro ⟨r,tr',rfl,h⟩
      obtain ⟨b,tr₁,tr₂,rfl,hp,hf⟩ := (ih r).mp h
      exact ⟨b,⟨e,r⟩::tr₁,tr₂,rfl,.op hp,hf⟩
    · rintro ⟨b,tr₁,tr₂,rfl,hp,hf⟩
      obtain ⟨r,tr',rfl,hk⟩ := runs_op.mp hp
      exact ⟨r,tr' ++ tr₂,rfl,(ih r).mpr ⟨b,tr',tr₂,rfl,hk,hf⟩⟩

/-- Operation first, the rest with its answer. -/
theorem runs_perform_bind {e : E} {f : R e → Prog E R α} : Runs (.perform e >>= f) tr a ↔
    ∃ r tr', tr = ⟨e,r⟩::tr' ∧ Runs (f r) tr' a := runs_op

/-- A fallible program goes on after a success, and ends with its error. -/
theorem runs_run_bind {p : Proc E R ε β} {f : β → Proc E R ε α} {r : Except ε α} :
    Runs (p >>= f).run tr r ↔
      (∃ b tr₁ tr₂, tr = tr₁ ++ tr₂ ∧ Runs p.run tr₁ (.ok b) ∧ Runs (f b).run tr₂ r) ∨
      ∃ e, r = .error e ∧ Runs p.run tr (.error e) := by
  rw [Prog.run_bind,runs_bind]
  constructor
  · rintro ⟨x,tr₁,tr₂,rfl,hp,hf⟩
    cases x with
    | ok b => exact .inl ⟨b,tr₁,tr₂,rfl,hp,hf⟩
    | error e =>
      obtain ⟨rfl,rfl⟩ := runs_ret.mp hf
      exact .inr ⟨e,rfl,by rwa [List.append_nil]⟩
  · rintro (⟨b,tr₁,tr₂,rfl,hp,hf⟩ | ⟨e,rfl,hp⟩)
    · exact ⟨.ok b,tr₁,tr₂,rfl,hp,hf⟩
    · exact ⟨.error e,tr,[],(List.append_nil tr).symm,hp,.ret _⟩

/-- A program without errors, among those that may fail. -/
theorem runs_lift {p : Prog E R α} {r : Except ε α} :
    Runs (ExceptT.lift p : Proc E R ε α).run tr r ↔ ∃ a, r = .ok a ∧ Runs p tr a := by
  change Runs (p >>= fun a => .ret (.ok a)) tr r ↔ _
  rw [runs_bind]
  constructor
  · rintro ⟨a,tr₁,tr₂,rfl,hp,hr⟩
    obtain ⟨rfl,rfl⟩ := runs_ret.mp hr
    exact ⟨a,rfl,by rwa [List.append_nil]⟩
  · rintro ⟨a,rfl,hp⟩
    exact ⟨a,tr,[],(List.append_nil tr).symm,hp,.ret _⟩

/-- What holds of every operation that a program can issue holds along its runs. -/
theorem Runs.all {A : E → Prop} {p : Prog E R α} (h : Runs p tr a) (hp : All A p) :
    ∀ x ∈ tr, A x.1 := by
  induction h with
  | ret a => exact nofun
  | op h ih => exact List.forall_mem_cons.mpr ⟨hp.1,ih (hp.2 _)⟩

end Inversion

section Played

end Played

section Guarded
variable {G : List (Exchange E R) → E → Prop} {tr before : List (Exchange E R)} {a : α}

/-- An operation is allowed by what was done before it, and is added to that with its answer. -/
def guarded (G : List (Exchange E R) → E → Prop) : Spec E R (List (Exchange E R)) where
  pre := G
  post tr e r tr' := tr' = tr ++ [⟨e,r⟩]

theorem wp_guarded_perform {e : E} {Q : R e → List (Exchange E R) → Prop} (hG : G before e)
    (hQ : ∀ r, Q r (before ++ [⟨e,r⟩])) : wp (guarded G) (.perform e) Q before := by
  refine ⟨hG,?_⟩
  rintro r tr' rfl
  exact hQ r

/-- Along every run of a program that keeps to `G`, each operation is allowed. -/
theorem runs_of_wp {p : Prog E R α} {Q : α → List (Exchange E R) → Prop}
    (h : wp (guarded G) p Q before) (hr : Runs p tr a) : Q a (before ++ tr) ∧
      ∀ earlier e r later, tr = earlier ++ ⟨e,r⟩::later → G (before ++ earlier) e := by
  induction hr generalizing before with
  | ret a =>
    rw [List.append_nil]
    refine ⟨h,fun earlier e r later heq => ?_⟩
    exact absurd heq (by simp)
  | @op e k r tr a hk ih =>
    obtain ⟨hG,hrest⟩ := h
    obtain ⟨hQ,hlater⟩ := ih (hrest r _ rfl)
    rw [List.append_assoc,List.singleton_append] at hQ
    refine ⟨hQ,fun earlier e' r' later heq => ?_⟩
    cases earlier with
    | nil =>
      cases heq
      rwa [List.append_nil]
    | cons x earlier =>
      obtain ⟨hx,htail⟩ := List.cons.inj heq
      subst hx
      have hlast := hlater earlier e' r' later htail
      rwa [List.append_assoc,List.singleton_append] at hlast

end Guarded

section Handled
variable {E' : Type} {R' : E' → Type}

/-- The program with a program of another interface in the place of each operation. -/
def Prog.through (f : ∀ e, Prog E' R' (R e)) : Prog E R α → Prog E' R' α
  | .ret a => .ret a
  | .op e k => f e >>= fun r => (k r).through f

/-- What holds of the program holds of it carried out, when each operation's program does what the
operation is specified to do. -/
theorem wp_through {σ σ' : Type} {S : Spec E R σ} {T : Spec E' R' σ'} {f : ∀ e, Prog E' R' (R e)}
    (lift : σ → σ') (hf : ∀ e s, S.pre s e →
      wp T (f e) (fun r s' => ∃ t, s' = lift t ∧ S.post s e r t) (lift s))
    {p : Prog E R α} {Q : α → σ → Prop} {s : σ} (h : wp S p Q s) :
    wp T (p.through f) (fun a s' => ∃ t, s' = lift t ∧ Q a t) (lift s) := by
  induction p generalizing s with
  | ret a => exact ⟨s,rfl,h⟩
  | op e k ih =>
    refine wp_seq (hf e s h.1) fun r s' hr => ?_
    obtain ⟨t,rfl,hpost⟩ := hr
    exact ih r (h.2 r t hpost)

end Handled
end Kuadrat.Effect
