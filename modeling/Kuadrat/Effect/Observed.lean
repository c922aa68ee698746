import Kuadrat.Effect.Pool

/-!
# Notes beside a pool

An observer writes down what the threads of a pool do. It sees every operation with its answer
and has no part in them: without its notes, a run that it has seen is a run of the pool.
-/
namespace Kuadrat.Effect.Pool

variable {E : Type} {R : E → Type} {X σ τ : Type}

/-- What is noted when thread `i` has its answer, and when it leaves; the shared state is the
one before that. -/
structure Observer (E : Type) (R : E → Type) (σ τ : Type) where
  record : τ → σ → ℕ → (e : E) → R e → τ
  leave : τ → σ → ℕ → τ

def observed (P : Pool E R X σ) (O : Observer E R σ τ) : Pool E R X (σ × τ) where
  answer s i e x := (P.answer s.1 i e x).map fun rt => (rt.1,rt.2,O.record s.2 s.1 i e rt.1)
  child := P.child
  handOver s i j e := (P.handOver s.1 i j e,s.2)
  leave s i := (P.leave s.1 i,O.leave s.2 s.1 i)
  child_runs := P.child_runs

/-- The state without the notes. -/
def State.bare (s : State E R (σ × τ)) : State E R σ := ⟨s.shared.1,s.threads⟩

section Erase
variable {P : Pool E R X σ} {O : Observer E R σ τ} {s t : State E R (σ × τ)}

theorem observed_answer {st st' : σ × τ} {i : ℕ} {e : E} {x : X} {r : R e}
    (h : (P.observed O).answer st i e x = some (r,st')) :
    P.answer st.1 i e x = some (r,st'.1) ∧ st'.2 = O.record st.2 st.1 i e r := by
  obtain ⟨⟨r',t⟩,ha,heq⟩ := Option.map_eq_some_iff.mp h
  cases heq
  exact ⟨ha,rfl⟩

theorem bare_put (s : State E R (σ × τ)) (i : ℕ) (p : Prog E R Unit) :
    ((P.observed O).put s i p).bare = P.put s.bare i p := by
  simp only [put,State.bare]
  split <;> rfl

/-- The notes change nothing about what the threads can do. -/
theorem observed_step {mv : Move E R X} (h : (P.observed O).step s mv = some t) :
    P.step s.bare mv = some t.bare := by
  cases mv with
  | enter i p =>
    obtain ⟨hi,rfl⟩ := step_enter h
    rw [bare_put]
    exact if_pos hi
  | run i x =>
    obtain ⟨e,k,r,st,hi,hchild,hanswer,rfl⟩ := step_run h
    rw [bare_put]
    have hi' : s.bare.threads i = .op e k := hi
    have hchild' : P.child e = none := hchild
    have ha := (observed_answer hanswer).1
    simp only [step,hi',hchild']
    rw [show P.answer s.bare.shared i e x = _ from ha]
    rfl
  | fork i j x =>
    obtain ⟨e,k,p,r,st,hi,hchild,hj,hne,hanswer,rfl⟩ := step_fork h
    rw [bare_put]
    have hi' : s.bare.threads i = .op e k := hi
    have hchild' : P.child e = some p := hchild
    have hj' : (s.bare.threads j).ended = true := hj
    have ha := (observed_answer hanswer).1
    simp only [step,hi',hchild',hj',hne,ne_eq,not_false_eq_true,and_self,if_true]
    rw [show P.answer s.bare.shared i e x = _ from ha]
    rfl
  | drop i =>
    cases h
    rw [bare_put]
    rfl

/-- Without the notes, a run that was observed is a run of the pool. -/
theorem observed_run {allow : State E R (σ × τ) → Move E R X → Prop}
    {allow' : State E R σ → Move E R X → Prop} (hallow : ∀ s mv, allow s mv → allow' s.bare mv)
    (h : (P.observed O).Run allow s t) : P.Run allow' s.bare t.bare := by
  induction h with
  | refl => exact .refl
  | tail _ hstep ih =>
    obtain ⟨mv,hmv,hstep⟩ := hstep
    exact .tail ih ⟨mv,hallow _ mv hmv,observed_step hstep⟩

end Erase
end Kuadrat.Effect.Pool
