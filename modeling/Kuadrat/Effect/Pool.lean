import Kuadrat.Effect.Segment
import Kuadrat.Effect.Program

/-!
# Programs running side by side

A pool runs any number of programs over one shared state, one operation of one of them at
a time. A specification of the operations, as one thread sees them, carries over to the
pool when every step keeps an invariant of the shared state and of what each thread knows.
-/
namespace Kuadrat.Effect

namespace Prog
variable {E : Type} {R : E → Type} {α : Type}

def ended : Prog E R α → Bool
  | ret _ => true
  | op .. => false

end Prog

/-- What the operations do to the shared state: thread `i` issues `e`, and `x` is what the
environment makes of it. Some operations start another program in a thread of its own, to
which thread `i` may hand something over; a thread that ends, or is dropped, leaves. -/
structure Pool (E : Type) (R : E → Type) (X σ : Type) where
  answer : σ → ℕ → (e : E) → X → Option (R e × σ)
  child : E → Option (Prog E R Unit)
  handOver : σ → ℕ → ℕ → E → σ
  leave : σ → ℕ → σ
  child_runs : ∀ e p, child e = some p → p.ended = false

/-- An entry of a table in which only that of `i` was changed. -/
theorem update_cases {ι α : Type} [DecidableEq ι] {f : ι → α} {i j : ι} {x y : α}
    (h : Function.update f i x j = y) : (j = i ∧ x = y) ∨ (j ≠ i ∧ f j = y) := by
  rw [Function.update_apply] at h
  exact ite_eq_iff.mp h

namespace Pool
variable {E : Type} {R : E → Type} {X σ M : Type}

structure State (E : Type) (R : E → Type) (σ : Type) where
  shared : σ
  threads : ℕ → Prog E R Unit

inductive Move (E : Type) (R : E → Type) (X : Type)
  | enter (i : ℕ) (p : Prog E R Unit)
  | run (i : ℕ) (x : X)
  | fork (i j : ℕ) (x : X)
  | drop (i : ℕ)

variable (P : Pool E R X σ)

/-- Thread `i` goes on with `p`; it leaves when there is nothing left to do. -/
def put (s : State E R σ) (i : ℕ) (p : Prog E R Unit) : State E R σ where
  shared := if p.ended then P.leave s.shared i else s.shared
  threads := Function.update s.threads i p

def step (s : State E R σ) : Move E R X → Option (State E R σ)
  | .enter i p => if (s.threads i).ended then some (P.put s i p) else none
  | .run i x =>
    match s.threads i with
    | .ret _ => none
    | .op e k => match P.child e with
      | some _ => none
      | none => (P.answer s.shared i e x).map fun rs => P.put ⟨rs.2,s.threads⟩ i (k rs.1)
  | .fork i j x =>
    match s.threads i with
    | .ret _ => none
    | .op e k => match P.child e with
      | none => none
      | some p =>
        if (s.threads j).ended ∧ j ≠ i then
          (P.answer s.shared i e x).map fun rs =>
            P.put ⟨P.handOver rs.2 i j e,Function.update s.threads j p⟩ i (k rs.1)
        else none
  | .drop i => some (P.put s i (.ret ()))

section Cases
variable {P} {s s' : State E R σ} {i j : ℕ} {x : X}

theorem step_enter {p : Prog E R Unit} (h : P.step s (.enter i p) = some s') :
    (s.threads i).ended ∧ s' = P.put s i p := by
  simp only [step,Option.ite_none_right_eq_some,Option.some.injEq] at h
  exact ⟨h.1,h.2.symm⟩

theorem step_run (h : P.step s (.run i x) = some s') : ∃ e k r t, s.threads i = .op e k ∧
    P.child e = none ∧ P.answer s.shared i e x = some (r,t) ∧
    s' = P.put ⟨t,s.threads⟩ i (k r) := by
  simp only [step] at h
  split at h
  · cases h
  · rename_i e k hi
    split at h
    · cases h
    · rename_i hchild
      obtain ⟨⟨r,t⟩,hanswer,rfl⟩ := Option.map_eq_some_iff.mp h
      exact ⟨e,k,r,t,hi,hchild,hanswer,rfl⟩

theorem step_fork (h : P.step s (.fork i j x) = some s') : ∃ e k p r t, s.threads i = .op e k ∧
    P.child e = some p ∧ (s.threads j).ended ∧ j ≠ i ∧ P.answer s.shared i e x = some (r,t) ∧
    s' = P.put ⟨P.handOver t i j e,Function.update s.threads j p⟩ i (k r) := by
  simp only [step] at h
  split at h
  · cases h
  · rename_i e k hi
    split at h
    · cases h
    · rename_i p hchild
      obtain ⟨⟨hj,hne⟩,h⟩ := Option.ite_none_right_eq_some.mp h
      obtain ⟨⟨r,t⟩,hanswer,rfl⟩ := Option.map_eq_some_iff.mp h
      exact ⟨e,k,p,r,t,hi,hchild,hj,hne,hanswer,rfl⟩

end Cases

/-- A step that `allow` permits. -/
def Step (allow : State E R σ → Move E R X → Prop) (s s' : State E R σ) : Prop :=
  ∃ mv, allow s mv ∧ P.step s mv = some s'

/-- Any number of steps that `allow` permits. -/
def Run (allow : State E R σ → Move E R X → Prop) : State E R σ → State E R σ → Prop :=
  Relation.ReflTransGen (P.Step allow)

/-- The moves of a list, one after the other. -/
def advance : List (Move E R X) → State E R σ → Option (State E R σ)
  | [], s => some s
  | mv::moves, s => (P.step s mv).bind (advance moves)

theorem run_of_advance {allow : State E R σ → Move E R X → Prop} {moves : List (Move E R X)}
    (hallow : ∀ s, ∀ mv ∈ moves, allow s mv) {s s' : State E R σ}
    (h : P.advance moves s = some s') : P.Run allow s s' := by
  induction moves generalizing s with
  | nil =>
    cases h
    exact .refl
  | cons mv moves ih =>
    obtain ⟨t,ht,hrest⟩ := Option.bind_eq_some_iff.mp h
    exact .head ⟨mv,hallow s mv (by simp),ht⟩ (ih (fun s mv' h => hallow s mv' (by simp [h])) hrest)

section Protocol
variable (T : Spec E R M) (rest : M) (fin : M → Prop) (G : (ℕ → M) → σ → Prop)

/-- The threads follow the specification `T`, each from what it knows. -/
structure Meets (memo : ℕ → M) (s : State E R σ) : Prop where
  inv : G memo s.shared
  follows : ∀ i, wp T (s.threads i) (fun _ => fin) (memo i)
  gone : ∀ i, (s.threads i).ended → memo i = rest

/-- What each kind of step has to keep: `T` describes it as its thread sees it, and `G`
relates what the threads know to the shared state. -/
structure Upholds (allow : State E R σ → Move E R X → Prop) : Prop where
  fin_rest : fin rest
  leave : ∀ memo t i, G memo t → fin (memo i) → G (Function.update memo i rest) (P.leave t i)
  enter : ∀ memo s i p, Meets T rest fin G memo s → (s.threads i).ended → allow s (.enter i p) →
    ∃ m, wp T p (fun _ => fin) m ∧ G (Function.update memo i m) s.shared
  run : ∀ memo s i e k x r t, Meets T rest fin G memo s → s.threads i = .op e k →
    P.child e = none → T.pre (memo i) e → allow s (.run i x) →
    P.answer s.shared i e x = some (r,t) →
    ∃ m, T.post (memo i) e r m ∧ G (Function.update memo i m) t
  fork : ∀ memo s i j e k p x r t, Meets T rest fin G memo s → s.threads i = .op e k →
    P.child e = some p → (s.threads j).ended → j ≠ i → T.pre (memo i) e →
    allow s (.fork i j x) → P.answer s.shared i e x = some (r,t) →
    ∃ m n, T.post (memo i) e r m ∧ wp T p (fun _ => fin) n ∧
      G (Function.update (Function.update memo j n) i m) (P.handOver t i j e)
  drop : ∀ memo s i, Meets T rest fin G memo s → allow s (.drop i) →
    G (Function.update memo i rest) (P.leave s.shared i)

variable {P T rest fin G} {allow : State E R σ → Move E R X → Prop}

/-- One thread goes on, in a state where all the others follow the specification. -/
theorem Upholds.put (h : P.Upholds T rest fin G allow) {memo : ℕ → M} {s : State E R σ} {i : ℕ}
    {p : Prog E R Unit} (hinv : G memo s.shared) (hp : wp T p (fun _ => fin) (memo i))
    (hothers : ∀ j, j ≠ i → wp T (s.threads j) (fun _ => fin) (memo j) ∧
      ((s.threads j).ended → memo j = rest)) :
    ∃ memo', Meets T rest fin G memo' (P.put s i p) := by
  cases p with
  | ret a =>
    refine ⟨Function.update memo i rest,h.leave memo s.shared i hinv hp,fun j => ?_,fun j hj => ?_⟩
    · by_cases hji : j = i
      · subst hji
        simpa [Pool.put] using h.fin_rest
      · simpa [Pool.put,hji] using (hothers j hji).1
    · by_cases hji : j = i
      · simp [hji]
      · simp only [Pool.put,Function.update_of_ne hji] at hj
        rw [Function.update_of_ne hji]
        exact (hothers j hji).2 hj
  | op e k =>
    refine ⟨memo,hinv,fun j => ?_,fun j hj => ?_⟩
    · by_cases hji : j = i
      · subst hji
        simpa [Pool.put] using hp
      · simpa [Pool.put,hji] using (hothers j hji).1
    · by_cases hji : j = i
      · subst hji
        simp [Pool.put,Prog.ended] at hj
      · simp only [Pool.put,Function.update_of_ne hji] at hj
        exact (hothers j hji).2 hj

theorem Upholds.step (h : P.Upholds T rest fin G allow) {memo : ℕ → M} {s s' : State E R σ}
    (hm : Meets T rest fin G memo s) (hs : P.Step allow s s') :
    ∃ memo', Meets T rest fin G memo' s' := by
  obtain ⟨mv,hallow,hmv⟩ := hs
  cases mv with
  | enter i p =>
    obtain ⟨hi,rfl⟩ := step_enter hmv
    obtain ⟨m,hp,hinv⟩ := h.enter memo s i p hm hi hallow
    refine h.put hinv (by simpa using hp) fun j hj => ?_
    rw [Function.update_of_ne hj]
    exact ⟨hm.follows j,hm.gone j⟩
  | run i x =>
    obtain ⟨e,k,r,t,hi,hchild,hanswer,rfl⟩ := step_run hmv
    have hfollow := hm.follows i
    rw [hi] at hfollow
    obtain ⟨m,hpost,hinv⟩ := h.run memo s i e k x r t hm hi hchild hfollow.1 hallow hanswer
    refine h.put hinv (by simpa using hfollow.2 r m hpost) fun j hj => ?_
    rw [Function.update_of_ne hj]
    exact ⟨hm.follows j,hm.gone j⟩
  | fork i j x =>
    obtain ⟨e,k,p,r,t,hi,hchild,hj,hne,hanswer,rfl⟩ := step_fork hmv
    have hfollow := hm.follows i
    rw [hi] at hfollow
    obtain ⟨m,n,hpost,hn,hinv⟩ :=
      h.fork memo s i j e k p x r t hm hi hchild hj hne hfollow.1 hallow hanswer
    refine h.put hinv (by simpa using hfollow.2 r m hpost) fun l hl => ?_
    rw [Function.update_of_ne hl]
    by_cases hlj : l = j
    · subst hlj
      simp [hn,P.child_runs e p hchild]
    · simp only [Function.update_of_ne hlj]
      exact ⟨hm.follows l,hm.gone l⟩
  | drop i =>
    cases hmv
    refine ⟨Function.update memo i rest,h.drop memo s i hm hallow,fun j => ?_,fun j hj => ?_⟩
    · by_cases hji : j = i
      · subst hji
        simpa [Pool.put] using h.fin_rest
      · simpa [Pool.put,hji] using hm.follows j
    · by_cases hji : j = i
      · simp [hji]
      · simp only [Pool.put,Function.update_of_ne hji] at hj
        rw [Function.update_of_ne hji]
        exact hm.gone j hj

/-- Whatever the order of the steps, the threads follow the specification throughout. -/
theorem Upholds.reachable (h : P.Upholds T rest fin G allow) {memo : ℕ → M}
    {s s' : State E R σ} (hm : Meets T rest fin G memo s) (hrun : P.Run allow s s') :
    ∃ memo', Meets T rest fin G memo' s' :=
  run_induction (fun t => ∃ memo', Meets T rest fin G memo' t) ⟨memo,hm⟩
    (fun _ _ ⟨_,ht⟩ hs => h.step ht hs) hrun

/-- Nothing runs yet. -/
def idle (t : σ) : State E R σ := ⟨t,fun _ => .ret ()⟩

theorem meets_idle {t : σ} (hrest : fin rest) (hinv : G (fun _ => rest) t) :
    Meets (E := E) (R := R) T rest fin G (fun _ => rest) (idle t) :=
  ⟨hinv,fun _ => hrest,fun _ _ => rfl⟩

end Protocol
end Pool
end Kuadrat.Effect
