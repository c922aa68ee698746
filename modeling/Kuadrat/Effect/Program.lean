import Mathlib.Logic.Basic
import Mathlib.Control.Basic

/-!
# Effectful programs and their weakest preconditions

A program is a tree of operations: every operation is answered by its
environment, and the answer selects the rest of the program. A `Spec` says what
a state must satisfy when an operation is issued and which answers and states
may follow it; `wp` is the demonic weakest precondition of a tree for a `Spec`.
-/
namespace Kuadrat.Effect

/-- A program over operations `E`; an operation `e` is answered by a value of `R e`. -/
inductive Prog (E : Type) (R : E → Type) (α : Type) : Type
  | ret (a : α)
  | op (e : E) (k : R e → Prog E R α)

/-- A program that may end early with an error of type `ε`. -/
abbrev Proc (E : Type) (R : E → Type) (ε α : Type) := ExceptT ε (Prog E R) α

namespace Prog
variable {E : Type} {R : E → Type} {ε α β : Type}

def bind : Prog E R α → (α → Prog E R β) → Prog E R β
  | ret a, f => f a
  | op e k, f => op e (fun r => (k r).bind f)

instance : Monad (Prog E R) where
  pure := ret
  bind := bind

@[simp] theorem pure_eq (a : α) : (pure a : Prog E R α) = ret a := rfl
@[simp] theorem ret_bind (a : α) (f : α → Prog E R β) : (ret a >>= f) = f a := rfl
@[simp] theorem op_bind (e : E) (k : R e → Prog E R α) (f : α → Prog E R β) :
    (op e k >>= f) = op e (fun r => k r >>= f) := rfl

theorem bind_ret (p : Prog E R α) : (p >>= ret) = p := by
  induction p with
  | ret a => rfl
  | op e k ih =>
    rw [op_bind]
    congr 1
    funext r
    exact ih r

theorem bind_bind {γ : Type} (p : Prog E R α) (f : α → Prog E R β) (g : β → Prog E R γ) :
    (p >>= f >>= g) = p >>= fun a => f a >>= g := by
  induction p with
  | ret a => rfl
  | op e k ih =>
    simp only [op_bind]
    congr 1
    funext r
    exact ih r

instance : LawfulMonad (Prog E R) :=
  LawfulMonad.mk' _ bind_ret (fun _ _ => rfl) bind_bind

/-- The program that issues one operation and returns its answer. -/
def perform (e : E) : Prog E R (R e) := op e ret

/-- What a caller does with the result of a fallible program: an error skips the rest. -/
def orElse (f : α → Prog E R (Except ε β)) : Except ε α → Prog E R (Except ε β)
  | .ok a => f a
  | .error e => ret (.error e)

@[simp] theorem orElse_ok (f : α → Prog E R (Except ε β)) (a : α) : orElse f (.ok a) = f a := rfl
@[simp] theorem orElse_error (f : α → Prog E R (Except ε β)) (e : ε) :
    orElse f (.error e) = ret (.error e) := rfl

@[simp] theorem run_bind (p : Proc E R ε α) (f : α → Proc E R ε β) :
    (p >>= f).run = p.run >>= orElse (fun a => (f a).run) := by
  change (p.run >>= ExceptT.bindCont f) = _
  congr 1

end Prog

namespace Proc
variable {E : Type} {R : E → Type} {ε ε' α : Type}

/-- Run a program to its result, success or error, and go on either way. -/
def result (p : Proc E R ε α) : Proc E R ε (Except ε α) := .mk (p.run >>= fun r => .ret (.ok r))

def mapError (f : ε → ε') (p : Proc E R ε α) : Proc E R ε' α :=
  .mk (p.run >>= fun r => .ret (r.mapError f))

@[simp] theorem run_result (p : Proc E R ε α) :
    p.result.run = p.run >>= fun r => .ret (.ok r) := rfl
@[simp] theorem run_mapError (f : ε → ε') (p : Proc E R ε α) :
    (p.mapError f).run = p.run >>= fun r => .ret (r.mapError f) := rfl

end Proc

/-- What is known of an operation: `pre s e` must hold when `e` is issued in state `s`,
and `post s e r s'` says that `e` may be answered by `r` leading to state `s'`. -/
structure Spec (E : Type) (R : E → Type) (σ : Type) where
  pre : σ → E → Prop
  post : σ → (e : E) → R e → σ → Prop

section WeakestPrecondition
variable {E : Type} {R : E → Type} {ε α β σ : Type} (T : Spec E R σ)

def wp : Prog E R α → (α → σ → Prop) → σ → Prop
  | .ret a, Q, s => Q a s
  | .op e k, Q, s => T.pre s e ∧ ∀ r s', T.post s e r s' → wp (k r) Q s'

variable {T}

@[simp] theorem wp_ret (a : α) (Q : α → σ → Prop) (s : σ) :
    wp T (.ret a) Q s ↔ Q a s := Iff.rfl

theorem wp_op (e : E) (k : R e → Prog E R α) (Q : α → σ → Prop) (s : σ) :
    wp T (.op e k) Q s ↔ T.pre s e ∧ ∀ r s', T.post s e r s' → wp T (k r) Q s' := Iff.rfl

@[simp] theorem wp_bind (p : Prog E R α) (f : α → Prog E R β) (Q : β → σ → Prop) (s : σ) :
    wp T (p >>= f) Q s ↔ wp T p (fun a => wp T (f a) Q) s := by
  induction p generalizing s with
  | ret a => rfl
  | op e k ih => simp only [Prog.op_bind,wp_op,ih]

theorem wp_mono {p : Prog E R α} {Q Q' : α → σ → Prop} {s : σ}
    (h : wp T p Q s) (hq : ∀ a s', Q a s' → Q' a s') : wp T p Q' s := by
  induction p generalizing s with
  | ret a => exact hq a s h
  | op e k ih => exact ⟨h.1,fun r s' hr => ih r (h.2 r s' hr)⟩

theorem wp_and {p : Prog E R α} {Q Q' : α → σ → Prop} {s : σ}
    (h : wp T p Q s) (h' : wp T p Q' s) : wp T p (fun a s' => Q a s' ∧ Q' a s') s := by
  induction p generalizing s with
  | ret a => exact ⟨h,h'⟩
  | op e k ih => exact ⟨h.1,fun r s' hr => ih r (h.2 r s' hr) (h'.2 r s' hr)⟩

/-- An environment that answers every operation brings every program to some end. -/
theorem exists_of_wp (hanswer : ∀ s e, ∃ r s', T.post s e r s') {p : Prog E R α}
    {Q : α → σ → Prop} {s : σ} (h : wp T p Q s) : ∃ a s', Q a s' := by
  induction p generalizing s with
  | ret a => exact ⟨a,s,h⟩
  | op e k ih =>
    obtain ⟨r,s',hr⟩ := hanswer s e
    exact ih r (h.2 r s' hr)

/-- The rule of sequence: a program's result is used through its own specification. -/
theorem wp_seq {p : Prog E R α} {f : α → Prog E R β} {P : α → σ → Prop}
    {Q : β → σ → Prop} {s : σ} (h : wp T p P s) (hf : ∀ a s', P a s' → wp T (f a) Q s') :
    wp T (p >>= f) Q s :=
  (wp_bind p f Q s).mpr (wp_mono h hf)

/-- The rule of sequence for fallible programs, with the error passed on. -/
theorem wp_run_seq {p : Proc E R ε α} {f : α → Proc E R ε β} {P : Except ε α → σ → Prop}
    {Q : Except ε β → σ → Prop} {s : σ} (h : wp T p.run P s)
    (hok : ∀ a s', P (.ok a) s' → wp T (f a).run Q s')
    (herr : ∀ e s', P (.error e) s' → Q (.error e) s') : wp T (p >>= f).run Q s := by
  rw [Prog.run_bind]
  refine wp_seq h fun r s' hr => ?_
  cases r with
  | ok a => exact hok a s' hr
  | error e => exact herr e s' hr

theorem wp_result {p : Proc E R ε α} {Q : Except ε (Except ε α) → σ → Prop} {s : σ} :
    wp T p.result.run Q s ↔ wp T p.run (fun r => Q (.ok r)) s := by
  rw [Proc.run_result,wp_bind]
  rfl

/-- Both outcomes of a program that is run to its result go on. -/
theorem wp_result_seq {p : Proc E R ε α} {f : Except ε α → Proc E R ε β}
    {P : Except ε α → σ → Prop} {Q : Except ε β → σ → Prop} {s : σ} (h : wp T p.run P s)
    (hf : ∀ r s', P r s' → wp T (f r).run Q s') : wp T (p.result >>= f).run Q s := by
  rw [Prog.run_bind,Proc.run_result,wp_bind,wp_bind]
  exact wp_mono h hf

/-- The rule of a loop over a list: `I` speaks of the elements still to come. -/
theorem wp_forM {l : List α} {f : α → Proc E R ε PUnit} (I : List α → σ → Prop)
    {Q : Except ε PUnit → σ → Prop} {s : σ} (hs : I l s)
    (hstep : ∀ a rest s, I (a::rest) s →
      wp T (f a).run (fun r s' => match r with
        | .ok _ => I rest s'
        | .error e => Q (.error e) s') s)
    (hend : ∀ s, I [] s → Q (.ok ⟨⟩) s) : wp T (forM l f).run Q s := by
  induction l generalizing s with
  | nil => exact hend s hs
  | cons a rest ih =>
    rw [List.forM_cons]
    exact wp_run_seq (hstep a rest s hs) (fun _ s' h => ih h) (fun _ _ h => h)

/-- The rule of an accumulating loop over a list. -/
theorem wp_foldlM {l : List α} {f : β → α → Proc E R ε β} (I : List α → β → σ → Prop)
    {Q : Except ε β → σ → Prop} {b : β} {s : σ} (hs : I l b s)
    (hstep : ∀ a rest b s, I (a::rest) b s →
      wp T (f b a).run (fun r s' => match r with
        | .ok b' => I rest b' s'
        | .error e => Q (.error e) s') s)
    (hend : ∀ b s, I [] b s → Q (.ok b) s) : wp T (l.foldlM f b).run Q s := by
  induction l generalizing b s with
  | nil => exact hend b s hs
  | cons a rest ih =>
    rw [List.foldlM_cons]
    exact wp_run_seq (hstep a rest b s hs) (fun _ _ h => ih h) (fun _ _ h => h)

end WeakestPrecondition

section Success
variable {E : Type} {R : E → Type} {ε α β σ : Type} (T : Spec E R σ)

/-- What holds of the result when the program succeeds; an error promises nothing. -/
def wpOk (p : Proc E R ε α) (Q : α → σ → Prop) (s : σ) : Prop :=
  wp T p.run (fun r s' => ∀ a, r = .ok a → Q a s') s

variable {T}

@[simp] theorem wpOk_pure (a : α) (Q : α → σ → Prop) (s : σ) :
    wpOk T (pure a : Proc E R ε α) Q s ↔ Q a s := by
  constructor
  · intro h
    exact h a rfl
  · intro h b hb
    cases hb
    exact h

@[simp] theorem wpOk_throw (e : ε) (Q : α → σ → Prop) (s : σ) :
    wpOk T (throw e : Proc E R ε α) Q s := by
  intro a ha
  cases ha

theorem wpOk_bind {p : Proc E R ε α} {f : α → Proc E R ε β} {Q : β → σ → Prop} {s : σ}
    (h : wpOk T p (fun a s' => wpOk T (f a) Q s') s) : wpOk T (p >>= f) Q s :=
  wp_run_seq h (fun a _ ha => ha a rfl) (fun _ _ _ a ha => by cases ha)

theorem wpOk_mono {p : Proc E R ε α} {Q Q' : α → σ → Prop} {s : σ}
    (h : wpOk T p Q s) (hq : ∀ a s', Q a s' → Q' a s') : wpOk T p Q' s :=
  wp_mono h fun _ s' hr a ha => hq a s' (hr a ha)

theorem wpOk_seq {p : Proc E R ε α} {f : α → Proc E R ε β} {P : α → σ → Prop}
    {Q : β → σ → Prop} {s : σ} (h : wpOk T p P s) (hf : ∀ a s', P a s' → wpOk T (f a) Q s') :
    wpOk T (p >>= f) Q s :=
  wpOk_bind (wpOk_mono h hf)

theorem wpOk_and {p : Proc E R ε α} {Q Q' : α → σ → Prop} {s : σ}
    (h : wpOk T p Q s) (h' : wpOk T p Q' s) : wpOk T p (fun a s' => Q a s' ∧ Q' a s') s :=
  wp_mono (wp_and h h') fun _ _ hr a ha => ⟨hr.1 a ha,hr.2 a ha⟩

/-- What holds however the program ends holds when it succeeds. -/
theorem wpOk_of_wp {p : Proc E R ε α} {I : σ → Prop} {s : σ} (h : wp T p.run (fun _ => I) s) :
    wpOk T p (fun _ => I) s :=
  wp_mono h fun _ _ hi _ _ => hi

@[simp] theorem wpOk_result (p : Proc E R ε α) (Q : Except ε α → σ → Prop) (s : σ) :
    wpOk T p.result Q s ↔ wp T p.run Q s := by
  unfold wpOk
  rw [Proc.run_result,wp_bind]
  constructor
  · exact fun h => wp_mono h fun a s' ha => ha a rfl
  · exact fun h => wp_mono h fun a s' ha b hb => by cases hb; exact ha

theorem wpOk_foldlM {l : List α} {f : β → α → Proc E R ε β} (I : List α → β → σ → Prop)
    {Q : β → σ → Prop} {b : β} {s : σ} (hs : I l b s)
    (hstep : ∀ a rest b s, I (a::rest) b s → wpOk T (f b a) (I rest) s)
    (hend : ∀ b s, I [] b s → Q b s) : wpOk T (l.foldlM f b) Q s := by
  induction l generalizing b s with
  | nil => exact (wpOk_pure b Q s).mpr (hend b s hs)
  | cons a rest ih =>
    rw [List.foldlM_cons]
    exact wpOk_seq (hstep a rest b s hs) fun b' s' h => ih h

theorem wpOk_forM {l : List α} {f : α → Proc E R ε PUnit} (I : List α → σ → Prop)
    {Q : PUnit → σ → Prop} {s : σ} (hs : I l s)
    (hstep : ∀ a rest s, I (a::rest) s → wpOk T (f a) (fun _ => I rest) s)
    (hend : ∀ s, I [] s → Q ⟨⟩ s) : wpOk T (forM l f) Q s := by
  induction l generalizing s with
  | nil => exact (wpOk_pure _ Q s).mpr (hend s hs)
  | cons a rest ih =>
    rw [List.forM_cons]
    exact wpOk_seq (hstep a rest s hs) fun _ s' h => ih h

end Success

section Sure
variable {E : Type} {R : E → Type} {ε α β σ : Type} (T : Spec E R σ)

/-- The program succeeds, whatever the answers, and ends in `Q`. -/
def wpSure (p : Proc E R ε α) (Q : α → σ → Prop) (s : σ) : Prop :=
  wp T p.run (fun r s' => ∃ a, r = .ok a ∧ Q a s') s

variable {T}

theorem wpSure_pure {a : α} {Q : α → σ → Prop} {s : σ} (h : Q a s) :
    wpSure T (pure a : Proc E R ε α) Q s := ⟨a,rfl,h⟩

theorem wpSure_mono {p : Proc E R ε α} {Q Q' : α → σ → Prop} {s : σ} (h : wpSure T p Q s)
    (hq : ∀ a s', Q a s' → Q' a s') : wpSure T p Q' s :=
  wp_mono h fun _ _ hr => hr.imp fun a ha => ⟨ha.1,hq a _ ha.2⟩

theorem wpSure_seq {p : Proc E R ε α} {f : α → Proc E R ε β} {P : α → σ → Prop}
    {Q : β → σ → Prop} {s : σ} (h : wpSure T p P s)
    (hf : ∀ a s', P a s' → wpSure T (f a) Q s') : wpSure T (p >>= f) Q s := by
  refine wp_run_seq h (fun a s' ha => ?_) fun e s' he => ?_
  · obtain ⟨b,hb,hP⟩ := ha
    cases hb
    exact hf _ s' hP
  · obtain ⟨b,hb,-⟩ := he
    cases hb

/-- Running a program to its result cannot fail. -/
theorem wpSure_result {p : Proc E R ε α} {Q : Except ε α → σ → Prop} {s : σ}
    (h : wp T p.run Q s) : wpSure T p.result Q s :=
  wp_result.mpr (wp_mono h fun r _ hr => ⟨r,rfl,hr⟩)

theorem wpSure_mapError {ε' : Type} {p : Proc E R ε α} {f : ε → ε'} {Q : α → σ → Prop} {s : σ}
    (h : wpSure T p Q s) : wpSure T (p.mapError f) Q s := by
  unfold wpSure
  rw [Proc.run_mapError]
  refine wp_seq h fun r s' hr => ?_
  obtain ⟨a,rfl,hq⟩ := hr
  exact ⟨a,rfl,hq⟩

theorem wpSure_foldlM {l : List α} {f : β → α → Proc E R ε β} (I : List α → β → σ → Prop)
    {Q : β → σ → Prop} {b : β} {s : σ} (hs : I l b s)
    (hstep : ∀ a rest b s, I (a::rest) b s → wpSure T (f b a) (I rest) s)
    (hend : ∀ b s, I [] b s → Q b s) : wpSure T (l.foldlM f b) Q s := by
  induction l generalizing b s with
  | nil => exact wpSure_pure (hend b s hs)
  | cons a rest ih =>
    rw [List.foldlM_cons]
    exact wpSure_seq (hstep a rest b s hs) fun b' s' h => ih h

end Sure

section Syntactic
variable {E : Type} {R : E → Type} {ε α β σ : Type}

/-- Every operation the program can issue, whatever the answers, satisfies `A`. -/
def All (A : E → Prop) : Prog E R α → Prop
  | .ret _ => True
  | .op e k => A e ∧ ∀ r, All A (k r)

variable {A B : E → Prop}

theorem all_perform {e : E} (h : A e) : All A (.perform e : Prog E R (R e)) :=
  ⟨h,fun _ => trivial⟩

theorem all_bind {p : Prog E R α} {f : α → Prog E R β}
    (hp : All A p) (hf : ∀ a, All A (f a)) : All A (p >>= f) := by
  induction p with
  | ret a => exact hf a
  | op e k ih => exact ⟨hp.1,fun r => ih r (hp.2 r)⟩

theorem all_run_bind {p : Proc E R ε α} {f : α → Proc E R ε β}
    (hp : All A p.run) (hf : ∀ a, All A (f a).run) : All A (p >>= f).run := by
  rw [Prog.run_bind]
  refine all_bind hp fun r => ?_
  cases r with
  | ok a => exact hf a
  | error e => trivial

theorem all_forM {l : List α} {f : α → Proc E R ε PUnit}
    (hf : ∀ a ∈ l, All A (f a).run) : All A (forM l f).run := by
  induction l with
  | nil => trivial
  | cons a rest ih =>
    rw [List.forM_cons]
    exact all_run_bind (hf a (by simp)) fun _ => ih fun b hb => hf b (by simp [hb])

theorem all_foldlM {l : List α} {f : β → α → Proc E R ε β} {b : β}
    (hf : ∀ b, ∀ a ∈ l, All A (f b a).run) : All A (l.foldlM f b).run := by
  induction l generalizing b with
  | nil => trivial
  | cons a rest ih =>
    rw [List.foldlM_cons]
    exact all_run_bind (hf b a (by simp)) fun b' => ih fun b a ha => hf b a (by simp [ha])

theorem all_result {p : Proc E R ε α} (hp : All A p.run) : All A p.result.run :=
  all_bind hp fun _ => trivial

theorem all_mapError {ε' : Type} {g : ε → ε'} {p : Proc E R ε α} (hp : All A p.run) :
    All A (p.mapError g).run :=
  all_bind hp fun _ => trivial

theorem all_true (p : Prog E R α) : All (fun _ => True) p := by
  induction p with
  | ret a => trivial
  | op e k ih => exact ⟨trivial,ih⟩

theorem all_mono {p : Prog E R α} (h : ∀ e, A e → B e) (hp : All A p) : All B p := by
  induction p with
  | ret a => trivial
  | op e k ih => exact ⟨h e hp.1,fun r => ih r (hp.2 r)⟩

theorem all_and {p : Prog E R α} (hp : All A p) (hq : All B p) : All (fun e => A e ∧ B e) p := by
  induction p with
  | ret a => trivial
  | op e k ih => exact ⟨⟨hp.1,hq.1⟩,fun r => ih r (hp.2 r) (hq.2 r)⟩

/-- An invariant kept by every operation the program can issue holds at each of its
operations and when it returns. -/
theorem wp_of_all {T : Spec E R σ} {p : Prog E R α} (I : σ → Prop) {s : σ}
    (hp : All A p) (hs : I s) (hpre : ∀ s e, A e → I s → T.pre s e)
    (hpost : ∀ s e r s', A e → I s → T.post s e r s' → I s') :
    wp T p (fun _ => I) s := by
  induction p generalizing s with
  | ret a => exact hs
  | op e k ih =>
    exact ⟨hpre s e hp.1 hs,fun r s' hr => ih r (hp.2 r) (hpost s e r s' hp.1 hs hr)⟩

/-- Where every operation may be issued, every program can be run. -/
theorem wp_true {T : Spec E R σ} (hpre : ∀ s e, T.pre s e) (p : Prog E R α) (s : σ) :
    wp T p (fun _ _ => True) s :=
  wp_of_all (fun _ => True) (all_true p) trivial (fun s e _ _ => hpre s e)
    fun _ _ _ _ _ _ _ => trivial

theorem wpOk_true {T : Spec E R σ} (hpre : ∀ s e, T.pre s e) (p : Proc E R ε α) (s : σ) :
    wpOk T p (fun _ _ => True) s :=
  wpOk_of_wp (wp_true hpre p.run s)

end Syntactic
end Kuadrat.Effect
