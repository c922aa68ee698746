import Kuadrat.Effect.Machine

/-!
# Transcripts

The operations of a run with their answers, in order. `tells` speaks of the part that a
program adds when it succeeds.
-/
namespace Kuadrat.Effect.Machine

variable {E : Type} {R : E → Type} {X ε α β σ : Type} (M : Machine E R X σ)

/-- The machine with the transcript of what was done so far. -/
def recorder : Machine E R X (σ × List (Sigma R)) := M.noted fun l _ e r => l ++ [⟨e,r⟩]

/-- When the program succeeds, `Q` holds of its result, the state and what it has added. -/
def tells (p : Proc E R ε α) (Q : α → σ → List (Sigma R) → Prop) (s : σ) : Prop :=
  ∀ l₀, wpOk (M.recorder.spec (fun _ _ => True) fun _ => True) p
    (fun a s' => ∃ l, s'.2 = l₀ ++ l ∧ Q a s'.1 l) (s,l₀)

variable {M} {p : Proc E R ε α} {f : α → Proc E R ε β} {P Q : α → σ → List (Sigma R) → Prop} {s : σ}

theorem tells_pure {a : α} (h : Q a s []) : M.tells (pure a : Proc E R ε α) Q s := by
  intro l₀
  rw [wpOk_pure]
  exact ⟨[],(List.append_nil _).symm,h⟩

theorem tells_throw (e : ε) : M.tells (throw e : Proc E R ε α) Q s := fun _ => wpOk_throw _ _ _

theorem tells_mono (h : M.tells p P s) (hq : ∀ a s' l, P a s' l → Q a s' l) : M.tells p Q s :=
  fun l₀ => wpOk_mono (h l₀) fun _ _ hp => hp.imp fun _ hl => ⟨hl.1,hq _ _ _ hl.2⟩

/-- What comes after is added behind. -/
theorem tells_seq {Q : β → σ → List (Sigma R) → Prop} (h : M.tells p P s)
    (hf : ∀ a s' l, P a s' l → M.tells (f a) (fun b s'' l' => Q b s'' (l ++ l')) s') :
    M.tells (p >>= f) Q s := by
  intro l₀
  refine wpOk_seq (h l₀) fun a s' hp => ?_
  obtain ⟨t,lt⟩ := s'
  obtain ⟨l,rfl,hl⟩ := hp
  refine wpOk_mono (hf a t l hl (l₀ ++ l)) fun b s'' hb => ?_
  obtain ⟨l',hl',hq⟩ := hb
  exact ⟨l ++ l',by rw [hl',List.append_assoc],hq⟩

/-- One operation adds itself with its answer. -/
theorem wp_recorder_perform {e : E} {C : σ → Prop} {Q : R e → σ → Prop} {l₀ : List (Sigma R)}
    (h : wp (M.spec (fun _ _ => True) C) (.perform e) Q s) :
    wp (M.recorder.spec (fun _ _ => True) fun _ => True) (.perform e)
      (fun r s' => Q r s'.1 ∧ s'.2 = l₀ ++ [⟨e,r⟩]) (s,l₀) := by
  refine ⟨trivial,fun r s' hr => ?_⟩
  obtain ⟨x,hx,hs⟩ := hr
  obtain ⟨hstep,hnote⟩ := (M.noted_step _).mp hs
  exact ⟨h.2 r s'.1 ⟨x,hx,hstep⟩,hnote⟩

/-- What is known of a program, and of each of its operations. -/
theorem tells_of_wpOk {A : E → Prop} {Q : α → σ → Prop}
    (h : wpOk (M.spec (fun _ _ => True) fun _ => True) p Q s) (hp : All A p.run) :
    M.tells p (fun a s' l => Q a s' ∧ ∀ x ∈ l, A x.1) s := by
  intro l₀
  have hlog : wp (M.recorder.spec (fun _ _ => True) fun _ => True) p.run
      (fun _ s' => ∃ l, s'.2 = l₀ ++ l ∧ ∀ x ∈ l, A x.1) (s,l₀) := by
    refine wp_of_all (fun s' : σ × List (Sigma R) => ∃ l, s'.2 = l₀ ++ l ∧ ∀ x ∈ l, A x.1) hp
      ⟨[],(List.append_nil _).symm,fun _ hx => absurd hx List.not_mem_nil⟩ (fun _ _ _ _ => trivial)
      fun s' e r s'' he hs hr => ?_
    obtain ⟨x,-,hstep⟩ := hr
    obtain ⟨l,hl,hA⟩ := hs
    refine ⟨l ++ [⟨e,r⟩],?_,fun y hy => ?_⟩
    · rw [((M.noted_step _).mp hstep).2,hl,List.append_assoc]
    · rcases List.mem_append.mp hy with hy | hy
      · exact hA y hy
      · rw [List.mem_singleton.mp hy]
        exact he
  have hstate : ∀ {P : Except ε α → σ → Prop},
      wp (M.spec (fun _ _ => True) fun _ => True) p.run P s →
      wp (M.recorder.spec (fun _ _ => True) fun _ => True) p.run (fun r s' => P r s'.1) (s,l₀) :=
    fun h => wp_noted M (C := fun _ => True) (Q := _) _ h
  refine wp_mono (wp_and (hstate h) hlog) fun r s' hr a ha => ?_
  obtain ⟨l,hl,hA⟩ := hr.2
  exact ⟨l,hl,hr.1 a ha,hA⟩

theorem tells_and {Q : α → σ → Prop} (h : M.tells p P s)
    (hq : wpOk (M.spec (fun _ _ => True) fun _ => True) p Q s) :
    M.tells p (fun a s' l => P a s' l ∧ Q a s') s := by
  intro l₀
  have hstate : ∀ {P : Except ε α → σ → Prop},
      wp (M.spec (fun _ _ => True) fun _ => True) p.run P s →
      wp (M.recorder.spec (fun _ _ => True) fun _ => True) p.run (fun r s' => P r s'.1) (s,l₀) :=
    fun h => wp_noted M (C := fun _ => True) (Q := _) _ h
  refine wp_mono (wp_and (h l₀) (hstate hq)) fun r s' hr a ha => ?_
  obtain ⟨l,hl,hp⟩ := hr.1 a ha
  exact ⟨l,hl,hp,hr.2 a ha⟩

/-- Each operation of the transcript is one that the program can issue. -/
theorem tells_all {A : E → Prop} (h : M.tells p P s) (hp : All A p.run) :
    M.tells p (fun a s' l => P a s' l ∧ ∀ x ∈ l, A x.1) s := by
  have htrue : wpOk (M.spec (fun _ _ => True) fun _ => True) p (fun _ _ => True) s :=
    wp_of_all (fun _ => True) hp trivial (fun _ _ _ _ => trivial)
      (fun _ _ _ _ _ _ _ => trivial) |> fun h => wp_mono h fun _ _ _ _ _ => trivial
  intro l₀
  refine wp_mono (wp_and (h l₀) (tells_of_wpOk htrue hp l₀)) fun r s' hr a ha => ?_
  obtain ⟨l,hl,hP⟩ := hr.1 a ha
  obtain ⟨l',hl',-,hA⟩ := hr.2 a ha
  rw [hl,List.append_right_inj] at hl'
  exact ⟨l,hl,hP,hl' ▸ hA⟩

/-- The rule of a loop over a list, with what was said so far. -/
theorem tells_foldlM {l : List α} {f : β → α → Proc E R ε β}
    (I : List α → β → σ → List (Sigma R) → Prop) {Q : β → σ → List (Sigma R) → Prop} {b : β}
    (hs : I l b s []) (hstep : ∀ a rest b s said, I (a::rest) b s said →
      M.tells (f b a) (fun b' s' more => I rest b' s' (said ++ more)) s)
    (hend : ∀ b s said, I [] b s said → Q b s said) : M.tells (l.foldlM f b) Q s := by
  have hgen : ∀ (l : List α) (b : β) (s : σ) (said : List (Sigma R)), I l b s said →
      M.tells (l.foldlM f b) (fun b' s' more => Q b' s' (said ++ more)) s := by
    intro l
    induction l with
    | nil =>
      intro b s said h
      refine tells_pure ?_
      rw [List.append_nil]
      exact hend b s said h
    | cons a rest ih =>
      intro b s said h
      rw [List.foldlM_cons]
      refine tells_seq (hstep a rest b s said h) fun b' s' more h' => ?_
      exact tells_mono (ih b' s' _ h') fun b'' s'' l hq => by rwa [← List.append_assoc]
  exact hgen l b s [] hs

/-- The transcript of a complete run that succeeded. -/
theorem tells_finish {xs : List X} {a : α} {t : σ} {l : List (Sigma R)} (h : M.tells p Q s)
    (hrun : M.recorder.finish xs p.run (s,[]) = some (.ok a,(t,l))) : Q a t l := by
  obtain ⟨l',hl,hq⟩ := Machine.wp_complete _ (h [])
    (Machine.allowed_of_forall _ (fun _ _ _ => trivial) _ _)
    ((Machine.finish_eq_some _).mp hrun) a rfl
  rw [List.nil_append] at hl
  obtain rfl : l = l' := hl
  exact hq

end Kuadrat.Effect.Machine
