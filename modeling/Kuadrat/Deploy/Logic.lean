import Kuadrat.Store.Effects
import Kuadrat.Workloads.Outcome
import Kuadrat.Deploy.Driver

/-!
# Rules for the deploy loop

One rule for a stage and one for its compensation. A property of the world that
the deploy's own record-keeping does not disturb is carried across both.
-/
namespace Kuadrat

open Effect

/-- The deploy writing down its own progress. -/
def Eff.Bookkeeping : Eff → Prop
  | .store (.advanceStage ..) | .store (.appendEvent _) | .store (.finishDeployWithEvent ..)
  | .emit _ => True
  | _ => False

section All
variable {A : Eff → Prop} (h : ∀ e : Eff, e.Bookkeeping → A e)
include h

theorem all_emit (d : ℕ) (stage : Stage) (status : EventStatus) (detail : Option Message) :
    All A (emit d stage status detail).run :=
  all_run_bind (all_perform (h _ trivial)) fun stored => ⟨h (.emit stored) trivial,fun _ => trivial⟩

theorem all_begin (d : ℕ) (stage : Stage) : All A (begin' d stage).run :=
  all_run_bind (all_perform (h _ trivial)) fun _ => all_emit h _ _ _ _

theorem all_finished (d : ℕ) (status : DeployStatus) (detail : Option Message) :
    All A (finished d status detail).run :=
  all_run_bind (all_perform (h _ trivial)) fun stored => ⟨h (.emit stored) trivial,fun _ => trivial⟩

end All

section Quiet

/-- No file is written, created or deleted, and systemd is not called. -/
def Eff.Quiet : Eff → Prop
  | .write .. | .createDirAll _ | .removeFile _ => False
  | .run c | .timed c => c.isSystemctl = false
  | _ => True

variable {A : Eff → Prop}

/-- The effects of the stages before Apply. -/
structure Looks (A : Eff → Prop) : Prop where
  present : ∀ p, A (.present p)
  command : ∀ c, c.isSystemctl = false → A (.run c)

theorem all_detect_of {repo : Path} (hpresent : ∀ p, A (.present p))
    (hrev : A (.run (.gitRevParseHead repo.display))) : All A (detect repo).run := by
  have hfind : All A (findContainerfile repo).run := by
    refine all_run_bind (all_perform (hpresent _)) fun b => ?_
    split
    · trivial
    · refine all_run_bind (all_perform (hpresent _)) fun b => ?_
      split <;> trivial
  refine all_run_bind hfind fun file => ?_
  refine all_run_bind (all_perform hrev) fun out => ?_
  split
  · split <;> trivial
  · trivial

theorem all_detect (hA : Looks A) (repo : Path) : All A (detect repo).run :=
  all_detect_of hA.present (hA.command _ rfl)

theorem all_build (hA : Looks A) (plan : BuildPlan) (slug : Text) :
    All A (build plan slug).run := by
  refine all_run_bind (all_perform (hA.command _ rfl)) fun out => ?_
  split <;> trivial

theorem all_ensureAll_of (h : A (.run .podmanSecretLs)) (names : List Text) :
    All A (Secrets.ensureAll names).run := by
  have hlist : All A Secrets.list.run := by
    refine all_run_bind (all_perform h) fun out => ?_
    split <;> trivial
  refine all_run_bind hlist fun have' => ?_
  dsimp only
  split <;> trivial

theorem all_ensureAll (hA : Looks A) (names : List Text) :
    All A (Secrets.ensureAll names).run :=
  all_ensureAll_of (hA.command _ rfl) names

theorem all_timedExec {c : Command} (h : A (.timed c)) : All A (timedExec c).run := by
  refine all_run_bind (p := Run.timed c) ⟨h,fun _ => trivial⟩ fun t => ?_
  cases t <;> trivial

theorem all_attempt {container : Text} (h : A (.timed (.podmanHealthcheckRun container))) :
    All A (attempt container).run := by
  refine all_run_bind (all_timedExec h) fun p => ?_
  dsimp only
  split <;> trivial

theorem all_pollLoop {container : Text} (h : A (.timed (.podmanHealthcheckRun container)))
    (budget interval : Duration) (fuel : ℕ) (start : Duration) :
    All A (pollLoop container budget interval fuel start).run := by
  induction fuel generalizing start with
  | zero => trivial
  | succ fuel ih =>
    refine all_run_bind (all_attempt h) fun p => ?_
    dsimp only
    split
    · trivial
    · trivial
    split
    · trivial
    split
    · trivial
    · exact all_run_bind (ih _) fun _ => trivial

/-- The healthcheck only runs its command, again and again. -/
theorem all_healthcheck_of (hrun : ∀ c, A (.timed (.podmanHealthcheckRun c)))
    (hactive : ∀ c, A (.timed (.isActive c))) (spec : WorkloadSpec) :
    All A (healthcheck spec).run := by
  unfold healthcheck
  split
  · exact all_run_bind (all_pollLoop (hrun _) _ _ _ _) fun _ => all_ofExcept _
  · refine all_run_bind (all_timedExec (hactive _)) fun p => ?_
    refine all_run_bind (all_ofExcept _) fun out => ?_
    split <;> trivial

theorem all_healthcheck (h : ∀ c, A (.timed c)) (spec : WorkloadSpec) :
    All A (healthcheck spec).run :=
  all_healthcheck_of (fun _ => h _) (fun _ => h _) spec

end Quiet

section Rules
variable {paths : Paths} {ok : Eff → Answer → Prop} {w : World}

/-- The property survives the deploy's record-keeping. -/
def Logged (paths : Paths) (I : World → Prop) : Prop := ∀ w e x r w', Eff.Bookkeeping e → I w →
  w.answer paths e x = some (r,w') → I (w'.record e)

theorem Logged.wp {I : World → Prop} (hI : Logged paths I) {α : Type} {p : Run α}
    (hp : All Eff.Bookkeeping p.run) (h : I w) :
    wp (host paths ok) p.run (fun _ => I) w :=
  wp_invariant I hp h (fun _ _ => trivial) fun w e x r w' he _ hi ha => hI w e x r w' he hi ha

theorem wpOk_trivial {α : Type} {p : Run α} {Q : α → World → Prop} (h : ∀ a w, Q a w) :
    wpOk (host paths ok) p Q w := by
  have hall : All (fun _ => True) p.run := by
    induction p.run with
    | ret a => trivial
    | op e k ih => exact ⟨trivial,ih⟩
  exact wpOk_mono (wpOk_of_wp (wp_invariant (fun _ => True) hall trivial (fun _ _ => trivial)
    fun _ _ _ _ _ _ _ _ _ => trivial)) fun a w _ => h a w

variable {ctx : Ctx} {d : ℕ} {name slug : Text} {previous : Option WorkloadSpec} {stage : Stage}
  {Q : DeployOutcome → World → Prop}

/-- A failed stage ends in a rollback exactly when its compensation succeeds. -/
theorem fail_ok {cause : Message} {I K : World → Prop} (hI : Logged paths I) (hK : Logged paths K)
    (h : I w) (hcomp : ∀ w, I w →
      wpOk (host paths ok) (compensate ctx name slug previous stage) (fun _ => K) w)
    (hrolled : ∀ w, K w → Q (.rolledBack stage cause) w)
    (hfailed : ∀ cause w, Q (.failed stage cause) w) :
    wpOk (host paths ok) (fail ctx d name slug previous stage cause) Q w := by
  refine wpOk_seq (wpOk_of_wp (hI.wp (all_emit (fun _ => id) _ _ _ _) h)) fun _ w₁ h₁ => ?_
  refine wpOk_bind ((wpOk_result _ _ _).mpr (wp_mono (hcomp w₁ h₁) fun r w₂ h₂ => ?_))
  cases r with
  | ok u =>
    refine wpOk_seq (wpOk_of_wp (hK.wp (all_finished (fun _ => id) _ _ _) (h₂ u rfl)))
      fun _ w₃ h₃ => ?_
    exact (wpOk_pure _ _ _).mpr (hrolled w₃ h₃)
  | error comp =>
    refine wpOk_seq (P := fun _ _ => True) (wpOk_trivial fun _ _ => trivial) fun _ w₃ _ => ?_
    exact (wpOk_pure _ _ _).mpr (hfailed _ w₃)

/-- The rule of a stage: `I` before it, `J` when its body succeeds, `F` when it fails. -/
theorem runStage_ok {α : Type} {body : Run α} {next : α → Run DeployOutcome}
    {I F : World → Prop} {J : α → World → Prop} (hI : Logged paths I) (hJ : ∀ a, Logged paths (J a))
    (h : I w) (hbody : ∀ w, I w → wp (host paths ok) body.run (fun r w' => match r with
      | .ok a => J a w'
      | .error _ => F w') w)
    (hnext : ∀ a w, J a w → wpOk (host paths ok) (next a) Q w)
    (hfail : ∀ cause w, F w →
      wpOk (host paths ok) (fail ctx d name slug previous stage cause) Q w) :
    wpOk (host paths ok) (runStage ctx d name slug previous stage body next) Q w := by
  refine wpOk_seq (wpOk_of_wp (hI.wp (all_begin (fun _ => id) _ _) h)) fun _ w₁ h₁ => ?_
  refine wpOk_bind ((wpOk_result _ _ _).mpr (wp_mono (hbody w₁ h₁) fun r w₂ h₂ => ?_))
  cases r with
  | ok a =>
    refine wpOk_seq (wpOk_of_wp ((hJ a).wp (all_emit (fun _ => id) _ _ _ _) h₂))
      fun _ w₃ h₃ => ?_
    exact hnext a w₃ h₃
  | error e => exact hfail e w₂ h₂

/-- A stage whose body keeps `I`, whether it succeeds or not. -/
theorem runStage_keep {α : Type} {body : Run α} {next : α → Run DeployOutcome} {I : World → Prop}
    (hI : Logged paths I) (h : I w) (hbody : ∀ w, I w → wp (host paths ok) body.run (fun _ => I) w)
    (hnext : ∀ a w, I w → wpOk (host paths ok) (next a) Q w)
    (hfail : ∀ cause w, I w →
      wpOk (host paths ok) (fail ctx d name slug previous stage cause) Q w) :
    wpOk (host paths ok) (runStage ctx d name slug previous stage body next) Q w := by
  refine runStage_ok hI (fun _ => hI) h (fun w hw => wp_mono (hbody w hw) fun r w' h' => ?_)
    hnext hfail
  cases r <;> exact h'

end Rules
end Kuadrat
