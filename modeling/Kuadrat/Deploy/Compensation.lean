import Kuadrat.Codec.Spec
import Kuadrat.Deploy.Done
import Kuadrat.Workloads.Ownership

/-!
# When the undo refuses

From the event that reports a failed stage on, the host does all it is asked for. What is
left to go wrong is a refusal: the undo asks whose files it is about to write or delete,
and a foreign one stops it.
-/
namespace Kuadrat

open Effect

/-- The stage whose failure an event reports. -/
def StoredEvent.failedStage (e : StoredEvent) : Option Stage :=
  match e.event.kind with
  | .stage stage .failed => some stage
  | _ => none

/-- The stages whose failure the sink was shown since `w₀`. -/
def reported (w₀ w : World) : List Stage :=
  (w.published.drop w₀.published.length).filterMap StoredEvent.failedStage

section Asks
variable (paths : Paths)

/-- The paths whose owner the undo of the unit stage asks for. -/
def UnitAsks (name : Text) : Option WorkloadSpec → Path → Prop
  | some prev,p => InstallAsks paths prev p
  | none,p => UnitRegion paths name p

/-- The paths whose owner the compensation of a stage asks for. -/
def UndoAsks (name : Text) (previous : Option WorkloadSpec) : Stage → Path → Prop
  | .detect,_ | .build,_ | .secrets,_ => False
  | .apply,p => UnitAsks paths name previous p
  | .route,p | .healthcheck,p => p = fragmentPath paths (slug name) ∨ UnitAsks paths name previous p

/-- No foreign file is in the way of the compensation of `stage`. -/
def Unblocked (name : Text) (previous : Option WorkloadSpec) (w : World) (stage : Stage) : Prop :=
  ∀ p, UndoAsks paths name previous stage p → Clean w.fs.contents p

end Asks

/-- The unit is the one of the previous spec, or it is gone with it. -/
def UnitPutBack (paths : Paths) (name : Text) (previous : Option WorkloadSpec) (w : World) : Prop :=
  w.fs.contents (unitPath paths name) = previous.map unitText

section Calls
variable {ctx : Ctx} {name : Text} {previous : Option WorkloadSpec} {ok : Eff → Answer → Prop}
  {w₀ w : World}

end Calls

section Rules
variable {paths : Paths} {w₀ w : World} {stages : List Stage}

/-- The run so far: the foreign files are those of `w₀`, and these failures were reported. -/
structure Sofar (w₀ : World) (stages : List Stage) (w : World) : Prop where
  guarded : Guarded w₀ w
  shown : w₀.published <+: w.published
  reported : reported w₀ w = stages

theorem Sofar.refl (w : World) : Sofar w [] w :=
  ⟨Guarded.refl w,List.prefix_rfl,by simp [Kuadrat.reported]⟩

theorem reported_congr {w' : World} (h : w'.published = w.published) :
    reported w₀ w' = reported w₀ w := by rw [reported,reported,h]

theorem Sofar.same {w' : World} (h : Sofar w₀ stages w) (hg : Guarded w₀ w')
    (hp : w'.published = w.published) : Sofar w₀ stages w' :=
  ⟨hg,hp ▸ h.shown,(reported_congr hp).trans h.reported⟩

section Transfer
variable {α : Type} {p : Run α} {Q : Except Message α → World → Prop}

end Transfer

section Records
variable {d : ℕ} {stage : Stage} {status : EventStatus} {detail : Option Message}

end Records

end Rules

section Undo
variable {ctx : Ctx} {name : Text} {previous : Option WorkloadSpec} {stage : Stage} {w₀ w : World}
  (hname : ∀ spec, previous = some spec → spec.name = name)
  (hvalid : ∀ spec, previous = some spec → spec.validate = .ok ())

include hname hvalid

end Undo

section Conclusion
variable {ctx : Ctx} {d : ℕ} {name : Text} {previous : Option WorkloadSpec} {stage : Stage}
  {w₀ w : World} {r : Except Message DeployOutcome}

/-- The deploy is not reported as failed, and after a failure at one of the two last stages
the unit has been put back. -/
structure Promised (paths : Paths) (name : Text) (previous : Option WorkloadSpec) (w₀ : World)
    (r : Except Message DeployOutcome) (w : World) : Prop where
  not_failed : ∀ stage cause, r ≠ .ok (.failed stage cause)
  put_back : ∀ stage ∈ reported w₀ w, stage = .route ∨ stage = .healthcheck →
    UnitPutBack paths name previous w

/-- Nothing foreign was in the way of the undo of the stage that failed, if one did. -/
def UndoUnblocked (paths : Paths) (name : Text) (previous : Option WorkloadSpec) (w₀ w : World) :
    Prop := ∀ stage ∈ reported w₀ w, Unblocked paths name previous w₀ stage

/-- How the promise depends on foreign files. -/
structure Concluded (ctx : Ctx) (name : Text) (previous : Option WorkloadSpec) (w₀ : World)
    (r : Except Message DeployOutcome) (w : World) : Prop where
  kept : UndoUnblocked ctx.paths name previous w₀ w → Promised ctx.paths name previous w₀ r w
  only : ∀ outcome, r = .ok outcome → Promised ctx.paths name previous w₀ r w →
    UndoUnblocked ctx.paths name previous w₀ w

end Conclusion

section Stages
variable {ctx : Ctx} {d : ℕ} {name : Text} {previous : Option WorkloadSpec} {w₀ w : World}

/-- Releasing the lock changes no file and reports nothing. -/
theorem Concluded.later {r r' : Except Message DeployOutcome} {w' : World}
    (h : Concluded ctx name previous w₀ r w) (hr : r' = r ∨ ∃ e, r' = .error e)
    (hfs : w'.fs = w.fs) (hsame : reported w₀ w' = reported w₀ w) :
    Concluded ctx name previous w₀ r' w' := by
  have hun : UndoUnblocked ctx.paths name previous w₀ w' ↔
      UndoUnblocked ctx.paths name previous w₀ w := by rw [UndoUnblocked,UndoUnblocked,hsame]
  have hback : UnitPutBack ctx.paths name previous w' ↔ UnitPutBack ctx.paths name previous w := by
    rw [UnitPutBack,UnitPutBack,hfs]
  constructor
  · intro hclear
    obtain ⟨hnot,hput⟩ := h.kept (hun.mp hclear)
    refine ⟨?_,fun stage hs hlate => hback.mpr (hput stage (hsame ▸ hs) hlate)⟩
    rcases hr with rfl | ⟨e,rfl⟩
    · exact hnot
    · exact fun _ _ => nofun
  · rintro outcome rfl ⟨hnot,hput⟩
    rcases hr with rfl | ⟨e,he⟩
    · exact hun.mpr (h.only outcome rfl ⟨hnot,fun stage hs hlate =>
        hback.mp (hput stage (hsame.symm ▸ hs) hlate)⟩)
    · exact nomatch he

section Fail
variable (hname : ∀ spec, previous = some spec → spec.name = name)
  (hvalid : ∀ spec, previous = some spec → spec.validate = .ok ())
include hname hvalid

end Fail

end Stages

section Sample

end Sample
end Kuadrat
