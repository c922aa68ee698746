import Kuadrat.Deploy.Reach
import Kuadrat.Workloads.Sure

/-!
# What a crash leaves behind

The durable stage of a deploy is written before any effect of that stage, so at
every point it bounds how far the app's files can be from the previous spec.
-/
namespace Kuadrat

open Effect Store

section StageFiles
variable (paths : Paths) (name : Text) (previous : Option WorkloadSpec)

/-- The files of the app while its deploy is at `stage`. -/
structure StageFiles (stage : Stage) (f : Path → Option Text) : Prop where
  shaped : Shaped paths name f
  marked : MarkedOn (Owns paths name) f
  fragment : stage.Early ∨ stage = .apply → ∀ t, f (fragmentPath paths (slug name)) = some t ↔
    ∃ spec, previous = some spec ∧ (fragmentPath paths (slug name),t) ∈ artifacts paths spec
  early : stage.Early → Agrees paths name previous f

/-- The operations of the body and of the compensation of a stage. -/
structure Eff.OfStage (stage : Stage) (e : Eff) : Prop where
  quiet : ∀ o, e ≠ .store o
  tidy : e.Tidy paths name
  marked : ∀ p t, e = .write p t → Marked t
  fragment : stage.Early ∨ stage = .apply → ¬e.Touches (fragmentPath paths (slug name))
  early : stage.Early → ∀ p, ¬e.Touches p

end StageFiles

section Files
variable {paths : Paths} {name : Text} {previous : Option WorkloadSpec} {stage : Stage}
  {f : Path → Option Text}

/-- A later stage promises less. -/
theorem StageFiles.later {stage' : Stage} (h : StageFiles paths name previous stage f)
    (he : stage'.Early → stage.Early)
    (hf : stage'.Early ∨ stage' = .apply → stage.Early ∨ stage = .apply) :
    StageFiles paths name previous stage' f :=
  ⟨h.shaped,h.marked,fun h' => h.fragment (hf h'),fun h' => h.early (he h')⟩

theorem marked_of_answer {w w' : World} {e : Eff} {x : Answer} {r : e.Resp} {P : Path → Prop}
    (he : ∀ p t, e = .write p t → Marked t) (h : w.answer paths e x = some (r,w'))
    (hm : MarkedOn P w.fs.contents) : MarkedOn P w'.fs.contents := by
  intro p hp t ht
  rcases contents_of_answer h with hc | ⟨q,t',rfl,hc⟩ | ⟨q,rfl,hc⟩
  · exact hm p hp t (hc ▸ ht)
  · rw [hc,Function.update_apply] at ht
    split at ht
    · cases ht
      exact he q t rfl
    · exact hm p hp t ht
  · rw [hc,Function.update_apply] at ht
    split at ht
    · cases ht
    · exact hm p hp t ht

theorem StageFiles.step {w w' : World} {e : Eff} {x : Answer} {r : e.Resp}
    (he : e.OfStage paths name stage) (ha : w.answer paths e x = some (r,w'))
    (h : StageFiles paths name previous stage w.fs.contents) :
    StageFiles paths name previous stage w'.fs.contents := by
  refine ⟨shaped_of_answer he.tidy ha h.shaped,marked_of_answer he.marked ha h.marked,
    fun hf => ?_,fun hearly p hp => ?_⟩
  · rw [fragment_of_answer (he.fragment hf) ha]
    exact h.fragment hf
  · rw [fragment_of_answer (he.early hearly p) ha]
    exact h.early hearly p hp

end Files

section Rows
variable (paths : Paths) (name : Text) (previous : Option WorkloadSpec) (d : ℕ)

/-- Deploy `d` is in progress at `stage`, and the files are where that stage may have left them. -/
structure AtStage (stage : Stage) (w : World) : Prop where
  row : ∃ r, w.store.row d = some r ∧ r.app = name ∧ r.stage = stage ∧ r.status = .inProgress
  files : StageFiles paths name previous stage w.fs.contents

def Terminal (d : ℕ) (w : World) : Prop :=
  ∃ r, w.store.row d = some r ∧ r.status ≠ .inProgress

/-- What every crash leaves: a terminal row, or a stage that bounds what was done. -/
def Recoverable (w : World) : Prop :=
  Terminal d w ∨ ∃ stage, AtStage paths name previous d stage w

/-- The operation says something about the deploy without moving its row. -/
def Eff.Reports : Eff → Prop
  | .store (.putSpec ..) | .store (.appendEvent _) | .store (.currentSpec _)
  | .store (.releaseLock _) | .emit _ => True
  | _ => False

end Rows

section Kept
variable {paths : Paths} {name : Text} {previous : Option WorkloadSpec} {d : ℕ} {stage : Stage}
  {w w' : World} {e : Eff} {x : Answer} {r : e.Resp}

theorem Eff.Reports.not_touches (h : e.Reports) (p : Path) : ¬e.Touches p := by
  cases e <;> first | exact id | exact h.elim

theorem AtStage.congr (h : AtStage paths name previous d stage w)
    (hrow : w'.store.row d = w.store.row d) (hfiles : w'.fs.contents = w.fs.contents) :
    AtStage paths name previous d stage w' :=
  ⟨hrow ▸ h.row,hfiles ▸ h.files⟩

theorem Recoverable.congr (h : Recoverable paths name previous d w)
    (hrow : w'.store.row d = w.store.row d) (hfiles : w'.fs.contents = w.fs.contents) :
    Recoverable paths name previous d w' := by
  rcases h with ⟨r,hr,hs⟩ | ⟨stage,h⟩
  · exact .inl ⟨r,hrow.trans hr,hs⟩
  · exact .inr ⟨stage,h.congr hrow hfiles⟩

end Kept

section Rules
variable {ctx : Ctx} {name : Text} {previous : Option WorkloadSpec} {d : ℕ} {stage : Stage}
  {w : World}

/-- Every operation is issued in a world that a reconciliation could start from. -/
abbrev guarded (ctx : Ctx) (name : Text) (previous : Option WorkloadSpec) (d : ℕ) :
    Spec Eff Eff.Resp World :=
  hostSpec ctx.paths (fun _ _ => True) (Recoverable ctx.paths name previous d)

end Rules

section Stages
variable {paths : Paths} {name : Text} {stage : Stage} {e : Eff}

variable {ctx : Ctx} {previous : Option WorkloadSpec}

variable {d : ℕ} {w : World}

end Stages
end Kuadrat
