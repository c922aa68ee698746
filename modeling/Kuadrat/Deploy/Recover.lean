import Kuadrat.Deploy.Crash

/-!
# Recovering from a crash

What one reconciliation makes of the deploy that a crash cut short, on a host where
every operation succeeds. It undoes the durable stage with the spec that the store
holds then, so it brings the old version back unless that spec is already the new one.
On its way it reads the stored specs of all rows in progress, and undoes those rows too.
-/
namespace Kuadrat

open Effect Store

section Undo
variable {paths : Paths} {name : Text} {previous : Option WorkloadSpec} {stage : Stage}
  {f g : Path → Option Text}

end Undo

section Compensate
variable {ctx : Ctx} {name : Text} {previous : Option WorkloadSpec} {w : World}
  (hname : ∀ spec, previous = some spec → spec.name = name)
  (hvalid : ∀ spec, previous = some spec → spec.validate = .ok ())
include hname hvalid

end Compensate

section Row
variable {ctx : Ctx} {w w' : World}

/-- Row `d` got its terminal status, and nothing else in the tables has changed. -/
structure Settled (d : ℕ) (status : DeployStatus) (w w' : World) : Prop where
  row : ∃ r, w'.store.row d = some r ∧ r.status = status
  others : ∀ d', d' ≠ d → (w.store.row d').isSome → w'.store.row d' = w.store.row d'
  spec : w'.store.spec = w.store.spec

end Row

section Rows
variable (paths : Paths)

/-- The compensation of the stage puts the app's file at `p` back. -/
def PutsBack (name : Text) (p : Path) : Stage → Prop
  | .detect | .build | .secrets => False
  | .apply => UnitRegion paths name p
  | .route | .healthcheck => Owns paths name p

end Rows

section Within
variable {ctx : Ctx} {app : Text} {previous : Option WorkloadSpec} {stage : Stage}

theorem Eff.Within.mono {writes writes' : Path → Text → Prop} {deletes deletes' : Path → Prop}
    {e : Eff} (h : e.Within writes deletes) (hw : ∀ p t, writes p t → writes' p t)
    (hd : ∀ p, deletes p → deletes' p) : e.Within writes' deletes' := by
  cases e with
  | write p t => exact hw p t h
  | removeFile p => exact hd p h
  | present | readToString | readDir | createDirAll | run => trivial
  | store | emit | timed | spawn | acquire | release => exact h

end Within

section Restorable
variable {paths : Paths} {name : Text} {previous : Option WorkloadSpec} {f₀ f g : Path → Option Text}
  {rest : List DeployRow}

/-- The app's files are those of `f₀`, or there is still a row to come that puts them back. -/
structure Restorable (paths : Paths) (name : Text) (f₀ : Path → Option Text)
    (rest : List DeployRow) (f : Path → Option Text) : Prop where
  shaped : Shaped paths name f
  marked : MarkedOn (Owns paths name) f
  kept : ∀ p, Owns paths name p →
    f p = f₀ p ∨ ∃ r ∈ rest, r.app = name ∧ PutsBack paths name p r.stage

end Restorable

section Recover
variable {ctx : Ctx} {name : Text} {previous : Option WorkloadSpec} {row : DeployRow} {w : World}
  {f₀ : Path → Option Text}

theorem Decodes.of_spec_eq {s s' : Store} (h : Decodes ctx s name previous)
    (hs : s'.spec name = s.spec name) : Decodes ctx s' name previous := by
  unfold Decodes at h ⊢
  rw [hs]
  exact h

/-- The crashed deploy was rolled back. -/
def WasRolledBack (d : ℕ) (w : World) : Prop :=
  ∃ r, w.store.row d = some r ∧ r.status = .rolledBack

section Settle
variable {rest : List DeployRow} {r : DeployRow} (hrow : (w.store.row r.id).isSome)
include hrow

end Settle

/-- Between two rows: the crashed deploy is still to come, or it has been rolled back, and the
app's files are there or can be put back. -/
structure Progress (paths : Paths) (name : Text) (f₀ : Path → Option Text) (row : DeployRow)
    (rows : List DeployRow) (specs : Text → Option Text) (rest : List DeployRow)
    (outcomes : List DeployOutcome) (w : World) : Prop where
  specs : w.store.spec = specs
  present : ∀ r ∈ rest, (w.store.row r.id).isSome
  files : Restorable paths name f₀ rest w.fs.contents
  state : ∃ processed, rows = processed ++ rest ∧ outcomes.length = processed.length ∧
    (row ∈ rest ∨ (WasRolledBack row.id w ∧
      ∃ stage cause, (row,.rolledBack stage cause) ∈ processed.zip outcomes))

variable {rows rest : List DeployRow} {outcomes : List DeployOutcome} {specs : Text → Option Text}

theorem present_of_settled {d : ℕ} {status : DeployStatus} {w' : World}
    (hs : Settled d status w w') {r : DeployRow} (h : (w.store.row r.id).isSome) :
    (w'.store.row r.id).isSome := by
  by_cases hd : r.id = d
  · obtain ⟨r',hr',-⟩ := hs.row
    rw [hd,hr']
    rfl
  · rw [hs.others _ hd h]
    exact h

theorem WasRolledBack.kept {d d' : ℕ} {status : DeployStatus} {w' : World} (h : WasRolledBack d' w)
    (hs : Settled d status w w') (hrow : d' = d → status = .rolledBack) : WasRolledBack d' w' := by
  by_cases hd : d' = d
  · obtain ⟨r',hr',hst⟩ := hs.row
    exact ⟨r',hd ▸ hr',hst.trans (hrow hd)⟩
  · obtain ⟨r',hr',hst⟩ := h
    exact ⟨r',(hs.others _ hd (by rw [hr']; rfl)).trans hr',hst⟩

/-- A row that was settled is behind, with its outcome. -/
theorem Progress.next {r : DeployRow} {processed : List DeployRow} {o : DeployOutcome}
    {status : DeployStatus} {w' : World}
    (h : Progress paths name f₀ row rows specs (r::rest) outcomes w)
    (hrows : rows = processed ++ r::rest) (hlen : outcomes.length = processed.length)
    (hs : Settled r.id status w w') (hfiles : Restorable paths name f₀ rest w'.fs.contents)
    (hstate : row ∈ rest ∨ (WasRolledBack row.id w' ∧
      ∃ stage cause, (row,.rolledBack stage cause) ∈ processed.zip outcomes ++ [(r,o)])) :
    Progress paths name f₀ row rows specs rest (outcomes ++ [o]) w' where
  specs := hs.spec.trans h.specs
  present r' hr' := present_of_settled hs (h.present r' (List.mem_cons_of_mem _ hr'))
  files := hfiles
  state := by
    refine ⟨processed ++ [r],by simp [hrows],by simp [hlen],?_⟩
    rw [List.zip_append hlen.symm]
    exact hstate

end Recover

section Consistency
variable {ctx : Ctx}

end Consistency

section Example

/-- The reconciliation removes the unit of the app that had no version before. -/
def removal : List Answer :=
  [.done,.done] ++ [.done,.entries ["kuadrat-web.container"],.done] ++
  [.done,.done,succeeds "",.done,succeeds ""] ++ [.done,.done,.done,.done]

end Example
end Kuadrat
