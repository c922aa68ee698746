import Kuadrat.Deploy.Compensation
import Kuadrat.Deploy.Recover

/-!
# The record and the host

Rollbacks and reconciliations put the stored spec back, as if it were what is installed.
Only a deploy writes it, while `apply` and `remove` change the unit too.
-/
namespace Kuadrat

open Effect Store

section Describes
variable (ctx : Ctx) (name : Text)

/-- There is a stored spec exactly when there is a unit, and the unit is what it renders to. -/
def Describes (w : World) : Prop :=
  match w.store.spec name with
  | none => w.fs.contents (unitPath ctx.paths name) = none
  | some json => ∃ spec t, ctx.codec.ofText json = .ok spec ∧ render spec = .ok t ∧
    w.fs.contents (unitPath ctx.paths name) = some t

/-- A deploy that had come to Apply is still in progress. -/
def Interrupted (s : Store) : Prop :=
  ∃ d r, s.row d = some r ∧ r.status = .inProgress ∧ ¬r.stage.Early

/-- A deploy was recorded as failed after its compensation. -/
def RecordedFailed (s : Store) : Prop := ∃ e ∈ s.events, e.event.kind = .finished .failed

/-- The spec that the store holds for the app is `previous`, and it is valid. -/
structure Current (s : Store) (previous : Option WorkloadSpec) : Prop where
  stored : StoredSpec ctx s name previous
  valid : ∀ spec, previous = some spec → spec.validate = .ok ()

/-- The stored spec describes the host, or a reconciliation still has to see to it. -/
structure Accounted (w : World) : Prop where
  current : ∃ previous, Current ctx name w.store previous
  state : Describes ctx name w ∨ Interrupted w.store

/-- What a command leaves when no deploy is recorded as failed. -/
def Leaves {α : Type} (r : Except Message α) (w : World) : Prop :=
  RecordedFailed w.store ∨ Accounted ctx name w ∧ ∀ a, r = .ok a → Describes ctx name w

end Describes

section Facts
variable {ctx : Ctx} {name : Text} {previous : Option WorkloadSpec} {w w' : World}

theorem Current.of_spec_eq {s s' : Store} (h : Current ctx name s previous)
    (hs : s'.spec name = s.spec name) : Current ctx name s' previous :=
  ⟨h.stored.of_spec_eq hs,h.valid⟩

theorem Describes.congr (h : Describes ctx name w) (hspec : w'.store.spec name = w.store.spec name)
    (hunit : w'.fs.contents (unitPath ctx.paths name) = w.fs.contents (unitPath ctx.paths name)) :
    Describes ctx name w' := by
  unfold Describes
  rw [hspec,hunit]
  exact h

theorem Accounted.congr (h : Accounted ctx name w) (hspec : w'.store.spec name = w.store.spec name)
    (hrows : ∀ d r, w.store.row d = some r → w'.store.row d = some r)
    (hunit : w'.fs.contents (unitPath ctx.paths name) = w.fs.contents (unitPath ctx.paths name)) :
    Accounted ctx name w' := by
  obtain ⟨previous,hcurrent⟩ := h.current
  refine ⟨⟨previous,hcurrent.of_spec_eq hspec⟩,h.state.imp (·.congr hspec hunit) ?_⟩
  rintro ⟨d,r,hr,hstatus,hlate⟩
  exact ⟨d,r,hrows d r hr,hstatus,hlate⟩

theorem RecordedFailed.call {s : Store} (h : RecordedFailed s) (o : StoreOp) :
    RecordedFailed (s.call o).2 := by
  obtain ⟨e,he,hkind⟩ := h
  exact ⟨e,mem_events_call s o he,hkind⟩

/-- A call that moves no row and stores no spec changes nothing here. -/
theorem Leaves.later {α β : Type} {r : Except Message α} {r' : Except Message β} {o : StoreOp}
    (h : Leaves ctx name r w) (hspec : ∀ n s json, o ≠ .putSpec n s json)
    (hmoves : ∀ d, ¬o.Moves d) (hok : ∀ b, r' = .ok b → ∃ a, r = .ok a)
    (hstore : w'.store = w.store ∨ w'.store = (w.store.call o).2) (hfs : w'.fs.contents = w.fs.contents) :
    Leaves ctx name r' w' := by
  have hspec' : w'.store.spec name = w.store.spec name := by
    rcases hstore with hs | hs <;> rw [hs]
    rw [spec_call _ hspec]
  have hunit : w'.fs.contents (unitPath ctx.paths name) = w.fs.contents (unitPath ctx.paths name) := by
    rw [hfs]
  rcases h with hfailed | ⟨hacc,hdesc⟩
  · refine .inl ?_
    rcases hstore with hs | hs <;> rw [hs]
    · exact hfailed
    · exact hfailed.call o
  · refine .inr ⟨hacc.congr hspec' (fun d r hr => ?_) hunit,fun b hb => ?_⟩
    · rcases hstore with hs | hs <;> rw [hs]
      · exact hr
      · rw [row_call _ (hmoves d) (by rw [hr]; rfl),hr]
    · obtain ⟨a,ha⟩ := hok b hb
      exact (hdesc a ha).congr hspec' hunit

end Facts

section Rules
variable {ctx : Ctx} {name : Text} {previous : Option WorkloadSpec} {d : ℕ} {stage prior : Stage}
  {P F : Option Text → Prop} {ok : Eff → Answer → Prop} {w : World}

end Rules

section Deploy
variable {ctx : Ctx} {name : Text} {previous : Option WorkloadSpec} {d : ℕ} {stage prior : Stage}
  {P F : Option Text → Prop} {ok : Eff → Answer → Prop} {w : World}

variable (hname : ∀ spec, previous = some spec → spec.name = name)
include hname

end Deploy

section Reconcile
variable {ctx : Ctx} {name : Text} {ok : Eff → Answer → Prop} {w : World} {row : DeployRow}
  {rest : List DeployRow}

/-- Between two rows of a reconciliation: those still to come are the deploys in progress, and
if the stored spec does not describe the host, one of them had come to Apply. -/
structure Remaining (ctx : Ctx) (name : Text) (rest : List DeployRow) (w : World) : Prop where
  current : ∃ previous, Current ctx name w.store previous
  rows : ∀ r, r ∈ rest ↔ w.store.row r.id = some r ∧ r.status = .inProgress
  unique : rest.Pairwise fun r r' => r.id ≠ r'.id
  own : ∀ r ∈ rest, r.app = name
  state : Describes ctx name w ∨ ∃ r ∈ rest, ¬r.stage.Early

theorem Remaining.congr {w' : World} (h : Remaining ctx name rest w) (hspec : w'.store.spec = w.store.spec)
    (hrows : w'.store.row = w.store.row) (hfiles : w'.fs.contents = w.fs.contents) :
    Remaining ctx name rest w' := by
  obtain ⟨previous,hcurrent⟩ := h.current
  refine ⟨⟨previous,hcurrent.of_spec_eq (congrFun hspec name)⟩,?_,h.unique,h.own,?_⟩
  · rw [hrows]
    exact h.rows
  · exact h.state.imp_left (·.congr (congrFun hspec name) (by rw [hfiles]))

end Reconcile

section Direct
variable {ctx : Ctx} {name : Text} {ok : Eff → Answer → Prop} {w : World} {spec : WorkloadSpec}

/-- The store already has a spec that renders to the same unit. -/
def StoredAlike (ctx : Ctx) (name : Text) (s : Store) (spec : WorkloadSpec) : Prop :=
  ∀ t, render spec = .ok t → ∃ json stored, s.spec name = some json ∧
    ctx.codec.ofText json = .ok stored ∧ render stored = .ok t

end Direct

section Rows
variable {ctx : Ctx} {name : Text} {ok : Eff → Answer → Prop} {w : World}

end Rows

section Commands
variable {ctx : Ctx} {name : Text} {w w' : World}

/-- The commands that change an app's unit or its stored spec; `apply` reads its spec from a
file, and `deploy` comes with the registration and the spec that it was resolved to. -/
inductive AppCommand
  | apply (file : Text)
  | remove
  | deploy (config : AppConfig) (spec : WorkloadSpec) (repo : Path)
  | reconcile

namespace AppCommand

def program (ctx : Ctx) (name : Text) : AppCommand → Run (List DeployOutcome)
  | apply file => do
    let spec ← Run.ofExcept ((ctx.codec.ofText file).mapError (Message.context ["parsing spec JSON"]))
    Kuadrat.apply ctx.paths spec
    return []
  | remove => do
    Kuadrat.remove ctx.paths name
    return []
  | deploy config spec repo => do
    Run.store (.registerApp config)
    let outcome ← Kuadrat.run ctx spec repo
    return [outcome]
  | reconcile => Kuadrat.reconcile ctx

/-- An apply finds its own unit in the stored spec, a removal finds no stored spec, and a deploy
finds no other one that had come to Apply and is still in progress. -/
def Faithful (ctx : Ctx) (name : Text) (w : World) : AppCommand → Prop
  | apply file => ∀ spec, ctx.codec.ofText file = .ok spec → StoredAlike ctx name w.store spec
  | remove => w.store.spec name = none
  | deploy .. => ¬Interrupted w.store
  | reconcile => True

end AppCommand

end Commands

section Sample

end Sample

end Kuadrat
