import Kuadrat.Deploy.Rollback

/-!
# What a deploy can do

The operations of a whole deploy, of its compensation and of a reconciliation. All
files they write or delete belong to apps that `N` names: the deployed one, and
those whose spec the store gave back.
-/
namespace Kuadrat

open Effect

section Bundle
variable {A : Eff → Prop} {ctx : Ctx} {N : Text → Prop}

/-- Everything a reconciliation can do when the apps it undoes have names in `N`. -/
structure Undoes (A : Eff → Prop) (paths : Paths) (N : Text → Prop) : Prop where
  bookkeeping : ∀ e : Eff, e.Bookkeeping → A e
  store : ∀ o, (∀ n s json, o ≠ .putSpec n s json) → A (.store o)
  units : ∀ spec : WorkloadSpec, N spec.name → ∀ e, Eff.Within
    (fun p t => spec.validate = .ok () ∧ (p,t) ∈ unitFiles paths spec)
    (StaleTask paths spec.name (keepOf spec)) e → A e
  removal : ∀ name, N name → ∀ e, Eff.Within (fun _ _ => False)
    (fun p => p = unitPath paths name ∨ OwnTask paths name p) e → A e
  fragments : ∀ name, N name → ∀ route e, Eff.Within
    (fun p t => p = fragmentPath paths (slug name) ∧ t = renderFragment route) (fun _ => False) e →
      A e
  unroute : ∀ name, N name → ∀ e, Eff.Within (fun _ _ => False)
    (fun p => p = fragmentPath paths (slug name)) e → A e

/-- A deploy also looks around, waits for health, and stores the spec it deployed. -/
structure Deploys (A : Eff → Prop) (ctx : Ctx) (N : Text → Prop) : Prop
    extends Undoes A ctx.paths N where
  quiet : ∀ e : Eff, e.Quiet → (∀ o, e ≠ .store o) → A e
  health : ∀ c, A (.timed c)
  putSpec : ∀ spec : WorkloadSpec, N spec.name →
    A (.store (.putSpec spec.name spec.slug (ctx.codec.toText spec)))

theorem all_loadPrevious {name : Text} (h : A (.store (.currentSpec name))) :
    All A (loadPrevious ctx name).run := by
  refine all_run_bind (all_perform h) fun r => ?_
  split
  · split <;> trivial
  · trivial

theorem all_reserve (h : ∀ o, (∀ n s json, o ≠ .putSpec n s json) → A (.store o)) (name : Text) :
    All A (reserve name).run := by
  refine all_run_bind (all_mapError (all_perform (h _ (by rintro _ _ _ ⟨⟩)))) fun d => ?_
  refine all_run_bind (all_mapError (all_perform (h _ (by rintro _ _ _ ⟨⟩)))) fun acquired => ?_
  split
  · trivial
  · exact all_run_bind (all_mapError (all_perform (h _ (by rintro _ _ _ ⟨⟩)))) fun _ => trivial

section Compensate
variable (hA : Undoes A ctx.paths N) {name : Text} (hN : N name)
  {previous : Option WorkloadSpec} (hprev : ∀ spec, previous = some spec → N spec.name)
include hA hN hprev

theorem all_unwindApply : All A (unwindApply ctx name previous).run := by
  cases previous with
  | some prev => exact all_mono (hA.units prev (hprev prev rfl)) apply_within
  | none => exact all_mono (hA.removal name hN) remove_within

omit hprev in
theorem all_unwindRoute : All A (unwindRoute ctx (slug name) previous).run := by
  unfold unwindRoute
  split
  · exact all_mono (hA.fragments name hN _) applyRoute_within
  · exact all_mono (hA.unroute name hN) removeRoute_within

theorem all_compensate (stage : Stage) :
    All A (compensate ctx name (slug name) previous stage).run := by
  cases stage with
  | detect | build | secrets => trivial
  | apply => exact all_unwindApply hA hN hprev
  | route | healthcheck =>
    exact all_run_bind (all_unwindRoute hA hN) fun _ => all_unwindApply hA hN hprev

theorem all_fail (d : ℕ) (stage : Stage) (cause : Message) :
    All A (fail ctx d name (slug name) previous stage cause).run := by
  refine all_run_bind (all_emit hA.bookkeeping _ _ _ _) fun _ => ?_
  refine all_run_bind (all_result (all_compensate hA hN hprev _)) fun r => ?_
  cases r <;> exact all_run_bind (all_finished hA.bookkeeping _ _ _) fun _ => trivial

theorem all_undoRow {row : DeployRow} (hrow : row.app = name) :
    All A (undoRow ctx row previous).run := by
  subst hrow
  have hrelease : All A (Run.store (.releaseLock row.app)).run :=
    all_perform (hA.store _ (by rintro _ _ _ ⟨⟩))
  refine all_run_bind (all_result (all_compensate hA hN hprev _)) fun r => ?_
  cases r with
  | ok _ =>
    refine all_run_bind (all_finished hA.bookkeeping _ _ _) fun _ => ?_
    rw [pure_bind]
    exact all_run_bind hrelease fun _ => trivial
  | error e =>
    refine all_run_bind (all_finished hA.bookkeeping _ _ _) fun _ => ?_
    rw [pure_bind]
    exact all_run_bind hrelease fun _ => trivial

theorem all_runStage {α : Type} {d : ℕ} {stage : Stage} {body : Run α}
    {next : α → Run DeployOutcome} (hbody : All A body.run) (hnext : ∀ a, All A (next a).run) :
    All A (runStage ctx d name (slug name) previous stage body next).run := by
  refine all_run_bind (all_begin hA.bookkeeping _ _) fun _ => ?_
  refine all_run_bind (all_result hbody) fun r => ?_
  cases r with
  | ok a => exact all_run_bind (all_emit hA.bookkeeping _ _ _ _) fun _ => hnext a
  | error e => exact all_fail hA hN hprev _ _ _

end Compensate

section Stages
variable (hA : Deploys A ctx N) {previous : Option WorkloadSpec}
  (hprev : ∀ spec, previous = some spec → N spec.name)
include hA hprev

theorem all_runStages (spec : WorkloadSpec) (hspec : N spec.name) (repo : Path) (d : ℕ) :
    All A (runStages ctx spec repo spec.slug d previous).run := by
  have hlooks : Looks A := ⟨fun p => hA.quiet _ trivial (by rintro _ ⟨⟩),
    fun c hc => hA.quiet _ hc (by rintro _ ⟨⟩)⟩
  have hU := hA.toUndoes
  refine all_runStage hU hspec hprev (all_detect hlooks _) fun plan => ?_
  refine all_runStage hU hspec hprev (all_build hlooks _ _) fun image => ?_
  refine all_runStage hU hspec hprev (all_ensureAll hlooks _) fun _ => ?_
  refine all_runStage hU hspec hprev ?_ fun _ => all_runStage hU hspec hprev ?_ fun _ =>
    all_runStage hU hspec hprev ?_ fun _ => ?_
  · exact all_mono (hA.units { spec with image := image } hspec) apply_within
  · unfold routeStage
    split
    · exact all_mono (hA.fragments spec.name hspec _) applyRoute_within
    · trivial
  · exact all_healthcheck hA.health _
  · refine all_run_bind (all_perform (hA.putSpec { spec with image := image } hspec)) fun _ => ?_
    exact all_run_bind (all_finished hA.bookkeeping _ _ _) fun _ => trivial

theorem all_runLocked (spec : WorkloadSpec) (hspec : N spec.name) (repo : Path) (d : ℕ) :
    All A (runLocked ctx spec repo d previous).run := by
  refine all_run_bind (all_result (all_runStages hA hprev spec hspec repo d)) fun r => ?_
  exact all_run_bind (all_perform (hA.store _ (by rintro _ _ _ ⟨⟩))) fun _ => all_ofExcept _

end Stages

end Bundle

/-- An operation that goes to the host. -/
def Eff.OnHost : Eff → Prop
  | .store _ | .emit _ | .spawn .. | .acquire _ | .release _ => False
  | _ => True

section Host
variable {ctx : Ctx}

theorem Eff.Within.onHost {writes : Path → Text → Prop} {deletes : Path → Prop} {e : Eff}
    (h : e.Within writes deletes) : e.OnHost := by
  cases e <;> trivial

theorem looks_onHost : Looks Eff.OnHost := ⟨fun _ => trivial,fun _ _ => trivial⟩

theorem apply_onHost {paths : Paths} {spec : WorkloadSpec} :
    All Eff.OnHost (apply paths spec).run :=
  all_mono (fun _ h => h.onHost) apply_within

theorem unwindApply_onHost {name : Text} {previous : Option WorkloadSpec} :
    All Eff.OnHost (unwindApply ctx name previous).run := by
  cases previous with
  | some prev => exact apply_onHost
  | none => exact all_mono (fun _ h => h.onHost) remove_within

theorem applyRoute_onHost {paths : Paths} {slug : Text} {route : Route} :
    All Eff.OnHost (applyRoute paths slug route).run :=
  all_mono (fun _ h => h.onHost) applyRoute_within

theorem unwindRoute_onHost {slug : Text} {previous : Option WorkloadSpec} :
    All Eff.OnHost (unwindRoute ctx slug previous).run := by
  unfold unwindRoute
  split
  · exact applyRoute_onHost
  · exact all_mono (fun _ h => h.onHost) removeRoute_within

theorem compensate_onHost {name slug : Text} {previous : Option WorkloadSpec} {stage : Stage} :
    All Eff.OnHost (compensate ctx name slug previous stage).run := by
  cases stage with
  | detect | build | secrets => trivial
  | apply => exact unwindApply_onHost
  | route | healthcheck => exact all_run_bind unwindRoute_onHost fun _ => unwindApply_onHost

end Host

section Exits
variable {A : Eff → Prop} {ctx : Ctx} {name slug : Text} {previous : Option WorkloadSpec} {d : ℕ}
  (hhost : ∀ e : Eff, e.OnHost → A e) (hbook : ∀ e : Eff, e.Bookkeeping → A e)
include hhost hbook

theorem all_fail_of_host (stage : Stage) (cause : Message) :
    All A (fail ctx d name slug previous stage cause).run := by
  refine all_run_bind (all_emit hbook _ _ _ _) fun _ => ?_
  refine all_run_bind (all_result (all_mono hhost compensate_onHost)) fun r => ?_
  cases r <;> exact all_run_bind (all_finished hbook _ _ _) fun _ => trivial

theorem all_runStage_of_host {α : Type} {stage : Stage} {body : Run α}
    {next : α → Run DeployOutcome} (hbody : All Eff.OnHost body.run)
    (hnext : ∀ a, All A (next a).run) :
    All A (runStage ctx d name slug previous stage body next).run := by
  refine all_run_bind (all_begin hbook _ _) fun _ => ?_
  refine all_run_bind (all_result (all_mono hhost hbody)) fun r => ?_
  cases r with
  | ok a => exact all_run_bind (all_emit hbook _ _ _ _) fun _ => hnext a
  | error e => exact all_fail_of_host hhost hbook _ _

/-- The stages deal with the host, keep the deploy's records, and store one spec. -/
theorem all_runStages_of_host (hput : ∀ name slug json, A (.store (.putSpec name slug json)))
    (spec : WorkloadSpec) (repo : Path) : All A (runStages ctx spec repo slug d previous).run := by
  refine all_runStage_of_host hhost hbook (all_detect looks_onHost _) fun plan => ?_
  refine all_runStage_of_host hhost hbook (all_build looks_onHost _ _) fun image => ?_
  refine all_runStage_of_host hhost hbook (all_ensureAll looks_onHost _) fun _ => ?_
  refine all_runStage_of_host hhost hbook apply_onHost fun _ => ?_
  refine all_runStage_of_host hhost hbook ?_ fun _ =>
    all_runStage_of_host hhost hbook (all_healthcheck (fun _ => trivial) _) fun _ => ?_
  · unfold routeStage
    split
    · exact applyRoute_onHost
    · trivial
  · refine all_run_bind (all_perform (hput _ _ _)) fun _ => ?_
    exact all_run_bind (all_finished hbook _ _ _) fun _ => trivial

end Exits

section Anyone
variable {A : Eff → Prop} {ctx : Ctx}

theorem all_runReserved (hA : Deploys A ctx fun _ => True) (spec : WorkloadSpec) (repo : Path)
    (d : ℕ) : All A (runReserved ctx spec repo d).run := by
  refine all_run_bind (all_ofExcept _) fun _ => ?_
  refine all_run_bind (all_loadPrevious (hA.store _ (by rintro _ _ _ ⟨⟩))) fun previous => ?_
  exact all_runLocked hA (fun _ _ => trivial) spec trivial repo d

theorem all_reconcile (hA : Undoes A ctx.paths fun _ => True) : All A (reconcile ctx).run := by
  refine all_run_bind (all_perform (hA.store _ (by rintro _ _ _ ⟨⟩))) fun rows => ?_
  refine all_run_bind (all_foldlM fun outcomes row _ => ?_) fun outcomes => ?_
  · refine all_run_bind (all_run_bind (all_loadPrevious (hA.store _ (by rintro _ _ _ ⟨⟩)))
      fun previous => ?_) fun _ => trivial
    exact all_undoRow hA trivial (fun _ _ => trivial) rfl
  · exact all_run_bind (all_perform (hA.store _ (by rintro _ _ _ ⟨⟩))) fun _ => trivial

end Anyone

section Named
variable {A : Eff → Prop} {ctx : Ctx} {N : Text → Prop} {ok : Eff → Answer → Prop}
  {C I : World → Prop} {name : Text} {w : World}

/-- The spec that the store holds for `name`, if it can be read, has a name in `N`. -/
def StoredName (ctx : Ctx) (N : Text → Prop) (name : Text) (s : Store) : Prop :=
  ∀ json spec, s.spec name = some json → ctx.codec.ofText json = .ok spec → N spec.name

/-- The property survives every operation in `A`. -/
def Kept (paths : Paths) (A : Eff → Prop) (I : World → Prop) : Prop := ∀ w e x r w', A e → I w →
  w.answer paths e x = some (r,w') → I (w'.record e)

theorem Kept.wp {α : Type} {paths : Paths} {p : Prog Eff Eff.Resp α} (hkept : Kept paths A I)
    (hC : ∀ w, I w → C w) (hp : All A p) (hI : I w) :
    wp (hostSpec paths ok C) p (fun _ => I) w :=
  wp_invariant I hp hI hC fun w e x r w' he _ hI ha => hkept w e x r w' he hI ha

/-- What `loadPrevious` returns when it succeeds. -/
def Decodes (ctx : Ctx) (s : Store) (name : Text) (previous : Option WorkloadSpec) : Prop :=
  match s.spec name with
  | none => previous = none
  | some json => ∃ spec, ctx.codec.ofText json = .ok spec ∧ previous = some spec

theorem Decodes.named {s : Store} {previous : Option WorkloadSpec} (h : Decodes ctx s name previous)
    (hs : StoredName ctx N name s) : ∀ spec, previous = some spec → N spec.name := by
  rintro spec rfl
  unfold Decodes at h
  split at h
  · cases h
  · rename_i json hjson
    obtain ⟨spec',hdec,heq⟩ := h
    cases heq
    exact hs json spec hjson hdec

theorem Decodes.unique {s : Store} {previous previous' : Option WorkloadSpec}
    (h : Decodes ctx s name previous) (h' : Decodes ctx s name previous') :
    previous' = previous := by
  unfold Decodes at h h'
  cases hs : s.spec name with
  | none =>
    rw [hs] at h h'
    exact h'.trans h.symm
  | some json =>
    rw [hs] at h h'
    obtain ⟨spec,hdec,rfl⟩ := h
    obtain ⟨spec',hdec',rfl⟩ := h'
    rw [hdec] at hdec'
    cases hdec'
    rfl

theorem StoredSpec.decodes {s : Store} {previous : Option WorkloadSpec}
    (h : StoredSpec ctx s name previous) : Decodes ctx s name previous := by
  unfold StoredSpec at h
  unfold Decodes
  cases hs : s.spec name with
  | none =>
    rw [hs] at h
    exact h
  | some json =>
    rw [hs] at h
    obtain ⟨spec,hdec,-,rfl⟩ := h
    exact ⟨spec,hdec,rfl⟩

theorem wp_loadPrevious (hC : C w) (hread : I (w.record (.store (.currentSpec name)))) :
    wp (hostSpec ctx.paths ok C) (loadPrevious ctx name).run (fun r w' => I w' ∧
      ∀ previous, r = .ok previous → Decodes ctx w.store name previous) w := by
  unfold loadPrevious Decodes
  rw [Prog.run_bind,wp_bind]
  refine wp_store hC (fun _ => ?_) fun why _ => ⟨hread,fun _ h => by cases h⟩
  simp only [Store.call,Store.currentSpec,Prog.orElse_ok]
  cases w.store.spec name with
  | none => exact ⟨hread,fun _ h => by cases h; rfl⟩
  | some json =>
    dsimp only
    cases hdec : ctx.codec.ofText json with
    | error e => exact ⟨hread,fun _ h => by cases h⟩
    | ok prev => exact ⟨hread,fun _ h => by cases h; exact ⟨prev,rfl,rfl⟩⟩

variable (hkept : Kept ctx.paths A I) (hC : ∀ w, I w → C w)
  (hI : I w) (hstored : StoredName ctx N name w.store)
include hkept hC hI hstored

/-- A whole deploy keeps what the operations on its own files keep. -/
theorem wp_runReserved_kept (hA : Deploys A ctx N) {spec : WorkloadSpec} (hname : spec.name = name)
    (hN : N name) (repo : Path) (d : ℕ) :
    wp (hostSpec ctx.paths ok C) (runReserved ctx spec repo d).run (fun _ => I) w := by
  subst hname
  unfold runReserved
  cases spec.validate with
  | error e => exact hI
  | ok u =>
    simp only [Run.ofExcept_ok,pure_bind]
    have hcur := hA.store (.currentSpec spec.name) (by rintro _ _ _ ⟨⟩)
    have hread := hkept w _ .done _ w hcur hI rfl
    refine wp_run_seq (wp_loadPrevious (hC w hI) hread) (fun previous w₁ h₁ => ?_)
      fun e w₁ h₁ => h₁.1
    have hprev := (h₁.2 previous rfl).named hstored
    exact hkept.wp hC (all_runLocked hA hprev spec hN repo d) h₁.1

/-- So does the reconciliation of one of the app's rows. -/
theorem wp_reconcileRow_kept (hA : Undoes A ctx.paths N) {row : DeployRow} (hname : row.app = name)
    (hN : N name) : wp (hostSpec ctx.paths ok C) (reconcileRow ctx row).run (fun _ => I) w := by
  subst hname
  have hcur := hA.store (.currentSpec row.app) (by rintro _ _ _ ⟨⟩)
  have hread := hkept w _ .done _ w hcur hI rfl
  refine wp_run_seq (wp_loadPrevious (hC w hI) hread) (fun previous w₁ h₁ => ?_)
    fun e w₁ h₁ => h₁.1
  have hprev := (h₁.2 previous rfl).named hstored
  exact hkept.wp hC (all_undoRow hA hN hprev rfl) h₁.1

end Named

section Frame
variable {paths : Paths} {B : Path → Prop} {name : Text}

/-- A deploy of an app touches no file outside the paths the app claims. -/
theorem deploys_clear {ctx : Ctx} (hclear : ∀ p, B p → ¬Owns ctx.paths name p) :
    Deploys (fun e => ∀ p, B p → ¬e.Touches p) ctx fun n => n = name where
  bookkeeping _ h p _ := h.not_touches p
  quiet _ h _ p _ := h.not_touches p
  store _ _ _ _ := id
  putSpec _ _ _ _ := id
  health _ _ _ := id
  units spec hn e h p hp := by
    subst hn
    refine h.not_touches (fun t ht => ?_) fun hd => hclear p hp (.inr (.inl hd.own))
    rcases owns_of_mem_unitFiles ht.2 with ho | ho
    · exact hclear p hp (.inl ho)
    · exact hclear p hp (.inr (.inl ho))
  removal n hn e h p hp := by
    subst hn
    refine h.not_touches (fun _ => id) fun hd => ?_
    rcases hd with hd | hd
    · exact hclear p hp (.inl hd)
    · exact hclear p hp (.inr (.inl hd))
  fragments n hn route e h p hp := by
    subst hn
    exact h.not_touches (fun t ht => hclear p hp (.inr (.inr ht.1))) id
  unroute n hn e h p hp := by
    subst hn
    exact h.not_touches (fun _ => id) fun hd => hclear p hp (.inr (.inr hd))

/-- The files of `B` are as they were in `w₀`. -/
def SameFiles (B : Path → Prop) (w₀ w : World) : Prop :=
  ∀ p, B p → w.fs.contents p = w₀.fs.contents p

theorem kept_sameFiles (w₀ : World) :
    Kept paths (fun e => ∀ p, B p → ¬e.Touches p) (SameFiles B w₀) :=
  fun _ _ _ _ _ he hI ha p hp => (fragment_of_answer (he p hp) ha).trans (hI p hp)

/-- What holds at every operation of a program holds wherever the program is cut. -/
theorem cut_of_wp {α : Type} {p rest : Prog Eff Eff.Resp α} {I : World → Prop} {w w' : World}
    {answers : List Answer} (h : wp (hostSpec paths (fun _ _ => True) I) p (fun _ => I) w)
    (hrun : (World.machine paths).advance answers p w = some (rest,w')) : I w' :=
  Machine.wp_cut _ h (fun _ _ h => h) (Machine.allowed_of_forall _ (fun _ _ _ => trivial) _ _) hrun

end Frame

end Kuadrat
