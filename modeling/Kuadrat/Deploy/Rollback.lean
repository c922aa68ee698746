import Kuadrat.Workloads.Region
import Kuadrat.Deploy.Logic
import Kuadrat.Codec.Spec

/-!
# Rollback

A deploy that ends rolled back leaves the app's files and its stored spec as it
found them. What makes the generic apply and remove undo every partial change is
that no stage leaves a task file of another shape behind.
-/
namespace Kuadrat

open Effect

section Invariants
variable (paths : Paths) (name : Text)

/-- Whatever is written into the app's task region has one of the two shapes. -/
def Eff.Tidy (e : Eff) : Prop := ∀ p t, e = .write p t → OwnTask paths name p → TaskShape paths p

/-- The deploy has changed no file and no stored spec since `w₀`, and was silent. -/
structure Untouched (w₀ w : World) : Prop where
  contents : w.fs.contents = w₀.fs.contents
  spec : w.store.spec = w₀.store.spec
  quiet : ∃ l, w.issued = w₀.issued ++ l ∧ ∀ e ∈ l, e.Quiet

/-- The unit or the tasks may be half-way, but the fragment is still the one of `w₀`. -/
structure Applying (w₀ w : World) : Prop where
  shaped : Shaped paths name w.fs.contents
  fragment : w.fs.contents (fragmentPath paths (slug name)) =
    w₀.fs.contents (fragmentPath paths (slug name))
  spec : w.store.spec = w₀.store.spec

/-- The fragment may be half-way too. -/
structure Serving (w₀ w : World) : Prop where
  shaped : Shaped paths name w.fs.contents
  spec : w.store.spec = w₀.store.spec

end Invariants

section Steps
variable {paths : Paths} {ok : Eff → Answer → Prop} {name : Text} {w₀ w : World}

theorem shaped_of_answer {w w' : World} {e : Eff} {x : Answer} {r : e.Resp}
    (he : e.Tidy paths name) (h : w.answer paths e x = some (r,w'))
    (hs : Shaped paths name w.fs.contents) : Shaped paths name w'.fs.contents := by
  intro p hp hf
  rcases contents_of_answer h with hc | ⟨q,t,rfl,hc⟩ | ⟨q,rfl,hc⟩
  · rw [hc] at hf
    exact hs p hp hf
  · rw [hc] at hf
    by_cases hpq : p = q
    · subst hpq
      exact he p t rfl hp
    · rw [Function.update_of_ne hpq] at hf
      exact hs p hp hf
  · rw [hc] at hf
    by_cases hpq : p = q
    · subst hpq
      exact absurd (Function.update_self _ _ _) hf
    · rw [Function.update_of_ne hpq] at hf
      exact hs p hp hf

theorem fragment_of_answer {w w' : World} {e : Eff} {x : Answer} {r : e.Resp} {p : Path}
    (he : ¬e.Touches p) (h : w.answer paths e x = some (r,w')) :
    w'.fs.contents p = w.fs.contents p := by
  rcases contents_of_answer h with hc | ⟨q,t,rfl,hc⟩ | ⟨q,rfl,hc⟩
  · rw [hc]
  · rw [hc,Function.update_of_ne (Ne.symm he)]
  · rw [hc,Function.update_of_ne (Ne.symm he)]

/-- The operation is not the one call that replaces a stored spec. -/
def Eff.KeepsSpec (e : Eff) : Prop := ∀ name slug json, e ≠ .store (.putSpec name slug json)

theorem spec_of_answer {w w' : World} {e : Eff} {x : Answer} {r : e.Resp} (he : e.KeepsSpec)
    (h : w.answer paths e x = some (r,w')) : w'.store.spec = w.store.spec := by
  rcases store_of_answer h with hs | ⟨o,rfl,hs⟩
  · rw [hs]
  · rw [hs]
    refine w.store.spec_call fun name slug json ho => ?_
    exact he name slug json (congrArg Eff.store ho)

theorem Eff.Bookkeeping.keepsSpec {e : Eff} (h : e.Bookkeeping) : e.KeepsSpec := by
  rintro n s j rfl
  exact h

theorem Eff.Bookkeeping.quiet {e : Eff} (h : e.Bookkeeping) : e.Quiet := by
  cases e <;> trivial

theorem Eff.Bookkeeping.not_touches {e : Eff} (h : e.Bookkeeping) (p : Path) : ¬e.Touches p := by
  cases e <;> first | exact id | exact h.elim

theorem Eff.Bookkeeping.tidy {e : Eff} (h : e.Bookkeeping) : e.Tidy paths name := by
  rintro p t rfl
  exact h.elim

theorem Eff.Quiet.not_touches {e : Eff} (h : e.Quiet) (p : Path) : ¬e.Touches p := by
  cases e <;> first | exact id | exact h.elim

section Within
variable {writes : Path → Text → Prop} {deletes : Path → Prop} {e : Eff}

theorem Eff.Within.keepsSpec (h : e.Within writes deletes) : e.KeepsSpec := by
  rintro n s j rfl
  exact h

theorem Eff.Within.tidy (h : e.Within writes deletes)
    (hw : ∀ p t, writes p t → OwnTask paths name p → TaskShape paths p) : e.Tidy paths name := by
  rintro p t rfl hp
  exact hw p t h hp

theorem Eff.Within.not_touches (h : e.Within writes deletes) {p : Path}
    (hw : ∀ t, ¬writes p t) (hd : ¬deletes p) : ¬e.Touches p := by
  cases e <;> first | exact id | skip
  · rintro rfl
    exact hw _ h
  · rintro rfl
    exact hd h

end Within

/-- Only quiet operations were issued behind `before`. -/
theorem quiet_record {before : List Eff} {e : Eff} {x : Answer} {r : e.Resp} {w' : World}
    (h : ∃ l, w.issued = before ++ l ∧ ∀ e ∈ l, e.Quiet) (hq : e.Quiet)
    (ha : w.answer paths e x = some (r,w')) :
    ∃ l, (w'.record e).issued = before ++ l ∧ ∀ e ∈ l, e.Quiet := by
  obtain ⟨l,hl,hquiet⟩ := h
  refine ⟨l ++ [e],?_,fun e' he' => ?_⟩
  · rw [World.record_issued,issued_of_answer ha,hl,List.append_assoc]
  · rcases List.mem_append.mp he' with he' | he'
    · exact hquiet e' he'
    · rw [List.mem_singleton] at he'
      exact he' ▸ hq

theorem Untouched.step {e : Eff} {x : Answer} {r : e.Resp} {w' : World} (h : Untouched w₀ w)
    (hq : e.Quiet) (hs : e.KeepsSpec) (ha : w.answer paths e x = some (r,w')) :
    Untouched w₀ (w'.record e) := by
  refine ⟨?_,?_,quiet_record h.quiet hq ha⟩
  · rw [World.record_fs,← h.contents]
    funext p
    exact fragment_of_answer (hq.not_touches p) ha
  · rw [World.record_store,spec_of_answer hs ha,h.spec]

theorem Applying.step {e : Eff} {x : Answer} {r : e.Resp} {w' : World}
    (h : Applying paths name w₀ w) (ht : e.Tidy paths name)
    (hf : ¬e.Touches (fragmentPath paths (slug name))) (hs : e.KeepsSpec)
    (ha : w.answer paths e x = some (r,w')) : Applying paths name w₀ (w'.record e) := by
  have hshaped := shaped_of_answer ht ha h.shaped
  have hfragment := fragment_of_answer hf ha
  have hspec := spec_of_answer hs ha
  exact ⟨hshaped,hfragment.trans h.fragment,hspec.trans h.spec⟩

theorem Serving.step {e : Eff} {x : Answer} {r : e.Resp} {w' : World}
    (h : Serving paths name w₀ w) (ht : e.Tidy paths name) (hs : e.KeepsSpec)
    (ha : w.answer paths e x = some (r,w')) : Serving paths name w₀ (w'.record e) := by
  have hshaped := shaped_of_answer ht ha h.shaped
  have hspec := spec_of_answer hs ha
  exact ⟨hshaped,hspec.trans h.spec⟩

theorem logged_untouched : Logged paths (Untouched w₀) :=
  fun _ _ _ _ _ he hI ha => hI.step he.quiet he.keepsSpec ha

theorem logged_applying : Logged paths (Applying paths name w₀) :=
  fun _ _ _ _ _ he hI ha => hI.step he.tidy (he.not_touches _) he.keepsSpec ha

theorem logged_serving : Logged paths (Serving paths name w₀) :=
  fun _ _ _ _ _ he hI ha => hI.step he.tidy he.keepsSpec ha

end Steps

section Compensation
variable {ctx : Ctx} {ok : Eff → Answer → Prop} {name : Text} {w₀ w : World}
  {previous : Option WorkloadSpec}

/-- The unit and the task files agree with the previous spec again, and the fragment and the
stored specs are left as they are. -/
structure UnitRestored (paths : Paths) (name : Text) (previous : Option WorkloadSpec)
    (w w' : World) : Prop where
  region : ∀ p, p = unitPath paths name ∨ OwnTask paths name p → ∀ t,
    w'.fs.contents p = some t ↔ ∃ spec, previous = some spec ∧ (p,t) ∈ artifacts paths spec
  fragment : w'.fs.contents (fragmentPath paths (slug name)) =
    w.fs.contents (fragmentPath paths (slug name))
  spec : w'.store.spec = w.store.spec

theorem wp_spec_frame {paths : Paths} {α : Type} {p : Run α} (h : All Eff.KeepsSpec p.run) :
    wp (host paths ok) p.run (fun _ w' => w'.store.spec = w.store.spec) w :=
  wp_invariant (fun w' => w'.store.spec = w.store.spec) h rfl (fun _ _ => trivial)
    fun _ _ _ _ _ he _ hI ha => (spec_of_answer he ha).trans hI

theorem wp_path_frame {paths : Paths} {α : Type} {p : Run α} {q : Path}
    (h : All (fun e => ¬e.Touches q) p.run) :
    wp (host paths ok) p.run (fun _ w' => w'.fs.contents q = w.fs.contents q) w :=
  wp_invariant (fun w' => w'.fs.contents q = w.fs.contents q) h rfl (fun _ _ => trivial)
    fun _ _ _ _ _ he _ hI ha => (fragment_of_answer he ha).trans hI

theorem fragment_not_unit {paths : Paths} {spec : WorkloadSpec} {s t : Text} :
    (fragmentPath paths s,t) ∉ unitFiles paths spec := by
  intro h
  rcases owns_of_mem_unitFiles h with h | h
  · exact unitPath_ne_fragment _ _ h.symm
  · exact not_ownTask_fragment _ _ h

theorem unwindApply_ok (hname : ∀ spec, previous = some spec → spec.name = name)
    (hs : Shaped ctx.paths name w.fs.contents) :
    wpOk (host ctx.paths ok) (unwindApply ctx name previous)
      (fun _ w' => UnitRestored ctx.paths name previous w w') w := by
  cases previous with
  | some prev =>
    obtain rfl := hname prev rfl
    have hspec : All Eff.KeepsSpec (apply ctx.paths prev).run :=
      all_mono (fun _ h => h.keepsSpec) apply_within
    have hfrag : All (fun e => ¬e.Touches (fragmentPath ctx.paths (slug prev.name)))
        (apply ctx.paths prev).run :=
      all_mono (fun _ h => h.not_touches (fun t ht => fragment_not_unit ht.2)
        fun hd => not_ownTask_fragment _ _ hd.own) apply_within
    refine wpOk_mono (wpOk_and apply_ok (wpOk_and (wpOk_of_wp (wp_spec_frame hspec))
      (wpOk_of_wp (wp_path_frame hfrag)))) fun _ w' h => ⟨fun p hp t => ?_,h.2.2,h.2.1⟩
    rw [h.1.iff hs hp]
    simp [mem_artifacts_unit hp]
  | none =>
    have hspec : All Eff.KeepsSpec (remove ctx.paths name).run :=
      all_mono (fun _ h => h.keepsSpec) remove_within
    have hfrag : All (fun e => ¬e.Touches (fragmentPath ctx.paths (slug name)))
        (remove ctx.paths name).run := by
      refine all_mono (fun _ h => h.not_touches (fun _ => id) fun hd => ?_) remove_within
      rcases hd with hd | hd
      · exact unitPath_ne_fragment _ _ hd.symm
      · exact not_ownTask_fragment _ _ hd
    refine wpOk_mono (wpOk_and remove_ok (wpOk_and (wpOk_of_wp (wp_spec_frame hspec))
      (wpOk_of_wp (wp_path_frame hfrag)))) fun _ w' h => ⟨fun p hp t => ?_,h.2.2,h.2.1⟩
    have hnone : w'.fs.contents p = none := by
      rcases hp with rfl | hp
      · exact h.1.unit
      · exact h.1.tasks p hp
    simp [hnone]

/-- The fragment agrees with the previous spec again; nothing else has changed. -/
theorem unwindRoute_ok (hname : ∀ spec, previous = some spec → spec.name = name) :
    wpOk (host ctx.paths ok) (unwindRoute ctx (slug name) previous) (fun _ w' =>
      (∀ t, w'.fs.contents (fragmentPath ctx.paths (slug name)) = some t ↔
        ∃ spec, previous = some spec ∧
          (fragmentPath ctx.paths (slug name),t) ∈ artifacts ctx.paths spec) ∧
      (∀ p, p ≠ fragmentPath ctx.paths (slug name) → w'.fs.contents p = w.fs.contents p) ∧
      w'.store.spec = w.store.spec) w := by
  unfold unwindRoute
  have hmem : ∀ t, (∃ spec, previous = some spec ∧
      (fragmentPath ctx.paths (slug name),t) ∈ artifacts ctx.paths spec) ↔
      ∃ route, previous.bind WorkloadSpec.route = some route ∧ t = renderFragment route := by
    intro t
    cases previous with
    | none => simp
    | some prev =>
      obtain rfl := hname prev rfl
      simp [mem_artifacts_fragment,mem_routeFiles,WorkloadSpec.slug]
  simp only [hmem]
  split
  · rename_i route hroute
    have hspec : All Eff.KeepsSpec (applyRoute ctx.paths (slug name) route).run :=
      all_mono (fun _ h => h.keepsSpec) applyRoute_within
    refine wpOk_mono (wpOk_and applyRoute_ok (wpOk_of_wp (wp_spec_frame hspec))) fun _ w' h => ?_
    rw [h.1]
    refine ⟨fun t => ?_,fun p hp => Function.update_of_ne hp _ _,h.2⟩
    rw [Function.update_self,hroute]
    simp [eq_comm]
  · rename_i hroute
    have hspec : All Eff.KeepsSpec (removeRoute ctx.paths (slug name)).run :=
      all_mono (fun _ h => h.keepsSpec) removeRoute_within
    refine wpOk_mono (wpOk_and removeRoute_ok (wpOk_of_wp (wp_spec_frame hspec))) fun _ w' h => ?_
    rw [h.1]
    refine ⟨fun t => ?_,fun p hp => Function.update_of_ne hp _ _,h.2⟩
    rw [Function.update_self,hroute]
    simp

theorem routeStage_within (ctx : Ctx) (spec : WorkloadSpec) (slug : Text) :
    All (Eff.Within (fun p _ => p = fragmentPath ctx.paths slug) fun _ => False)
      (routeStage ctx spec slug).run := by
  unfold routeStage
  split
  · refine all_mono (fun e he => ?_) applyRoute_within
    cases e <;> first | trivial | exact he.1
  · trivial

/-- The unit part and the fragment part together are the whole region. -/
theorem agrees_of_parts {paths : Paths} {f : Path → Option Text}
    (hu : ∀ p, p = unitPath paths name ∨ OwnTask paths name p → ∀ t,
      f p = some t ↔ ∃ spec, previous = some spec ∧ (p,t) ∈ artifacts paths spec)
    (hf : ∀ t, f (fragmentPath paths (slug name)) = some t ↔ ∃ spec, previous = some spec ∧
      (fragmentPath paths (slug name),t) ∈ artifacts paths spec) :
    Agrees paths name previous f := by
  intro p hp
  rcases hp with hp | hp | rfl
  · exact hu p (.inl hp)
  · exact hu p (.inr hp)
  · exact hf

end Compensation

section Deploy
variable {ctx : Ctx} {ok : Eff → Answer → Prop} {name : Text} {w₀ w : World}
  {previous : Option WorkloadSpec}

/-- The stage comes before any change to the host. -/
def Stage.Early : Stage → Prop
  | .detect | .build | .secrets => True
  | _ => False

/-- What a rollback at `stage` promises about the world it started from. -/
structure RolledBack (paths : Paths) (name : Text) (stage : Stage) (w₀ w : World) : Prop where
  files : ∀ p, Owns paths name p → w.fs.contents p = w₀.fs.contents p
  spec : w.store.spec = w₀.store.spec
  quiet : stage.Early → ∃ l, w.issued = w₀.issued ++ l ∧ ∀ e ∈ l, e.Quiet

/-- The promise of the outcome: only a rollback promises anything here. -/
def Restores (paths : Paths) (name : Text) (w₀ : World) : DeployOutcome → World → Prop
  | .rolledBack stage _, w => RolledBack paths name stage w₀ w
  | _, _ => True

theorem RolledBack.step {paths : Paths} {stage : Stage} {e : Eff} {x : Answer} {r : e.Resp}
    {w' : World} (h : RolledBack paths name stage w₀ w) (hq : e.Quiet) (hs : e.KeepsSpec)
    (ha : w.answer paths e x = some (r,w')) : RolledBack paths name stage w₀ (w'.record e) := by
  refine ⟨fun p hp => ?_,?_,fun hearly => quiet_record (h.quiet hearly) hq ha⟩
  · rw [World.record_fs,← h.files p hp]
    exact fragment_of_answer (hq.not_touches p) ha
  · rw [World.record_store,spec_of_answer hs ha,h.spec]

theorem logged_rolledBack {paths : Paths} (stage : Stage) :
    Logged paths (RolledBack paths name stage w₀) :=
  fun _ _ _ _ _ he hI ha => hI.step he.quiet he.keepsSpec ha

section Fail
variable (hname : ∀ spec, previous = some spec → spec.name = name)
  (hagree : Agrees ctx.paths name previous w₀.fs.contents)
include hname hagree

omit hname in
theorem rolledBack_of_agrees {stage : Stage} (hlate : ¬stage.Early)
    (h : Agrees ctx.paths name previous w.fs.contents) (hspec : w.store.spec = w₀.store.spec) :
    RolledBack ctx.paths name stage w₀ w :=
  ⟨fun _ hp => hagree.contents_eq h hp,hspec,fun he => absurd he hlate⟩

omit hname hagree in
theorem fail_early (stage : Stage) (hearly : stage.Early) {d : ℕ} {cause : Message}
    (h : Untouched w₀ w) : wpOk (host ctx.paths ok)
    (fail ctx d name (slug name) previous stage cause) (Restores ctx.paths name w₀) w := by
  refine fail_ok logged_untouched (logged_rolledBack stage) h (fun w hw => ?_)
    (fun _ hw => hw) fun _ _ => trivial
  have hback : RolledBack ctx.paths name stage w₀ w :=
    ⟨fun p _ => congrFun hw.contents p,hw.spec,fun _ => hw.quiet⟩
  cases stage <;> first | exact hearly.elim | exact (wpOk_pure _ _ _).mpr hback

theorem fail_apply {d : ℕ} {cause : Message} (h : Applying ctx.paths name w₀ w) :
    wpOk (host ctx.paths ok) (fail ctx d name (slug name) previous .apply cause)
      (Restores ctx.paths name w₀) w := by
  refine fail_ok logged_applying (logged_rolledBack .apply) h (fun w hw => ?_)
    (fun _ hw => hw) fun _ _ => trivial
  refine wpOk_mono (unwindApply_ok hname hw.shaped) fun _ w' hu => ?_
  refine rolledBack_of_agrees hagree id (agrees_of_parts hu.region fun t => ?_)
    (hu.spec.trans hw.spec)
  rw [hu.fragment,hw.fragment]
  exact hagree _ (.inr (.inr rfl)) t

theorem fail_late {stage : Stage} (hstage : stage = .route ∨ stage = .healthcheck) {d : ℕ}
    {cause : Message} (h : Serving ctx.paths name w₀ w) : wpOk (host ctx.paths ok)
    (fail ctx d name (slug name) previous stage cause) (Restores ctx.paths name w₀) w := by
  have hlate : ¬stage.Early := by rcases hstage with rfl | rfl <;> exact id
  refine fail_ok logged_serving (logged_rolledBack stage) h (fun w hw => ?_)
    (fun _ hw => hw) fun _ _ => trivial
  have hboth : wpOk (host ctx.paths ok) (do
      unwindRoute ctx (slug name) previous
      unwindApply ctx name previous) (fun _ => RolledBack ctx.paths name stage w₀) w := by
    refine wpOk_seq (unwindRoute_ok hname) fun _ w₁ h₁ => ?_
    have hshaped : Shaped ctx.paths name w₁.fs.contents := fun p hp hf =>
      hw.shaped p hp (h₁.2.1 p (fun h => not_ownTask_fragment _ _ (h ▸ hp)) ▸ hf)
    refine wpOk_mono (unwindApply_ok hname hshaped) fun _ w₂ h₂ => ?_
    refine rolledBack_of_agrees hagree hlate (agrees_of_parts h₂.region fun t => ?_)
      (h₂.spec.trans (h₁.2.2.trans hw.spec))
    rw [h₂.fragment]
    exact h₁.1 t
  rcases hstage with rfl | rfl <;> exact hboth

/-- Every way through the stages keeps the promise of its outcome. -/
theorem runStages_restores {spec : WorkloadSpec} (hspec : spec.name = name) {repo : Path} {d : ℕ}
    (h : Untouched w₀ w) : wpOk (host ctx.paths ok)
    (runStages ctx spec repo (slug name) d previous) (Restores ctx.paths name w₀) w := by
  subst hspec
  have hlooks : Looks fun e : Eff => e.Quiet ∧ e.KeepsSpec :=
    ⟨fun _ => ⟨trivial,by rintro _ _ _ ⟨⟩⟩,fun _ hc => ⟨hc,by rintro _ _ _ ⟨⟩⟩⟩
  -- Before Apply nothing is touched, whether the stage's own step succeeds or not.
  have hearly : ∀ {α : Type} {p : Run α}, All (fun e : Eff => e.Quiet ∧ e.KeepsSpec) p.run →
      ∀ w, Untouched w₀ w → wp (host ctx.paths ok) p.run (fun _ => Untouched w₀) w :=
    fun hp _ hw => wp_invariant (Untouched w₀) hp hw (fun _ _ => trivial)
      fun _ _ _ _ _ he _ hI ha => hI.step he.1 he.2 ha
  refine runStage_keep logged_untouched h (hearly (all_detect hlooks _))
    (fun plan w hw => ?_) fun _ _ => fail_early .detect trivial
  refine runStage_keep logged_untouched hw (hearly (all_build hlooks _ _))
    (fun image w hw => ?_) fun _ _ => fail_early .build trivial
  refine runStage_keep logged_untouched hw (hearly (all_ensureAll hlooks _))
    (fun _ w hw => ?_) fun _ _ => fail_early .secrets trivial
  have happly : Applying ctx.paths spec.name w₀ w := by
    refine ⟨?_,congrFun hw.contents _,hw.spec⟩
    rw [hw.contents]
    exact shaped_of_agrees hagree
  refine runStage_keep logged_applying happly (fun w hw => ?_) (fun _ w hw => ?_)
    fun _ _ => fail_apply hname hagree
  · exact wp_invariant (Applying ctx.paths spec.name w₀) apply_within hw
      (fun _ _ => trivial) fun _ _ _ _ _ he _ hI ha => hI.step
        (he.tidy fun p t hp _ => taskShape_of_mem hp.2)
        (he.not_touches (fun t ht => fragment_not_unit ht.2)
          fun hd => not_ownTask_fragment _ _ hd.own) he.keepsSpec ha
  have hserve : Serving ctx.paths spec.name w₀ w := ⟨hw.shaped,hw.spec⟩
  refine runStage_keep logged_serving hserve (fun w hw => ?_) (fun _ w hw => ?_)
    fun _ _ => fail_late hname hagree (.inl rfl)
  · exact wp_invariant (Serving ctx.paths spec.name w₀) (routeStage_within _ _ _) hw
      (fun _ _ => trivial) fun _ _ _ _ _ he _ hI ha => hI.step
        (he.tidy fun p t hp ho => absurd ho (hp ▸ not_ownTask_fragment _ _))
        he.keepsSpec ha
  refine runStage_keep logged_serving hw (fun w hw => ?_) (fun _ w _ => ?_)
    fun _ _ => fail_late hname hagree (.inr rfl)
  · refine wp_invariant (A := fun e => ∃ c, e = .timed c) (Serving ctx.paths spec.name w₀)
      (all_healthcheck (fun c => ⟨c,rfl⟩) _) hw (fun _ _ => trivial) fun _ _ _ _ _ he _ hI ha => ?_
    obtain ⟨c,rfl⟩ := he
    exact hI.step (by rintro _ _ ⟨⟩) (by rintro _ _ _ ⟨⟩) ha
  · refine wpOk_seq (P := fun _ _ => True) (wpOk_trivial fun _ _ => trivial) fun _ w _ => ?_
    refine wpOk_seq (P := fun _ _ => True) (wpOk_trivial fun _ _ => trivial) fun _ w _ => ?_
    exact (wpOk_pure _ _ _).mpr trivial

end Fail

/-- `previous` is the spec the store holds for the app: it decodes, and it is the app's own.
Only `finishDone` stores a spec, always under the spec's own name. -/
def StoredSpec (ctx : Ctx) (s : Store) (name : Text) (previous : Option WorkloadSpec) : Prop :=
  match s.spec name with
  | none => previous = none
  | some json => ∃ spec, ctx.codec.ofText json = .ok spec ∧ spec.name = name ∧
    previous = some spec

theorem StoredSpec.name_eq {s : Store} (h : StoredSpec ctx s name previous) :
    ∀ spec, previous = some spec → spec.name = name := by
  rintro spec rfl
  unfold StoredSpec at h
  split at h
  · cases h
  · obtain ⟨spec',-,hn,hs⟩ := h
    rwa [Option.some.inj hs]

theorem StoredSpec.of_spec_eq {s s' : Store} (h : StoredSpec ctx s name previous)
    (hs : s'.spec name = s.spec name) : StoredSpec ctx s' name previous := by
  unfold StoredSpec at h ⊢
  rw [hs]
  exact h

/-- Loading the previous spec reads the store and does nothing else. -/
theorem loadPrevious_ok {I : World → Prop} (hstored : StoredSpec ctx w.store name previous)
    (hI : I (w.record (.store (.currentSpec name)))) :
    wpOk (host ctx.paths ok) (loadPrevious ctx name) (fun p w' => p = previous ∧ I w') w := by
  refine wpOk_bind (wp_store trivial (fun _ a ha => ?_) fun _ _ _ h => by cases h)
  simp only [Store.call,Store.currentSpec,Except.ok.injEq] at ha ⊢
  subst ha
  unfold StoredSpec at hstored
  split at hstored
  · rename_i hnone
    subst hstored
    rw [hnone]
    exact (wpOk_pure _ _ _).mpr ⟨rfl,hI⟩
  · rename_i json hsome
    obtain ⟨spec,hdec,-,rfl⟩ := hstored
    rw [hsome]
    simp only [hdec]
    exact (wpOk_pure _ _ _).mpr ⟨rfl,hI⟩

theorem runReserved_restores {spec : WorkloadSpec} {repo : Path} {d : ℕ}
    (hstored : StoredSpec ctx w.store spec.name previous)
    (hagree : Agrees ctx.paths spec.name previous w.fs.contents) :
    wpOk (host ctx.paths ok) (runReserved ctx spec repo d)
      (fun outcome w' => Restores ctx.paths spec.name w outcome w') w := by
  unfold runReserved
  cases spec.validate with
  | error e => exact wpOk_throw _ _ _
  | ok u =>
    have hstart : Untouched w (w.record (.store (.currentSpec spec.name))) :=
      ⟨rfl,rfl,[.store (.currentSpec spec.name)],rfl,fun e he => by
        rw [List.mem_singleton] at he
        exact he ▸ trivial⟩
    simp only [Run.ofExcept_ok,pure_bind]
    refine wpOk_seq (loadPrevious_ok hstored hstart) fun p w₁ h₁ => ?_
    obtain ⟨rfl,hw₁⟩ := h₁
    refine wpOk_bind ((wpOk_result _ _ _).mpr
      (wp_mono (runStages_restores hstored.name_eq hagree rfl hw₁) fun r w₂ h₂ => ?_))
    refine wpOk_bind (wp_store trivial (fun _ _ _ => ?_) fun _ _ _ h => by cases h)
    cases r with
    | error e => exact wpOk_throw _ _ _
    | ok outcome =>
      refine (wpOk_pure _ _ _).mpr ?_
      have hr := h₂ outcome rfl
      cases outcome with
      | rolledBack stage cause =>
        have ha : w₂.answer ctx.paths (.store (.releaseLock spec.name)) .done = some (_,_) := rfl
        exact RolledBack.step hr trivial (by rintro _ _ _ ⟨⟩) ha
      | _ => trivial

/-- A deploy that returns `RolledBack` leaves the app's files and its stored spec as they were;
if it failed before Apply, it wrote and deleted nothing and never called systemd. -/
theorem rollback_restores_previous (ctx : Ctx) (spec : WorkloadSpec) (repo : Path) (d : ℕ)
    (previous : Option WorkloadSpec) (w w' : World) (answers : List Answer) (stage : Stage)
    (cause : Message) (hstored : StoredSpec ctx w.store spec.name previous)
    (hagree : Agrees ctx.paths spec.name previous w.fs.contents)
    (hrun : (World.machine ctx.paths).finish answers (runReserved ctx spec repo d).run w =
      some (.ok (.rolledBack stage cause),w')) :
    (∀ p, Owns ctx.paths spec.name p → w'.fs.contents p = w.fs.contents p) ∧
    w'.store.spec spec.name = w.store.spec spec.name ∧
    (stage = .detect ∨ stage = .build ∨ stage = .secrets →
      ∃ l, w'.issued = w.issued ++ l ∧ ∀ e ∈ l, e.Quiet) := by
  have hpost := wpOk_finish (runReserved_restores hstored hagree) hrun
  refine ⟨hpost.files,congrFun hpost.spec _,fun hs => hpost.quiet ?_⟩
  rcases hs with rfl | rfl | rfl <;> trivial

end Deploy

section Example

def sampleSpec : WorkloadSpec := { name := "web", image := "" }

/-- A host with a checkout of the app and one reserved deploy of it. -/
def sampleWorld : World :=
  { World.initial (.single ["","repo"] "Containerfile" "") with
    store := ((Store.empty.createDeploy "web").2.acquireLock "web" 1).2 }

/-- A stage whose own operations get these answers; it is begun before and reported after. -/
def staged (answers : List Answer) : List Answer :=
  [.done,.done,.done] ++ answers ++ [.done,.done]

/-- The unit cannot be written, and compensation finds nothing to undo. -/
def failedWrite : List Answer :=
  [.done] ++ [.done,.done,.done,.done,succeeds "c0ffee",.done,.done] ++
  [.done,.done,.done,succeeds "",.done,.done] ++ [.done,.done,.done,succeeds "",.done,.done] ++
  [.done,.done,.done,.done,.done,.done,.fail ["disk full"]] ++
  [.done,.done] ++ [.done,.entries [],.done,.done] ++ [.done,.done] ++ [.done]

/-- What `finish` gives when only the result is looked at. -/
theorem finish_of_result {α : Type} {p : Run α} {w : World} {answers : List Answer}
    {r : Except Message α}
    (h : ((World.machine .default).finish answers p.run w).map Prod.fst = some r) :
    ∃ w', (World.machine .default).finish answers p.run w = some (r,w') := by
  obtain ⟨⟨r',w'⟩,hf,rfl⟩ := Option.map_eq_some_iff.mp h
  exact ⟨w',hf⟩

def priorSpec : WorkloadSpec where
  name := "web"
  image := "web:1"
  healthCmd := some "true"
  route := some ⟨"example.com",8080⟩
  tasks := [⟨"backup","daily",["true"]⟩]

def priorTree : FileTree :=
  let made := [Paths.default.quadletDir,Paths.default.systemdDir,Paths.default.caddyDir].foldlM
    FileTree.createDirAll (.single ["","repo"] "Containerfile" "")
  let written := made.bind fun tree =>
    (artifacts .default priorSpec).foldlM (fun tree a => tree.write a.1 a.2) tree
  written.getD .empty

/-- A host with the files of a previous version, its spec stored, and one reserved deploy. -/
def priorWorld : World :=
  { World.initial priorTree with
    store := (((Store.empty.createDeploy "web").2.acquireLock "web" 1).2.call
      (.putSpec "web" "web" (serde.toText priorSpec))).2 }

/-- Another route, and another task. -/
def laterSpec : WorkloadSpec :=
  { priorSpec with
    image := ""
    route := some ⟨"example.org",8080⟩
    tasks := [⟨"report","weekly",["true"]⟩] }

/-- An apply over another version: it writes the unit and the files of a task, and deletes those of
the other version's task, which the directories list after them. -/
def changed (quadlet systemd : List Text) : List Answer :=
  [succeeds ""] ++ List.replicate 12 .done ++ [.entries quadlet,.done,.done,.done] ++
  [.done,.entries systemd,.done,.done,succeeds "",.done] ++ [succeeds "",succeeds "",succeeds ""]

/-- The new version is applied and its fragment written; then caddy does not reload. The fragment,
the unit and the task of the previous version are put back. -/
def failedReload : List Answer :=
  [.done] ++ staged [.done,succeeds "c0ffee"] ++ staged [succeeds ""] ++ staged [succeeds ""] ++
  staged (changed
    ["kuadrat-web-task-report.container","kuadrat-web.container","kuadrat-web-task-backup.container"]
    ["kuadrat-web-task-report.timer","kuadrat-web-task-backup.timer"]) ++
  [.done,.done,.done] ++ [.done,.done,.done,.done,.fail ["caddy is down"]] ++ [.done,.done] ++
  [.done,.done,.done,.done,succeeds ""] ++
  changed
    ["kuadrat-web-task-backup.container","kuadrat-web.container","kuadrat-web-task-report.container"]
    ["kuadrat-web-task-backup.timer","kuadrat-web-task-report.timer"] ++ [.done,.done,.done]

theorem rollback_restores_sample : ∃ w',
    (World.machine .default).finish failedReload
      (runReserved sampleContext laterSpec ["","repo"] 1).run priorWorld =
      some (.ok (.rolledBack .route ["caddy is down"]),w') ∧
    (∀ p, Owns .default "web" p → w'.fs.contents p = priorWorld.fs.contents p) ∧
    w'.store.spec "web" = priorWorld.store.spec "web" := by
  have hresult : ∃ w', (World.machine .default).finish failedReload
      (runReserved sampleContext laterSpec ["","repo"] 1).run priorWorld =
      some (.ok (.rolledBack .route ["caddy is down"]),w') := finish_of_result (by decide +kernel)
  obtain ⟨w',hrun⟩ := hresult
  have hagree : Agrees .default "web" (some priorSpec) priorWorld.fs.contents :=
    agrees_of_files (by decide +kernel) (by decide +kernel)
  have hjson : priorWorld.store.spec "web" = some (sampleContext.codec.toText priorSpec) := by
    decide +kernel
  have hstored : StoredSpec sampleContext priorWorld.store "web" (some priorSpec) := by
    unfold StoredSpec
    rw [hjson]
    exact ⟨priorSpec,sampleContext.codec.ofText_toText priorSpec,rfl,rfl⟩
  obtain ⟨hfiles,hspec,-⟩ := rollback_restores_previous sampleContext laterSpec ["","repo"] 1
    (some priorSpec) priorWorld w' failedReload .route ["caddy is down"] hstored hagree hrun
  exact ⟨w',hrun,hfiles,hspec⟩

end Example
end Kuadrat
