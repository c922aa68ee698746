import Kuadrat.Deploy.Reach

/-!
# A deploy that is done

What a successful deploy leaves behind, whatever earlier deploys did. The stage of
the route only ever writes a fragment, so one that is already there stays.
-/
namespace Kuadrat

open Effect Store

section History
variable {ctx : Ctx}

/-- The hosts that deploys can have produced: each deploy of any app was reserved and run, to
its end or to a crash, crashes were reconciled, and none of the app's files was there at the
start. -/
inductive History (ctx : Ctx) (app : Text) : World → Prop
  | fresh {w : World} : (∀ p, Owns ctx.paths app p → w.fs.contents p = none) → History ctx app w
  | reserve {w w' : World} {name : Text} {answers : List Answer}
      {rest : Prog Eff Eff.Resp (Except ReserveError ℕ)} : History ctx app w →
      (World.machine ctx.paths).advance answers (reserve name).run w = some (rest,w') →
      History ctx app w'
  | run {w w' : World} {spec : WorkloadSpec} {repo : Path} {d : ℕ} {answers : List Answer}
      {rest : Prog Eff Eff.Resp (Except Message DeployOutcome)} : History ctx app w →
      (World.machine ctx.paths).advance answers (runReserved ctx spec repo d).run w =
        some (rest,w') →
      History ctx app w'
  | reconcile {w w' : World} {answers : List Answer}
      {rest : Prog Eff Eff.Resp (Except Message (List DeployOutcome))} : History ctx app w →
      (World.machine ctx.paths).advance answers (reconcile ctx).run w = some (rest,w') →
      History ctx app w'

theorem deploys_tidy (ctx : Ctx) (name : Text) :
    Deploys (fun e => e.Tidy ctx.paths name) ctx fun _ => True where
  bookkeeping _ h := h.tidy
  quiet e h _ := by
    rintro p t rfl
    exact h.elim
  store _ _ := by rintro _ _ ⟨⟩
  putSpec _ _ := by rintro _ _ ⟨⟩
  health _ := by rintro _ _ ⟨⟩
  units spec _ e h := h.tidy fun p t hp _ => taskShape_of_mem hp.2
  removal _ _ e h := h.tidy fun p t hp _ => hp.elim
  fragments _ _ route e h := h.tidy fun p t hp ho => absurd ho (hp.1 ▸ not_ownTask_fragment _ _)
  unroute _ _ e h := h.tidy fun p t hp _ => hp.elim

/-- No deploy leaves a task file of another shape, not even one that a crash cuts short. -/
theorem shaped_of_advance {paths : Paths} {α : Type} {p rest : Prog Eff Eff.Resp α} {name : Text}
    {w w' : World} {answers : List Answer} (hp : All (fun e => e.Tidy paths name) p)
    (hrun : (World.machine paths).advance answers p w = some (rest,w'))
    (h : Shaped paths name w.fs.contents) : Shaped paths name w'.fs.contents := by
  have hwp : wp ((World.machine paths).spec (fun _ _ => True)
      fun w => Shaped paths name w.fs.contents) p (fun _ w => Shaped paths name w.fs.contents) w :=
    wp_invariant (fun w => Shaped paths name w.fs.contents) hp h (fun _ h => h)
      fun w e x r w' he _ hI ha => by
        have hs := shaped_of_answer he ha hI
        exact hs
  have hcut := Machine.wp_cut _ hwp (fun _ _ h => h)
    (Machine.allowed_of_forall _ (fun _ _ _ => trivial) _ _) hrun
  exact hcut

theorem shaped_of_history {app : Text} {w : World} (h : History ctx app w) :
    Shaped ctx.paths app w.fs.contents := by
  induction h with
  | fresh hnone =>
    intro p hp hf
    exact absurd (hnone p (.inr (.inl hp))) hf
  | reserve _ hrun ih =>
    exact shaped_of_advance (all_reserve (by rintro _ _ _ _ ⟨⟩) _) hrun ih
  | run _ hrun ih => exact shaped_of_advance (all_runReserved (deploys_tidy _ app) _ _ _) hrun ih
  | reconcile _ hrun ih => exact shaped_of_advance (all_reconcile (deploys_tidy _ app).toUndoes) hrun ih

end History

section Specified
variable {ctx : Ctx} {ok : Eff → Answer → Prop} {spec : WorkloadSpec} {d : ℕ}

/-- The host holds exactly what the spec says, and deploy `d` is recorded as done. -/
structure AsSpecified (ctx : Ctx) (spec : WorkloadSpec) (d : ℕ) (w : World) : Prop where
  unit : ∃ t, render spec = .ok t ∧ w.fs.contents (unitPath ctx.paths spec.name) = some t
  tasks : ∀ p, OwnTask ctx.paths spec.name p → ∀ t, w.fs.contents p = some t ↔
    ∃ task ∈ spec.tasks,
      (p = taskContainerPath ctx.paths spec.name task.name ∧ renderTask spec task = .ok t) ∨
      (p = taskTimerPath ctx.paths spec.name task.name ∧ renderTimer spec task = .ok t)
  fragment : ∀ t, w.fs.contents (fragmentPath ctx.paths spec.slug) = some t ↔
    ∃ route, spec.route = some route ∧ t = renderFragment route
  stored : ∃ json, w.store.spec spec.name = some json ∧ ctx.codec.ofText json = .ok spec
  row : ∃ r, w.store.row d = some r ∧ r.status = .done
  lock : ∀ app, w.store.lock app ≠ some d

/-- The unit and the task files are the spec's; the fragment is what `fragment` says. -/
structure Placed (paths : Paths) (spec : WorkloadSpec) (fragment : Option Text)
    (f : Path → Option Text) : Prop where
  valid : spec.validate = .ok ()
  units : ∀ p, p = unitPath paths spec.name ∨ OwnTask paths spec.name p → ∀ t,
    f p = some t ↔ (p,t) ∈ unitFiles paths spec
  fragment : f (fragmentPath paths spec.slug) = fragment

/-- The fragment after the stage of the route: the spec's, or else the one already there. -/
def servedFragment (paths : Paths) (spec : WorkloadSpec) (f : Path → Option Text) : Option Text :=
  match spec.route with
  | some route => some (renderFragment route)
  | none => f (fragmentPath paths spec.slug)

theorem logged_contents {paths : Paths} (P : (Path → Option Text) → Prop) :
    Logged paths fun w => P w.fs.contents := by
  intro w e x r w' he hI ha
  have hsame : w'.fs.contents = w.fs.contents :=
    funext fun p => fragment_of_answer (he.not_touches p) ha
  rw [World.record_fs,hsame]
  exact hI

/-- What a deploy that returns `Done` has established. -/
structure Finished (ctx : Ctx) (spec : WorkloadSpec) (d : ℕ) (f : Path → Option Text)
    (w : World) : Prop where
  placed : Placed ctx.paths spec (servedFragment ctx.paths spec f) w.fs.contents
  stored : ∃ json, w.store.spec spec.name = some json ∧ ctx.codec.ofText json = .ok spec
  row : ∃ r, w.store.row d = some r ∧ r.status = .done
  lock : ∀ app, w.store.lock app ≠ some d

def Completes (ctx : Ctx) (spec : WorkloadSpec) (d : ℕ) (f : Path → Option Text) :
    DeployOutcome → World → Prop
  | .done image, w => Finished ctx { spec with image := image } d f w
  | _, _ => True

theorem fail_completes {f : Path → Option Text} {name slug : Text}
    {previous : Option WorkloadSpec} {stage : Stage} {cause : Message} {w : World} :
    wpOk (host ctx.paths ok) (fail ctx d name slug previous stage cause)
      (Completes ctx spec d f) w :=
  fail_ok (logged_contents fun _ => True) (logged_contents fun _ => True) trivial
    (fun _ _ => wpOk_trivial fun _ _ => trivial) (fun _ _ => trivial) fun _ _ => trivial

theorem finishDone_completes {f : Path → Option Text} {w : World}
    (h : Placed ctx.paths spec (servedFragment ctx.paths spec f) w.fs.contents) :
    wpOk (host ctx.paths ok) (finishDone ctx spec spec.slug d)
      (fun outcome w' => outcome = .done spec.image ∧ Finished ctx spec d f w') w := by
  refine wpOk_bind (wp_store trivial (fun _ a ha => ?_) fun _ _ _ h => by cases h)
  have hput := map_pair_eq_ok.mp (commit_eq_ok ha)
  refine wpOk_bind (wpOk_bind (wp_store trivial (fun _ e he => ?_) fun _ _ _ h => by cases h))
  obtain ⟨hrow,hlock⟩ := call_finishDeployWithEvent he
  have hspec := spec_of_putSpec hput
  have hkept := Store.spec_call (w.store.call (.putSpec spec.name spec.slug
    (ctx.codec.toText spec))).2 (o := .finishDeployWithEvent d .done none) (by rintro _ _ _ ⟨⟩)
  -- Publishing the terminal event changes neither the files nor the store.
  refine wp_issue trivial fun x r w' _ hx b hb => (wpOk_pure _ _ _).mpr ⟨rfl,?_⟩
  have hstore := (store_of_answer hx).resolve_right (by rintro ⟨o,⟨⟩,-⟩)
  refine ⟨?_,⟨ctx.codec.toText spec,?_,ctx.codec.ofText_toText spec⟩,?_,?_⟩
  · have hlog : Logged ctx.paths fun w' =>
        Placed ctx.paths spec (servedFragment ctx.paths spec f) w'.fs.contents :=
      logged_contents _
    exact hlog _ _ x r w' trivial (by exact h) hx
  · rw [World.record_store,hstore]
    refine (congrFun (hkept.trans hspec) _).trans (Function.update_self _ _ _)
  · rw [World.record_store,hstore]
    exact hrow
  · intro app
    rw [World.record_store,hstore]
    refine fun hd => ?_
    have hnone := (hlock app).symm.trans hd
    simp at hnone

/-- A stage whose failure is of no interest. -/
theorem wp_of_wpOk {α : Type} {p : Run α} {Q : α → World → Prop} {w : World}
    (h : wpOk (host ctx.paths ok) p Q w) : wp (host ctx.paths ok) p.run (fun r w' => match r with
      | .ok a => Q a w'
      | .error _ => True) w := by
  refine wp_mono h fun r w' hr => ?_
  cases r with
  | ok a => exact hr a rfl
  | error e => trivial

theorem apply_placed {w : World} (hshaped : Shaped ctx.paths spec.name w.fs.contents) :
    wpOk (host ctx.paths ok) (apply ctx.paths spec) (fun _ w' => Placed ctx.paths spec
      (w.fs.contents (fragmentPath ctx.paths spec.slug)) w'.fs.contents) w := by
  have hfrag : All (fun e => ¬e.Touches (fragmentPath ctx.paths spec.slug))
      (apply ctx.paths spec).run :=
    all_mono (fun _ h => h.not_touches (fun t ht => fragment_not_unit ht.2)
      fun hd => not_ownTask_fragment _ _ hd.own) apply_within
  refine wpOk_mono (wpOk_and apply_ok (wpOk_of_wp (wp_path_frame hfrag))) fun _ w' h => ?_
  exact ⟨h.1.valid,fun p hp t => h.1.iff hshaped hp,h.2⟩

theorem routeStage_placed {f : Path → Option Text} {w : World}
    (h : Placed ctx.paths spec (f (fragmentPath ctx.paths spec.slug)) w.fs.contents) :
    wpOk (host ctx.paths ok) (routeStage ctx spec spec.slug) (fun _ w' => Placed ctx.paths spec
      (servedFragment ctx.paths spec f) w'.fs.contents) w := by
  unfold routeStage servedFragment
  cases spec.route with
  | none => exact (wpOk_pure _ _ _).mpr h
  | some route =>
    refine wpOk_mono applyRoute_ok fun _ w' h' => ⟨h.valid,fun p hp t => ?_,?_⟩
    · have hne : p ≠ fragmentPath ctx.paths spec.slug := by
        rintro rfl
        rcases hp with hp | hp
        · exact unitPath_ne_fragment _ _ hp.symm
        · exact not_ownTask_fragment _ _ hp
      rw [h',Function.update_of_ne hne]
      exact h.units p hp t
    · rw [h',Function.update_self]

/-- Every way through the stages that ends in `Done` passes each of them. -/
theorem runStages_completes {repo : Path} {previous : Option WorkloadSpec} {w : World}
    (hshaped : Shaped ctx.paths spec.name w.fs.contents) :
    wpOk (host ctx.paths ok) (runStages ctx spec repo spec.slug d previous)
      (Completes ctx spec d w.fs.contents) w := by
  have hlooks : Looks fun e : Eff => ∀ p, True → ¬e.Touches p :=
    ⟨fun _ _ _ => id,fun _ _ _ _ => id⟩
  have hearly : ∀ {α : Type} {p : Run α}, All (fun e => ∀ p, True → ¬e.Touches p) p.run →
      ∀ w', w'.fs.contents = w.fs.contents → wp (host ctx.paths ok) p.run (fun r w' => match r with
        | .ok _ => w'.fs.contents = w.fs.contents
        | .error _ => True) w' := by
    intro α p hp w' hw
    refine wp_mono (wp_contents_frame hp) fun r w'' h => ?_
    cases r with
    | ok a => exact (funext fun p => h p trivial).trans hw
    | error e => trivial
  have hsame : Logged ctx.paths fun w' => w'.fs.contents = w.fs.contents :=
    logged_contents fun f => f = w.fs.contents
  refine runStage_ok hsame (fun _ => hsame) rfl (hearly (all_detect hlooks _))
    (fun plan w₁ h₁ => ?_) fun _ _ _ => fail_completes
  refine runStage_ok hsame (fun _ => hsame) h₁ (hearly (all_build hlooks _ _))
    (fun image w₂ h₂ => ?_) fun _ _ _ => fail_completes
  refine runStage_ok hsame (fun _ => hsame) h₂ (hearly (all_ensureAll hlooks _))
    (fun _ w₃ h₃ => ?_) fun _ _ _ => fail_completes
  -- From here on the spec is the one with the new image.
  let built : WorkloadSpec := { spec with image := image }
  have hplaced : ∀ fragment, Logged ctx.paths fun w' =>
      Placed ctx.paths built fragment w'.fs.contents := fun fragment => logged_contents _
  refine runStage_ok (J := fun _ w' => Placed ctx.paths built
    (w.fs.contents (fragmentPath ctx.paths spec.slug)) w'.fs.contents) (F := fun _ => True)
    hsame (fun _ => hplaced _) h₃ (fun w₃ h₃ => ?_) (fun _ w₄ h₄ => ?_) fun _ _ _ => fail_completes
  · have happly : wpOk (host ctx.paths ok) (apply ctx.paths built) (fun _ w' => Placed ctx.paths
        built (w₃.fs.contents (fragmentPath ctx.paths spec.slug)) w'.fs.contents) w₃ :=
      apply_placed (h₃ ▸ hshaped)
    exact wp_of_wpOk (h₃ ▸ happly)
  refine runStage_ok (J := fun _ w' => Placed ctx.paths built
    (servedFragment ctx.paths built w.fs.contents) w'.fs.contents) (F := fun _ => True)
    (hplaced _) (fun _ => hplaced _) h₄ (fun w₄ h₄ => ?_) (fun _ w₅ h₅ => ?_)
    fun _ _ _ => fail_completes
  · exact wp_of_wpOk (routeStage_placed h₄)
  refine runStage_ok (J := fun _ w' => Placed ctx.paths built
    (servedFragment ctx.paths built w.fs.contents) w'.fs.contents) (F := fun _ => True)
    (hplaced _) (fun _ => hplaced _) h₅ (fun w₅ h₅ => ?_) (fun _ w₆ h₆ => ?_)
    fun _ _ _ => fail_completes
  · have hquiet : All (fun e => ∀ p, True → ¬e.Touches p) (healthcheck built).run :=
      all_healthcheck (fun _ _ _ => id) _
    refine wp_of_wpOk (wpOk_of_wp (wp_mono (wp_contents_frame hquiet) fun _ w' h => ?_))
    have hfiles : w'.fs.contents = w₅.fs.contents := funext fun p => h p trivial
    rw [hfiles]
    exact h₅
  refine wpOk_mono (finishDone_completes h₆) fun outcome w₇ h₇ => ?_
  obtain ⟨rfl,hfin⟩ := h₇
  exact hfin

theorem Finished.releaseLock {f : Path → Option Text} {w : World}
    (h : Finished ctx spec d f w) (name : Text) :
    Finished ctx spec d f { w with store := w.store.releaseLock name } where
  placed := h.placed
  stored := h.stored
  row := h.row
  lock app := by
    rw [lock_releaseLock]
    split
    · exact Option.some_ne_none d ∘ Eq.symm
    · exact h.lock app

theorem runReserved_completes {repo : Path} {w : World}
    (hshaped : Shaped ctx.paths spec.name w.fs.contents) :
    wpOk (host ctx.paths ok) (runReserved ctx spec repo d)
      (Completes ctx spec d w.fs.contents) w := by
  have hload : All (fun e => ∀ p, True → ¬e.Touches p) (loadPrevious ctx spec.name).run :=
    all_loadPrevious fun _ _ => id
  refine wpOk_seq (P := fun _ w' => w'.fs.contents = w.fs.contents) ?_ fun _ w₀ h₀ => ?_
  · exact wpOk_of_wp (wp_mono (wp_contents_frame (all_ofExcept _))
      fun _ _ h => funext fun p => h p trivial)
  refine wpOk_seq (wpOk_of_wp (wp_contents_frame hload)) fun previous w₁ h₁ => ?_
  have hsame : w₁.fs.contents = w.fs.contents := (funext fun p => h₁ p trivial).trans h₀
  refine wpOk_bind ((wpOk_result _ _ _).mpr ?_)
  refine wp_mono (runStages_completes (hsame ▸ hshaped)) fun r w₂ h₂ => ?_
  refine wpOk_bind (wp_store trivial (fun _ _ _ => ?_) fun _ _ _ h => by cases h)
  cases r with
  | error e => exact wpOk_throw _ _ _
  | ok outcome =>
    refine (wpOk_pure _ _ _).mpr ?_
    have hdone := hsame ▸ h₂ outcome rfl
    cases outcome with
    | done image =>
      obtain ⟨hplaced,hstored,hrow,hlock⟩ := hdone.releaseLock spec.name
      exact ⟨hplaced,hstored,hrow,hlock⟩
    | _ => trivial

theorem asSpecified_iff {f : Path → Option Text} {w : World} (h : Finished ctx spec d f w) :
    AsSpecified ctx spec d w ↔
      spec.route.isSome ∨ f (fragmentPath ctx.paths spec.slug) = none := by
  have hfrag := h.placed.fragment
  unfold servedFragment at hfrag
  constructor
  · intro hspec
    cases hroute : spec.route with
    | some route => exact .inl rfl
    | none =>
      rw [hroute] at hfrag
      refine .inr (hfrag.symm.trans (Option.eq_none_iff_forall_ne_some.mpr fun t ht => ?_))
      obtain ⟨route,hr,-⟩ := (hspec.fragment t).mp ht
      rw [hroute] at hr
      cases hr
  · intro hcond
    have hrendered : ∀ {t : Text}, render spec = .ok t ↔ unitText spec = t := fun {t} => by
      rw [render_eq_ok,and_iff_right h.placed.valid]
    have htask : ∀ {task t}, renderTask spec task = .ok t ↔ t = taskText spec task := by
      intro task t
      unfold renderTask
      rw [h.placed.valid]
      exact ⟨fun ht => (Except.ok.inj ht).symm,fun ht => congrArg Except.ok ht.symm⟩
    have htimer : ∀ {task t}, renderTimer spec task = .ok t ↔ t = timerText spec task := by
      intro task t
      unfold renderTimer
      rw [h.placed.valid]
      exact ⟨fun ht => (Except.ok.inj ht).symm,fun ht => congrArg Except.ok ht.symm⟩
    refine ⟨⟨unitText spec,hrendered.mpr rfl,?_⟩,fun p hp t => ?_,fun t => ?_,h.stored,h.row,
      h.lock⟩
    · exact (h.placed.units _ (.inl rfl) _).mpr (mem_unitFiles.mpr (.inl ⟨rfl,rfl⟩))
    · rw [h.placed.units p (.inr hp) t,mem_unitFiles]
      simp only [htask,htimer]
      refine or_iff_right ?_
      rintro ⟨rfl,-⟩
      exact not_ownTask_unitPath _ hp
    · cases hroute : spec.route with
      | some route =>
        rw [hroute] at hfrag
        rw [hfrag]
        simp [eq_comm]
      | none =>
        rw [hroute] at hfrag hcond
        rw [hfrag,hcond.resolve_left (by simp)]
        simp

/-- After any history of deploys, a deploy that returns `Done` leaves what its spec says exactly
when the spec has a route or no fragment of the app was there before. -/
theorem done_as_specified_iff (ctx : Ctx) (spec : WorkloadSpec) (repo : Path) (d : ℕ)
    (w w' : World) (answers : List Answer) (image : Text) (hpast : History ctx spec.name w)
    (hrun : (World.machine ctx.paths).finish answers (runReserved ctx spec repo d).run w =
      some (.ok (.done image),w')) :
    AsSpecified ctx { spec with image := image } d w' ↔
      spec.route.isSome ∨ w.fs.contents (fragmentPath ctx.paths spec.slug) = none := by
  have hfin := wpOk_finish (runReserved_completes (shaped_of_history hpast)) hrun
  exact asSpecified_iff hfin

end Specified

section Example

def bareWorld : World := .initial (.single ["","repo"] "Containerfile" "")

def routedSpec : WorkloadSpec :=
  { sampleSpec with healthCmd := some "true", route := some ⟨"web.example",8080⟩ }

/-- The first deploy: nothing is there yet, and the spec has a route. -/
def firstDeploy : List Answer :=
  [.done] ++ staged [.done,succeeds "c0ffee"] ++ staged [succeeds ""] ++ staged [succeeds ""] ++
  staged [.done,.done,.done,.done,.done,.entries ["kuadrat-web.container"],.done,succeeds "",
    succeeds ""] ++
  staged [.done,.done,.done,succeeds ""] ++ staged [.took (.ok ⟨0,"",""⟩) 0] ++
  [.done,.done,.done,.done]

/-- The second deploy finds the first one's unit; its spec has no route. -/
def secondDeploy : List Answer :=
  [.done] ++ staged [.done,succeeds "c0ffee"] ++ staged [succeeds ""] ++ staged [succeeds ""] ++
  staged [.done,.done,.done,.done,.done,.done,.done,.entries ["kuadrat-web.container"],.done,
    succeeds "",succeeds ""] ++
  staged [] ++ staged [.took (.ok ⟨0,"active",""⟩) 0] ++ [.done,.done,.done,.done]

/-- The host after the first deploy, with the second one reserved. -/
def redeployed : Option World :=
  ((World.machine .default).advance [.done,.done] (reserve "web").run bareWorld).bind fun r =>
  ((World.machine .default).advance firstDeploy
    (runReserved sampleContext routedSpec ["","repo"] 1).run r.2).bind fun r =>
  ((World.machine .default).advance [.done,.done] (reserve "web").run r.2).map Prod.snd

theorem history_bareWorld : History sampleContext "web" bareWorld := by
  refine .fresh fun p hp => ?_
  have hne : p ≠ Path.join ["","repo"] "Containerfile" := by
    rintro rfl
    rcases inside_of_owns hp with h | h | h <;> rw [Path.inside_join] at h <;> contradiction
  exact (FileTree.contents_single _ _ _ _).trans (if_neg hne)

theorem history_of_redeployed {w : World} (h : redeployed = some w) :
    History sampleContext "web" w := by
  obtain ⟨⟨p₁,w₁⟩,h₁,h⟩ := Option.bind_eq_some_iff.mp h
  obtain ⟨⟨p₂,w₂⟩,h₂,h⟩ := Option.bind_eq_some_iff.mp h
  obtain ⟨⟨p₃,w₃⟩,h₃,rfl⟩ := Option.map_eq_some_iff.mp h
  exact .reserve (.run (.reserve history_bareWorld h₁) h₂) h₃

/-- The second deploy ends in `Done`, and the fragment is there as before. -/
theorem redeploy_keeps_fragment : (redeployed.bind fun w =>
    ((World.machine .default).finish secondDeploy
      (runReserved sampleContext sampleSpec ["","repo"] 2).run w).map fun r =>
      (r.1,(r.2.fs.contents (fragmentPath .default "web")).isSome)) =
    some (.ok (.done "localhost/kuadrat-web:c0ffee"),true) := by
  decide +kernel

/-- Clearing the route leaves the old fragment in place. -/
theorem cleared_route_stays : ∃ w w', History sampleContext "web" w ∧
    (World.machine .default).finish secondDeploy
      (runReserved sampleContext sampleSpec ["","repo"] 2).run w =
      some (.ok (.done "localhost/kuadrat-web:c0ffee"),w') ∧
    ¬AsSpecified sampleContext { sampleSpec with image := "localhost/kuadrat-web:c0ffee" } 2 w' := by
  obtain ⟨w,hw,h⟩ := Option.bind_eq_some_iff.mp redeploy_keeps_fragment
  obtain ⟨⟨r,w'⟩,hrun,heq⟩ := Option.map_eq_some_iff.mp h
  obtain ⟨rfl,hfrag⟩ := Prod.mk.inj heq
  refine ⟨w,w',history_of_redeployed hw,hrun,fun hspec => ?_⟩
  obtain ⟨t,ht⟩ := Option.isSome_iff_exists.mp hfrag
  obtain ⟨route,hroute,-⟩ := (hspec.fragment t).mp ht
  cases hroute

/-- The first deploy has a route, so what it leaves is as its spec says. -/
theorem first_deploy_as_specified : ∃ w w', (World.machine .default).finish firstDeploy
      (runReserved sampleContext routedSpec ["","repo"] 1).run w =
      some (.ok (.done "localhost/kuadrat-web:c0ffee"),w') ∧
    AsSpecified sampleContext { routedSpec with image := "localhost/kuadrat-web:c0ffee" } 1 w' := by
  have hresult : (((World.machine .default).advance [.done,.done] (reserve "web").run
      bareWorld).bind fun r => ((World.machine .default).finish firstDeploy
        (runReserved sampleContext routedSpec ["","repo"] 1).run r.2).map Prod.fst) =
      some (.ok (.done "localhost/kuadrat-web:c0ffee")) := by decide +kernel
  obtain ⟨⟨p,w⟩,hreserve,h⟩ := Option.bind_eq_some_iff.mp hresult
  obtain ⟨⟨r,w'⟩,hrun,rfl⟩ := Option.map_eq_some_iff.mp h
  exact ⟨w,w',hrun,(done_as_specified_iff sampleContext routedSpec ["","repo"] 1 w w' firstDeploy
    "localhost/kuadrat-web:c0ffee" (.reserve history_bareWorld hreserve) hrun).mpr (.inl rfl)⟩

end Example
end Kuadrat
