import Kuadrat.Store.Effects

/-!
# How deploys stand, and where apps are registered

The course of a deploy is its app with the status of its row; the checkout of an app is the
path of its registration. Each is changed by a few calls only.
-/
namespace Kuadrat.Store

variable {s : Store} {d : ℕ}

/-- The app of a deploy, and the status of its row. -/
def course (s : Store) (d : ℕ) : Option (Text × DeployStatus) :=
  (s.row d).map fun r => (r.app,r.status)

/-- The path that an app is registered with. -/
def checkout (s : Store) (name : Text) : Option Text :=
  (s.configs.lookup name).map ConfigRow.repoPath

theorem course_eq_some {app : Text} {status : DeployStatus} :
    s.course d = some (app,status) ↔ ∃ r, s.row d = some r ∧ r.app = app ∧ r.status = status := by
  simp [course]

theorem inProgress_iff_course : s.InProgress d ↔ ∃ app, s.course d = some (app,.inProgress) := by
  constructor
  · rintro ⟨r,hr,hs⟩
    exact ⟨r.app,course_eq_some.mpr ⟨r,hr,rfl,hs⟩⟩
  · rintro ⟨app,h⟩
    obtain ⟨r,hr,-,hs⟩ := course_eq_some.mp h
    exact ⟨r,hr,hs⟩

theorem course_new : s.course (s.lastDeploy+1) = none := by
  rw [course,row_eq_none_of_lt (Nat.lt_succ_self _)]
  rfl

theorem course_createDeploy (app : Text) : (s.createDeploy app).2.course =
    Function.update s.course (s.lastDeploy+1) (some (app,.inProgress)) := by
  funext d
  rw [course,row_createDeploy,Function.update_apply]
  split <;> rfl

/-- A row that no call has created is there before, for the same app. -/
theorem row_before {o : StoreOp} (hcreate : ∀ app, o ≠ .createDeploy app) {r' : DeployRow}
    (hr' : (s.call o).2.row d = some r') : ∃ r, s.row d = some r ∧ r.app = r'.app :=
  (app_call s hr').resolve_left (hcreate _)

theorem course_call_none {o : StoreOp} (hcreate : ∀ app, o ≠ .createDeploy app)
    (hr : s.row d = none) : (s.call o).2.course d = none := by
  cases hr' : (s.call o).2.row d with
  | none => rw [course,hr',Option.map_none]
  | some r' =>
    obtain ⟨r₀,hr₀,-⟩ := row_before hcreate hr'
    rw [hr] at hr₀
    cases hr₀

/-- A deploy stands as it did until a call ends it. -/
theorem course_call {o : StoreOp} (hcreate : ∀ app, o ≠ .createDeploy app) (ho : ¬Ends d o) :
    (s.call o).2.course d = s.course d := by
  cases hr : s.row d with
  | some r =>
    obtain ⟨r',hr',hs⟩ := status_call s ho hr
    obtain ⟨r₀,hr₀,happ⟩ := row_before hcreate hr'
    rw [hr] at hr₀
    cases hr₀
    simp only [course,hr,hr',Option.map_some,hs,happ]
  | none => rw [course_call_none hcreate hr,course,hr,Option.map_none]

/-- A deploy that a call ends gets the status. -/
theorem course_ended {status : DeployStatus} {detail : Option Message} {o : StoreOp}
    (ho : o = .finishDeploy d status detail ∨ o = .finishDeployWithEvent d status detail) :
    (s.call o).2.course d = (s.course d).map fun c => (c.1,status) := by
  have hcreate : ∀ app, o ≠ .createDeploy app := by
    rcases ho with rfl | rfl <;> rintro app ⟨⟩
  cases hr : s.row d with
  | some r =>
    obtain ⟨r',hr',hs⟩ := row_ended ho (Option.isSome_of_eq_some hr)
    obtain ⟨r₀,hr₀,happ⟩ := row_before hcreate hr'
    rw [hr] at hr₀
    cases hr₀
    simp only [course,hr,hr',Option.map_some,hs,happ]
  | none => rw [course_call_none hcreate hr,course,hr,Option.map_none,Option.map_none]

theorem checkout_call {o : StoreOp} (ho : ∀ config, o ≠ .registerApp config) :
    (s.call o).2.checkout = s.checkout := by
  have hconfigs : (s.call o).2.configs = s.configs := by
    cases o with
    | registerApp config => exact absurd rfl (ho config)
    | putSpec name slug json =>
      refine commit_induct (P := fun t => t.configs = s.configs) rfl fun a t ht => ?_
      have hput := map_pair_eq_ok.mp ht
      unfold putSpec at hput
      split at hput <;> cases hput
      rfl
    | advanceStage d stage =>
      refine commit_induct (P := fun t => t.configs = s.configs) rfl fun a t ht => ?_
      rw [(advanceStage_eq_ok.mp (map_pair_eq_ok.mp ht)).2]
      rfl
    | finishDeploy d status detail =>
      refine commit_induct (P := fun t => t.configs = s.configs) rfl fun a t ht => ?_
      rw [(finishDeploy_eq_ok.mp (map_pair_eq_ok.mp ht)).2]
      rfl
    | finishDeployWithEvent d status detail =>
      refine commit_induct (P := fun t => t.configs = s.configs) rfl fun a t ht => ?_
      rw [show t = _ from congrArg Prod.snd (finishDeployWithEvent_eq_ok.mp ht).2]
      rfl
    | acquireLock app d =>
      simp only [call,acquireLock]
      split <;> rfl
    | currentSpec | createDeploy | deploy | inProgressDeploys | releaseLock
    | releaseOrphanedLocks | appendEvent | eventsFor | appConfig => rfl
  funext name
  rw [checkout,hconfigs]
  rfl

/-- A registration is rejected, or gives the app its checkout. -/
theorem checkout_registerApp (config : AppConfig) :
    (s.call (.registerApp config)).2.checkout = s.checkout ∨
    (s.call (.registerApp config)).2.checkout =
      Function.update s.checkout config.name (some config.repoPath) := by
  refine commit_induct (P := fun t => t.checkout = s.checkout ∨ t.checkout = _) (.inl rfl)
    fun a t ht => .inr ?_
  funext name
  rw [checkout,registerApp_ok (map_pair_eq_ok.mp ht),Function.update_apply]
  split
  · next heq => rw [heq,AList.lookup_insert,Option.map_some]
  · next hne => rw [AList.lookup_insert_ne hne,checkout]

/-- A registration that is read has the app's name and its checkout. -/
theorem of_appConfig {name : Text} {config : AppConfig} (h : s.appConfig name = .ok (some config)) :
    config.name = name ∧ s.checkout name = some config.repoPath := by
  obtain ⟨row,hrow,hread⟩ := appConfig_ok h
  obtain ⟨hname,hrepo,-⟩ := buildAppConfig_ok hread
  refine ⟨hname,?_⟩
  rw [checkout,hrow,hrepo]
  rfl

end Kuadrat.Store
