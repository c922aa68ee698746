import Kuadrat.Daemon.Checkouts
import Kuadrat.Daemon.Conduct

/-!
# What a thread may do to a checkout

A handler takes the trigger lock, reads a registration, sees that the app is not busy, and
reserves; from then on the deploy's checkout is its own. It resets nothing else, and the task
that it hands the deploy to builds from nothing else.
-/
namespace Kuadrat

open Effect

/-- What a thread knows: that it has the trigger lock, which registration it has read with it, and
that no deploy of the app is in progress but, once it is created, its own; then which path its
deploy was reserved for, that its deploy can only be ended any more, or that it has been built. -/
inductive Errand
  | free
  | locked
  | knows (config : AppConfig)
  | alone (config : AppConfig)
  | created (config : AppConfig) (d : ℕ)
  | holds (repo : Text) (d : ℕ)
  | attempt (d : ℕ)
  | built (d : ℕ)

namespace Errand

def deploy : Errand → Option ℕ
  | created _ d | holds _ d | attempt d | built d => some d
  | _ => none

/-- The rows in progress are read. -/
def look (rows : List DeployRow) : Errand → Errand
  | knows c => if rows.any fun row => row.app == c.name then knows c else alone c
  | m => m

def create (d : ℕ) : Errand → Errand
  | alone c => created c d
  | _ => attempt d

def reserve (granted : Bool) : Errand → Errand
  | created c d => if granted then holds c.repoPath d else attempt d
  | m => m

/-- Git has failed in the checkout. -/
def giveUp : Errand → Errand
  | holds _ d => attempt d
  | m => m

def build : Errand → Errand
  | holds _ d => built d
  | m => m

/-- What a thread must know to issue an operation. -/
def pre (m : Errand) : Eff → Prop
  | .acquire .trigger => m = .free
  | .store (.registerApp _) | .store (.appConfig _) => m = .locked
  | .store .inProgressDeploys => ∃ c, m = .knows c
  | .store (.createDeploy app) => ∃ c, (m = .knows c ∨ m = .alone c) ∧ app = c.name
  | .store (.acquireLock _ d) => ∃ c, m = .created c d
  | .store (.finishDeploy d status _) => status = .failed ∧ m = .attempt d
  | .store (.finishDeployWithEvent d status _) =>
    m.deploy = some d ∧ status ≠ .inProgress ∧ (status = .done → m = .built d)
  | .timed (.gitReset repo _) => ∃ d, m = .holds repo d
  | .run (.podmanBuild _ _ dir) => ∃ repo d, m = .holds repo d ∧ dir = (Path.ofText repo).display
  | .spawn _ repo d => ∃ path, m = .holds path d ∧ repo = Path.ofText path
  | _ => True

/-- The replies a thread can count on, and what it knows after them. -/
def post (m : Errand) : (e : Eff) → e.Resp → Errand → Prop
  | .acquire .trigger, _, m' => m' = .locked
  | .release .trigger, _, m' | .spawn .., _, m' => m' = .free
  | .store (.appConfig name), .ok (some c), m' => c.name = name ∧ m' = .knows c
  | .store .inProgressDeploys, .ok rows, m' => m' = m.look rows
  | .store (.createDeploy _), .ok d, m' => m' = m.create d
  | .store (.acquireLock ..), .ok granted, m' => m' = m.reserve granted
  | .store (.finishDeployWithEvent ..), _, m' => m' = .free
  | .timed (.gitReset ..), r, m' => m' = if r.succeeded then m else m.giveUp
  | .run (.podmanBuild ..), _, m' => m' = m.build
  | _, _, m' => m' = m

end Errand

def errandProtocol : Spec Eff Eff.Resp Errand where
  pre := Errand.pre
  post := Errand.post

/-- An operation on the host that neither resets a checkout nor builds from one. -/
def Eff.Away : Eff → Prop
  | .run (.podmanBuild ..) | .timed (.gitReset ..) => False
  | .store _ | .emit _ | .spawn .. | .acquire _ | .release _ => False
  | _ => True

section Away
variable {ctx : Ctx} {paths : Paths}

theorem apply_away {spec : WorkloadSpec} : All Eff.Away (apply paths spec).run :=
  all_apply {
    present := fun _ => trivial
    read := fun _ => trivial
    list := fun _ => trivial
    disable := fun _ => trivial
    removes := fun _ _ => trivial
    preflight := fun _ => trivial
    create := fun _ => trivial
    writes := fun _ _ _ _ => trivial
    reload := trivial
    start := trivial
    restart := trivial
    enable := fun _ => trivial }

theorem remove_away {name : Text} : All Eff.Away (remove paths name).run :=
  all_remove {
    present := fun _ => trivial
    read := fun _ => trivial
    list := fun _ => trivial
    disable := fun _ => trivial
    removes := fun _ _ => trivial
    removeUnit := trivial
    stop := trivial
    reload := trivial }

theorem applyRoute_away {slug : Text} {route : Route} :
    All Eff.Away (applyRoute paths slug route).run :=
  all_applyRoute ⟨fun _ => trivial,fun _ => trivial⟩ (fun _ => trivial) trivial trivial

theorem compensate_away {name slug : Text} {previous : Option WorkloadSpec} {stage : Stage} :
    All Eff.Away (compensate ctx name slug previous stage).run := by
  have hunit : All Eff.Away (unwindApply ctx name previous).run := by
    cases previous with
    | some prev => exact apply_away
    | none => exact remove_away
  have hroute : All Eff.Away (unwindRoute ctx slug previous).run := by
    unfold unwindRoute
    split
    · exact applyRoute_away
    · exact all_removeRoute ⟨fun _ => trivial,fun _ => trivial⟩ trivial trivial
  cases stage with
  | detect | build | secrets => trivial
  | apply => exact hunit
  | route | healthcheck => exact all_run_bind hroute fun _ => hunit

theorem routeStage_away {spec : WorkloadSpec} {slug : Text} :
    All Eff.Away (routeStage ctx spec slug).run := by
  unfold routeStage
  split
  · exact applyRoute_away
  · trivial

end Away

section Tasks
variable {ctx : Ctx} {d : ℕ} {slug app repo : Text} {previous : Option WorkloadSpec} {m : Errand}

theorem errand_away {α : Type} {p : Run α} (hp : All Eff.Away p.run) :
    wp errandProtocol p.run (fun _ m' => m' = m) m := by
  refine wp_of_all (fun m' => m' = m) hp rfl (fun m' e he _ => ?_) fun m' e r m'' he hm h => ?_
  · cases e with
    | run c | timed c => cases c <;> first | exact he.elim | exact trivial
    | store | emit | spawn | acquire | release => exact he.elim
    | present | readToString | write | createDirAll | removeFile | readDir => trivial
  · refine Eq.trans ?_ hm
    cases e with
    | run c | timed c => cases c <;> first | exact he.elim | exact h
    | store | emit | spawn | acquire | release => exact he.elim
    | present | readToString | write | createDirAll | removeFile | readDir => exact h

theorem errand_result {α : Type} {p : Run α} (hp : All Eff.Away p.run) :
    wp errandProtocol p.result.run (fun _ m' => m' = m) m :=
  wp_result.mpr (errand_away hp)

theorem errand_emit (stage : Stage) (status : EventStatus) (detail : Option Message) :
    wp errandProtocol (emit d stage status detail).run (fun _ m' => m' = m) m :=
  wp_run_seq (P := fun _ m' => m' = m) (wp_ask trivial fun _ _ h => h)
    (fun _ _ h => ⟨trivial,fun _ _ h' => Eq.trans h' h⟩) fun _ _ h => h

theorem errand_begin (stage : Stage) :
    wp errandProtocol (begin' d stage).run (fun _ m' => m' = m) m := by
  refine wp_run_seq (P := fun _ m' => m' = m) (wp_ask trivial fun _ _ h => h)
    (fun _ m₁ h₁ => ?_) fun _ _ h => h
  subst h₁
  exact errand_emit stage .started none

/-- The terminal write of an owner; `Done` takes a build. -/
theorem errand_finished {status : DeployStatus} (detail : Option Message)
    (hm : m.deploy = some d) (hs : status ≠ .inProgress) (hdone : status = .done → m = .built d) :
    wp errandProtocol (finished d status detail).run (fun _ _ => True) m :=
  wp_run_seq (P := fun _ _ => True) (wp_ask ⟨hm,hs,hdone⟩ fun _ _ _ => trivial)
    (fun _ _ _ => ⟨trivial,fun _ _ _ => trivial⟩) fun _ _ _ => trivial

theorem errand_fail (stage : Stage) (cause : Message) (hm : m.deploy = some d) :
    wp errandProtocol (fail ctx d app slug previous stage cause).run (fun _ _ => True) m := by
  refine wp_run_seq (errand_emit stage .failed (some cause)) (fun _ m₁ h₁ => ?_) fun _ _ _ => trivial
  subst h₁
  refine wp_run_seq (errand_result compensate_away) (fun r m₂ h₂ => ?_) fun _ _ _ => trivial
  subst h₂
  cases r with
  | ok _ =>
    exact wp_run_seq (errand_finished (some cause) hm (by decide) nofun) (fun _ _ _ => trivial)
      fun _ _ _ => trivial
  | error comp =>
    exact wp_run_seq (errand_finished _ hm (by decide) nofun) (fun _ _ _ => trivial)
      fun _ _ _ => trivial

/-- A stage whose body leads from `m` to `m'`, with the same deploy. -/
theorem errand_runStage {α : Type} {m' : Errand} {stage : Stage} {body : Run α}
    {next : α → Run DeployOutcome} (hm : m'.deploy = some d)
    (hbody : wp errandProtocol body.run (fun _ m₁ => m₁ = m') m)
    (hnext : ∀ a, wp errandProtocol (next a).run (fun _ _ => True) m') :
    wp errandProtocol (runStage ctx d app slug previous stage body next).run (fun _ _ => True) m := by
  refine wp_run_seq (errand_begin stage) (fun _ m₁ h₁ => ?_) fun _ _ _ => trivial
  subst h₁
  refine wp_run_seq (P := fun _ m₂ => m₂ = m') (wp_result.mpr (wp_mono hbody fun _ _ h => h))
    (fun r m₂ h₂ => ?_) fun _ _ _ => trivial
  subst h₂
  cases r with
  | ok a =>
    refine wp_run_seq (errand_emit stage .succeeded none) (fun _ m₃ h₃ => ?_) fun _ _ _ => trivial
    subst h₃
    exact hnext a
  | error e => exact errand_fail stage e hm

/-- The context directory of the build is the one that the deploy was reserved for. -/
theorem errand_build (plan : BuildPlan) (hplan : plan.contextDir = Path.ofText repo) :
    wp errandProtocol (build plan slug).run (fun _ m => m = .built d) (.holds repo d) := by
  refine wp_run_seq (P := fun _ m => m = Errand.built d) ⟨⟨repo,d,rfl,by rw [hplan]⟩,
    fun _ _ h => h⟩ (fun out m₁ h₁ => ?_) fun _ _ h => h
  split <;> exact h₁

/-- What `detect` finds is in the directory it was given. -/
theorem wp_detect {path : Path} : wp errandProtocol (detect path).run (fun r m' => m' = m ∧
    ∀ plan, r = .ok plan → plan.contextDir = path) m := by
  have hfind : wp errandProtocol (findContainerfile path).run (fun _ m' => m' = m) m := by
    refine errand_away ?_
    refine all_run_bind (all_perform trivial) fun b => ?_
    split
    · trivial
    · refine all_run_bind (all_perform trivial) fun b => ?_
      split <;> trivial
  refine wp_run_seq hfind (fun file m₁ h₁ => ?_) fun _ _ h => ⟨h,nofun⟩
  refine wp_run_seq (P := fun _ m' => m' = m) ⟨trivial,fun _ _ h => Eq.trans h h₁⟩
    (fun out m₂ h₂ => ?_) fun _ _ h => ⟨h,nofun⟩
  split
  · split
    · exact ⟨h₂,nofun⟩
    · refine ⟨h₂,?_⟩
      rintro plan ⟨⟩
      rfl
  · exact ⟨h₂,nofun⟩

theorem errand_runStages (spec : WorkloadSpec) : wp errandProtocol
    (runStages ctx spec (Path.ofText repo) slug d previous).run (fun _ _ => True) (.holds repo d) := by
  refine wp_run_seq (errand_begin .detect) (fun _ m₁ h₁ => ?_) fun _ _ _ => trivial
  subst h₁
  refine wp_run_seq (P := fun r m => m = .holds repo d ∧ ∀ e, r = .ok e → ∀ plan, e = .ok plan →
    plan.contextDir = Path.ofText repo) (wp_result.mpr (wp_mono wp_detect fun r m h => ⟨h.1,?_⟩))
    (fun r m₂ h₂ => ?_) fun _ _ _ => trivial
  · rintro e ⟨⟩
    exact h.2
  obtain ⟨rfl,hplan⟩ := h₂
  cases r with
  | error e => exact errand_fail .detect e rfl
  | ok plan =>
    refine wp_run_seq (errand_emit .detect .succeeded none) (fun _ m₃ h₃ => ?_) fun _ _ _ => trivial
    subst h₃
    refine errand_runStage rfl (errand_build plan (hplan _ rfl plan rfl))
      fun image => ?_
    refine errand_runStage rfl (errand_away (all_ensureAll_of trivial _)) fun _ => ?_
    refine errand_runStage rfl (errand_away apply_away) fun _ => ?_
    refine errand_runStage rfl (errand_away routeStage_away) fun _ => ?_
    refine errand_runStage rfl (errand_away (all_healthcheck_of (fun _ => trivial)
      (fun _ => trivial) _)) fun _ => ?_
    refine wp_run_seq (P := fun _ m => m = Errand.built d) (wp_ask trivial fun _ _ h => h)
      (fun _ m h => ?_) fun _ _ _ => trivial
    subst h
    exact wp_run_seq (errand_finished none rfl (by decide) fun _ => rfl) (fun _ _ _ => trivial)
      fun _ _ _ => trivial

/-- A spawned task keeps to the protocol. -/
theorem errand_spawnedDeploy {spec : WorkloadSpec} : wp errandProtocol
    (spawnedDeploy ctx spec (Path.ofText repo) d) (fun _ _ => True) (.holds repo d) := by
  refine wp_forget (Q := fun _ => True) (wp_locked (P := fun m => m = Errand.holds repo d)
    (Q := fun _ => True) trivial (fun _ _ h => h) (fun m h => ?_)
    fun _ _ => ⟨trivial,fun _ _ _ => trivial⟩)
  subst h
  rw [Proc.run_mapError]
  refine wp_seq (P := fun _ _ => True) ?_ fun _ _ h => h
  unfold runReserved
  cases spec.validate with
  | error e => exact trivial
  | ok u =>
    simp only [Run.ofExcept_ok,pure_bind]
    have hload : wp errandProtocol (loadPrevious ctx spec.name).run
        (fun _ m' => m' = .holds repo d) (.holds repo d) := by
      unfold loadPrevious
      refine wp_run_seq (P := fun _ m' => m' = Errand.holds repo d) (wp_ask trivial fun _ _ h => h)
        (fun json m' h => ?_) fun _ _ h => h
      split
      · split <;> exact h
      · exact h
    refine wp_run_seq hload (fun previous m₁ h₁ => ?_) fun _ _ _ => trivial
    subst h₁
    refine wp_run_seq (P := fun _ _ => True)
      (wp_result.mpr (wp_mono (errand_runStages spec) fun _ _ h => h)) (fun r m₂ _ => ?_)
      fun _ _ _ => trivial
    refine wp_run_seq (P := fun _ _ => True) (wp_ask trivial fun _ _ _ => trivial)
      (fun _ _ _ => ?_) fun _ _ _ => trivial
    cases r <;> trivial

end Tasks

section Handlers
variable {codec : SpecCodec} {config : AppConfig} {name : Text} {d : ℕ} {m : Errand}

/-- A handler does its work with the trigger lock. -/
theorem errand_locked {α : Type} {p : Api α} (h : wp errandProtocol p.run (fun _ _ => True) .locked) :
    wp errandProtocol (forget (Api.locked .trigger p)) (fun _ _ => True) .free :=
  wp_forget (Q := fun _ => True) (wp_locked (P := fun m => m = Errand.locked) (Q := fun _ => True)
    rfl (fun _ _ h => h) (fun m hm => by rw [show m = _ from hm]; exact h)
    fun _ _ => ⟨trivial,fun _ _ _ => trivial⟩)

theorem errand_readRegistration : wp errandProtocol (readRegistration name).run
    (fun r m => ∀ config, r = .ok config → config.name = name ∧ m = .knows config) .locked := by
  refine (wp_bind ..).mpr ⟨rfl,fun r m h config hr => ?_⟩
  unfold registration at hr
  split at hr
  · cases hr
  · cases hr
  · cases hr
    exact h

theorem errand_ensureNotBusy (hname : config.name = name) :
    wp errandProtocol (ensureNotBusy name).run (fun r m => (∀ u, r = .ok u → m = .alone config) ∧
      ∀ e, r = .error e → m = .knows config) (.knows config) := by
  subst hname
  refine wp_run_seq (P := fun r m => (∀ rows, r = .ok rows → m = (Errand.knows config).look rows) ∧
    ∀ e, r = .error e → m = .knows config) (wp_call ⟨config,rfl⟩ fun r m h => ?_)
    (fun rows m h => ?_) fun e m h => ⟨nofun,fun _ _ => h.2 e rfl⟩
  · cases r with
    | ok rows => exact ⟨fun _ hr => by cases hr; exact h,nofun⟩
    | error e => exact ⟨nofun,fun _ _ => h⟩
  · have hm := h.1 rows rfl
    split
    · rename_i hbusy
      refine ⟨nofun,fun _ _ => hm.trans ?_⟩
      rw [Errand.look,if_pos hbusy]
    · rename_i hbusy
      refine ⟨fun _ _ => hm.trans ?_,nofun⟩
      rw [Errand.look,if_neg hbusy]

theorem errand_readDeploySpec : wp errandProtocol (readDeploySpec codec config).run
    (fun r m' => m' = m ∧ ∀ spec repo, r = .ok (spec,repo) → repo = Path.ofText config.repoPath)
    m := by
  refine (wp_bind ..).mpr ⟨trivial,fun text m' h => ⟨h,fun spec repo hr => ?_⟩⟩
  exact ((deploySpec_eq_ok codec).mp hr).2.2

theorem errand_reserve (hname : config.name = name) : wp errandProtocol (reserve name).run
    (fun r m => (∀ d, r = .ok d → m = .holds config.repoPath d) ∧
      ∀ n d, r = .error (.busy n d) → m = .attempt d) (.alone config) := by
  have hinternal : ∀ (m : Errand) (why : Message),
      (∀ d, (Except.error (.internal why) : Except ReserveError ℕ) = .ok d →
        m = .holds config.repoPath d) ∧
      ∀ n d, (Except.error (.internal why) : Except ReserveError ℕ) = .error (.busy n d) →
        m = .attempt d :=
    fun _ _ => ⟨nofun,nofun⟩
  refine wp_run_seq (P := fun r m => (∀ d, r = .ok d → m = Errand.created config d) ∧
    ∀ e, r = .error e → ∃ why, e = ReserveError.internal why)
    (wp_call ⟨config,.inr rfl,hname.symm⟩ fun r m h => ?_) (fun d m h => ?_) fun e m h => ?_
  · cases r with
    | ok d => exact ⟨fun _ hd => by cases hd; exact h,nofun⟩
    | error why => exact ⟨nofun,fun _ he => by cases he; exact ⟨why,rfl⟩⟩
  · rw [h.1 d rfl]
    refine wp_run_seq (P := fun r m => (∀ b, r = .ok b → m = (Errand.created config d).reserve b) ∧
      ∀ e, r = .error e → ∃ why, e = ReserveError.internal why)
      (wp_call ⟨config,rfl⟩ fun r m h => ?_) (fun acquired m h => ?_) fun e m h => ?_
    · cases r with
      | ok b => exact ⟨fun _ hb => by cases hb; exact h,nofun⟩
      | error why => exact ⟨nofun,fun _ he => by cases he; exact ⟨why,rfl⟩⟩
    · cases acquired with
      | true => exact ⟨fun _ hd => by cases hd; exact h.1 true rfl,nofun⟩
      | false =>
        rw [h.1 false rfl]
        refine wp_run_seq (P := fun r m => m = .attempt d ∧
          ∀ e, r = .error e → ∃ why, e = ReserveError.internal why) (wp_call ⟨rfl,rfl⟩ fun r m h => ?_)
          (fun _ m h => ⟨nofun,fun _ _ hd => by cases hd; exact h.1⟩) fun e m h => ?_
        · cases r with
          | ok u => exact ⟨h,nofun⟩
          | error why => exact ⟨h,fun _ he => by cases he; exact ⟨why,rfl⟩⟩
        · obtain ⟨why,rfl⟩ := h.2 e rfl
          exact hinternal m why
    · obtain ⟨why,rfl⟩ := h.2 e rfl
      exact hinternal m why
  · obtain ⟨why,rfl⟩ := h.2 e rfl
    exact hinternal m why

theorem errand_finishAttempt {detail : Message} (hm : m.deploy = some d) :
    wp errandProtocol (finishAttempt d detail).run (fun _ _ => True) m :=
  wp_run_seq (P := fun _ _ => True) (wp_call ⟨hm,by decide,nofun⟩ fun _ _ _ => trivial)
    (fun _ _ _ => wp_lift trivial fun _ _ _ => trivial) fun _ _ _ => trivial

/-- The refusal of a push has a row of its own, which is ended at once. -/
theorem errand_recordRefusal {detail : Message} (hname : config.name = name) :
    wp errandProtocol (recordRefusal name detail).run (fun _ _ => True) (.knows config) := by
  refine wp_run_seq (P := fun r m => ∀ d, r = .ok d → m = Errand.attempt d)
    (wp_call ⟨config,.inl rfl,hname.symm⟩ fun r m h => ?_) (fun d m h => ?_) fun _ _ _ => trivial
  · cases r with
    | ok d => exact fun _ hd => by cases hd; exact h
    | error why => exact nofun
  · rw [h d rfl]
    exact errand_finishAttempt rfl

/-- A git command: only a reset that fails takes the checkout away. -/
theorem errand_runGit {app : Text} {c : Command} {action : String}
    (hpre : (Errand.holds app d).pre (.timed c))
    (hpost : ∀ r m, (Errand.holds app d).post (.timed c) r m →
      m.deploy = some d ∧ (r.succeeded = true → m = .holds app d)) :
    wp errandProtocol (runGit name c action).run (fun r m => m.deploy = some d ∧
      ∀ out, r = .ok out → m = .holds app d) (.holds app d) := by
  refine wp_run_seq (P := fun r m => ∃ t, r = .ok t ∧ m.deploy = some d ∧
    (t.succeeded = true → m = .holds app d)) (wp_lift hpre fun r m h => ⟨r,rfl,hpost r m h⟩)
    (fun t m h => ?_) fun e m h => ?_
  · obtain ⟨t',ht,hd,hok⟩ := h
    cases ht
    split
    · exact ⟨hd,nofun⟩
    · exact ⟨hd,nofun⟩
    · split
      · exact ⟨hd,nofun⟩
      · rename_i out took hlate
        split
        · rename_i hsuccess
          refine ⟨hd,fun _ _ => hok ?_⟩
          simp [Timed.succeeded,hsuccess,Nat.le_of_not_lt hlate]
        · exact ⟨hd,nofun⟩
  · obtain ⟨t,ht,-⟩ := h
    cases ht

/-- A step after the reservation: when it fails the attempt is ended. -/
theorem errand_orFinish {α : Type} {detail : Message} {p : Api α} {P : α → Errand → Prop}
    (h : wp errandProtocol p.run (fun r m => m.deploy = some d ∧ ∀ a, r = .ok a → P a m) m) :
    wp errandProtocol (orFinish d detail p).run (fun r m => ∀ a, r = .ok a → P a m) m := by
  refine wp_run_seq (wpSure_result h) (fun r m₁ h₁ => ?_) fun e m₁ h₁ => ?_
  · obtain ⟨r,hr,hd,hP⟩ := h₁
    cases hr
    cases r with
    | ok a => exact fun _ ha => by cases ha; exact hP a rfl
    | error err =>
      exact wp_run_seq (errand_finishAttempt hd) (fun _ _ _ => nofun) fun _ _ _ => nofun
  · obtain ⟨_,he,_⟩ := h₁
    cases he

theorem errand_deployPush {push : Push} : wp errandProtocol
    (deployPush codec name config push d).run (fun _ _ => True) (.holds config.repoPath d) := by
  refine wp_run_seq (errand_orFinish (P := fun _ m => m = .holds config.repoPath d)
    (errand_runGit trivial fun r m h => ?_)) (fun output m₁ h₁ => ?_) fun _ _ _ => trivial
  · rw [show m = _ from h]
    exact ⟨rfl,fun _ => rfl⟩
  rw [h₁ output rfl]
  dsimp only
  split
  · exact wp_run_seq (errand_finishAttempt rfl) (fun _ _ _ => trivial) fun _ _ _ => trivial
  · refine wp_run_seq (errand_orFinish (P := fun _ m => m = .holds config.repoPath d)
      (errand_runGit trivial fun r m h => ?_)) (fun _ m₂ h₂ => ?_) fun _ _ _ => trivial
    · rw [show m = _ from h]
      exact ⟨rfl,fun _ => rfl⟩
    rw [h₂ _ rfl]
    refine wp_run_seq (errand_orFinish (P := fun _ m => m = .holds config.repoPath d)
      (errand_runGit ⟨d,rfl⟩ fun r m h => ?_)) (fun _ m₃ h₃ => ?_) fun _ _ _ => trivial
    · rw [show m = if r.succeeded then _ else Errand.attempt d from h]
      cases r.succeeded with
      | true => exact ⟨rfl,fun _ => rfl⟩
      | false => exact ⟨rfl,nofun⟩
    rw [h₃ _ rfl]
    refine wp_run_seq (errand_orFinish (P := fun p m => m = Errand.holds config.repoPath d ∧
      p.2 = Path.ofText config.repoPath) (wp_mono errand_readDeploySpec fun r m h =>
        ⟨by rw [h.1]; rfl,fun p hp => ⟨h.1,h.2 p.1 p.2 hp⟩⟩)) (fun p m₄ h₄ => ?_)
      fun _ _ _ => trivial
    obtain ⟨spec,repo⟩ := p
    obtain ⟨rfl,hrepo⟩ := h₄ _ rfl
    exact wp_run_seq (P := fun _ _ => True)
      (wp_lift ⟨config.repoPath,rfl,hrepo⟩ fun _ _ _ => trivial) (fun _ _ _ => trivial)
      fun _ _ _ => trivial

theorem errand_startDeploy :
    wp errandProtocol (forget (startDeploy codec name)) (fun _ _ => True) .free := by
  refine errand_locked ?_
  refine wp_run_seq errand_readRegistration (fun config m₁ h₁ => ?_) fun _ _ _ => trivial
  obtain ⟨hname,rfl⟩ := h₁ config rfl
  refine wp_run_seq (errand_ensureNotBusy hname) (fun _ m₂ h₂ => ?_) fun _ _ _ => trivial
  rw [h₂.1 _ rfl]
  refine wp_run_seq errand_readDeploySpec (fun p m₃ h₃ => ?_) fun _ _ _ => trivial
  obtain ⟨spec,repo⟩ := p
  obtain ⟨rfl,hrepo⟩ := h₃
  refine wp_run_seq (P := fun r m => ∀ d, r = .ok d → m = .holds config.repoPath d) ?_
    (fun d m₄ h₄ => ?_) fun _ _ _ => trivial
  · rw [Proc.run_mapError]
    refine wp_seq (errand_reserve hname) fun r m h => ?_
    cases r with
    | ok d => exact fun _ hd => by cases hd; exact h.1 d rfl
    | error e => exact nofun
  · rw [h₄ d rfl]
    exact wp_run_seq (P := fun _ _ => True)
      (wp_lift ⟨config.repoPath,rfl,hrepo spec repo rfl⟩ fun _ _ _ => trivial)
      (fun _ _ _ => trivial) fun _ _ _ => trivial

theorem errand_dispatchPush {push : Option Push} :
    wp errandProtocol (forget (dispatchPush codec name push)) (fun _ _ => True) .free := by
  refine errand_locked ?_
  refine wp_run_seq errand_readRegistration (fun config m₁ h₁ => ?_) fun _ _ _ => trivial
  obtain ⟨hname,rfl⟩ := h₁ config rfl
  cases push with
  | none => exact trivial
  | some push =>
    refine wp_run_seq (wpSure_result (errand_ensureNotBusy hname)) (fun r m₂ h₂ => ?_)
      fun _ _ _ => trivial
    obtain ⟨r,hr,hok,herror⟩ := h₂
    cases hr
    cases r with
    | error err =>
      rw [herror err rfl]
      dsimp only
      split
      · exact wp_run_seq (errand_recordRefusal hname) (fun _ _ _ => trivial) fun _ _ _ => trivial
      · exact trivial
    | ok u =>
      rw [hok u rfl]
      refine wp_run_seq (wpSure_mapError (wpSure_result (errand_reserve hname))) (fun r m₃ h₃ => ?_)
        fun _ _ _ => trivial
      obtain ⟨r,hr,hholds,hbusy⟩ := h₃
      cases hr
      cases r with
      | ok d =>
        rw [hholds d rfl]
        exact errand_deployPush
      | error e =>
        cases e with
        | busy n d =>
          rw [hbusy n d rfl]
          exact wp_run_seq (errand_finishAttempt rfl) (fun _ _ _ => trivial) fun _ _ _ => trivial
        | internal why => exact trivial

theorem errand_register : wp errandProtocol (forget (register config)) (fun _ _ => True) .free :=
  errand_locked (wp_call rfl fun _ _ _ => trivial)

end Handlers

end Kuadrat
