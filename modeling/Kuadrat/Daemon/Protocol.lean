import Kuadrat.Effect.Ledger
import Kuadrat.Daemon.Conduct

/-!
# How a thread treats its deploy

A deploy row is a ticket, and the app's name its key. Every handler, task and CLI process
keeps to one order of calls: it creates a row, takes the lock, moves only its own row, and
releases the app's lock only after the row has reached its end.
-/
namespace Kuadrat

open Effect

/-- What a thread knows of the deploy it is responsible for. -/
abbrev Held := Option (Claim Text)

namespace Held

/-- What a thread must know to issue an operation. -/
def pre (m : Held) : Eff → Prop
  | .store (.createDeploy _) => m = none
  | .store (.acquireLock app d) => m = some ⟨.issued,app,d⟩
  | .store (.advanceStage d _) => ∃ app, m = some ⟨.granted,app,d⟩
  | .store (.finishDeploy d status _) => status ≠ .inProgress ∧ ∃ app, m = some ⟨.refused,app,d⟩
  | .store (.finishDeployWithEvent d status _) =>
    status ≠ .inProgress ∧ ∃ c, m = some c ∧ c.ticket = d
  | .store (.releaseLock app) => ∃ d, m = some ⟨.expired,app,d⟩
  | .store .releaseOrphanedLocks | .store (.registerApp _) => False
  | .spawn spec _ d => spec.validate = .ok () ∧ m = some ⟨.granted,spec.name,d⟩
  | _ => True

def move (m : Held) (f : Point → Point) : Held := m.map fun c => { c with point := f c.point }

/-- The replies a thread can count on, and what it knows after them. A stored spec that it
reads satisfies `good`. -/
def post (good : Option Text → Prop) (m : Held) : (e : Eff) → e.Resp → Held → Prop
  | .store (.createDeploy app), r, m' => ∃ d, r = .ok d ∧ m' = some ⟨.issued,app,d⟩
  | .store (.acquireLock app d), r, m' => (r = .ok true ∧ m' = some ⟨.granted,app,d⟩) ∨
    (r = .ok false ∧ m' = some ⟨.refused,app,d⟩)
  | .store (.advanceStage ..), r, m' | .store (.putSpec ..), r, m' => r = .ok () ∧ m' = m
  | .store (.currentSpec _), r, m' => (∃ o, r = .ok o ∧ good o) ∧ m' = m
  | .store (.appConfig name), r, m' => (∀ config, r = .ok (some config) → config.name = name) ∧ m' = m
  | .store (.appendEvent _), r, m' => (∃ e, r = .ok e) ∧ m' = m
  | .store (.finishDeploy ..), r, m' | .store (.releaseLock _), r, m' =>
    r = .ok () ∧ m' = m.move fun _ => .closed
  | .store (.finishDeployWithEvent ..), r, m' => (∃ e, r = .ok e) ∧ m' = m.move Point.close
  | .spawn .., _, m' => m' = none
  | _, _, m' => m' = m

/-- The thread is not responsible for a row that is still in progress. -/
def Free (m : Held) : Prop := ∀ c, m = some c → c.point.isOpen = false

theorem free_none : Free none := nofun

end Held

def deployProtocol (good : Option Text → Prop) : Spec Eff Eff.Resp Held where
  pre := Held.pre
  post := Held.post good

/-- The host has no part in the bookkeeping. -/
theorem host_deployProtocol {good : Option Text → Prop} {P : Held → Prop} (e : Eff)
    (he : e.OnHost) : Leads (deployProtocol good) P e fun _ => P := by
  intro m hm
  cases e with
  | store | emit | spawn | acquire | release => exact he.elim
  | present | readToString | write | createDirAll | removeFile | readDir | run | timed =>
    exact ⟨trivial,fun _ m' h => by rw [show m' = m from h]; exact hm⟩

section Stages
variable {ctx : Ctx} {good : Option Text → Prop} {app : Text} {d : ℕ} {m : Held}

theorem wp_onHost_held {α : Type} {p : Run α} (hp : All Eff.OnHost p.run) :
    wp (deployProtocol good) p.run (fun _ m' => m' = m) m :=
  wp_onHost (P := fun m' => m' = m) host_deployProtocol hp rfl

theorem sure_emit (stage : Stage) (status : EventStatus) (detail : Option Message) :
    wpSure (deployProtocol good) (emit d stage status detail) (fun _ m' => m' = m) m := by
  refine wpSure_seq (P := fun _ m' => m' = m) ⟨trivial,fun r m' h => ?_⟩ fun e m' h => ?_
  · obtain ⟨⟨e,rfl⟩,rfl⟩ := h
    exact ⟨e,rfl,rfl⟩
  · exact ⟨trivial,fun _ m₂ h₂ => ⟨(),rfl,h₂.trans h⟩⟩

theorem sure_begin (stage : Stage) :
    wpSure (deployProtocol good) (begin' d stage) (fun _ m => m = some ⟨.granted,app,d⟩)
      (some ⟨.granted,app,d⟩) := by
  refine wpSure_seq (P := fun _ m => m = some ⟨.granted,app,d⟩) ⟨⟨app,rfl⟩,fun r m' h => ?_⟩
    fun _ m' h => ?_
  · obtain ⟨rfl,rfl⟩ := h
    exact ⟨(),rfl,rfl⟩
  · subst h
    exact sure_emit stage .started none

/-- The terminal write succeeds, and leaves only the lock of the app to be released. -/
theorem sure_finished {status : DeployStatus} (detail : Option Message)
    (hs : status ≠ .inProgress) :
    wpSure (deployProtocol good) (finished d status detail)
      (fun _ m => m = some ⟨.expired,app,d⟩) (some ⟨.granted,app,d⟩) := by
  refine wpSure_seq (P := fun _ m => m = some ⟨.expired,app,d⟩)
    ⟨⟨hs,_,rfl,rfl⟩,fun r m' h => ?_⟩ fun e m' h => ?_
  · obtain ⟨⟨e,rfl⟩,rfl⟩ := h
    exact ⟨e,rfl,rfl⟩
  · exact ⟨trivial,fun _ m₂ h₂ => ⟨(),rfl,h₂.trans h⟩⟩

variable {slug : Text} {previous : Option WorkloadSpec}

theorem sure_fail (stage : Stage) (cause : Message) :
    wpSure (deployProtocol good) (fail ctx d app slug previous stage cause)
      (fun _ m => m = some ⟨.expired,app,d⟩) (some ⟨.granted,app,d⟩) := by
  refine wpSure_seq (sure_emit stage .failed (some cause)) fun _ m₁ h₁ => ?_
  subst h₁
  refine wpSure_seq (wpSure_result (wp_onHost_held compensate_onHost)) fun r m₂ h₂ => ?_
  subst h₂
  cases r with
  | ok _ =>
    exact wpSure_seq (sure_finished (some cause) (by decide)) fun _ m₃ h₃ => wpSure_pure h₃
  | error comp =>
    exact wpSure_seq (sure_finished _ (by decide)) fun _ m₃ h₃ => wpSure_pure h₃

theorem sure_runStage {α : Type} {stage : Stage} {body : Run α} {next : α → Run DeployOutcome}
    (hbody : All Eff.OnHost body.run)
    (hnext : ∀ a, wpSure (deployProtocol good) (next a) (fun _ m => m = some ⟨.expired,app,d⟩)
      (some ⟨.granted,app,d⟩)) :
    wpSure (deployProtocol good) (runStage ctx d app slug previous stage body next)
      (fun _ m => m = some ⟨.expired,app,d⟩) (some ⟨.granted,app,d⟩) := by
  refine wpSure_seq (sure_begin stage) fun _ m₁ h₁ => ?_
  subst h₁
  refine wpSure_seq (wpSure_result (wp_onHost_held hbody)) fun r m₂ h₂ => ?_
  subst h₂
  cases r with
  | ok a =>
    refine wpSure_seq (sure_emit stage .succeeded none) fun _ m₃ h₃ => ?_
    subst h₃
    exact hnext a
  | error e => exact sure_fail stage e

/-- However the host answers, the stages end with the terminal write. -/
theorem sure_runStages (spec : WorkloadSpec) (repo : Path) :
    wpSure (deployProtocol good) (runStages ctx spec repo slug d previous)
      (fun _ m => m = some ⟨.expired,spec.name,d⟩) (some ⟨.granted,spec.name,d⟩) := by
  refine sure_runStage (all_detect looks_onHost _) fun plan => ?_
  refine sure_runStage (all_build looks_onHost _ _) fun image => ?_
  refine sure_runStage (all_ensureAll looks_onHost _) fun _ => ?_
  refine sure_runStage apply_onHost fun _ => ?_
  refine sure_runStage ?_ fun _ => sure_runStage (all_healthcheck (fun _ => trivial) _) fun _ => ?_
  · unfold routeStage
    split
    · exact applyRoute_onHost
    · trivial
  refine wpSure_seq (P := fun _ m => m = some ⟨.granted,spec.name,d⟩) ⟨trivial,fun r m' h => ?_⟩
    fun _ m₁ h₁ => ?_
  · obtain ⟨rfl,rfl⟩ := h
    exact ⟨(),rfl,rfl⟩
  · subst h₁
    exact wpSure_seq (sure_finished none (by decide)) fun _ m₂ h₂ => wpSure_pure h₂

theorem wp_runLocked (spec : WorkloadSpec) (repo : Path) :
    wp (deployProtocol good) (runLocked ctx spec repo d previous).run
      (fun _ m => m = some ⟨.closed,spec.name,d⟩) (some ⟨.granted,spec.name,d⟩) := by
  refine wp_run_seq (wpSure_result (sure_runStages spec repo)) (fun r m₁ h₁ => ?_) fun e m₁ h₁ => ?_
  · obtain ⟨r,hr,a,-,rfl⟩ := h₁
    cases hr
    refine ⟨⟨d,rfl⟩,fun u m₂ h₂ => ?_⟩
    obtain ⟨rfl,rfl⟩ := h₂
    cases r <;> rfl
  · obtain ⟨_,he,_⟩ := h₁
    cases he

/-- Whatever `good` promises of the stored specs can be decoded. -/
def Reads (codec : SpecCodec) (good : Option Text → Prop) : Prop :=
  ∀ json, good (some json) → ∃ spec, codec.ofText json = .ok spec

theorem wp_loadPrevious_held {name : Text} : wp (deployProtocol good) (loadPrevious ctx name).run
    (fun r m' => m' = m ∧ (Reads ctx.codec good → ∃ previous, r = .ok previous)) m := by
  unfold loadPrevious
  rw [Prog.run_bind,wp_bind]
  refine ⟨trivial,fun r m' h => ?_⟩
  obtain ⟨⟨o,rfl,hgood⟩,rfl⟩ := h
  cases o with
  | none => exact ⟨rfl,fun _ => ⟨none,rfl⟩⟩
  | some json =>
    rw [wp_ret,Prog.orElse_ok]
    dsimp only
    cases hdec : ctx.codec.ofText json with
    | error e =>
      refine ⟨rfl,fun hreads => ?_⟩
      obtain ⟨spec,hspec⟩ := hreads json hgood
      rw [hdec] at hspec
      cases hspec
    | ok spec => exact ⟨rfl,fun _ => ⟨some spec,rfl⟩⟩

/-- A reserved deploy of a valid spec is closed when its run returns. -/
theorem wp_runReserved_held (spec : WorkloadSpec) (repo : Path) :
    wp (deployProtocol good) (runReserved ctx spec repo d).run
      (fun _ m => spec.validate = .ok () → Reads ctx.codec good → m.Free)
      (some ⟨.granted,spec.name,d⟩) := by
  unfold runReserved
  cases hvalid : spec.validate with
  | error e => exact fun h => nomatch h
  | ok u =>
    simp only [Run.ofExcept_ok,pure_bind]
    refine wp_run_seq wp_loadPrevious_held (fun previous m₁ h₁ => ?_) fun e m₁ h₁ _ hreads => ?_
    · rw [h₁.1]
      refine wp_mono (wp_runLocked spec repo) fun r m₂ h₂ _ _ => ?_
      subst h₂
      intro c hc
      cases hc
      rfl
    · obtain ⟨previous,hp⟩ := h₁.2 hreads
      cases hp

end Stages

section Handlers
variable {ctx : Ctx} {good : Option Text → Prop}

/-- The stations of a handler, by what it knows of its deploy. -/
def heldStations : Stations Held where
  free m := m = none
  created app d m := m = some ⟨.issued,app,d⟩
  refused app d m := m = some ⟨.refused,app,d⟩
  holds app d m := m = some ⟨.granted,app,d⟩
  spent d m := ∃ app, m = some ⟨.closed,app,d⟩
  closed := Held.Free

theorem closable_held {d : ℕ} {m : Held} (h : heldStations.Closable d m) :
    ∃ c, m = some c ∧ c.ticket = d := by
  rcases h with ⟨app,h⟩ | ⟨app,h⟩ | ⟨app,h⟩ <;> exact ⟨_,h,rfl⟩

/-- The handlers keep to the protocol. -/
theorem deployConduct : Conduct (deployProtocol good) heldStations where
  closed_of_free m h := by
    rw [show m = none from h]
    exact Held.free_none
  closed_of_spent d m h c hc := by
    obtain ⟨app,rfl⟩ := h
    cases hc
    rfl
  acquire m h := ⟨trivial,fun _ _ hp => Eq.trans hp h⟩
  release m h := ⟨trivial,fun _ _ hp => by rw [show _ = m from hp]; exact h⟩
  emit _ m h := ⟨trivial,fun _ _ hp => by rw [show _ = m from hp]; exact h⟩
  registration _ m h := ⟨trivial,fun _ _ hp => ⟨hp.2.trans h,hp.1⟩⟩
  busy m h := ⟨trivial,fun _ _ hp => Eq.trans hp h⟩
  read _ m h := ⟨trivial,fun _ _ hp => Eq.trans hp h⟩
  readHeld _ _ _ m h := ⟨trivial,fun _ _ hp => Eq.trans hp h⟩
  git _ _ _ m h := ⟨trivial,fun _ _ hp => Eq.trans hp h⟩
  create app m h := by
    refine ⟨h,fun r m' hp => ?_⟩
    obtain ⟨d,rfl,rfl⟩ := hp
    rfl
  lock app d m h := by
    refine ⟨h,fun r m' hp => ?_⟩
    rcases hp with ⟨rfl,rfl⟩ | ⟨rfl,rfl⟩ <;> rfl
  reject app d detail m h := by
    refine ⟨⟨by decide,app,h⟩,fun r m' hp => ?_⟩
    obtain ⟨rfl,rfl⟩ := hp
    rw [show m = some ⟨.refused,app,d⟩ from h]
    exact ⟨app,rfl⟩
  close d detail m h := by
    obtain ⟨c,rfl,hd⟩ := closable_held h
    refine ⟨⟨by decide,c,rfl,hd⟩,fun r m' hp => ?_⟩
    obtain ⟨-,rfl⟩ := hp
    intro c' hc'
    cases hc'
    exact Point.isOpen_close c.point
  spawn spec repo d hvalid m h := by
    refine ⟨⟨hvalid,h⟩,fun r m' hp => ?_⟩
    rw [show m' = none from hp]
    exact Held.free_none

/-- A spawned task closes the deploy it was handed. -/
theorem wp_spawnedDeploy {spec : WorkloadSpec} {repo : Path} {d : ℕ} : wp (deployProtocol good)
    (spawnedDeploy ctx spec repo d)
    (fun _ m => spec.validate = .ok () → Reads ctx.codec good → m.Free)
    (some ⟨.granted,spec.name,d⟩) := by
  refine wp_forget (wp_locked (P := fun m : Held => m = some ⟨.granted,spec.name,d⟩)
    (Q := fun m : Held => spec.validate = .ok () → Reads ctx.codec good → m.Free) trivial
    (fun _ _ h => h) (fun m h => ?_)
    fun m h => ⟨trivial,fun _ _ hp => by rw [show _ = m from hp]; exact h⟩)
  subst h
  rw [Proc.run_mapError]
  exact wp_seq (wp_runReserved_held spec repo) fun _ _ h => h

end Handlers

end Kuadrat
