import Kuadrat.Daemon.Conduct

/-!
# What a thread has to do with a row

A row that is in progress is somebody's duty: the handler that created it, the task it was
handed to, or a reconciliation that has read it. A task that gets the slot too late finds
its row ended, and does not move it.
-/
namespace Kuadrat

open Effect

/-- How far the thread that owns a row has come with it. -/
inductive Phase
  | created
  | refused
  | holds
  | spent
  | queued
  | live
  | dead
  | done
  | left
  deriving DecidableEq

namespace Phase

/-- The row is in progress. -/
def Open : Phase → Prop
  | created | refused | holds | live => True
  | _ => False

/-- The task runs, with the slot. -/
def InSlot : Phase → Prop
  | live | dead | done => True
  | _ => False

/-- The phases of a spawned task. -/
def OfTask : Phase → Prop
  | queued | live | dead | done | left => True
  | _ => False

/-- The owner will not end the row while another thread has the slot. -/
def Passive : Phase → Prop
  | queued | left => True
  | _ => False

/-- The owner may end the row with this status. -/
def Closes (status : DeployStatus) : Phase → Prop
  | created | holds | live => status ≠ .inProgress
  | spent => status = .failed
  | _ => False

/-- The owner has ended the row. -/
def close : Phase → Phase
  | live => done
  | _ => left

/-- The task gives the slot back. -/
def vacate : Phase → Phase
  | live | dead | done => left
  | phase => phase

end Phase

/-- What a thread has to do: nothing yet, something with a row of its own, or, once it has the
slot as a reconciliation, to end the rows that it has read. -/
inductive Duty
  | free
  | own (phase : Phase) (d : ℕ)
  | slotted
  | working (l : List ℕ)

namespace Duty

def deploy : Duty → Option ℕ
  | own _ d => some d
  | _ => none

def InSlot : Duty → Prop
  | own phase _ => phase.InSlot
  | slotted | working _ => True
  | free => False

/-- What a thread must know to issue an operation. -/
def pre (m : Duty) : Eff → Prop
  | .store (.createDeploy _) => m = .free
  | .store (.acquireLock _ d) => m = .own .created d
  | .store (.finishDeploy d status _) => status = .failed ∧ m = .own .refused d
  | .store (.finishDeployWithEvent d status _) => (∃ phase, m = .own phase d ∧ phase.Closes status) ∨
    status ≠ .inProgress ∧ ∃ l, m = .working l ∧ d ∈ l
  | .store (.advanceStage d _) => m = .own .live d ∨ m = .own .dead d
  | .store (.appendEvent event) =>
    m = .own .live event.deployId ∧ ∀ status, event.kind ≠ .finished status
  | .store .inProgressDeploys => m = .free ∨ m = .slotted
  | .acquire .slot => m = .free ∨ ∃ d, m = .own .queued d
  | .spawn _ _ d => m = .own .holds d
  | _ => True

def close (d : ℕ) : Duty → Duty
  | own phase d' => own phase.close d'
  | working l => working (l.erase d)
  | m => m

def vacate : Duty → Duty
  | own phase d => own phase.vacate d
  | _ => free

/-- The replies a thread can count on, and what it knows after them. -/
def post (m : Duty) : (e : Eff) → e.Resp → Duty → Prop
  | .store (.createDeploy _), r, m' => ∃ d, r = .ok d ∧ m' = .own .created d
  | .store (.acquireLock _ d), r, m' => (r = .ok true ∧ m' = .own .holds d) ∨
    (r = .ok false ∧ m' = .own .refused d)
  | .store (.finishDeploy d ..), r, m' => r = .ok () ∧ m' = .own .spent d
  | .store (.finishDeployWithEvent d ..), _, m' => m' = m.close d
  | .store (.advanceStage d _), r, m' => m' = m ∧ (m = .own .dead d → ∃ e, r = .error e)
  | .store .inProgressDeploys, r, m' => (m = .free → m' = .free) ∧
    (m = .slotted → ∃ rows, r = .ok rows ∧ m' = .working (rows.map DeployRow.id))
  | .store (.appConfig name), r, m' => (∀ config, r = .ok (some config) → config.name = name) ∧ m' = m
  | .acquire .slot, _, m' => (m = .free → m' = .slotted) ∧
    ∀ d, m = .own .queued d → m' = .own .live d ∨ m' = .own .dead d
  | .release .slot, _, m' => m' = m.vacate
  | .spawn .., _, m' => m' = .free
  | _, _, m' => m' = m

end Duty

def dutyProtocol : Spec Eff Eff.Resp Duty where
  pre := Duty.pre
  post := Duty.post

section Handlers

/-- The stations of a handler, by its duty. -/
def dutyStations : Stations Duty where
  free m := m = .free
  created _ d m := m = .own .created d
  refused _ d m := m = .own .refused d
  holds _ d m := m = .own .holds d
  spent d m := m = .own .spent d
  closed _ := True

/-- The handlers keep to the protocol. -/
theorem dutyConduct : Conduct dutyProtocol dutyStations where
  closed_of_free _ _ := trivial
  closed_of_spent _ _ _ := trivial
  acquire m h := ⟨trivial,fun _ _ hp => Eq.trans hp h⟩
  release m _ := ⟨trivial,fun _ _ _ => trivial⟩
  emit _ m _ := ⟨trivial,fun _ _ _ => trivial⟩
  registration _ m h := ⟨trivial,fun _ _ hp => ⟨hp.2.trans h,hp.1⟩⟩
  busy m h := ⟨.inl h,fun _ _ hp => hp.1 h⟩
  read _ m h := ⟨trivial,fun _ _ hp => Eq.trans hp h⟩
  readHeld _ _ _ m h := ⟨trivial,fun _ _ hp => Eq.trans hp h⟩
  git _ _ _ m h := ⟨trivial,fun _ _ hp => Eq.trans hp h⟩
  create app m h := by
    refine ⟨h,fun r m' hp => ?_⟩
    obtain ⟨d,rfl,rfl⟩ := hp
    rfl
  lock app d m h := by
    refine ⟨h,fun r m' hp => ?_⟩
    rcases hp with ⟨rfl,rfl⟩ | ⟨rfl,rfl⟩ <;> rfl
  reject app d detail m h := by
    refine ⟨⟨rfl,h⟩,fun r m' hp => ?_⟩
    obtain ⟨rfl,rfl⟩ := hp
    rfl
  close d detail m h := by
    refine ⟨.inl ?_,fun _ _ _ => trivial⟩
    rcases h with ⟨app,h⟩ | ⟨app,h⟩ | h
    · exact ⟨.created,h,show DeployStatus.failed ≠ .inProgress by decide⟩
    · exact ⟨.holds,h,show DeployStatus.failed ≠ .inProgress by decide⟩
    · exact ⟨.spent,h,rfl⟩
  spawn spec repo d _ m h := ⟨h,fun _ _ _ => trivial⟩

end Handlers

section Tasks
variable {ctx : Ctx} {d : ℕ} {slug app : Text} {previous : Option WorkloadSpec} {m : Duty}

/-- The host has no part in it. -/
theorem host_dutyProtocol {P : Duty → Prop} (e : Eff) (he : e.OnHost) :
    Leads dutyProtocol P e fun _ => P := by
  intro m hm
  cases e with
  | store | emit | spawn | acquire | release => exact he.elim
  | present | readToString | write | createDirAll | removeFile | readDir | run | timed =>
    exact ⟨trivial,fun _ m' h => by rw [show m' = m from h]; exact hm⟩

theorem duty_onHost {α : Type} {p : Run α} (hp : All Eff.OnHost p.run) :
    wp dutyProtocol p.run (fun _ m' => m' = m) m :=
  wp_onHost (P := fun m' => m' = m) host_dutyProtocol hp rfl

theorem duty_result {α : Type} {p : Run α} (hp : All Eff.OnHost p.run) :
    wp dutyProtocol p.result.run (fun _ m' => m' = m) m :=
  wp_result.mpr (duty_onHost hp)

theorem duty_emit (stage : Stage) (status : EventStatus) (detail : Option Message) :
    wp dutyProtocol (emit d stage status detail).run (fun _ m => m = .own .live d)
      (.own .live d) :=
  wp_run_seq (P := fun _ m => m = Duty.own .live d) (wp_ask ⟨rfl,nofun⟩ fun _ _ h => h)
    (fun _ _ h => ⟨trivial,fun _ _ h' => Eq.trans h' h⟩) fun _ _ h => h

theorem duty_begin (stage : Stage) :
    wp dutyProtocol (begin' d stage).run (fun _ m => m = .own .live d) (.own .live d) := by
  refine wp_run_seq (P := fun _ m => m = Duty.own .live d) (wp_ask (.inl rfl) fun _ _ h => h.1)
    (fun _ m h => ?_) fun _ _ h => h
  subst h
  exact duty_emit stage .started none

theorem duty_finished {status : DeployStatus} (detail : Option Message)
    (hs : status ≠ .inProgress) :
    wp dutyProtocol (finished d status detail).run (fun _ _ => True) (.own .live d) :=
  wp_run_seq (P := fun _ _ => True) (wp_ask (.inl ⟨.live,rfl,hs⟩) fun _ _ _ => trivial)
    (fun _ _ _ => ⟨trivial,fun _ _ _ => trivial⟩) fun _ _ _ => trivial

theorem duty_fail (stage : Stage) (cause : Message) :
    wp dutyProtocol (fail ctx d app slug previous stage cause).run (fun _ _ => True)
      (.own .live d) := by
  refine wp_run_seq (duty_emit stage .failed (some cause)) (fun _ m₁ h₁ => ?_) fun _ _ _ => trivial
  subst h₁
  refine wp_run_seq (duty_result compensate_onHost) (fun r m₂ h₂ => ?_) fun _ _ _ => trivial
  subst h₂
  cases r with
  | ok _ =>
    exact wp_run_seq (duty_finished (some cause) (by decide)) (fun _ _ _ => trivial) fun _ _ _ => trivial
  | error comp =>
    exact wp_run_seq (duty_finished _ (by decide)) (fun _ _ _ => trivial) fun _ _ _ => trivial

theorem duty_runStage {α : Type} {stage : Stage} {body : Run α} {next : α → Run DeployOutcome}
    (hbody : All Eff.OnHost body.run)
    (hnext : ∀ a, wp dutyProtocol (next a).run (fun _ _ => True) (.own .live d)) :
    wp dutyProtocol (runStage ctx d app slug previous stage body next).run (fun _ _ => True)
      (.own .live d) := by
  refine wp_run_seq (duty_begin stage) (fun _ m₁ h₁ => ?_) fun _ _ _ => trivial
  subst h₁
  refine wp_run_seq (duty_result hbody) (fun r m₂ h₂ => ?_) fun _ _ _ => trivial
  subst h₂
  cases r with
  | ok a =>
    refine wp_run_seq (duty_emit stage .succeeded none) (fun _ m₃ h₃ => ?_) fun _ _ _ => trivial
    subst h₃
    exact hnext a
  | error e => exact duty_fail stage e

/-- The stages of a task whose row is in progress. -/
theorem duty_runStages (spec : WorkloadSpec) (repo : Path) :
    wp dutyProtocol (runStages ctx spec repo slug d previous).run (fun _ _ => True)
      (.own .live d) := by
  refine duty_runStage (all_detect looks_onHost _) fun plan => ?_
  refine duty_runStage (all_build looks_onHost _ _) fun image => ?_
  refine duty_runStage (all_ensureAll looks_onHost _) fun _ => ?_
  refine duty_runStage apply_onHost fun _ => ?_
  refine duty_runStage ?_ fun _ => duty_runStage (all_healthcheck (fun _ => trivial) _) fun _ => ?_
  · unfold routeStage
    split
    · exact applyRoute_onHost
    · trivial
  refine wp_run_seq (P := fun _ m => m = Duty.own .live d) (wp_ask trivial fun _ _ h => h)
    (fun _ m h => ?_) fun _ _ _ => trivial
  subst h
  exact wp_run_seq (duty_finished none (by decide)) (fun _ _ _ => trivial) fun _ _ _ => trivial

/-- A task whose row has ended does not get past the start of its first stage. -/
theorem duty_runStages_dead (spec : WorkloadSpec) (repo : Path) :
    wp dutyProtocol (runStages ctx spec repo slug d previous).run (fun _ _ => True)
      (.own .dead d) := by
  have hbegin : wp dutyProtocol (begin' d .detect).run (fun r _ => ∃ e, r = .error e)
      (.own .dead d) := by
    refine wp_run_seq (P := fun r _ => ∃ e, r = .error e) (wp_ask (.inr rfl) fun _ _ h => h.2 rfl)
      (fun _ _ h => ?_) fun e _ _ => ⟨e,rfl⟩
    obtain ⟨e,he⟩ := h
    exact nomatch he
  refine wp_run_seq hbegin (fun _ _ h => ?_) fun _ _ _ => trivial
  obtain ⟨e,he⟩ := h
  exact nomatch he

theorem duty_runReserved (spec : WorkloadSpec) (repo : Path)
    (hm : m = .own .live d ∨ m = .own .dead d) :
    wp dutyProtocol (runReserved ctx spec repo d).run (fun _ _ => True) m := by
  unfold runReserved
  cases spec.validate with
  | error e => exact trivial
  | ok u =>
    simp only [Run.ofExcept_ok,pure_bind]
    have hload : wp dutyProtocol (loadPrevious ctx spec.name).run (fun _ m' => m' = m) m := by
      unfold loadPrevious
      refine wp_run_seq (P := fun _ m' => m' = m) (wp_ask trivial fun _ _ h => h)
        (fun json m' h => ?_) fun _ _ h => h
      split
      · split <;> exact h
      · exact h
    refine wp_run_seq hload (fun previous m₁ h₁ => ?_) fun _ _ _ => trivial
    subst h₁
    have hstages : wp dutyProtocol (runStages ctx spec repo spec.slug d previous).run
        (fun _ _ => True) m₁ := by
      rcases hm with rfl | rfl
      · exact duty_runStages spec repo
      · exact duty_runStages_dead spec repo
    refine wp_run_seq (P := fun _ _ => True) (wp_result.mpr (wp_mono hstages fun _ _ h => h))
      (fun r m₂ _ => ?_) fun _ _ _ => trivial
    refine wp_run_seq (P := fun _ _ => True) (wp_ask trivial fun _ _ _ => trivial)
      (fun _ _ _ => ?_) fun _ _ _ => trivial
    cases r <;> trivial

/-- A spawned task keeps to the protocol, whenever it gets the slot. -/
theorem duty_spawnedDeploy {spec : WorkloadSpec} {repo : Path} :
    wp dutyProtocol (spawnedDeploy ctx spec repo d) (fun _ _ => True) (.own .queued d) := by
  refine wp_forget (Q := fun _ => True) (wp_locked (P := fun m => m = .own .live d ∨ m = .own .dead d)
    (Q := fun _ => True) (.inr ⟨d,rfl⟩) (fun _ _ h => h.2 d rfl) (fun m h => ?_)
    fun _ _ => ⟨trivial,fun _ _ _ => trivial⟩)
  rw [Proc.run_mapError]
  exact wp_seq (duty_runReserved spec repo h) fun _ _ _ => trivial

end Tasks

section Reconcile
variable {ctx : Ctx}

/-- One row of a reconciliation: it is ended, and crossed off. -/
theorem duty_reconcileRow {row : DeployRow} {l : List ℕ} :
    wp dutyProtocol (reconcileRow ctx row).run (fun r m => (∃ o, r = .ok o) → m = .working l)
      (.working (row.id::l)) := by
  have hload : wp dutyProtocol (loadPrevious ctx row.app).run
      (fun _ m => m = .working (row.id::l)) (.working (row.id::l)) := by
    unfold loadPrevious
    refine wp_run_seq (P := fun _ m => m = Duty.working (row.id::l)) (wp_ask trivial fun _ _ h => h)
      (fun json m' h => ?_) fun _ _ h => h
    split
    · split <;> exact h
    · exact h
  have hfinish : ∀ {status : DeployStatus} {detail : Option Message} {o : DeployOutcome},
      status ≠ .inProgress → wp dutyProtocol (do
        finished row.id status detail
        Run.store (.releaseLock row.app)
        return o : Run DeployOutcome).run (fun r m => (∃ o, r = .ok o) → m = .working l)
        (.working (row.id::l)) := by
    intro status detail o hs
    refine wp_run_seq (P := fun _ m => m = Duty.working l) ?_ (fun _ m h => ?_) fun _ _ _ ⟨o,ho⟩ =>
      nomatch ho
    · refine wp_run_seq (P := fun _ m => m = Duty.working l)
        (wp_ask (.inr ⟨hs,_,rfl,List.mem_cons_self⟩) fun _ m h => ?_)
        (fun _ _ h => ⟨trivial,fun _ _ h' => Eq.trans h' h⟩) fun _ _ h => h
      rw [show m = Duty.close row.id (.working (row.id::l)) from h,Duty.close,List.erase_cons_head]
    · exact wp_run_seq (P := fun _ m => m = Duty.working l) (wp_ask trivial fun _ _ h' => Eq.trans h' h)
        (fun _ _ h _ => h) fun _ _ h _ => h
  refine wp_run_seq hload (fun previous m₁ h₁ => ?_) fun _ _ _ ⟨o,ho⟩ => nomatch ho
  subst h₁
  refine wp_run_seq (duty_result compensate_onHost) (fun r m₂ h₂ => ?_) fun _ _ _ ⟨_,h⟩ =>
    nomatch h
  subst h₂
  cases r with
  | ok _ => exact hfinish (by decide)
  | error e => exact hfinish (by decide)

theorem duty_reconcile : wp dutyProtocol (reconcile ctx).run (fun _ _ => True) .slotted := by
  refine wp_run_seq (P := fun r m => ∃ rows, r = .ok rows ∧ m = Duty.working (rows.map DeployRow.id))
    (wp_ask (.inr rfl) fun _ _ h => h.2 rfl) (fun rows m₁ h₁ => ?_) fun _ _ _ => trivial
  obtain ⟨rows',hr,rfl⟩ := h₁
  cases hr
  refine wp_run_seq (P := fun _ _ => True) (wp_foldlM
    (fun rest _ m => m = .working (rest.map DeployRow.id)) rfl (fun row rest outcomes m₂ h₂ => ?_)
    fun _ _ _ => trivial) (fun _ _ _ => ?_) fun _ _ _ => trivial
  · subst h₂
    exact wp_run_seq duty_reconcileRow (fun o m₃ h₃ => h₃ ⟨o,rfl⟩) fun _ _ _ => trivial
  · exact wp_run_seq (P := fun _ _ => True) (wp_ask trivial fun _ _ _ => trivial)
      (fun _ _ _ => trivial) fun _ _ _ => trivial

theorem duty_reconcileApi :
    wp dutyProtocol (forget (reconcileApi ctx)) (fun _ _ => True) .free := by
  refine wp_forget (Q := fun _ => True) (wp_locked (P := fun m => m = .slotted)
    (Q := fun _ => True) (.inl rfl) (fun _ _ h => h.1 rfl) (fun m h => ?_)
    fun _ _ => ⟨trivial,fun _ _ _ => trivial⟩)
  subst h
  rw [Proc.run_mapError]
  exact wp_seq duty_reconcile fun _ _ _ => trivial

end Reconcile

end Kuadrat
