import Kuadrat.Codec.Spec
import Kuadrat.Deploy.Reach

/-!
# The four records of a deploy

One run leaves an event log, a row, what the sink was shown, and an outcome. Every call of
the store succeeds here; the host answers as it likes.
-/
namespace Kuadrat

open Effect

/-- The stages in the order of a deploy. -/
def Stage.all : List Stage := [.detect,.build,.secrets,.apply,.route,.healthcheck]

namespace DeployOutcome

/-- The status that the row of a deploy with this outcome has. -/
def status : DeployOutcome → DeployStatus
  | done _ => .done
  | rolledBack .. => .rolledBack
  | failed .. => .failed

def failedAt : DeployOutcome → Option Stage
  | done _ => none
  | rolledBack stage _ | failed stage _ => some stage

end DeployOutcome

section Timeline
variable (d : ℕ)

/-- The two events of each stage that succeeded. -/
def passedEvents (stages : List Stage) : List Event :=
  stages.flatMap fun stage => [.forStage d stage .started none,.forStage d stage .succeeded none]

/-- The two events of a stage that failed. -/
def broken (stage : Stage) (cause : Message) : List Event :=
  [.forStage d stage .started none,.forStage d stage .failed (some cause)]

/-- The events of a deploy, in order, for each of its outcomes. -/
inductive Timeline : List Event → DeployOutcome → Prop
  | done (image : Text) : Timeline (passedEvents d Stage.all ++ [.finished d .done none]) (.done image)
  | rolledBack {before after : List Stage} {stage : Stage} (cause : Message) :
    Stage.all = before ++ stage::after →
    Timeline (passedEvents d before ++ broken d stage cause ++ [.finished d .rolledBack (some cause)])
      (.rolledBack stage cause)
  | failed {before after : List Stage} {stage : Stage} (cause comp : Message) :
    Stage.all = before ++ stage::after →
    Timeline (passedEvents d before ++ broken d stage cause ++
        [.finished d .failed (some (cause ++ msg ["; compensation also failed: "] ++ comp))])
      (.failed stage (cause ++ msg ["; compensation also failed: "] ++ comp))

end Timeline

/-- The log and the sink have got the same entries since `w₀`, and they say `events`. -/
def Written (w₀ : World) (events : List Event) (w : World) : Prop :=
  ∃ log : List StoredEvent, log.map StoredEvent.event = events ∧
    w.store.events = w₀.store.events ++ log ∧ w.published = w₀.published ++ log

/-- What the sink was shown since `w₀` is in the store. -/
def Durable (w₀ w : World) : Prop := ∃ log : List StoredEvent,
  w.published = w₀.published ++ log ∧ ∀ event ∈ log, event ∈ w.store.events

/-- The row of the deploy. -/
def RowAt (d : ℕ) (stage : Stage) (status : DeployStatus) (w : World) : Prop :=
  ∃ r, w.store.row d = some r ∧ r.stage = stage ∧ r.status = status

/-- The four records of a deploy agree. -/
structure RecordsAgree (d : ℕ) (w₀ w : World) (outcome : DeployOutcome) : Prop where
  timeline : ∃ events, Timeline d events outcome ∧ Written w₀ events w
  row : ∃ r, w.store.row d = some r ∧ r.status = outcome.status ∧
    ∀ stage, outcome.failedAt = some stage → r.stage = stage

/-- The store has carried out what it was asked for. -/
def storeSucceeds : (e : Eff) → e.Resp → Bool
  | .store _, .error _ => false
  | _, _ => true

/-- A host on which every call of the store succeeds. -/
def recordingHost (paths : Paths) : Machine Eff Eff.Resp Answer World :=
  (World.machine paths).restrict storeSucceeds

section Rules
variable {paths : Paths} {w₀ w : World} {d : ℕ} {events : List Event} {stage : Stage}

theorem Written.durable (h : Written w₀ events w) : Durable w₀ w := by
  obtain ⟨log,-,hevents,hpublished⟩ := h
  exact ⟨log,hpublished,fun event he => by rw [hevents]; exact List.mem_append_right _ he⟩

/-- What a run is checked against: whatever was shown is in the store, at each operation. -/
abbrev recording (paths : Paths) (w₀ : World) : Spec Eff Eff.Resp World :=
  (recordingHost paths).spec (fun _ _ => True) (Durable w₀)

/-- Neither the store nor the sink has been used. -/
def SameRecords (w₁ w : World) : Prop := w.store = w₁.store ∧ w.published = w₁.published

/-- What goes to the host leaves the records alone. -/
theorem wp_host_records {α : Type} {p : Run α} (hp : All Eff.OnHost p.run) (h : Durable w₀ w) :
    wp (recording paths w₀) p.run (fun _ => SameRecords w) w := by
  refine wp_of_all (SameRecords w) hp ⟨rfl,rfl⟩ (fun w' e _ hI => ?_) fun w' e r w'' he hI hr => ?_
  · change Durable w₀ w'
    unfold Durable
    rw [hI.1,hI.2]
    exact h
  · obtain ⟨-,x,-,hs⟩ := (Machine.restrict_post _).mp hr
    obtain ⟨⟨r',w₂⟩,ha,heq⟩ := Option.map_eq_some_iff.mp hs
    cases heq
    rcases answer_cases ha with rfl | ⟨_,_,fs,rfl,-,rfl⟩ | ⟨_,fs,rfl,-,rfl⟩ | ⟨_,fs,rfl,-,rfl⟩ |
      ⟨_,rfl,rfl⟩ | ⟨_,rfl,-⟩ | ⟨_,rfl,-⟩
    case inr.inr.inr.inr.inr.inl | inr.inr.inr.inr.inr.inr => exact he.elim
    all_goals exact hI

/-- A call of the store: what it replies, when it succeeds. -/
theorem sure_store {o : StoreOp} {Q : o.Reply → World → Prop} (hC : Durable w₀ w)
    (h : ∀ a, (w.store.call o).1 = .ok a →
      Q a ({ w with store := (w.store.call o).2 }.record (.store o))) :
    wpSure (recording paths w₀) (Run.store o) Q w := by
  refine ⟨hC,fun r w' hr => ?_⟩
  obtain ⟨hgood,x,-,hs⟩ := (Machine.restrict_post _).mp hr
  obtain ⟨⟨r',w₂⟩,ha,heq⟩ := Option.map_eq_some_iff.mp hs
  cases heq
  cases x <;> simp only [World.answer,Option.some.injEq,Prod.mk.injEq,reduceCtorEq] at ha
  · obtain ⟨rfl,-⟩ := ha
    exact absurd hgood Bool.false_ne_true
  · obtain ⟨rfl,rfl⟩ := ha
    cases hcall : (w.store.call o).1 with
    | error e =>
      rw [hcall] at hgood
      exact absurd hgood Bool.false_ne_true
    | ok a => exact ⟨a,rfl,h a hcall⟩

theorem sure_show {event : StoredEvent} {Q : Unit → World → Prop} (hC : Durable w₀ w)
    (h : Q () ({ w with published := w.published ++ [event] }.record (.emit event))) :
    wpSure (recording paths w₀) (Run.emit event) Q w := by
  refine ⟨hC,fun r w' hr => ?_⟩
  obtain ⟨-,x,-,hs⟩ := (Machine.restrict_post _).mp hr
  obtain ⟨⟨r',w₂⟩,ha,heq⟩ := Option.map_eq_some_iff.mp hs
  cases heq
  cases x <;> simp only [World.answer,Option.some.injEq,Prod.mk.injEq,reduceCtorEq] at ha
  obtain ⟨-,rfl⟩ := ha
  exact ⟨(),rfl,h⟩

/-- The run is in a stage: what has been written, and where the row stands. -/
structure Along (w₀ : World) (d : ℕ) (events : List Event) (stage : Stage) (w : World) : Prop where
  written : Written w₀ events w
  row : RowAt d stage .inProgress w

theorem Written.append {w' : World} {event : StoredEvent} (h : Written w₀ events w)
    (hevents : w'.store.events = w.store.events ++ [event])
    (hpublished : w'.published = w.published ++ [event]) :
    Written w₀ (events ++ [event.event]) w' := by
  obtain ⟨log,hlog,hold,hshown⟩ := h
  refine ⟨log ++ [event],by simp [hlog],?_,?_⟩
  · rw [hevents,hold,List.append_assoc]
  · rw [hpublished,hshown,List.append_assoc]

/-- An entry that is stored but not yet shown. -/
theorem Written.stored {w' : World} {event : StoredEvent} (h : Written w₀ events w)
    (hevents : w'.store.events = w.store.events ++ [event])
    (hpublished : w'.published = w.published) : Durable w₀ w' := by
  obtain ⟨log,-,hold,hshown⟩ := h
  refine ⟨log,hpublished.trans hshown,fun e he => ?_⟩
  rw [hevents,hold]
  exact List.mem_append_left _ (List.mem_append_right _ he)

theorem Written.same {w' : World} (h : Written w₀ events w) (hs : SameRecords w w') :
    Written w₀ events w' := by
  unfold Written
  rw [hs.1,hs.2]
  exact h

theorem sure_emit_record {status : EventStatus} {detail : Option Message} {stage' : Stage}
    (h : Along w₀ d events stage w) : wpSure (recording paths w₀) (emit d stage' status detail)
      (fun _ => Along w₀ d (events ++ [.forStage d stage' status detail]) stage) w := by
  refine wpSure_seq (P := fun event w₁ => event.event = .forStage d stage' status detail ∧
    w₁.store.events = w.store.events ++ [event] ∧ w₁.published = w.published ∧
    w₁.store.row d = w.store.row d) (sure_store h.written.durable fun event he => ?_)
    fun event w₁ h₁ => ?_
  · cases he
    exact ⟨rfl,rfl,rfl,rfl⟩
  · obtain ⟨hevent,hevents,hpublished,hrow⟩ := h₁
    refine sure_show (h.written.stored hevents hpublished) ⟨?_,?_⟩
    · rw [← hevent]
      exact h.written.append hevents (congrArg (· ++ [event]) hpublished)
    · obtain ⟨r,hr,hrest⟩ := h.row
      exact ⟨r,hrow.trans hr,hrest⟩

theorem sure_begin_record (h : Written w₀ events w) :
    wpSure (recording paths w₀) (begin' d stage)
      (fun _ => Along w₀ d (events ++ [.forStage d stage .started none]) stage) w := by
  refine wpSure_seq (P := fun _ => Along w₀ d events stage) (sure_store h.durable fun u hu => ?_)
    fun _ w₁ h₁ => sure_emit_record h₁
  obtain ⟨r,-,hs,hr⟩ := Store.call_advanceStage hu
  have hlog := (Store.events_call w.store (o := .advanceStage d stage) nofun nofun).1
  obtain ⟨log,hevents,hold,hshown⟩ := h
  exact ⟨⟨log,hevents,hlog.trans hold,hshown⟩,_,hr,rfl,hs⟩

theorem sure_finished_record {status : DeployStatus} {detail : Option Message}
    (h : Along w₀ d events stage w) : wpSure (recording paths w₀) (finished d status detail)
      (fun _ w' => Written w₀ (events ++ [.finished d status detail]) w' ∧
        RowAt d stage status w') w := by
  refine wpSure_seq (P := fun event w₁ => event.event = .finished d status detail ∧
    w₁.store.events = w.store.events ++ [event] ∧ w₁.published = w.published ∧
    RowAt d stage status w₁) (sure_store h.written.durable fun event he => ?_)
    fun event w₁ h₁ => ?_
  · obtain ⟨hevent,hevents,-⟩ := Store.events_finishDeployWithEvent he
    refine ⟨by rw [hevent],hevents,rfl,?_⟩
    obtain ⟨r,hr,hstage,-⟩ := h.row
    have heq := (Store.finishDeployWithEvent_eq_ok.mp (Store.commit_eq_ok he)).2
    have hstore := congrArg Prod.snd heq
    dsimp only at hstore
    refine ⟨{ r with status := status, detail := detail },?_,hstage,rfl⟩
    change Store.row (w.store.call _).2 d = _
    refine (congrArg (fun s => Store.row s d) hstore).trans ?_
    rw [Store.row_appendEvent,Store.row_dropLocks,Store.row_setRow,if_pos rfl,hr]
    rfl
  · obtain ⟨hevent,hevents,hpublished,hrow⟩ := h₁
    refine sure_show (h.written.stored hevents hpublished) ⟨?_,hrow⟩
    rw [← hevent]
    exact h.written.append hevents (congrArg (· ++ [event]) hpublished)

end Rules

section Stages
variable {ctx : Ctx} {w₀ w : World} {d : ℕ} {name slug : Text} {previous : Option WorkloadSpec}
  {before after : List Stage} {stage : Stage}

theorem passedEvents_append (stages : List Stage) (stage : Stage) :
    passedEvents d (stages ++ [stage]) = passedEvents d stages ++
      [.forStage d stage .started none] ++ [.forStage d stage .succeeded none] := by
  simp [passedEvents]

/-- A failed stage is reported, compensated, and then ends the deploy. -/
theorem sure_fail_record (hall : Stage.all = before ++ stage::after) (cause : Message)
    (h : Along w₀ d (passedEvents d before ++ [.forStage d stage .started none]) stage w) :
    wpSure (recording ctx.paths w₀) (fail ctx d name slug previous stage cause)
      (fun outcome w' => RecordsAgree d w₀ w' outcome) w := by
  refine wpSure_seq (sure_emit_record h) fun _ w₁ h₁ => ?_
  refine wpSure_seq (wpSure_result (wp_host_records compensate_onHost h₁.written.durable))
    fun r w₂ h₂ => ?_
  have hbroken : passedEvents d before ++ [.forStage d stage .started none] ++
      [.forStage d stage .failed (some cause)] = passedEvents d before ++ broken d stage cause := by
    simp [broken]
  rw [hbroken] at h₁
  have h₃ : Along w₀ d (passedEvents d before ++ broken d stage cause) stage w₂ := by
    refine ⟨h₁.written.same h₂,?_⟩
    obtain ⟨row,hrow,hrest⟩ := h₁.row
    exact ⟨row,(congrArg (fun s => Store.row s d) h₂.1).trans hrow,hrest⟩
  cases r with
  | ok _ =>
    refine wpSure_seq (sure_finished_record h₃) fun _ w₄ h₄ => wpSure_pure ?_
    obtain ⟨hwritten,row,hrow,hstage,hstatus⟩ := h₄
    exact ⟨⟨_,.rolledBack cause hall,hwritten⟩,row,hrow,hstatus,fun _ he => by cases he; exact hstage⟩
  | error comp =>
    refine wpSure_seq (sure_finished_record h₃) fun _ w₄ h₄ => wpSure_pure ?_
    obtain ⟨hwritten,row,hrow,hstage,hstatus⟩ := h₄
    exact ⟨⟨_,.failed cause comp hall,hwritten⟩,row,hrow,hstatus,
      fun _ he => by cases he; exact hstage⟩

variable (before) in
/-- One stage: the deploy goes on from two more events, or ends here. -/
theorem sure_runStage_record {α : Type} {body : Run α} {next : α → Run DeployOutcome}
    (hall : Stage.all = before ++ stage::after) (h : Written w₀ (passedEvents d before) w)
    (hbody : All Eff.OnHost body.run)
    (hnext : ∀ a w, Along w₀ d (passedEvents d (before ++ [stage])) stage w →
      wpSure (recording ctx.paths w₀) (next a) (fun outcome w' => RecordsAgree d w₀ w' outcome) w) :
    wpSure (recording ctx.paths w₀) (runStage ctx d name slug previous stage body next)
      (fun outcome w' => RecordsAgree d w₀ w' outcome) w := by
  refine wpSure_seq (sure_begin_record h) fun _ w₁ h₁ => ?_
  refine wpSure_seq (wpSure_result (wp_host_records hbody h₁.written.durable)) fun r w₂ h₂ => ?_
  have h₃ : Along w₀ d (passedEvents d before ++ [.forStage d stage .started none]) stage w₂ := by
    refine ⟨h₁.written.same h₂,?_⟩
    obtain ⟨row,hrow,hrest⟩ := h₁.row
    exact ⟨row,(congrArg (fun s => Store.row s d) h₂.1).trans hrow,hrest⟩
  cases r with
  | ok a =>
    refine wpSure_seq (sure_emit_record h₃) fun _ w₄ h₄ => hnext a w₄ ?_
    rw [passedEvents_append]
    exact h₄
  | error e => exact sure_fail_record hall e h₃

theorem sure_finishDone_record {spec : WorkloadSpec}
    (h : Along w₀ d (passedEvents d Stage.all) .healthcheck w) :
    wpSure (recording ctx.paths w₀) (finishDone ctx spec slug d)
      (fun outcome w' => RecordsAgree d w₀ w' outcome) w := by
  refine wpSure_seq (P := fun _ => Along w₀ d (passedEvents d Stage.all) .healthcheck)
    (sure_store h.written.durable fun u hu => ?_) fun _ w₁ h₁ => ?_
  · have hlog := (Store.events_call w.store
      (o := .putSpec spec.name slug (ctx.codec.toText spec)) nofun nofun).1
    obtain ⟨⟨log,hevents,hold,hshown⟩,row,hrow,hrest⟩ := h
    exact ⟨⟨log,hevents,hlog.trans hold,hshown⟩,row,
      (Store.row_call _ id (Option.isSome_of_eq_some hrow)).trans hrow,hrest⟩
  · refine wpSure_seq (sure_finished_record h₁) fun _ w₂ h₂ => wpSure_pure ?_
    obtain ⟨hwritten,row,hrow,-,hstatus⟩ := h₂
    exact ⟨⟨_,.done spec.image,hwritten⟩,row,hrow,hstatus,nofun⟩

theorem sure_runStages_record (spec : WorkloadSpec) (repo : Path) (h : Written w₀ [] w) :
    wpSure (recording ctx.paths w₀) (runStages ctx spec repo slug d previous)
      (fun outcome w' => RecordsAgree d w₀ w' outcome) w := by
  refine sure_runStage_record [] rfl h (all_detect looks_onHost _)
    fun plan w₁ h₁ => ?_
  refine sure_runStage_record [.detect] rfl h₁.written (all_build looks_onHost _ _)
    fun image w₂ h₂ => ?_
  refine sure_runStage_record [.detect,.build] rfl h₂.written
    (all_ensureAll looks_onHost _) fun _ w₃ h₃ => ?_
  refine sure_runStage_record [.detect,.build,.secrets] rfl h₃.written apply_onHost
    fun _ w₄ h₄ => ?_
  refine sure_runStage_record [.detect,.build,.secrets,.apply] rfl h₄.written ?_
    fun _ w₅ h₅ => ?_
  · unfold routeStage
    split
    · exact applyRoute_onHost
    · trivial
  refine sure_runStage_record [.detect,.build,.secrets,.apply,.route] rfl h₅.written
    (all_healthcheck (fun _ => trivial) _) fun _ w₆ h₆ => ?_
  exact sure_finishDone_record h₆

theorem sure_runLocked_record (spec : WorkloadSpec) (repo : Path) (h : Written w₀ [] w) :
    wpSure (recording ctx.paths w₀) (runLocked ctx spec repo d previous)
      (fun outcome w' => RecordsAgree d w₀ w' outcome ∧ Durable w₀ w') w := by
  refine wpSure_seq (wpSure_result (sure_runStages_record spec repo h)) fun r w₁ h₁ => ?_
  obtain ⟨outcome,rfl,⟨events,htimeline,hwritten⟩,row,hrow,hrest⟩ := h₁
  refine wpSure_seq (P := fun _ w' => RecordsAgree d w₀ w' outcome ∧ Durable w₀ w')
    (sure_store hwritten.durable fun u hu => ?_) fun _ w₂ h₂ => wpSure_pure h₂
  have hw : Written w₀ events
      ({ w₁ with store := (w₁.store.call (.releaseLock spec.name)).2 }.record
        (.store (.releaseLock spec.name))) := hwritten
  exact ⟨⟨⟨events,htimeline,hw⟩,row,hrow,hrest⟩,hw.durable⟩

theorem sure_runReserved_record (spec : WorkloadSpec) (repo : Path)
    (hvalid : spec.validate = .ok ())
    (hdec : ∀ json, w.store.spec spec.name = some json → ∃ prev, ctx.codec.ofText json = .ok prev) :
    wpSure (recording ctx.paths w) (runReserved ctx spec repo d)
      (fun outcome w' => RecordsAgree d w w' outcome ∧ Durable w w') w := by
  have hstart : Written w [] w := ⟨[],rfl,by simp,by simp⟩
  unfold runReserved
  rw [hvalid,Run.ofExcept_ok,pure_bind]
  refine wpSure_seq (P := fun _ => Written w []) ?_ fun previous w₁ h₁ =>
    sure_runLocked_record spec repo h₁
  unfold loadPrevious
  refine wpSure_seq (P := fun o w₁ => o = w.store.spec spec.name ∧ Written w [] w₁)
    (sure_store hstart.durable fun o ho => ?_) fun o w₁ h₁ => ?_
  · exact ⟨(Except.ok.inj ho).symm,hstart⟩
  · obtain ⟨rfl,hwritten⟩ := h₁
    cases hjson : w.store.spec spec.name with
    | none => exact wpSure_pure hwritten
    | some json =>
      obtain ⟨prev,hprev⟩ := hdec json hjson
      simp only [hprev]
      exact wpSure_pure hwritten

end Stages

/-- When every call of the store succeeds and the stored spec decodes, a deploy of a valid spec
leaves four records that agree, and nothing is shown before it is stored. -/
theorem records_agree (ctx : Ctx) (spec : WorkloadSpec) (repo : Path) (d : ℕ) (w w' : World)
    (answers : List Answer) (r : Except Message DeployOutcome)
    (hvalid : spec.validate = .ok ())
    (hdec : ∀ json, w.store.spec spec.name = some json → ∃ prev, ctx.codec.ofText json = .ok prev)
    (hrun : (recordingHost ctx.paths).finish answers (runReserved ctx spec repo d).run w =
      some (r,w')) :
    (∃ outcome, r = .ok outcome ∧ RecordsAgree d w w' outcome) ∧
    ∀ n rest w₁, (recordingHost ctx.paths).advance (answers.take n)
      (runReserved ctx spec repo d).run w = some (rest,w₁) → Durable w w₁ := by
  have hwp := @sure_runReserved_record ctx w d spec repo hvalid hdec
  constructor
  · obtain ⟨outcome,hr,hagree,-⟩ := Machine.wp_complete _ hwp
      (Machine.allowed_of_forall _ (fun _ _ _ => trivial) _ _) ((Machine.finish_eq_some _).mp hrun)
    exact ⟨outcome,hr,hagree⟩
  · intro n rest w₁ h
    exact Machine.wp_cut _ hwp (fun _ _ hq => by obtain ⟨_,_,_,hd⟩ := hq; exact hd)
      (Machine.allowed_of_forall _ (fun _ _ _ => trivial) _ _) h

section Sample

/-- A deploy that fails at its first stage, in a checkout without a Containerfile. -/
theorem refused_detection_recorded : ∃ outcome w', (recordingHost .default).finish
      (failedWrite.take 5 ++ [.fail ["no git"]] ++ List.replicate 5 .done)
      (runReserved sampleContext sampleSpec ["","repo"] 1).run sampleWorld =
      some (.ok outcome,w') ∧
    RecordsAgree 1 sampleWorld w' outcome ∧ outcome.failedAt = some .detect := by
  have hrun : ∃ w', (recordingHost .default).finish
      (failedWrite.take 5 ++ [.fail ["no git"]] ++ List.replicate 5 .done)
      (runReserved sampleContext sampleSpec ["","repo"] 1).run sampleWorld =
      some (.ok (.rolledBack .detect ["no git"]),w') := ⟨_,rfl⟩
  obtain ⟨w',hrun⟩ := hrun
  obtain ⟨⟨outcome,hr,hagree⟩,-⟩ := records_agree sampleContext sampleSpec ["","repo"] 1 sampleWorld
    w' _ _ (by decide +kernel) nofun hrun
  cases hr
  exact ⟨_,w',hrun,hagree,rfl⟩

theorem Timeline.ne_nil {d : ℕ} {events : List Event} {outcome : DeployOutcome}
    (h : Timeline d events outcome) : events ≠ [] := by
  cases h <;> simp

/-- A reserved deploy of an invalid spec is refused, and nothing is written about it. -/
theorem invalid_spec_unrecorded : ∃ why w', (recordingHost .default).finish []
      (runReserved sampleContext { sampleSpec with image := "a\nb" } ["","repo"] 1).run
      sampleWorld = some (.error why,w') ∧
    w'.store.InProgress 1 ∧ ∀ outcome, ¬RecordsAgree 1 sampleWorld w' outcome := by
  have hrun : ∃ why w', (recordingHost .default).finish []
      (runReserved sampleContext { sampleSpec with image := "a\nb" } ["","repo"] 1).run
      sampleWorld = some (.error why,w') ∧
      w'.store.row 1 = some ⟨1,"web",.detect,.inProgress,none⟩ ∧ w'.store.events = [] :=
    ⟨_,_,rfl,rfl,rfl⟩
  obtain ⟨why,w',hrun,hrow,hevents⟩ := hrun
  refine ⟨why,w',hrun,⟨_,hrow,rfl⟩,fun outcome h => ?_⟩
  obtain ⟨events,htimeline,log,hlog,hold,-⟩ := h.timeline
  rw [hevents] at hold
  obtain ⟨-,rfl⟩ := List.append_eq_nil_iff.mp hold.symm
  exact htimeline.ne_nil hlog.symm

end Sample
end Kuadrat
