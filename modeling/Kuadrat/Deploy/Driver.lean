import Kuadrat.Deploy.Steps

/-!
# The deploy state machine

`run` sequences Detect, Build, Secrets, Apply, Route and Healthcheck under the
per-app lock. A stage that fails is compensated backward. `reconcile` does the
same for every deploy that a crash left in progress.
-/
namespace Kuadrat

open Effect

/-- The JSON form of specs, as `serde_json` writes and reads it: what it writes it reads back. -/
structure SpecCodec where
  toText : WorkloadSpec → Text
  ofText : Text → Except Message WorkloadSpec
  ofText_toText : ∀ spec, ofText (toText spec) = .ok spec

/-- What a deploy is run with; its executor, filesystem, store and sink are the effects. -/
structure Ctx where
  paths : Paths
  codec : SpecCodec

inductive DeployOutcome
  | done (image : Text)
  | rolledBack (failedAt : Stage) (cause : Message)
  | failed (failedAt : Stage) (cause : Message)
  deriving DecidableEq

inductive ReserveError
  | busy (name : Text) (deployId : ℕ)
  | internal (why : Message)
  deriving DecidableEq

def ReserveError.message : ReserveError → Message
  | busy name _ => ["another deploy of ",.text name," is already in progress"]
  | internal why => why

/-- Allocate a deploy row for `name` and take its lock, without running anything. -/
def reserve (name : Text) : Proc Eff Eff.Resp ReserveError ℕ := do
  let deployId ← (Run.store (.createDeploy name)).mapError .internal
  if ← (Run.store (.acquireLock name deployId)).mapError .internal then return deployId
  else
    (Run.store (.finishDeploy deployId .failed
      (some ["another deploy is already in progress"]))).mapError .internal
    throw (.busy name deployId)

def loadPrevious (ctx : Ctx) (name : Text) : Run (Option WorkloadSpec) := do
  match ← Run.store (.currentSpec name) with
  | some json =>
    match ctx.codec.ofText json with
    | .ok spec => return some spec
    | .error e => throw (.context ["parsing the previously stored spec"] e)
  | none => return none

/-- Persist one event, then publish it to the sink. -/
def emit (deployId : ℕ) (stage : Stage) (status : EventStatus) (detail : Option Message) :
    Run Unit := do
  let stored ← Run.store (.appendEvent (.forStage deployId stage status detail))
  Run.emit stored

/-- Advance the durable stage and emit a Started event. -/
def begin' (deployId : ℕ) (stage : Stage) : Run Unit := do
  Run.store (.advanceStage deployId stage)
  emit deployId stage .started none

/-- Emit a Succeeded event for a stage. -/
def ok (deployId : ℕ) (stage : Stage) : Run Unit := emit deployId stage .succeeded none

/-- Persist the terminal status and its event as one atomic write, then publish it. -/
def finished (deployId : ℕ) (status : DeployStatus) (detail : Option Message) : Run Unit := do
  let stored ← Run.store (.finishDeployWithEvent deployId status detail)
  Run.emit stored

/-- Restore the previous unit, or remove the unit this deploy wrote when there was none. -/
def unwindApply (ctx : Ctx) (name : Text) (previous : Option WorkloadSpec) : Run Unit :=
  match previous with
  | some prev => apply ctx.paths prev
  | none => remove ctx.paths name

/-- Restore the previous route, or remove the route this deploy wrote when there was none. -/
def unwindRoute (ctx : Ctx) (slug : Text) (previous : Option WorkloadSpec) : Run Unit :=
  match previous.bind WorkloadSpec.route with
  | some prevRoute => applyRoute ctx.paths slug prevRoute
  | none => removeRoute ctx.paths slug

/-- Undo the host changes made before `failedAt`, walking backward. -/
def compensate (ctx : Ctx) (name slug : Text) (previous : Option WorkloadSpec)
    (failedAt : Stage) : Run Unit :=
  match failedAt with
  | .detect | .build | .secrets => return ()
  | .apply => unwindApply ctx name previous
  | .route | .healthcheck => do
    unwindRoute ctx slug previous
    unwindApply ctx name previous

/-- Handle a stage failure: `RolledBack` when the undo succeeds, `Failed` otherwise. -/
def fail (ctx : Ctx) (deployId : ℕ) (name slug : Text) (previous : Option WorkloadSpec)
    (stage : Stage) (cause : Message) : Run DeployOutcome := do
  emit deployId stage .failed (some cause)
  match ← (compensate ctx name slug previous stage).result with
  | .ok _ =>
    finished deployId .rolledBack (some cause)
    return .rolledBack stage cause
  | .error comp =>
    let combined := cause ++ msg ["; compensation also failed: "] ++ comp
    finished deployId .failed (some combined)
    return .failed stage combined

/-- One stage of the loop: begin it, run it, and go on to `next` or compensate. -/
def runStage {α : Type} (ctx : Ctx) (deployId : ℕ) (name slug : Text)
    (previous : Option WorkloadSpec) (stage : Stage) (body : Run α)
    (next : α → Run DeployOutcome) : Run DeployOutcome := do
  begin' deployId stage
  match ← body.result with
  | .ok a =>
    ok deployId stage
    next a
  | .error e => fail ctx deployId name slug previous stage e

/-- What follows the last stage: store the deployed spec and write the terminal row. -/
def finishDone (ctx : Ctx) (spec : WorkloadSpec) (slug : Text) (deployId : ℕ) :
    Run DeployOutcome := do
  Run.store (.putSpec spec.name slug (ctx.codec.toText spec))
  finished deployId .done none
  return .done spec.image

def routeStage (ctx : Ctx) (spec : WorkloadSpec) (slug : Text) : Run Unit :=
  match spec.route with
  | some route => applyRoute ctx.paths slug route
  | none => return ()

def runStages (ctx : Ctx) (spec : WorkloadSpec) (repo : Path) (slug : Text) (deployId : ℕ)
    (previous : Option WorkloadSpec) : Run DeployOutcome :=
  let stage {α : Type} := @runStage α ctx deployId spec.name slug previous
  stage .detect (detect repo) fun plan =>
  stage .build (build plan slug) fun image =>
  let spec := { spec with image := image }
  stage .secrets (Secrets.ensureAll spec.secrets) fun _ =>
  stage .apply (apply ctx.paths spec) fun _ =>
  stage .route (routeStage ctx spec slug) fun _ =>
  stage .healthcheck (healthcheck spec) fun _ =>
  finishDone ctx spec slug deployId

/-- Run the stages, then release the lock however they ended. -/
def runLocked (ctx : Ctx) (spec : WorkloadSpec) (repo : Path) (deployId : ℕ)
    (previous : Option WorkloadSpec) : Run DeployOutcome := do
  let result ← (runStages ctx spec repo spec.slug deployId previous).result
  Run.store (.releaseLock spec.name)
  Run.ofExcept result

/-- Run the stages for a deploy already reserved. -/
def runReserved (ctx : Ctx) (spec : WorkloadSpec) (repo : Path) (deployId : ℕ) :
    Run DeployOutcome := do
  Run.ofExcept spec.validate
  let previous ← loadPrevious ctx spec.name
  runLocked ctx spec repo deployId previous

/-- Deploy `spec` from the repo at `repo`. -/
def run (ctx : Ctx) (spec : WorkloadSpec) (repo : Path) : Run DeployOutcome := do
  Run.ofExcept spec.validate
  let deployId ← (reserve spec.name).mapError ReserveError.message
  runReserved ctx spec repo deployId

/-- Undo what a stranded deploy did, record the outcome, and release its lock. -/
def undoRow (ctx : Ctx) (row : DeployRow) (previous : Option WorkloadSpec) :
    Run DeployOutcome := do
  let outcome ← match ← (compensate ctx row.app (slug row.app) previous row.stage).result with
    | .ok _ => do
      let cause := msg ["reconciled after restart (was in progress at ",.lit row.stage.debug,")"]
      finished row.id .rolledBack (some cause)
      pure (DeployOutcome.rolledBack row.stage cause)
    | .error e => do
      let cause := msg ["reconcile compensation failed: "] ++ e
      finished row.id .failed (some cause)
      pure (DeployOutcome.failed row.stage cause)
  Run.store (.releaseLock row.app)
  return outcome

/-- Roll one stranded deploy back to the last good state and release its lock. -/
def reconcileRow (ctx : Ctx) (row : DeployRow) : Run DeployOutcome := do
  let previous ← loadPrevious ctx row.app
  undoRow ctx row previous

/-- Recover from crashed deploys: one outcome for every deploy still in progress. -/
def reconcile (ctx : Ctx) : Run (List DeployOutcome) := do
  let rows ← Run.store .inProgressDeploys
  let outcomes ← rows.foldlM (fun outcomes row => do
    let outcome ← reconcileRow ctx row
    return outcomes ++ [outcome]) []
  let _ ← Run.store .releaseOrphanedLocks
  return outcomes

end Kuadrat
