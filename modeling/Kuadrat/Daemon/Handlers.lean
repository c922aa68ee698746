import Kuadrat.Daemon.Resolve

/-!
# The handlers that start and recover deploys

The API's trigger, the delivery of a push, the reconciliation request, and the task that a
trigger spawns. Each is a program over the effects; the daemon's two guards are among them.
-/
namespace Kuadrat

open Effect

/-- Effectful code of a handler. -/
abbrev Api := Proc Eff Eff.Resp ApiError

/-- Run a program for its effects only. -/
def forget {ε α : Type} (p : Proc Eff Eff.Resp ε α) : Prog Eff Eff.Resp Unit :=
  p.run >>= fun _ => .ret ()

namespace Api

def ofResult {α : Type} : ApiResult α → Api α
  | .ok a => pure a
  | .error e => throw e

/-- A call of the store whose error the API reports as internal. -/
def store (o : StoreOp) (note : Message) : Api o.Reply :=
  (Run.store o).mapError fun e => .internal (Message.context note e)

def emit (event : StoredEvent) : Api Unit := .lift (.perform (Eff.emit event))
def acquire (g : Guard) : Api Unit := .lift (.perform (Eff.acquire g))
def release (g : Guard) : Api Unit := .lift (.perform (Eff.release g))
def spawn (spec : WorkloadSpec) (repo : Path) (deployId : ℕ) : Api Unit :=
  .lift (.perform (Eff.spawn spec repo deployId))

/-- Hold a guard while `p` runs; it is dropped however `p` ends. -/
def locked {α : Type} (g : Guard) (p : Api α) : Api α := do
  acquire g
  let r ← p.result
  release g
  ofResult r

end Api

section Trigger
variable (codec : SpecCodec)

/-- The registration of `name`, read from the store. -/
def readRegistration (name : Text) : Api AppConfig :=
  .mk (.perform (Eff.store (.appConfig name)) >>= fun reply => .ret (registration name reply))

/-- Reject an app that already has an in-flight deploy. -/
def ensureNotBusy (name : Text) : Api Unit := do
  let rows ← Api.store .inProgressDeploys ["reading in-progress deploys"]
  if rows.any fun row => row.app == name then
    throw (.conflict ["another deploy of ",.text name," is already in progress"])
  else return ()

/-- `deploySpec` on what stands in `kuadrat.json`, the only file it reads. -/
def readDeploySpec (config : AppConfig) : Api (WorkloadSpec × Path) :=
  .mk (.perform (Eff.readToString ((Path.ofText config.repoPath).join "kuadrat.json")) >>=
    fun text => .ret (deploySpec codec config fun _ => text.toOption))

def reserveApiError : ReserveError → ApiError
  | .busy name _ => .conflict ["another deploy of ",.text name," is already in progress"]
  | .internal e => .internal (Message.context ["reserving deploy"] e)

/-- The shared deploy path while the caller holds the trigger lock. -/
def startDeployLocked (name : Text) : Api ℕ := do
  let config ← readRegistration name
  ensureNotBusy name
  let (spec,repo) ← readDeploySpec codec config
  let deployId ← (reserve name).mapError reserveApiError
  Api.spawn spec repo deployId
  return deployId

/-- Accept and spawn one deploy. -/
def startDeploy (name : Text) : Api ℕ := Api.locked .trigger (startDeployLocked codec name)

end Trigger

/-- Register an app, or change its registration; the summary in the reply only reads. -/
def register (config : AppConfig) : Api Unit :=
  Api.locked .trigger ((Run.store (.registerApp config)).mapError ApiError.badRequest)

/-- The task that a trigger spawns: one deploy at a time, globally. -/
def spawnedDeploy (ctx : Ctx) (spec : WorkloadSpec) (repo : Path) (deployId : ℕ) :
    Prog Eff Eff.Resp Unit :=
  forget (Api.locked .slot ((runReserved ctx spec repo deployId).mapError ApiError.internal))

/-- One branch push: which branch, and the commit to deploy. -/
structure Push where
  branch : Text
  sha : Text

inductive HookReply
  | ignored (reason : Message)
  | accepted (deployId : ℕ)

section Hook
variable (codec : SpecCodec)

/-- Write the end of a hook's attempt, and publish it. -/
def finishAttempt (deployId : ℕ) (detail : Message) : Api Unit := do
  let stored ← Api.store (.finishDeployWithEvent deployId .failed (some detail))
    ["finishing hook attempt"]
  Api.emit stored

def recordRefusal (app : Text) (detail : Message) : Api Unit := do
  let deployId ← Api.store (.createDeploy app) ["recording hook refusal"]
  finishAttempt deployId detail

def gitTimeout : Duration := .ofSecs 30

/-- A git command under the timeout; its stderr is kept from the forge's delivery log. -/
def runGit (app : Text) (c : Command) (action : String) : Api CommandOutput := do
  let timedOut := ApiError.internal ["git timed out while ",action," for ",.text app]
  let failed := ApiError.internal ["git failed while ",action," for ",.text app]
  match ← (.lift (.perform (Eff.timed c)) : Api Timed) with
  | .stalled => throw timedOut
  | .finished (.error _) took => throw (if gitTimeout < took then timedOut else failed)
  | .finished (.ok out) took =>
    if gitTimeout < took then throw timedOut
    else if out.success then return out
    else throw failed

/-- One step after the reservation: when it fails, the attempt is finished before the error
is returned. -/
def orFinish {α : Type} (deployId : ℕ) (detail : Message) (p : Api α) : Api α := do
  match ← p.result with
  | .ok a => return a
  | .error err =>
    finishAttempt deployId detail
    throw err

/-- A reserved push: bring the checkout to the pushed commit, then hand the deploy over. -/
def deployPush (app : Text) (config : AppConfig) (push : Push) (deployId : ℕ) :
    Api HookReply := do
  let repo := config.repoPath
  let output ← orFinish deployId ["hook git branch read failed"]
    (runGit app (.gitSymbolicRef repo) "reading the checked-out branch")
  let branch := output.stdout.trim
  if branch ≠ push.branch then
    let reason := msg ["push to ",.text push.branch,", deploying ",.text branch]
    finishAttempt deployId (msg ["hook ignored: "] ++ reason)
    return .ignored reason
  else
    let _ ← orFinish deployId ["hook git fetch failed"]
      (runGit app (.gitFetch repo) "fetching origin")
    let _ ← orFinish deployId ["hook git reset failed"]
      (runGit app (.gitReset repo push.sha) "resetting the checkout")
    let (spec,repo) ← orFinish deployId ["hook deploy refused after checkout update"]
      (readDeploySpec codec config)
    Api.spawn spec repo deployId
    return .accepted deployId

/-- A push to an app that is not busy: reserve before any git command. -/
def reservePush (app : Text) (config : AppConfig) (push : Push) : Api HookReply := do
  match ← (reserve app).result.mapError reserveApiError with
  | .ok deployId => deployPush codec app config push deployId
  | .error (.busy _ deployId) =>
    finishAttempt deployId ["hook ignored: deploy in progress"]
    return .ignored ["deploy in progress"]
  | .error (.internal e) => throw (.internal (Message.context ["reserving hook deploy"] e))

/-- What follows the authentication of a delivery; `push` is what its body parses to. -/
def dispatchPush (app : Text) (push : Option Push) : Api HookReply :=
  Api.locked .trigger do
    let config ← readRegistration app
    match push with
    | none => return .ignored ["not a branch push"]
    | some push =>
      match ← (ensureNotBusy app).result with
      | .ok _ => reservePush codec app config push
      | .error err =>
        if err.isConflict then
          recordRefusal app ["hook ignored: deploy in progress"]
          return .ignored ["deploy in progress"]
        else throw err

end Hook

/-- Roll back deploys stranded by a crash, holding the deploy slot. -/
def reconcileApi (ctx : Ctx) : Api (List DeployOutcome) :=
  Api.locked .slot
    ((reconcile ctx).mapError fun e => .internal (Message.context ["reconcile"] e))

end Kuadrat
