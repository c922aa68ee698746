import Kuadrat.Workloads.Apply

/-!
# The steps before and after applying

Detecting what to build, building it, checking the secrets, and waiting for the
workload to be healthy. The poll loop carries the time it has used; its fuel is
the number of rounds that fit in the budget.
-/
namespace Kuadrat

/-- What `build` needs to produce an image. -/
structure BuildPlan where
  containerfile : Path
  contextDir : Path
  commit : Text

def findContainerfile (contextDir : Path) : Run Path := do
  if ← Run.present (contextDir.join "Containerfile") then
    return contextDir.join "Containerfile"
  else if ← Run.present (contextDir.join "Dockerfile") then
    return contextDir.join "Dockerfile"
  else bail ["no Containerfile or Dockerfile in ",.text contextDir.display]

/-- Find the Containerfile of a repo and read its HEAD commit. -/
def detect (contextDir : Path) : Run BuildPlan := do
  let containerfile ← findContainerfile contextDir
  let out ← Run.exec (.gitRevParseHead contextDir.display)
  if out.success then
    if out.stdout.trim.isEmpty then
      bail ["git rev-parse HEAD returned no commit for ",.text contextDir.display]
    else return ⟨containerfile,contextDir,out.stdout.trim⟩
  else bail [.text contextDir.display," is not a git repository: ",.text out.stderr.trim]

/-- The image reference kuadrat builds for an app at a commit. -/
def imageReference (slug commit : Text) : Text := "localhost/kuadrat-" ++ slug ++ ":" ++ commit

def build (plan : BuildPlan) (slug : Text) : Run Text := do
  let image := imageReference slug plan.commit
  let out ← Run.exec (.podmanBuild image plan.containerfile.display plan.contextDir.display)
  if out.success then return image
  else bail ["podman build failed: ",.text out.stderr.trim]

/-- `str::lines`: a line ends in `\n` or `\r\n`, and an empty last piece is no line. -/
def Text.lines (t : Text) : List Text :=
  let pieces := t.splitOn '\n'
  pieces.dropLast.map (fun l => if l.getLast? = some '\r' then l.dropLast else l) ++
    pieces.getLast?.toList.filter fun l => !l.isEmpty

/-- Lines without a line break, each ended by one, are read back. -/
theorem Text.lines_flatMap_newline {ls : List Text} (h : ∀ l ∈ ls, '\n' ∉ l ∧ '\r' ∉ l) :
    Text.lines (ls.flatMap (· ++ ['\n'])) = ls := by
  have hsplit : (ls.flatMap (· ++ ['\n'])).splitOn '\n' = ls ++ [[]] := by
    induction ls with
    | nil => rfl
    | cons l ls ih =>
      obtain ⟨hl,hls⟩ := List.forall_mem_cons.mp h
      rw [List.flatMap_cons,List.append_assoc,List.singleton_append,
        List.splitOn_append_cons_self_of_not_mem hl.1,ih hls]
      rfl
  have hcr : ls.map (fun l => if l.getLast? = some '\r' then l.dropLast else l) = ls := by
    conv_rhs => rw [← List.map_id ls]
    refine List.map_congr_left fun l hl => if_neg fun hlast => ?_
    exact (h l hl).2 (List.mem_of_getLast? hlast)
  rw [Text.lines,hsplit]
  simp [hcr]

namespace Secrets

/-- Names of every podman secret. -/
def list : Run (List Text) := do
  let out ← Run.exec .podmanSecretLs
  if out.success then
    return (out.stdout.lines.map Text.trim).filter fun l => !l.isEmpty
  else bail ["podman secret ls failed: ",.text out.stderr.trim]

/-- Verify that every named secret exists. -/
def ensureAll (names : List Text) : Run Unit := do
  let have' ← list
  let missing := names.filter fun n => !have'.contains n
  if missing.isEmpty then return ()
  else bail ["missing secrets: ",.text (Text.join ", " missing)]

end Secrets

def healthBudget : Duration := .ofSecs 60
def healthInterval : Duration := .ofSecs 2
def healthcheckStageCap : Duration := .ofSecs 90

/-- A stage that took `took` under its cap, a `tokio::time::timeout` around all of it. -/
def capped {α : Type} (took : Duration) (result : Except Message α) : Except Message α :=
  if took ≤ healthcheckStageCap then result
  else bail ["healthcheck stage exceeded its ",
    .text (Text.decimal (healthcheckStageCap/Duration.ofSecs 1)),"s hard cap"]

/-- A command of the healthcheck stage; one that never resolves ends the stage at its cap. -/
def timedExec (c : Command) : Run (Except Message CommandOutput × Duration) := do
  match ← Run.timed c with
  | .finished result took => return (result,took)
  | .stalled => bail ["healthcheck stage exceeded its ",
      .text (Text.decimal (healthcheckStageCap/Duration.ofSecs 1)),"s hard cap"]

/-- One attempt under the per-attempt timeout: whether the container is healthy, and the time
the attempt used. An attempt that times out counts as failed. -/
def attempt (container : Text) : Run (Except Message Bool × Duration) := do
  let (result,took) ← timedExec (.podmanHealthcheckRun container)
  if took ≤ Duration.ofSecs healthAttemptTimeout then
    return (result.map CommandOutput.success,took)
  else return (.ok false,Duration.ofSecs healthAttemptTimeout)

/-- How a poll ended: its result, when each of its attempts started, and what the clock said
when it returned. All times are counted from the poll's `Instant::now`. -/
structure Poll where
  result : Except Message Unit
  starts : List Duration
  elapsed : Duration

/-- The poll with the attempt before it that started at `start`. -/
def Poll.after (start : Duration) (p : Poll) : Poll := { p with starts := start::p.starts }

def notHealthy (container : Text) (budget : Duration) : Except Message Unit :=
  bail [.text container," did not become healthy within ",
    .text (Text.decimal (budget/Duration.ofSecs 1)),"s"]

/-- The loop of `poll_health`, entered when the clock says `start`. An attempt moves the clock
by the time it used, and the sleep behind it by the interval. -/
def pollLoop (container : Text) (budget interval : Duration) : ℕ → Duration → Run Poll
  | 0, start => return ⟨notHealthy container budget,[],start⟩
  | fuel+1, start => do
    let (attempted,used) ← attempt container
    let now := start+used
    match attempted with
    | .error e => return ⟨.error e,[start],now⟩
    | .ok true => return ⟨.ok (),[start],now⟩
    | .ok false =>
      if budget ≤ now then return ⟨notHealthy container budget,[start],now⟩
      else
        let woken := now+interval
        if budget ≤ woken then return ⟨notHealthy container budget,[start],woken⟩
        else
          let rest ← pollLoop container budget interval fuel woken
          return rest.after start

/-- Poll the container's health until it succeeds or `budget` has elapsed. -/
def pollHealth (container : Text) (budget interval : Duration) : Run Poll :=
  pollLoop container budget interval (budget/interval+1) 0

/-- Wait for a freshly applied workload to be healthy, under the stage's cap. -/
def healthcheck (spec : WorkloadSpec) : Run Unit := do
  let container := unitPrefix ++ spec.slug
  if spec.healthCmd.isSome then
    let poll ← pollHealth container healthBudget healthInterval
    Run.ofExcept (capped poll.elapsed poll.result)
  else
    let (result,took) ← timedExec (.isActive container)
    let out ← Run.ofExcept (capped took result)
    if out.stdout.trim = "active" then return ()
    else bail [.text container," is not active after start (is-active: ",
      .text out.stdout.trim,")"]

end Kuadrat
