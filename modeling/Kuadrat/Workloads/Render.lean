import Kuadrat.Workloads.Paths

/-!
# Rendering unit files and route fragments

Every text kuadrat writes starts with the managed marker. The renderers of units
validate the spec first; what they then write is a pure function of the spec.
-/
namespace Kuadrat

/-- Marker identifying a file kuadrat generated and may overwrite. -/
def managedMarker : Text := "# kuadrat-managed: true"

/-- Seconds of one health attempt, shared by podman's own limit and the poll loop. -/
def healthAttemptTimeout : ℕ := 5

def containerName (spec : WorkloadSpec) : Text := unitPrefix ++ slug spec.name

/-- Escape a literal `%` so that systemd does not treat it as a specifier. -/
def escapePercent (s : Text) : Text := s.flatMap fun c => if c = '%' then ['%','%'] else [c]

def escapeQuoted (s : Text) : Text :=
  s.flatMap fun c => if c = '\\' then ['\\','\\'] else if c = '"' then ['\\','"'] else [c]

/-- Quote one systemd word: an `Exec=` argument or a whole `Environment=` assignment. -/
def quoteWord (arg : Text) : Text :=
  if arg.isEmpty || arg.any (fun c => isWhitespace c || c == '"' || c == '\'' || c == '\\') then
    ['"'] ++ escapeQuoted arg ++ ['"']
  else arg

def line (key : Text) (value : Text) : Text := key ++ ['='] ++ value ++ ['\n']

def environmentLines (env : List (Text × Text)) : Text :=
  env.flatMap fun (key,value) =>
    line "Environment" (quoteWord (escapePercent key ++ ['='] ++ escapePercent value))

def secretLines (secrets : List Text) : Text := secrets.flatMap (line "Secret")

def execLine (command : List Text) : Text :=
  line "Exec" (Text.join [' '] (command.map fun a => quoteWord (escapePercent a)))

def healthLines (health : Text) : Text :=
  line "HealthCmd" health ++ line "HealthTimeout" (Text.decimal healthAttemptTimeout ++ ['s'])

/-- A file's text under the marker line. -/
def managed (body : Text) : Text := managedMarker ++ ['\n'] ++ body

/-- The text of the main unit, without the validation that precedes it. -/
def unitText (spec : WorkloadSpec) : Text := managed <|
  "[Unit]\n" ++ line "Description" ("kuadrat workload " ++ spec.name) ++ ['\n'] ++
  "[Container]\n" ++ line "Image" spec.image ++ line "ContainerName" (containerName spec) ++
  spec.ports.flatMap (line "PublishPort") ++
  spec.volumes.flatMap (fun volume => line "Volume" (escapePercent volume)) ++
  environmentLines spec.env ++ secretLines spec.secrets ++
  spec.healthCmd.toList.flatMap healthLines ++
  spec.command.toList.flatMap execLine ++ ['\n'] ++
  "[Service]\n" ++ line "Restart" spec.restartPolicy.asSystemd ++
  spec.memoryMax.toList.flatMap (line "MemoryMax") ++ ['\n'] ++
  "[Install]\nWantedBy=multi-user.target\n"

/-- The text of one task's container: the app's image, environment and secrets, its own
command, and no `[Install]` section. -/
def taskText (spec : WorkloadSpec) (task : ScheduledTask) : Text := managed <|
  "[Unit]\n" ++
  line "Description" ("kuadrat task " ++ slug task.name ++ " for " ++ spec.name) ++ ['\n'] ++
  "[Container]\n" ++ line "Image" spec.image ++
  line "ContainerName" (taskUnitName spec.name task.name) ++
  environmentLines spec.env ++ secretLines spec.secrets ++ execLine task.command ++ ['\n'] ++
  "[Service]\nType=oneshot\n"

def timerText (spec : WorkloadSpec) (task : ScheduledTask) : Text := managed <|
  "[Unit]\n" ++
  line "Description" ("kuadrat timer " ++ slug task.name ++ " for " ++ spec.name) ++ ['\n'] ++
  "[Timer]\n" ++ line "OnCalendar" (escapePercent task.schedule) ++
  "Persistent=true\n\n" ++
  "[Install]\nWantedBy=timers.target\n"

/-- Render a spec to Quadlet unit text. -/
def render (spec : WorkloadSpec) : Except Message Text := do
  spec.validate
  return unitText spec

def renderTask (spec : WorkloadSpec) (task : ScheduledTask) : Except Message Text := do
  spec.validate
  return taskText spec task

def renderTimer (spec : WorkloadSpec) (task : ScheduledTask) : Except Message Text := do
  spec.validate
  return timerText spec task

/-- Render the Caddy fragment for a route. -/
def renderFragment (route : Route) : Text := managed <|
  route.domain ++ " \x7b\n\treverse_proxy localhost:" ++
    Text.decimal route.port.toNat ++ "\n\x7d\n"

/-- Path of the fragment kuadrat writes for an app. -/
def fragmentPath (paths : Paths) (slug : Text) : Path := paths.caddyDir.join (slug ++ ".caddy")

section Marked

/-- A file that kuadrat may overwrite or delete. -/
def Marked (t : Text) : Prop := managedMarker <+: t

instance (t : Text) : Decidable (Marked t) := inferInstanceAs (Decidable (_ <+: _))

theorem marked_managed (body : Text) : Marked (managed body) := by
  rw [Marked,managed,List.append_assoc]
  exact List.prefix_append _ _

theorem marked_unitText (spec : WorkloadSpec) : Marked (unitText spec) := marked_managed _

theorem marked_taskText (spec : WorkloadSpec) (task : ScheduledTask) :
    Marked (taskText spec task) := marked_managed _

theorem marked_timerText (spec : WorkloadSpec) (task : ScheduledTask) :
    Marked (timerText spec task) := marked_managed _

theorem marked_renderFragment (route : Route) : Marked (renderFragment route) := marked_managed _

end Marked

theorem render_eq_ok {spec : WorkloadSpec} {t : Text} :
    render spec = .ok t ↔ spec.validate = .ok () ∧ unitText spec = t := by
  unfold render
  cases spec.validate with
  | error e => simp [bind,Except.bind]
  | ok u => simp [bind,Except.bind,pure,Except.pure]

end Kuadrat
