import Kuadrat.Host.Effect
import Kuadrat.Workloads.Render

/-!
# Applying and removing workloads

Writing the unit and the task files, pruning the task files that the spec no
longer names, and telling systemd. The gateway's fragments follow the same rules
of ownership.
-/
namespace Kuadrat

/-- `false` when the file is absent, `true` when it starts with `marker`; a file that does not
carry the marker is an error, since kuadrat did not write it. -/
def ensureOwned (path : Path) (marker : Text) (action : String) : Run Bool := do
  if ← Run.present path then
    let existing ← Run.readToString path
    if marker.isPrefixOf existing then return true
    else bail ["refusing to ",.lit action," ",.text path.display,
      ": the file exists but does not start with `",.text marker,
      "`, so kuadrat did not write it; resolve the drift by hand"]
  else return false

def systemctl (c : Command) : Run Unit := do
  let out ← Run.exec c
  if out.success then return ()
  else bail ["systemctl ",.text (Text.join " " c.args)," failed: ",.text out.stderr.trim]

/-- One entry of a unit directory: delete it if its stem has the app's task prefix and is not
in `keep`, disabling a timer first. -/
def pruneEntry (specName : Text) (keep : List Text) (removed : Bool) (entry : Path) :
    Run Bool := do
  match entry.fileStem with
  | none => return removed
  | some stem =>
    if (taskStemPrefix specName).isPrefixOf stem && !keep.contains stem then
      if ← ensureOwned entry managedMarker "remove" then
        Run.when (entry.extension = some ("timer" : Text)) (systemctl (.disableNow (stem ++ ".timer")))
        Run.removeFile entry
        return true
      else return removed
    else return removed

def pruneDir (specName : Text) (keep : List Text) (removed : Bool) (dir : Path) : Run Bool := do
  if ← Run.present dir then
    let entries ← Run.readDir dir
    entries.foldlM (pruneEntry specName keep) removed
  else return removed

/-- Delete the app's task files whose unit stem is not in `keep`; returns whether anything
was removed. -/
def pruneTasks (paths : Paths) (specName : Text) (keep : List Text) : Run Bool :=
  [paths.quadletDir,paths.systemdDir].foldlM (pruneDir specName keep) false

/-- `systemctl enable` accepts a timer that never fires, so every schedule is checked first. -/
def preflight (task : ScheduledTask) : Run Unit := do
  let out ← Run.exec (.analyzeCalendar task.schedule)
  if out.success then return ()
  else bail ["task ",.debug task.name," has an invalid schedule: ",.text out.stderr.trim]

structure TaskFiles where
  container : Path
  containerText : Text
  timer : Path
  timerText : Text
  timerUnit : Text

def taskFiles (paths : Paths) (spec : WorkloadSpec) (task : ScheduledTask) :
    Except Message TaskFiles := do
  return {
    container := taskContainerPath paths spec.name task.name
    containerText := ← renderTask spec task
    timer := taskTimerPath paths spec.name task.name
    timerText := ← renderTimer spec task
    timerUnit := taskUnitName spec.name task.name ++ ".timer" }

def checkOwned (path : Path) (files : List TaskFiles) : Run Unit := do
  let _ ← ensureOwned path managedMarker "overwrite"
  forM files fun tf => do
    let _ ← ensureOwned tf.container managedMarker "overwrite"
    let _ ← ensureOwned tf.timer managedMarker "overwrite"

/-- The unit on disk before it is overwritten. -/
def readPrevious (path : Path) : Run (Option Text) := do
  if ← Run.present path then
    let text ← Run.readToString path
    return some text
  else return none

def writeUnits (paths : Paths) (path : Path) (unit : Text) (files : List TaskFiles) :
    Run Unit := do
  Run.createDirAll paths.quadletDir
  Run.when (!files.isEmpty) (Run.createDirAll paths.systemdDir)
  Run.write path unit
  forM files fun tf => do
    Run.write tf.container tf.containerText
    Run.write tf.timer tf.timerText

/-- A changed unit needs `restart`, or the old container keeps running behind the new unit
file; a new or byte-identical one only needs `start`. -/
def activate (name : Text) (previous : Option Text) (unit : Text) (files : List TaskFiles) :
    Run Unit := do
  systemctl .daemonReload
  let changed := previous.any (· != unit)
  systemctl (if changed then .restart (unitName name) else .start (unitName name))
  forM files fun tf => systemctl (.enableNow tf.timerUnit)

/-- Write the unit, reload systemd, and start the workload and its scheduled tasks. -/
def apply (paths : Paths) (spec : WorkloadSpec) : Run Unit := do
  let unit ← Run.ofExcept (render spec)
  forM spec.tasks preflight
  let files ← Run.ofExcept (spec.tasks.mapM (taskFiles paths spec))
  checkOwned (unitPath paths spec.name) files
  let previous ← readPrevious (unitPath paths spec.name)
  writeUnits paths (unitPath paths spec.name) unit files
  let _ ← pruneTasks paths spec.name (spec.tasks.map fun t => taskUnitName spec.name t.name)
  activate spec.name previous unit files

/-- Stop the workload, delete its unit and its tasks' units, and reload systemd. -/
def remove (paths : Paths) (name : Text) : Run Unit := do
  let pruned ← pruneTasks paths name []
  if ← ensureOwned (unitPath paths name) managedMarker "remove" then
    systemctl (.stop (unitName name))
    Run.removeFile (unitPath paths name)
    systemctl .daemonReload
  else Run.when pruned (systemctl .daemonReload)

def reloadCaddy : Run Unit := do
  let out ← Run.exec .reloadCaddy
  if out.success then return ()
  else bail ["systemctl reload caddy failed: ",.text out.stderr.trim]

/-- Write the fragment, refusing to clobber a foreign file, and reload Caddy. -/
def applyRoute (paths : Paths) (slug : Text) (route : Route) : Run Unit := do
  let _ ← ensureOwned (fragmentPath paths slug) managedMarker "overwrite"
  Run.createDirAll paths.caddyDir
  Run.write (fragmentPath paths slug) (renderFragment route)
  reloadCaddy

/-- Delete the fragment, if kuadrat owns it, and reload Caddy. -/
def removeRoute (paths : Paths) (slug : Text) : Run Unit := do
  if ← ensureOwned (fragmentPath paths slug) managedMarker "remove" then
    Run.removeFile (fragmentPath paths slug)
    reloadCaddy
  else return ()

end Kuadrat
