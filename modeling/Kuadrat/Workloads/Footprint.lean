import Kuadrat.Workloads.Apply

/-!
# The footprint of an app

Which files a spec owns, which files belong to an app by their path, and which
effects applying and removing can have, whatever the host answers.
-/
namespace Kuadrat

open Effect

section Paths
variable (paths : Paths)

/-- The unit and the task files of a spec, with their rendered contents. -/
def unitFiles (spec : WorkloadSpec) : List (Path × Text) :=
  (unitPath paths spec.name,unitText spec)::spec.tasks.flatMap fun task =>
    [(taskContainerPath paths spec.name task.name,taskText spec task),
      (taskTimerPath paths spec.name task.name,timerText spec task)]

def routeFiles (spec : WorkloadSpec) : List (Path × Text) :=
  spec.route.toList.map fun route => (fragmentPath paths spec.slug,renderFragment route)

/-- The files a spec owns. -/
def artifacts (spec : WorkloadSpec) : List (Path × Text) :=
  unitFiles paths spec ++ routeFiles paths spec

/-- The file stands in a unit directory and its stem has the app's task prefix. -/
def OwnTask (name : Text) (p : Path) : Prop :=
  (Path.Inside paths.quadletDir p ∨ Path.Inside paths.systemdDir p) ∧
    ∃ stem, p.fileStem = some stem ∧ taskStemPrefix name <+: stem

/-- The stem of an entry makes it a task file that `keep` does not name. -/
def StaleStem (name : Text) (keep : List Text) (p : Path) : Prop :=
  ∃ stem, p.fileStem = some stem ∧ taskStemPrefix name <+: stem ∧ stem ∉ keep

/-- A task file that `keep` does not name. -/
def StaleTask (name : Text) (keep : List Text) (p : Path) : Prop :=
  (Path.Inside paths.quadletDir p ∨ Path.Inside paths.systemdDir p) ∧ StaleStem name keep p

/-- The paths that belong to an app: its unit, its task files and its fragment. -/
def Owns (name : Text) (p : Path) : Prop :=
  p = unitPath paths name ∨ OwnTask paths name p ∨ p = fragmentPath paths (slug name)

/-- The name starts, behind `kuadrat-`, like the tasks of the app. -/
def LooksLikeTask (name s : Text) : Prop := (slug name ++ "-task-" : Text) <+: s

instance (name s : Text) : Decidable (LooksLikeTask name s) := inferInstanceAs (Decidable (_ <+: _))

/-- The unit names of a spec's tasks, which pruning keeps. -/
def keepOf (spec : WorkloadSpec) : List Text :=
  spec.tasks.map fun task => taskUnitName spec.name task.name

end Paths

section Names
variable {paths : Paths}

theorem unitName_ne_nil (name : Text) : unitName name ≠ [] := by
  have h : unitPrefix ≠ [] := by decide
  simp [unitName,h]

theorem taskStemPrefix_eq (name : Text) :
    taskStemPrefix name = unitName name ++ "-task-" := rfl

theorem taskUnitName_ne_nil (name task : Text) : taskUnitName name task ≠ [] := by
  have h : unitPrefix ≠ [] := by decide
  simp [taskUnitName,h]

theorem container_ext : (".container" : Text) = '.'::"container" := rfl
theorem timer_ext : (".timer" : Text) = '.'::"timer" := rfl

theorem fileStem_container (dir : Path) {stem : Text} (h : stem ≠ []) :
    (dir.join (stem ++ ".container")).fileStem = some stem := by
  rw [container_ext]
  exact Path.fileStem_dotted dir h (by decide) (by decide)

theorem fileStem_timer (dir : Path) {stem : Text} (h : stem ≠ []) :
    (dir.join (stem ++ ".timer")).fileStem = some stem := by
  rw [timer_ext]
  exact Path.fileStem_dotted dir h (by decide) (by decide)

theorem extension_container (dir : Path) {stem : Text} (h : stem ≠ []) :
    (dir.join (stem ++ ".container")).extension = some ("container" : Text) := by
  rw [container_ext]
  exact Path.extension_dotted dir h (by decide) (by decide)

theorem ownTask_container (name task : Text) :
    OwnTask paths name (taskContainerPath paths name task) :=
  ⟨.inl (by simp [taskContainerPath]),_,fileStem_container _ (taskUnitName_ne_nil name task),
    List.prefix_append _ _⟩

theorem ownTask_timer (name task : Text) : OwnTask paths name (taskTimerPath paths name task) :=
  ⟨.inr (by simp [taskTimerPath]),_,fileStem_timer _ (taskUnitName_ne_nil name task),
    List.prefix_append _ _⟩

theorem taskStemPrefix_prefix {name stem : Text} :
    taskStemPrefix name <+: unitPrefix ++ stem ↔ LooksLikeTask name stem := by
  rw [taskStemPrefix,List.append_assoc,List.prefix_append_right_inj]
  rfl

theorem unitPath_inj {name name' : Text} :
    unitPath paths name = unitPath paths name' ↔ slug name = slug name' := by
  rw [unitPath,unitPath,Path.join_inj,List.append_left_inj,unitName,unitName,List.append_right_inj]
  exact and_iff_right rfl

theorem ownTask_join_container {name stem : Text} (hs : stem ≠ []) :
    OwnTask paths name (paths.quadletDir.join (stem ++ ".container")) ↔
      taskStemPrefix name <+: stem := by
  unfold OwnTask
  rw [fileStem_container _ hs]
  simp

theorem ownTask_unitPath {name name' : Text} : OwnTask paths name (unitPath paths name') ↔
    LooksLikeTask name (slug name') :=
  (ownTask_join_container (unitName_ne_nil _)).trans taskStemPrefix_prefix

/-- The unit itself does not have the task prefix: its name is too short. -/
theorem not_ownTask_unitPath (name : Text) : ¬OwnTask paths name (unitPath paths name) := by
  rintro ⟨-,stem,hstem,hp⟩
  rw [unitPath,fileStem_container _ (unitName_ne_nil name),Option.some.injEq] at hstem
  subst hstem
  have hlen := hp.length_le
  rw [taskStemPrefix_eq,List.length_append] at hlen
  have : ("-task-" : Text).length = 6 := rfl
  omega

theorem unitPath_ne_fragment (name slug : Text) : unitPath paths name ≠ fragmentPath paths slug :=
  fun h => paths.quadlet_ne_caddy (Path.join_inj.mp h).1

theorem not_ownTask_fragment (name slug : Text) : ¬OwnTask paths name (fragmentPath paths slug) := by
  rintro ⟨h | h,-⟩
  · rw [fragmentPath,Path.inside_join] at h
    exact paths.quadlet_ne_caddy h.symm
  · rw [fragmentPath,Path.inside_join] at h
    exact paths.systemd_ne_caddy h.symm

theorem owns_of_mem_unitFiles {spec : WorkloadSpec} {p : Path} {t : Text}
    (h : (p,t) ∈ unitFiles paths spec) :
    p = unitPath paths spec.name ∨ OwnTask paths spec.name p := by
  simp only [unitFiles,List.mem_cons,List.mem_flatMap,Prod.mk.injEq,List.not_mem_nil,or_false] at h
  rcases h with ⟨rfl,-⟩ | ⟨task,-,⟨rfl,-⟩ | ⟨rfl,-⟩⟩
  · exact .inl rfl
  · exact .inr (ownTask_container _ _)
  · exact .inr (ownTask_timer _ _)

/-- An app's files stand in kuadrat's three directories. -/
theorem inside_of_owns {name : Text} {p : Path} (h : Owns paths name p) :
    Path.Inside paths.quadletDir p ∨ Path.Inside paths.systemdDir p ∨
      Path.Inside paths.caddyDir p := by
  rcases h with rfl | ⟨h | h,-⟩ | rfl
  · exact .inl (by simp [unitPath])
  · exact .inl h
  · exact .inr (.inl h)
  · exact .inr (.inr (by simp [fragmentPath]))

theorem StaleTask.own {name : Text} {keep : List Text} {p : Path}
    (h : StaleTask paths name keep p) : OwnTask paths name p := by
  obtain ⟨hd,stem,hs,hp,-⟩ := h
  exact ⟨hd,stem,hs,hp⟩

end Names

section Prune
variable {name : Text} {keep : List Text} {entry : Path}

theorem pruneEntry_of_not_stale (removed : Bool) (h : ¬StaleStem name keep entry) :
    pruneEntry name keep removed entry = pure removed := by
  unfold pruneEntry
  split
  · rfl
  · rename_i stem hstem
    rw [if_neg]
    intro hmatch
    rw [Bool.and_eq_true,List.isPrefixOf_iff_prefix] at hmatch
    exact h ⟨stem,hstem,hmatch.1,by simpa using hmatch.2⟩

/-- A stale entry that is kuadrat's is deleted, a timer after it has been disabled. -/
theorem pruneEntry_of_stale (removed : Bool) (h : StaleStem name keep entry) :
    ∃ stem, entry.fileStem = some stem ∧ pruneEntry name keep removed entry = do
      if ← ensureOwned entry managedMarker "remove" then
        Run.when (entry.extension = some ("timer" : Text)) (systemctl (.disableNow (stem ++ ".timer")))
        Run.removeFile entry
        return true
      else return removed := by
  obtain ⟨stem,hstem,hpre,hkeep⟩ := h
  have hmatch : ((taskStemPrefix name).isPrefixOf stem && !keep.contains stem) = true := by
    simpa [List.isPrefixOf_iff_prefix] using ⟨hpre,hkeep⟩
  refine ⟨stem,hstem,?_⟩
  unfold pruneEntry
  rw [hstem]
  exact if_pos hmatch

end Prune

section Effects
variable {paths : Paths} {A : Eff → Prop}

/-- The effects of asking whether a file is kuadrat's. -/
structure Inspects (A : Eff → Prop) : Prop where
  present : ∀ p, A (.present p)
  read : ∀ p, A (.readToString p)

theorem all_ofExcept {α : Type} (r : Except Message α) : All A (Run.ofExcept r).run := by
  cases r <;> trivial

theorem all_ensureOwned (hA : Inspects A) (p : Path) (marker : Text) (action : String) :
    All A (ensureOwned p marker action).run := by
  refine all_run_bind (all_perform (hA.present p)) fun b => ?_
  cases b with
  | false => trivial
  | true =>
    refine all_run_bind (all_perform (hA.read p)) fun t => ?_
    split <;> trivial

theorem all_systemctl {c : Command} (h : A (.run c)) : All A (systemctl c).run := by
  refine all_run_bind (all_perform h) fun out => ?_
  split <;> trivial

theorem all_reloadCaddy (h : A (.run .reloadCaddy)) : All A reloadCaddy.run := by
  refine all_run_bind (all_perform h) fun out => ?_
  split <;> trivial

/-- The effects of pruning: it lists the unit directories, disables timers, and deletes stale
task files. -/
structure Prunes (A : Eff → Prop) (paths : Paths) (name : Text) (keep : List Text) : Prop
    extends Inspects A where
  list : ∀ p, A (.readDir p)
  disable : ∀ u, A (.run (.disableNow u))
  removes : ∀ p, StaleTask paths name keep p → A (.removeFile p)

variable {name : Text} {keep : List Text}

theorem all_when {c : Bool} {p : Run Unit} (h : All A p.run) : All A (Run.when c p).run := by
  unfold Run.when
  split
  · exact h
  · trivial

theorem all_pruneEntry (hA : Prunes A paths name keep) (removed : Bool) {entry : Path}
    (hin : Path.Inside paths.quadletDir entry ∨ Path.Inside paths.systemdDir entry) :
    All A (pruneEntry name keep removed entry).run := by
  by_cases hs : StaleStem name keep entry
  · obtain ⟨stem,-,heq⟩ := pruneEntry_of_stale removed hs
    rw [heq]
    refine all_run_bind (all_ensureOwned hA.toInspects _ _ _) fun owned => ?_
    split
    · refine all_run_bind (all_when (all_systemctl (hA.disable _))) fun _ => ?_
      exact all_run_bind (all_perform (hA.removes entry ⟨hin,hs⟩)) fun _ => trivial
    · trivial
  · rw [pruneEntry_of_not_stale removed hs]
    trivial

theorem all_readDir {dir : Path} (h : A (.readDir dir)) : All A (Run.readDir dir).run :=
  all_run_bind (all_perform h) fun _ => trivial

theorem all_pruneDir (hA : Prunes A paths name keep) (removed : Bool) {dir : Path}
    (hdir : dir = paths.quadletDir ∨ dir = paths.systemdDir) :
    All A (pruneDir name keep removed dir).run := by
  refine all_run_bind (all_perform (hA.present dir)) fun b => ?_
  split
  · unfold Run.readDir
    rw [bind_assoc]
    refine all_run_bind (all_perform (hA.list dir)) fun names => ?_
    rw [pure_bind]
    refine all_foldlM fun removed entry hentry => all_pruneEntry hA removed ?_
    obtain ⟨n,-,rfl⟩ := List.mem_map.mp hentry
    rcases hdir with rfl | rfl
    · exact .inl (by simp)
    · exact .inr (by simp)
  · trivial

theorem all_pruneTasks (hA : Prunes A paths name keep) :
    All A (pruneTasks paths name keep).run := by
  refine all_foldlM fun removed dir hdir => all_pruneDir hA removed ?_
  simpa using hdir

/-- The effects of applying a spec, whatever the host answers. -/
structure Applies (A : Eff → Prop) (paths : Paths) (spec : WorkloadSpec) : Prop
    extends Prunes A paths spec.name (keepOf spec) where
  preflight : ∀ schedule, A (.run (.analyzeCalendar schedule))
  create : ∀ p, A (.createDirAll p)
  writes : spec.validate = .ok () → ∀ p t, (p,t) ∈ unitFiles paths spec → A (.write p t)
  reload : A (.run .daemonReload)
  start : A (.run (.start (unitName spec.name)))
  restart : A (.run (.restart (unitName spec.name)))
  enable : ∀ u, A (.run (.enableNow u))

/-- The effects of removing a workload. -/
structure Removes (A : Eff → Prop) (paths : Paths) (name : Text) : Prop
    extends Prunes A paths name [] where
  removeUnit : A (.removeFile (unitPath paths name))
  stop : A (.run (.stop (unitName name)))
  reload : A (.run .daemonReload)

end Effects

section TaskFiles
variable {paths : Paths} {spec : WorkloadSpec}

/-- The rendered files of one task of a valid spec. -/
def TaskFiles.of (paths : Paths) (spec : WorkloadSpec) (task : ScheduledTask) : TaskFiles where
  container := taskContainerPath paths spec.name task.name
  containerText := taskText spec task
  timer := taskTimerPath paths spec.name task.name
  timerText := Kuadrat.timerText spec task
  timerUnit := taskUnitName spec.name task.name ++ ".timer"

theorem taskFiles_of_valid (h : spec.validate = .ok ()) (task : ScheduledTask) :
    taskFiles paths spec task = .ok (TaskFiles.of paths spec task) := by
  unfold taskFiles renderTask renderTimer
  rw [h]
  rfl

theorem mapM_taskFiles_of_valid (h : spec.validate = .ok ()) (tasks : List ScheduledTask) :
    tasks.mapM (taskFiles paths spec) = .ok (tasks.map (TaskFiles.of paths spec)) := by
  induction tasks with
  | nil => rfl
  | cons task rest ih =>
    rw [List.mapM_cons,taskFiles_of_valid h,ih]
    rfl

/-- What applying does with a valid spec: everything is rendered before the first effect. -/
theorem apply_of_valid (h : spec.validate = .ok ()) : apply paths spec = (do
    forM spec.tasks preflight
    checkOwned (unitPath paths spec.name) (spec.tasks.map (TaskFiles.of paths spec))
    let previous ← readPrevious (unitPath paths spec.name)
    writeUnits paths (unitPath paths spec.name) (unitText spec)
      (spec.tasks.map (TaskFiles.of paths spec))
    let _ ← pruneTasks paths spec.name (spec.tasks.map fun t => taskUnitName spec.name t.name)
    activate spec.name previous (unitText spec) (spec.tasks.map (TaskFiles.of paths spec))) := by
  unfold apply
  rw [render_eq_ok.mpr ⟨h,rfl⟩,mapM_taskFiles_of_valid h]
  simp only [Run.ofExcept_ok,pure_bind]

theorem apply_of_not_valid (h : spec.validate ≠ .ok ()) :
    ∃ e, apply paths spec = Run.ofExcept (.error e) := by
  cases hr : render spec with
  | error e =>
    refine ⟨e,?_⟩
    unfold apply
    rw [hr]
    rfl
  | ok t => exact absurd (render_eq_ok.mp hr).1 h

end TaskFiles

section Effects
variable {paths : Paths} {A : Eff → Prop} {spec : WorkloadSpec} {name : Text}

theorem all_preflight (h : ∀ schedule, A (.run (.analyzeCalendar schedule)))
    (task : ScheduledTask) : All A (preflight task).run := by
  refine all_run_bind (all_perform (h _)) fun out => ?_
  split <;> trivial

theorem all_checkOwned (hA : Inspects A) (p : Path) (files : List TaskFiles) :
    All A (checkOwned p files).run := by
  refine all_run_bind (all_ensureOwned hA _ _ _) fun _ => all_forM fun tf _ => ?_
  exact all_run_bind (all_ensureOwned hA _ _ _) fun _ =>
    all_run_bind (all_ensureOwned hA _ _ _) fun _ => trivial

theorem all_readPrevious (hA : Inspects A) (p : Path) : All A (readPrevious p).run := by
  refine all_run_bind (all_perform (hA.present p)) fun b => ?_
  split
  · exact all_run_bind (all_perform (hA.read p)) fun t => trivial
  · trivial

theorem all_writeUnits (hA : Applies A paths spec) (hv : spec.validate = .ok ()) :
    All A (writeUnits paths (unitPath paths spec.name) (unitText spec)
      (spec.tasks.map (TaskFiles.of paths spec))).run := by
  refine all_run_bind (all_perform (hA.create _)) fun _ => ?_
  refine all_run_bind (all_when (all_perform (hA.create _))) fun _ => ?_
  refine all_run_bind (all_perform (hA.writes hv _ _ (by simp [unitFiles]))) fun _ => ?_
  refine all_forM fun tf htf => ?_
  obtain ⟨task,htask,rfl⟩ := List.mem_map.mp htf
  refine all_run_bind (all_perform (hA.writes hv _ _ ?_)) fun _ => all_perform (hA.writes hv _ _ ?_)
  all_goals
    refine List.mem_cons_of_mem _ (List.mem_flatMap.mpr ⟨task,htask,?_⟩)
    simp [TaskFiles.of]

theorem all_activate (hA : Applies A paths spec) (previous : Option Text) (unit : Text)
    (files : List TaskFiles) : All A (activate spec.name previous unit files).run := by
  refine all_run_bind (all_systemctl hA.reload) fun _ => ?_
  refine all_run_bind ?_ fun _ => all_forM fun tf _ => all_systemctl (hA.enable _)
  refine all_systemctl ?_
  split
  · exact hA.restart
  · exact hA.start

theorem all_apply (hA : Applies A paths spec) : All A (apply paths spec).run := by
  by_cases hv : spec.validate = .ok ()
  · rw [apply_of_valid hv]
    refine all_run_bind (all_forM fun task _ => all_preflight hA.preflight task) fun _ => ?_
    refine all_run_bind (all_checkOwned hA.toInspects _ _) fun _ => ?_
    refine all_run_bind (all_readPrevious hA.toInspects _) fun previous => ?_
    refine all_run_bind (all_writeUnits hA hv) fun _ => ?_
    refine all_run_bind (all_pruneTasks hA.toPrunes) fun _ => ?_
    exact all_activate hA _ _ _
  · obtain ⟨e,heq⟩ := apply_of_not_valid hv
    rw [heq]
    exact trivial

theorem all_remove (hA : Removes A paths name) : All A (remove paths name).run := by
  refine all_run_bind (all_pruneTasks hA.toPrunes) fun pruned => ?_
  refine all_run_bind (all_ensureOwned hA.toInspects _ _ _) fun owned => ?_
  split
  · refine all_run_bind (all_systemctl hA.stop) fun _ => ?_
    exact all_run_bind (all_perform hA.removeUnit) fun _ => all_systemctl hA.reload
  · exact all_when (all_systemctl hA.reload)

theorem all_applyRoute {slug : Text} {route : Route} (hA : Inspects A)
    (hcreate : ∀ p, A (.createDirAll p))
    (hwrite : A (.write (fragmentPath paths slug) (renderFragment route)))
    (hreload : A (.run .reloadCaddy)) : All A (applyRoute paths slug route).run := by
  refine all_run_bind (all_ensureOwned hA _ _ _) fun _ => ?_
  refine all_run_bind (all_perform (hcreate _)) fun _ => ?_
  exact all_run_bind (all_perform hwrite) fun _ => all_reloadCaddy hreload

theorem all_removeRoute {slug : Text} (hA : Inspects A)
    (hremove : A (.removeFile (fragmentPath paths slug))) (hreload : A (.run .reloadCaddy)) :
    All A (removeRoute paths slug).run := by
  refine all_run_bind (all_ensureOwned hA _ _ _) fun owned => ?_
  split
  · exact all_run_bind (all_perform hremove) fun _ => all_reloadCaddy hreload
  · trivial

end Effects

section Within
variable {paths : Paths} {spec : WorkloadSpec} {name slug : Text} {route : Route}

/-- The operation looks around, runs a command, writes within `writes` or deletes within
`deletes`; the store and the daemon's guards are out of its reach. -/
def Eff.Within (writes : Path → Text → Prop) (deletes : Path → Prop) : Eff → Prop
  | .present _ | .readToString _ | .readDir _ | .createDirAll _ | .run _ => True
  | .write p t => writes p t
  | .removeFile p => deletes p
  | _ => False

theorem apply_within : All (Eff.Within
    (fun p t => spec.validate = .ok () ∧ (p,t) ∈ unitFiles paths spec)
    (StaleTask paths spec.name (keepOf spec))) (apply paths spec).run :=
  all_apply {
    present := fun _ => trivial
    read := fun _ => trivial
    list := fun _ => trivial
    disable := fun _ => trivial
    removes := fun _ h => h
    preflight := fun _ => trivial
    create := fun _ => trivial
    writes := fun hv _ _ h => ⟨hv,h⟩
    reload := trivial
    start := trivial
    restart := trivial
    enable := fun _ => trivial }

theorem remove_within : All (Eff.Within (fun _ _ => False)
    fun p => p = unitPath paths name ∨ OwnTask paths name p) (remove paths name).run :=
  all_remove {
    present := fun _ => trivial
    read := fun _ => trivial
    list := fun _ => trivial
    disable := fun _ => trivial
    removes := fun _ h => .inr h.own
    removeUnit := .inl rfl
    stop := trivial
    reload := trivial }

theorem applyRoute_within : All (Eff.Within
    (fun p t => p = fragmentPath paths slug ∧ t = renderFragment route) fun _ => False)
    (applyRoute paths slug route).run :=
  all_applyRoute ⟨fun _ => trivial,fun _ => trivial⟩ (fun _ => trivial) ⟨rfl,rfl⟩ trivial

theorem removeRoute_within : All (Eff.Within (fun _ _ => False)
    fun p => p = fragmentPath paths slug) (removeRoute paths slug).run :=
  all_removeRoute ⟨fun _ => trivial,fun _ => trivial⟩ rfl trivial

end Within
end Kuadrat
