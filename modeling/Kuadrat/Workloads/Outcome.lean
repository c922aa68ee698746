import Kuadrat.Host.World
import Kuadrat.Workloads.Footprint

/-!
# What a successful call has done

The files left behind by each call of the workload engine and of the gateway, when
it returns without an error. Where a call fails half-way nothing is promised here.
-/
namespace Kuadrat

open Effect

variable {paths : Paths} {ok : Eff → Answer → Prop} {w : World}

/-- The specification used for results: the host may answer in every way that `ok` allows. -/
abbrev host (paths : Paths) (ok : Eff → Answer → Prop) : Spec Eff Eff.Resp World :=
  hostSpec paths ok fun _ => True

/-- A complete run that succeeds ends in what `wpOk` promises. -/
theorem wpOk_finish {α : Type} {p : Run α} {Q : α → World → Prop} {w w' : World} {a : α}
    {answers : List Answer} (h : wpOk (host paths fun _ _ => True) p Q w)
    (hrun : (World.machine paths).finish answers p.run w = some (.ok a,w')) : Q a w' :=
  Machine.wp_complete _ h (Machine.allowed_of_forall _ (fun _ _ _ => trivial) _ _)
    ((Machine.finish_eq_some _).mp hrun) a rfl

theorem ensureOwned_ok (p : Path) (marker : Text) (action : String) :
    wpOk (host paths ok) (ensureOwned p marker action) (fun owned w' => w'.fs = w.fs ∧
      (owned = true → ∃ t, w.fs.contents p = some t ∧ marker <+: t) ∧
      (owned = false → w.fs.contents p = none)) w := by
  refine wpOk_bind (wp_present trivial (fun _ b hb => ?_) fun _ _ b hb => by cases hb)
  cases hb
  cases hp : w.fs.present p with
  | false =>
    have hnone : w.fs.contents p = none := by
      simp only [FileTree.present,Bool.or_eq_false_iff] at hp
      simpa using hp.1
    simpa using hnone
  | true =>
    refine wpOk_bind (wp_readToString trivial (fun t _ ht a ha => ?_) fun _ _ b hb => by cases hb)
    cases ha
    split
    · rename_i hm
      rw [List.isPrefixOf_iff_prefix] at hm
      simpa using ⟨t,ht,hm⟩
    · exact wpOk_throw _ _ _

theorem systemctl_ok (c : Command) :
    wpOk (host paths ok) (systemctl c) (fun _ w' => w'.fs = w.fs) w := by
  refine wpOk_bind (wp_exec trivial (fun out _ a ha => ?_) fun _ _ b hb => by cases hb)
  cases ha
  split
  · exact (wpOk_pure _ _ _).mpr rfl
  · exact wpOk_throw _ _ _

theorem reloadCaddy_ok : wpOk (host paths ok) reloadCaddy (fun _ w' => w'.fs = w.fs) w := by
  refine wpOk_bind (wp_exec trivial (fun out _ a ha => ?_) fun _ _ b hb => by cases hb)
  cases ha
  split
  · exact (wpOk_pure _ _ _).mpr rfl
  · exact wpOk_throw _ _ _

theorem when_ok {c : Bool} {p : Run Unit} {Q : Unit → World → Prop}
    (h : c = true → wpOk (host paths ok) p Q w) (h' : c = false → Q () w) :
    wpOk (host paths ok) (Run.when c p) Q w := by
  unfold Run.when
  cases c with
  | true => exact h rfl
  | false => exact (wpOk_pure _ _ _).mpr (h' rfl)

theorem removeFile_ok (p : Path) : wpOk (host paths ok) (Run.removeFile p)
    (fun _ w' => w'.fs.contents = Function.update w.fs.contents p none) w :=
  wp_removeFile trivial (fun _ _ h _ _ => FileTree.contents_of_removeFile h)
    fun _ _ b hb => by cases hb

theorem write_ok (p : Path) (t : Text) : wpOk (host paths ok) (Run.write p t)
    (fun _ w' => w'.fs.contents = Function.update w.fs.contents p (some t)) w :=
  wp_write trivial (fun _ _ h _ _ => FileTree.contents_of_write h) fun _ _ b hb => by cases hb

theorem createDirAll_ok (p : Path) : wpOk (host paths ok) (Run.createDirAll p)
    (fun _ w' => w'.fs.contents = w.fs.contents) w :=
  wp_createDirAll trivial (fun _ _ h _ _ => FileTree.contents_of_createDirAll h)
    fun _ _ b hb => by cases hb

section Prune
variable {name : Text} {keep : List Text}

/-- One entry: a stale file is gone afterwards, and nothing else has changed. -/
theorem pruneEntry_ok (removed : Bool) (entry : Path) :
    wpOk (host paths ok) (pruneEntry name keep removed entry) (fun _ w' =>
      (StaleStem name keep entry → w'.fs.contents entry = none) ∧
      (¬StaleStem name keep entry → w'.fs.contents entry = w.fs.contents entry) ∧
      ∀ p, p ≠ entry → w'.fs.contents p = w.fs.contents p) w := by
  by_cases hs : StaleStem name keep entry
  · obtain ⟨stem,-,heq⟩ := pruneEntry_of_stale removed hs
    rw [heq]
    refine wpOk_seq (ensureOwned_ok _ _ _) fun owned w₁ h₁ => ?_
    split
    · have hsame : wpOk (host paths ok) (Run.when (entry.extension = some ("timer" : Text))
          (systemctl (.disableNow (stem ++ ".timer")))) (fun _ w' => w'.fs = w₁.fs) w₁ :=
        when_ok (fun _ => systemctl_ok _) fun _ => rfl
      refine wpOk_seq hsame fun _ w₂ h₂ => ?_
      refine wpOk_seq (removeFile_ok _) fun _ w₃ h₃ => ?_
      rw [wpOk_pure,h₃,h₂,h₁.1]
      refine ⟨fun _ => by simp,fun h => absurd hs h,fun p hp => ?_⟩
      rw [Function.update_of_ne hp]
    · rename_i howned
      rw [wpOk_pure,h₁.1]
      exact ⟨fun _ => h₁.2.2 (by simpa using howned),fun _ => rfl,fun _ _ => rfl⟩
  · rw [pruneEntry_of_not_stale removed hs,wpOk_pure]
    exact ⟨fun h => absurd h hs,fun _ => rfl,fun _ _ => rfl⟩

/-- One directory: its stale files are gone afterwards, and nothing else has changed. -/
theorem pruneDir_ok (removed : Bool) (dir : Path) :
    wpOk (host paths ok) (pruneDir name keep removed dir) (fun _ w' => ∀ p,
      (Path.Inside dir p ∧ StaleStem name keep p → w'.fs.contents p = none) ∧
      (¬(Path.Inside dir p ∧ StaleStem name keep p) →
        w'.fs.contents p = w.fs.contents p)) w := by
  refine wpOk_bind (wp_present trivial (fun _ b hb => ?_) fun _ _ b hb => by cases hb)
  cases hb
  split
  · refine wpOk_bind (wp_readDir trivial (fun names _ _ hl b hb => ?_) fun _ _ b hb => by cases hb)
    cases hb
    -- Entries still to come keep their contents; a stale file not among them is gone.
    refine wpOk_foldlM (fun rest _ w' => ∀ p,
      (Path.Inside dir p ∧ StaleStem name keep p → p ∉ rest → w'.fs.contents p = none) ∧
      (¬(Path.Inside dir p ∧ StaleStem name keep p) → w'.fs.contents p = w.fs.contents p) ∧
      (p ∈ rest → Path.Inside dir p)) ?_ ?_ ?_
    · intro p
      refine ⟨fun hp hmem => ?_,fun _ => rfl,fun hmem => ?_⟩
      · by_contra hne
        exact hmem (hl.mem_iff.mpr (FileTree.mem_entries_of_contents hp.1
          (Option.isSome_iff_ne_none.mpr hne)))
      · exact FileTree.inside_of_mem_entries (hl.mem_iff.mp hmem)
    · intro entry rest b w' hI
      refine wpOk_mono (pruneEntry_ok b entry) fun b' w'' h p => ?_
      have hin : Path.Inside dir entry := (hI entry).2.2 List.mem_cons_self
      refine ⟨fun hp hmem => ?_,fun hp => ?_,fun hmem => (hI p).2.2 (List.mem_cons_of_mem _ hmem)⟩
      · by_cases hpe : p = entry
        · rw [hpe] at hp ⊢
          exact h.1 hp.2
        · rw [h.2.2 p hpe]
          exact (hI p).1 hp (by simp [hpe,hmem])
      · by_cases hpe : p = entry
        · rw [hpe] at hp ⊢
          rw [h.2.1 fun hs => hp ⟨hin,hs⟩,← (hI entry).2.1 hp]
        · rw [h.2.2 p hpe,(hI p).2.1 hp]
    · intro b w' hI p
      exact ⟨fun hp => (hI p).1 hp (by simp),(hI p).2.1⟩
  · rename_i habsent
    rw [wpOk_pure]
    refine fun p => ⟨fun hp => ?_,fun _ => rfl⟩
    exact FileTree.contents_eq_none_of_absent hp.1 (by simpa using habsent)

/-- Pruning deletes exactly the stale task files. -/
theorem pruneTasks_ok : wpOk (host paths ok) (pruneTasks paths name keep) (fun _ w' => ∀ p,
    (StaleTask paths name keep p → w'.fs.contents p = none) ∧
    (¬StaleTask paths name keep p → w'.fs.contents p = w.fs.contents p)) w := by
  unfold pruneTasks
  rw [List.foldlM_cons]
  refine wpOk_seq (pruneDir_ok _ _) fun _ w₁ h₁ => ?_
  rw [List.foldlM_cons]
  refine wpOk_seq (pruneDir_ok _ _) fun _ w₂ h₂ => ?_
  rw [List.foldlM_nil,wpOk_pure]
  intro p
  constructor
  · rintro ⟨hin,hstale⟩
    by_cases hs : Path.Inside paths.systemdDir p
    · exact (h₂ p).1 ⟨hs,hstale⟩
    · rw [(h₂ p).2 fun h => hs h.1]
      exact (h₁ p).1 ⟨hin.resolve_right hs,hstale⟩
  · intro hp
    rw [(h₂ p).2 fun h => hp ⟨.inr h.1,h.2⟩,(h₁ p).2 fun h => hp ⟨.inl h.1,h.2⟩]

end Prune

section Install
variable {spec : WorkloadSpec}

theorem mem_unitFiles {p : Path} {t : Text} : (p,t) ∈ unitFiles paths spec ↔
    (p = unitPath paths spec.name ∧ t = unitText spec) ∨ ∃ task ∈ spec.tasks,
      (p = taskContainerPath paths spec.name task.name ∧ t = taskText spec task) ∨
      (p = taskTimerPath paths spec.name task.name ∧ t = timerText spec task) := by
  simp [unitFiles]

theorem taskContainerPath_inj {name task task' : Text} :
    taskContainerPath paths name task = taskContainerPath paths name task' ↔
      slug task = slug task' := by
  simp [taskContainerPath,Path.join_inj,taskUnitName]

theorem taskTimerPath_inj {name task task' : Text} :
    taskTimerPath paths name task = taskTimerPath paths name task' ↔ slug task = slug task' := by
  simp [taskTimerPath,Path.join_inj,taskUnitName]

theorem container_ne_timer (name task task' : Text) :
    taskContainerPath paths name task ≠ taskTimerPath paths name task' :=
  fun h => paths.quadlet_ne_systemd (Path.join_inj.mp h).1

theorem unitPath_ne_container (name task : Text) :
    unitPath paths name ≠ taskContainerPath paths name task :=
  fun h => not_ownTask_unitPath name (h ▸ ownTask_container name task)

theorem unitPath_ne_timer (name task : Text) :
    unitPath paths name ≠ taskTimerPath paths name task :=
  fun h => not_ownTask_unitPath name (h ▸ ownTask_timer name task)

theorem eq_of_slug_eq (hv : spec.validate = .ok ()) {task task' : ScheduledTask}
    (h : task ∈ spec.tasks) (h' : task' ∈ spec.tasks) (hs : slug task.name = slug task'.name) :
    task = task' :=
  List.inj_on_of_nodup_map (WorkloadSpec.slugs_of_validate hv).2.2 h h' hs

/-- A valid spec gives each of its files one content. -/
theorem unitFiles_functional (hv : spec.validate = .ok ()) {p : Path} {t t' : Text}
    (h : (p,t) ∈ unitFiles paths spec) (h' : (p,t') ∈ unitFiles paths spec) : t = t' := by
  rw [mem_unitFiles] at h h'
  rcases h with ⟨rfl,rfl⟩ | ⟨task,ht,⟨rfl,rfl⟩ | ⟨rfl,rfl⟩⟩ <;>
    rcases h' with ⟨hp,rfl⟩ | ⟨task',ht',⟨hp,rfl⟩ | ⟨hp,rfl⟩⟩
  · rfl
  · exact absurd hp (unitPath_ne_container _ _)
  · exact absurd hp (unitPath_ne_timer _ _)
  · exact absurd hp.symm (unitPath_ne_container _ _)
  · rw [eq_of_slug_eq hv ht ht' (taskContainerPath_inj.mp hp)]
  · exact absurd hp (container_ne_timer _ _ _)
  · exact absurd hp.symm (unitPath_ne_timer _ _)
  · exact absurd hp.symm (container_ne_timer _ _ _)
  · rw [eq_of_slug_eq hv ht ht' (taskTimerPath_inj.mp hp)]

/-- `g` is `f` overwritten with the files of the list. -/
structure Overlaid (files : List (Path × Text)) (f g : Path → Option Text) : Prop where
  written : ∀ p t, (p,t) ∈ files → g p = some t
  kept : ∀ p, (∀ t, (p,t) ∉ files) → g p = f p

/-- The files of the tasks still to come may be old; all others are as they should be. -/
structure Overlaying (paths : Paths) (spec : WorkloadSpec) (f : Path → Option Text)
    (rest : List ScheduledTask) (g : Path → Option Text) : Prop where
  tasks : ∀ task ∈ rest, task ∈ spec.tasks
  written : ∀ p t, (p,t) ∈ unitFiles paths spec → g p = some t ∨ ∃ task ∈ rest,
    p = taskContainerPath paths spec.name task.name ∨ p = taskTimerPath paths spec.name task.name
  kept : ∀ p, (∀ t, (p,t) ∉ unitFiles paths spec) → g p = f p

theorem overlaying_unit (f : Path → Option Text) : Overlaying paths spec f spec.tasks
    (Function.update f (unitPath paths spec.name) (some (unitText spec))) where
  tasks := fun _ h => h
  written := by
    intro p t hp
    rcases mem_unitFiles.mp hp with ⟨rfl,rfl⟩ | ⟨task,ht,⟨rfl,-⟩ | ⟨rfl,-⟩⟩
    · exact .inl (Function.update_self _ _ _)
    · exact .inr ⟨task,ht,.inl rfl⟩
    · exact .inr ⟨task,ht,.inr rfl⟩
  kept := by
    intro p hp
    have hne : p ≠ unitPath paths spec.name := by
      rintro rfl
      exact hp _ (mem_unitFiles.mpr (.inl ⟨rfl,rfl⟩))
    exact Function.update_of_ne hne _ _

/-- The two files of a task. -/
def withTask (paths : Paths) (spec : WorkloadSpec) (task : ScheduledTask)
    (g : Path → Option Text) : Path → Option Text :=
  Function.update
    (Function.update g (taskContainerPath paths spec.name task.name) (some (taskText spec task)))
    (taskTimerPath paths spec.name task.name) (some (timerText spec task))

theorem withTask_other {task : ScheduledTask} {g : Path → Option Text} {p : Path}
    (hc : p ≠ taskContainerPath paths spec.name task.name)
    (hm : p ≠ taskTimerPath paths spec.name task.name) : withTask paths spec task g p = g p := by
  rw [withTask,Function.update_of_ne hm,Function.update_of_ne hc]

theorem Overlaying.step (hv : spec.validate = .ok ()) {f g : Path → Option Text}
    {task : ScheduledTask} {rest : List ScheduledTask}
    (h : Overlaying paths spec f (task::rest) g) :
    Overlaying paths spec f rest (withTask paths spec task g) := by
  have ht : task ∈ spec.tasks := h.tasks task List.mem_cons_self
  have hc : (taskContainerPath paths spec.name task.name,taskText spec task) ∈
      unitFiles paths spec := mem_unitFiles.mpr (.inr ⟨task,ht,.inl ⟨rfl,rfl⟩⟩)
  have hm : (taskTimerPath paths spec.name task.name,timerText spec task) ∈
      unitFiles paths spec := mem_unitFiles.mpr (.inr ⟨task,ht,.inr ⟨rfl,rfl⟩⟩)
  refine ⟨fun t h' => h.tasks t (List.mem_cons_of_mem _ h'),fun p t hp => ?_,fun p hp => ?_⟩
  · by_cases hpm : p = taskTimerPath paths spec.name task.name
    · left
      subst hpm
      rw [withTask,unitFiles_functional hv hp hm]
      exact Function.update_self _ _ _
    by_cases hpc : p = taskContainerPath paths spec.name task.name
    · left
      subst hpc
      rw [withTask,Function.update_of_ne hpm,unitFiles_functional hv hp hc]
      exact Function.update_self _ _ _
    rw [withTask_other hpc hpm]
    refine (h.written p t hp).imp_right ?_
    rintro ⟨task',ht',hp'⟩
    rcases List.mem_cons.mp ht' with rfl | ht'
    · exact absurd hp' (not_or.mpr ⟨hpc,hpm⟩)
    · exact ⟨task',ht',hp'⟩
  · rw [withTask_other (fun heq => hp _ (heq ▸ hc)) fun heq => hp _ (heq ▸ hm),h.kept p hp]

theorem Overlaying.overlaid {f g : Path → Option Text} (h : Overlaying paths spec f [] g) :
    Overlaid (unitFiles paths spec) f g :=
  ⟨fun p t hp => (h.written p t hp).resolve_right (by simp),h.kept⟩

theorem writeUnits_ok (hv : spec.validate = .ok ()) : wpOk (host paths ok)
    (writeUnits paths (unitPath paths spec.name) (unitText spec)
      (spec.tasks.map (TaskFiles.of paths spec)))
    (fun _ w' => Overlaid (unitFiles paths spec) w.fs.contents w'.fs.contents) w := by
  refine wpOk_seq (createDirAll_ok _) fun _ w₁ h₁ => ?_
  have hdir : wpOk (host paths ok)
      (Run.when (!(spec.tasks.map (TaskFiles.of paths spec)).isEmpty)
        (Run.createDirAll paths.systemdDir)) (fun _ w' => w'.fs.contents = w₁.fs.contents) w₁ :=
    when_ok (fun _ => createDirAll_ok _) fun _ => rfl
  refine wpOk_seq hdir fun _ w₂ h₂ => ?_
  refine wpOk_seq (write_ok _ _) fun _ w₃ h₃ => ?_
  rw [List.forM_map]
  refine wpOk_forM (fun rest w' => Overlaying paths spec w.fs.contents rest w'.fs.contents)
    ?_ (fun task rest w' h => ?_) fun w' h => h.overlaid
  · rw [h₃,h₂,h₁]
    exact overlaying_unit _
  · refine wpOk_seq (write_ok _ _) fun _ w₄ h₄ => ?_
    refine wpOk_mono (write_ok _ _) fun _ w₅ h₅ => ?_
    rw [h₅,h₄]
    exact h.step hv

/-- The files after a successful apply: what the spec renders, no stale task file, and
everything else as before. -/
structure Installed (paths : Paths) (spec : WorkloadSpec) (f g : Path → Option Text) : Prop where
  valid : spec.validate = .ok ()
  written : ∀ p t, (p,t) ∈ unitFiles paths spec → g p = some t
  pruned : ∀ p, StaleTask paths spec.name (keepOf spec) p → g p = none
  kept : ∀ p, (∀ t, (p,t) ∉ unitFiles paths spec) →
    ¬StaleTask paths spec.name (keepOf spec) p → g p = f p

theorem not_stale_of_mem {p : Path} {t : Text} (h : (p,t) ∈ unitFiles paths spec) :
    ¬StaleTask paths spec.name (keepOf spec) p := by
  rintro ⟨hin,stem,hstem,hpre,hkeep⟩
  rcases mem_unitFiles.mp h with ⟨rfl,-⟩ | ⟨task,ht,⟨rfl,-⟩ | ⟨rfl,-⟩⟩
  · exact not_ownTask_unitPath _ ⟨hin,stem,hstem,hpre⟩
  · rw [taskContainerPath,fileStem_container _ (taskUnitName_ne_nil _ _),Option.some.injEq] at hstem
    exact hkeep (hstem ▸ List.mem_map.mpr ⟨task,ht,rfl⟩)
  · rw [taskTimerPath,fileStem_timer _ (taskUnitName_ne_nil _ _),Option.some.injEq] at hstem
    exact hkeep (hstem ▸ List.mem_map.mpr ⟨task,ht,rfl⟩)

theorem apply_ok : wpOk (host paths ok) (apply paths spec)
    (fun _ w' => Installed paths spec w.fs.contents w'.fs.contents) w := by
  by_cases hv : spec.validate = .ok ()
  · rw [apply_of_valid hv]
    -- Up to the first write nothing changes the files, so a frame is enough.
    have hquiet : ∀ {α : Type} {q : Run α} {w : World},
        All (fun e => ∀ p, True → ¬e.Touches p) q.run →
        wpOk (host paths ok) q (fun _ w' => w'.fs.contents = w.fs.contents) w := fun h =>
      wpOk_of_wp (wp_mono (wp_contents_frame h) fun _ _ h => funext fun p => h p trivial)
    have hins : Inspects fun e => ∀ p : Path, True → ¬e.Touches p :=
      ⟨fun _ _ _ => id,fun _ _ _ => id⟩
    refine wpOk_seq (hquiet (all_forM fun task _ => all_preflight (fun _ _ _ => id) task))
      fun _ w₁ h₁ => ?_
    refine wpOk_seq (hquiet (all_checkOwned hins _ _)) fun _ w₂ h₂ => ?_
    refine wpOk_seq (hquiet (all_readPrevious hins _)) fun previous w₃ h₃ => ?_
    refine wpOk_seq (writeUnits_ok hv) fun _ w₄ h₄ => ?_
    refine wpOk_seq pruneTasks_ok fun _ w₅ h₅ => ?_
    have hact : All (fun e => ∀ p, True → ¬e.Touches p)
        (activate spec.name previous (unitText spec)
          (spec.tasks.map (TaskFiles.of paths spec))).run := by
      refine all_run_bind (all_systemctl fun _ _ => id) fun _ => ?_
      exact all_run_bind (all_systemctl fun _ _ => id) fun _ =>
        all_forM fun _ _ => all_systemctl fun _ _ => id
    refine wpOk_mono (hquiet hact) fun _ w₆ h₆ => ?_
    rw [h₆]
    refine ⟨hv,fun p t hp => ?_,fun p hp => (h₅ p).1 hp,fun p hp hs => ?_⟩
    · rw [(h₅ p).2 (not_stale_of_mem hp),h₄.written p t hp]
    · rw [(h₅ p).2 hs,h₄.kept p hp,h₃,h₂,h₁]
  · obtain ⟨e,heq⟩ := apply_of_not_valid hv
    rw [heq]
    exact wpOk_throw _ _ _

end Install

section Remove
variable {name : Text}

/-- The files after a successful removal: no unit and no task file of the app. -/
structure Removed (paths : Paths) (name : Text) (f g : Path → Option Text) : Prop where
  unit : g (unitPath paths name) = none
  tasks : ∀ p, OwnTask paths name p → g p = none
  kept : ∀ p, p ≠ unitPath paths name → ¬OwnTask paths name p → g p = f p

theorem staleTask_nil {p : Path} : StaleTask paths name [] p ↔ OwnTask paths name p := by
  simp [StaleTask,StaleStem,OwnTask]

theorem remove_ok : wpOk (host paths ok) (remove paths name)
    (fun _ w' => Removed paths name w.fs.contents w'.fs.contents) w := by
  refine wpOk_seq pruneTasks_ok fun pruned w₁ h₁ => ?_
  simp only [staleTask_nil] at h₁
  refine wpOk_seq (ensureOwned_ok _ _ _) fun owned w₂ h₂ => ?_
  split
  · refine wpOk_seq (systemctl_ok _) fun _ w₃ h₃ => ?_
    refine wpOk_seq (removeFile_ok _) fun _ w₄ h₄ => ?_
    refine wpOk_mono (systemctl_ok _) fun _ w₅ h₅ => ?_
    rw [h₅,h₄,h₃,h₂.1]
    refine ⟨Function.update_self _ _ _,fun p hp => ?_,fun p hne hp => ?_⟩
    · rw [Function.update_of_ne fun h => not_ownTask_unitPath name (h ▸ hp)]
      exact (h₁ p).1 hp
    · rw [Function.update_of_ne hne,(h₁ p).2 hp]
  · rename_i howned
    have hsame : wpOk (host paths ok) (Run.when pruned (systemctl .daemonReload))
        (fun _ w' => w'.fs = w₂.fs) w₂ := when_ok (fun _ => systemctl_ok _) fun _ => rfl
    refine wpOk_mono hsame fun _ w₃ h₃ => ?_
    rw [h₃,h₂.1]
    exact ⟨h₂.2.2 (by simpa using howned),fun p hp => (h₁ p).1 hp,fun p _ hp => (h₁ p).2 hp⟩

end Remove

section Gateway
variable {slug : Text} {route : Route}

theorem applyRoute_ok : wpOk (host paths ok) (applyRoute paths slug route) (fun _ w' =>
    w'.fs.contents = Function.update w.fs.contents (fragmentPath paths slug)
      (some (renderFragment route))) w := by
  refine wpOk_seq (ensureOwned_ok _ _ _) fun _ w₁ h₁ => ?_
  refine wpOk_seq (createDirAll_ok _) fun _ w₂ h₂ => ?_
  refine wpOk_seq (write_ok _ _) fun _ w₃ h₃ => ?_
  refine wpOk_mono reloadCaddy_ok fun _ w₄ h₄ => ?_
  rw [h₄,h₃,h₂,h₁.1]

theorem removeRoute_ok : wpOk (host paths ok) (removeRoute paths slug) (fun _ w' =>
    w'.fs.contents = Function.update w.fs.contents (fragmentPath paths slug) none) w := by
  refine wpOk_seq (ensureOwned_ok _ _ _) fun owned w₁ h₁ => ?_
  split
  · refine wpOk_seq (removeFile_ok _) fun _ w₂ h₂ => ?_
    refine wpOk_mono reloadCaddy_ok fun _ w₃ h₃ => ?_
    rw [h₃,h₂,h₁.1]
  · rename_i howned
    rw [wpOk_pure,h₁.1,← h₁.2.2 (by simpa using howned),Function.update_eq_self]

end Gateway
end Kuadrat
