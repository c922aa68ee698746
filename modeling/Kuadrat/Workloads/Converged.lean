import Kuadrat.Effect.Transcript
import Kuadrat.Workloads.Region

/-!
# Tasks converge to the spec

What a successful apply leaves of the app's task files, and in which order it ran its
commands: the checks of the schedules, the disabling of stale timers, one reload behind the
last change of a file, the start, and the timers of the tasks.
-/
namespace Kuadrat

open Effect Machine

/-- The command was run, and ended with status zero. -/
def Ran (c : Command) (x : Sigma Eff.Resp) : Prop :=
  ∃ out : CommandOutput, out.success = true ∧ x = ⟨.run c,.ok out⟩

/-- No command but the disabling of timers, and none of these failed. -/
def Disables (l : List (Sigma Eff.Resp)) : Prop :=
  ∀ x ∈ l, ∀ c, x.1 = .run c → ∃ u, Ran (.disableNow u) x

/-- The timer was disabled right before its file was deleted. -/
def DisabledFirst (p : Path) (l : List (Sigma Eff.Resp)) : Prop :=
  ∃ stem before x after, p.fileStem = some stem ∧ Ran (.disableNow (stem ++ ".timer")) x ∧
    l = before ++ x::⟨.removeFile p,.ok ()⟩::after

theorem Disables.append {l l' : List (Sigma Eff.Resp)} (h : Disables l) (h' : Disables l') :
    Disables (l ++ l') := by
  intro x hx
  rcases List.mem_append.mp hx with hx | hx
  · exact h x hx
  · exact h' x hx

theorem DisabledFirst.left {p : Path} {l : List (Sigma Eff.Resp)} (h : DisabledFirst p l)
    (l' : List (Sigma Eff.Resp)) : DisabledFirst p (l ++ l') := by
  obtain ⟨stem,before,x,after,hstem,hx,rfl⟩ := h
  exact ⟨stem,before,x,after ++ l',hstem,hx,by simp⟩

theorem DisabledFirst.right {p : Path} {l : List (Sigma Eff.Resp)} (h : DisabledFirst p l)
    (l' : List (Sigma Eff.Resp)) : DisabledFirst p (l' ++ l) := by
  obtain ⟨stem,before,x,after,hstem,hx,rfl⟩ := h
  exact ⟨stem,l' ++ before,x,after,hstem,hx,by simp⟩

section Steps
variable {paths : Paths} {w : World}

theorem exec_tells (c : Command) : (World.machine paths).tells (Run.exec c)
    (fun out w' l => w'.fs = w.fs ∧ l = [⟨.run c,.ok out⟩]) w := by
  intro l₀
  have hfs : wp (host paths fun _ _ => True) (.perform (Eff.run c)) (fun _ w' => w'.fs = w.fs) w :=
    wp_exec trivial (fun out _ => by split <;> rfl) fun _ _ => rfl
  refine wp_mono (wp_recorder_perform hfs) fun r s' h out hout => ?_
  exact ⟨_,h.2,h.1,by rw [hout]⟩

theorem systemctl_tells (c : Command) : (World.machine paths).tells (systemctl c)
    (fun _ w' l => w'.fs = w.fs ∧ ∃ x, Ran c x ∧ l = [x]) w := by
  refine tells_seq (exec_tells c) fun out w' l h => ?_
  split
  · rename_i hout
    exact tells_pure ⟨h.1,_,⟨out,hout,rfl⟩,by rw [h.2,List.append_nil]⟩
  · exact tells_throw _

theorem preflight_tells (task : ScheduledTask) : (World.machine paths).tells (preflight task)
    (fun _ w' l => w'.fs = w.fs ∧ ∃ x, Ran (.analyzeCalendar task.schedule) x ∧ l = [x]) w := by
  refine tells_seq (exec_tells _) fun out w' l h => ?_
  split
  · rename_i hout
    exact tells_pure ⟨h.1,_,⟨out,hout,rfl⟩,by rw [h.2,List.append_nil]⟩
  · exact tells_throw _

theorem removeFile_tells (p : Path) : (World.machine paths).tells (Run.removeFile p)
    (fun _ _ l => l = [⟨.removeFile p,.ok ()⟩]) w := by
  intro l₀
  have htrue : wp (host paths fun _ _ => True) (.perform (Eff.removeFile p)) (fun _ _ => True) w :=
    wp_issue trivial fun _ _ _ _ _ => trivial
  refine wp_mono (wp_recorder_perform htrue) fun r s' h u hu => ?_
  exact ⟨_,h.2,by rw [hu]⟩

/-- A program without commands. -/
theorem uncommanded_tells {α : Type} {p : Run α} {Q : α → World → Prop}
    (h : wpOk (host paths fun _ _ => True) p Q w) (hp : All (fun e => ∀ c, e ≠ .run c) p.run) :
    (World.machine paths).tells p (fun a w' l => Q a w' ∧ ∀ x ∈ l, ∀ c, x.1 ≠ .run c) w :=
  tells_of_wpOk h hp

theorem disables_of_uncommanded {l : List (Sigma Eff.Resp)} (h : ∀ x ∈ l, ∀ c, x.1 ≠ .run c) :
    Disables l := fun x hx c hc => absurd hc (h x hx c)

end Steps

section Prune
variable {paths : Paths} {w : World} {name : Text} {keep : List Text}

theorem uncommanded_inspects : Inspects fun e => ∀ c, e ≠ .run c :=
  ⟨fun _ _ => Eff.noConfusion,fun _ _ => Eff.noConfusion⟩

/-- One entry: a stale timer that is there is disabled and deleted. -/
theorem pruneEntry_tells (removed : Bool) (entry : Path) : (World.machine paths).tells
    (pruneEntry name keep removed entry) (fun _ _ l => Disables l ∧
      (StaleStem name keep entry → entry.extension = some ("timer" : Text) →
        w.fs.contents entry ≠ none → DisabledFirst entry l)) w := by
  by_cases hs : StaleStem name keep entry
  · obtain ⟨stem,hstem,heq⟩ := pruneEntry_of_stale removed hs
    rw [heq]
    refine tells_seq (uncommanded_tells (ensureOwned_ok entry managedMarker "remove")
      (all_ensureOwned uncommanded_inspects _ _ _)) fun owned w₁ l₁ h₁ => ?_
    obtain ⟨⟨hfs,-,habsent⟩,hl₁⟩ := h₁
    split
    · have htimer : (World.machine paths).tells
          (Run.when (entry.extension = some ("timer" : Text)) (systemctl (.disableNow (stem ++ ".timer"))))
          (fun _ _ l => Disables l ∧ (entry.extension = some ("timer" : Text) →
            ∃ x, Ran (.disableNow (stem ++ ".timer")) x ∧ l = [x])) w₁ := by
        unfold Run.when
        split
        · refine tells_mono (systemctl_tells _) fun _ _ l h => ⟨?_,fun _ => h.2⟩
          obtain ⟨-,x,hx,rfl⟩ := h
          intro y hy c _
          rw [List.mem_singleton.mp hy]
          exact ⟨_,hx⟩
        · rename_i hext
          exact tells_pure ⟨fun _ h => absurd h List.not_mem_nil,fun h => absurd (by simpa using h) hext⟩
      refine tells_seq htimer fun _ w₂ l₂ h₂ => ?_
      refine tells_seq (removeFile_tells entry) fun _ w₃ l₃ h₃ => tells_pure ⟨?_,fun _ hext _ => ?_⟩
      · have hdelete : Disables l₃ := by
          rw [h₃]
          refine disables_of_uncommanded fun x hx c hc => ?_
          rw [List.mem_singleton.mp hx] at hc
          cases hc
        exact (disables_of_uncommanded hl₁).append
          (h₂.1.append (hdelete.append (disables_of_uncommanded fun _ h => absurd h List.not_mem_nil)))
      · obtain ⟨x,hx,rfl⟩ := h₂.2 hext
        exact ⟨stem,l₁,x,[],hstem,hx,by rw [h₃]; rfl⟩
    · rename_i howned
      refine tells_pure ⟨?_,fun _ _ hne => ?_⟩
      · rw [List.append_nil]
        exact disables_of_uncommanded hl₁
      · exact absurd (habsent (by simpa using howned)) hne
  · rw [pruneEntry_of_not_stale removed hs]
    exact tells_pure ⟨fun _ h => absurd h List.not_mem_nil,fun h => absurd h hs⟩

/-- What holds within the scan of a directory: a stale timer is still to come and still there, or
is done with. -/
structure Disabling (name : Text) (keep : List Text) (dir : Path) (w : World) (rest : List Path)
    (w' : World) (said : List (Sigma Eff.Resp)) : Prop where
  disables : Disables said
  timers : ∀ p, Path.Inside dir p → StaleStem name keep p → p.extension = some ("timer" : Text) →
    w.fs.contents p ≠ none → (p ∈ rest ∧ w'.fs.contents p ≠ none) ∨ DisabledFirst p said

theorem Disabling.step {dir entry : Path} {rest : List Path} {w' : World}
    {said : List (Sigma Eff.Resp)} (h : Disabling name keep dir w (entry::rest) w' said)
    (removed : Bool) : (World.machine paths).tells (pruneEntry name keep removed entry)
      (fun _ w'' more => Disabling name keep dir w rest w'' (said ++ more)) w' := by
  refine tells_mono (tells_and (pruneEntry_tells removed entry) (pruneEntry_ok removed entry))
    fun b w'' more hentry => ⟨h.disables.append hentry.1.1,fun p hin hs hx hne => ?_⟩
  rcases h.timers p hin hs hx hne with ⟨hmem,hthere⟩ | hdone
  · by_cases hp : p = entry
    · subst hp
      exact .inr ((hentry.1.2 hs hx hthere).right said)
    · refine .inl ⟨(List.mem_cons.mp hmem).resolve_left hp,?_⟩
      rw [hentry.2.2.2 p hp]
      exact hthere
  · exact .inr (hdone.left more)

/-- What is known of a directory's stale timers after its scan. -/
theorem pruneDir_tells (removed : Bool) (dir : Path) : (World.machine paths).tells
    (pruneDir name keep removed dir) (fun _ _ l => Disables l ∧ ∀ p, Path.Inside dir p →
      StaleStem name keep p → p.extension = some ("timer" : Text) → w.fs.contents p ≠ none →
      DisabledFirst p l) w := by
  have hpresent : wpOk (host paths fun _ _ => True) (Run.present dir)
      (fun b w' => b = w.fs.present dir ∧ w'.fs = w.fs) w :=
    wp_present trivial (fun _ b hb => ⟨(Except.ok.inj hb).symm,rfl⟩) fun _ _ b hb => by cases hb
  refine tells_seq (uncommanded_tells hpresent (all_perform fun _ => Eff.noConfusion))
    fun b w₁ l₁ h₁ => ?_
  obtain ⟨⟨hb,hfs₁⟩,hl₁⟩ := h₁
  split
  · have hlist : wpOk (host paths fun _ _ => True) (Run.readDir dir)
        (fun entries w' => entries.Perm (w₁.fs.entries dir) ∧ w'.fs = w₁.fs) w₁ :=
      wp_readDir trivial (fun names _ _ hl l hlist => by cases hlist; exact ⟨hl,rfl⟩)
        fun _ _ l hlist => by cases hlist
    refine tells_seq (uncommanded_tells hlist (all_readDir fun _ => Eff.noConfusion))
      fun entries w₂ l₂ h₂ => ?_
    obtain ⟨⟨hperm,hfs₂⟩,hl₂⟩ := h₂
    have hfs : w₂.fs = w.fs := hfs₂.trans hfs₁
    rw [hfs₁] at hperm
    have hquiet : Disables (l₁ ++ l₂) :=
      (disables_of_uncommanded hl₁).append (disables_of_uncommanded hl₂)
    have hstart : Disabling name keep dir w entries w₂ [] := by
      refine ⟨fun _ h => absurd h List.not_mem_nil,fun p hin _ _ hne => .inl ⟨?_,hfs ▸ hne⟩⟩
      exact hperm.mem_iff.mpr (FileTree.mem_entries_of_contents hin (Option.isSome_iff_ne_none.mpr hne))
    have hscan := tells_foldlM (M := World.machine paths) (f := pruneEntry name keep) (b := removed)
      (fun rest _ w' said => Disabling name keep dir w rest w' said) hstart
      (fun _ _ b _ _ hI => hI.step b) fun _ _ _ hI => hI
    refine tells_mono hscan fun b w' l h => ?_
    rw [← List.append_assoc]
    refine ⟨hquiet.append h.disables,fun p hin hs hx hne => ?_⟩
    exact ((h.timers p hin hs hx hne).resolve_left fun h => absurd h.1 List.not_mem_nil).right _
  · rename_i habsent
    refine tells_pure ⟨?_,fun p hin _ _ hne => ?_⟩
    · rw [List.append_nil]
      exact disables_of_uncommanded hl₁
    · refine absurd (FileTree.contents_eq_none_of_absent hin ?_) hne
      rw [← hb]
      simpa using habsent

theorem pruneTasks_tells : (World.machine paths).tells (pruneTasks paths name keep)
    (fun _ _ l => Disables l ∧ ∀ p, StaleTask paths name keep p →
      p.extension = some ("timer" : Text) → w.fs.contents p ≠ none → DisabledFirst p l) w := by
  unfold pruneTasks
  rw [List.foldlM_cons]
  refine tells_seq (tells_and (pruneDir_tells false _) (pruneDir_ok false _)) fun b w₁ l₁ h₁ => ?_
  rw [List.foldlM_cons]
  refine tells_seq (pruneDir_tells b _) fun b' w₂ l₂ h₂ => ?_
  rw [List.foldlM_nil]
  refine tells_pure ?_
  rw [List.append_nil]
  refine ⟨h₁.1.1.append h₂.1,fun p hs hx hne => ?_⟩
  by_cases hin : Path.Inside paths.quadletDir p
  · exact (h₁.1.2 p hin hs.2 hx hne).left _
  · have hkept := (h₁.2 p).2 fun h => hin h.1
    exact (h₂.2 p (hs.1.resolve_left hin) hs.2 hx (hkept ▸ hne)).right _

end Prune

section Apply
variable {paths : Paths} {w : World} {spec : WorkloadSpec}

/-- A loop that runs one command for each element. -/
theorem forM_ran {α : Type} {l : List α} {f : α → Run PUnit} {c : α → Command}
    (h : ∀ a w, (World.machine paths).tells (f a)
      (fun _ w' said => w'.fs = w.fs ∧ ∃ x, Ran (c a) x ∧ said = [x]) w) :
    (World.machine paths).tells (forM l f)
      (fun _ w' said => w'.fs = w.fs ∧ List.Forall₂ Ran (l.map c) said) w := by
  induction l generalizing w with
  | nil => exact tells_pure ⟨rfl,.nil⟩
  | cons a rest ih =>
    rw [List.forM_cons]
    refine tells_seq (h a w) fun _ w₁ said h₁ => tells_mono ih fun _ w₂ more h₂ => ?_
    obtain ⟨hfs,x,hx,rfl⟩ := h₁
    exact ⟨h₂.1.trans hfs,.cons hx h₂.2⟩

theorem activate_tells (previous : Option Text) (unit : Text) (files : List TaskFiles) :
    (World.machine paths).tells (activate spec.name previous unit files) (fun _ _ said =>
      ∃ start, (start = .start (unitName spec.name) ∨ start = .restart (unitName spec.name)) ∧
        List.Forall₂ Ran (.daemonReload::start::files.map fun tf => .enableNow tf.timerUnit)
          said) w := by
  refine tells_seq (systemctl_tells _) fun _ w₁ said₁ h₁ => ?_
  refine tells_seq (systemctl_tells _) fun _ w₂ said₂ h₂ => ?_
  refine tells_mono (forM_ran fun tf w => systemctl_tells _) fun _ w₃ said₃ h₃ => ?_
  obtain ⟨-,x,hx,rfl⟩ := h₁
  obtain ⟨-,y,hy,rfl⟩ := h₂
  refine ⟨_,?_,.cons hx (.cons hy h₃.2)⟩
  split
  · exact .inr rfl
  · exact .inl rfl

/-- The order of what a successful apply does: the checks of the schedules, the writes, the
deletions with the timers that they disable, and then nothing but commands. -/
def Ordered (spec : WorkloadSpec) (log : List (Sigma Eff.Resp)) : Prop :=
  ∃ checks writes deletions activation start,
    log = checks ++ writes ++ deletions ++ activation ∧
    List.Forall₂ Ran (spec.tasks.map fun task => .analyzeCalendar task.schedule) checks ∧
    (∀ x ∈ writes, ∀ c, x.1 ≠ .run c) ∧ Disables deletions ∧
    (start = .start (unitName spec.name) ∨ start = .restart (unitName spec.name)) ∧
    List.Forall₂ Ran (.daemonReload::start::spec.tasks.map fun task =>
      .enableNow (taskUnitName spec.name task.name ++ ".timer")) activation

theorem wpOk_untouched {α : Type} {p : Run α} (h : All (fun e => ∀ p, True → ¬e.Touches p) p.run) :
    wpOk (host paths fun _ _ => True) p (fun _ w' => w'.fs.contents = w.fs.contents) w :=
  wpOk_of_wp (wp_mono (wp_contents_frame h) fun _ _ h => funext fun p => h p trivial)

theorem uncommanded_writeUnits (p : Path) (unit : Text) (files : List TaskFiles) :
    All (fun e => ∀ c, e ≠ .run c) (writeUnits paths p unit files).run :=
  all_run_bind (all_perform fun _ => Eff.noConfusion) fun _ =>
    all_run_bind (all_when (all_perform fun _ => Eff.noConfusion)) fun _ =>
      all_run_bind (all_perform fun _ => Eff.noConfusion) fun _ => all_forM fun _ _ =>
        all_run_bind (all_perform fun _ => Eff.noConfusion) fun _ =>
          all_perform fun _ => Eff.noConfusion

theorem apply_tells : (World.machine paths).tells (apply paths spec) (fun _ _ log =>
    Ordered spec log ∧ ∀ p, StaleTask paths spec.name (keepOf spec) p →
      p.extension = some ("timer" : Text) → w.fs.contents p ≠ none → DisabledFirst p log) w := by
  by_cases hv : spec.validate = .ok ()
  · rw [apply_of_valid hv]
    refine tells_seq (forM_ran fun task w => preflight_tells task) fun _ w₁ checks h₁ => ?_
    have hins : Inspects fun e => ∀ p : Path, True → ¬e.Touches p :=
      ⟨fun _ _ _ => id,fun _ _ _ => id⟩
    refine tells_seq (uncommanded_tells (wpOk_untouched (all_checkOwned hins _ _))
      (all_checkOwned uncommanded_inspects _ _)) fun _ w₂ l₂ h₂ => ?_
    refine tells_seq (uncommanded_tells (wpOk_untouched (all_readPrevious hins _))
      (all_readPrevious uncommanded_inspects _)) fun previous w₃ l₃ h₃ => ?_
    refine tells_seq (uncommanded_tells (writeUnits_ok hv) (uncommanded_writeUnits _ _ _))
      fun _ w₄ l₄ h₄ => ?_
    refine tells_seq (@pruneTasks_tells paths w₄ spec.name (keepOf spec)) fun _ w₅ deletions h₅ => ?_
    refine tells_mono (activate_tells previous _ _) fun _ w₆ activation h₆ => ?_
    obtain ⟨start,hstart,hactivation⟩ := h₆
    rw [List.map_map] at hactivation
    refine ⟨⟨checks,l₂ ++ (l₃ ++ l₄),deletions,activation,start,by simp,h₁.2,fun x hx => ?_,h₅.1,
      hstart,hactivation⟩,fun p hs hx hne => ?_⟩
    · rcases List.mem_append.mp hx with hx | hx
      · exact h₂.2 x hx
      rcases List.mem_append.mp hx with hx | hx
      · exact h₃.2 x hx
      · exact h₄.2 x hx
    · have hkept : w₄.fs.contents p = w.fs.contents p := by
        rw [h₄.1.kept p fun t ht => not_stale_of_mem ht hs,h₃.1,h₂.1,h₁.1]
      have hdone := (h₅.2 p hs hx (hkept ▸ hne)).left activation
      exact (((hdone.right l₄).right l₃).right l₂).right checks
  · obtain ⟨e,heq⟩ := apply_of_not_valid hv
    rw [heq]
    exact tells_throw e

/-- What the host is like after a spec was applied to it; `f` and `g` are the files before and
after, and `log` is what was done in between. -/
structure Converged (paths : Paths) (spec : WorkloadSpec) (f g : Path → Option Text)
    (log : List (Sigma Eff.Resp)) : Prop where
  stems : ∀ dir, dir = paths.quadletDir ∨ dir = paths.systemdDir → ∀ stem,
    taskStemPrefix spec.name <+: stem →
    ((∃ p, Path.Inside dir p ∧ p.fileStem = some stem ∧ g p ≠ none) ↔
      ∃ task ∈ spec.tasks, stem = taskUnitName spec.name task.name)
  containers : ∀ task ∈ spec.tasks, ∃ t, renderTask spec task = .ok t ∧
    g (taskContainerPath paths spec.name task.name) = some t
  timers : ∀ task ∈ spec.tasks, ∃ t, renderTimer spec task = .ok t ∧
    g (taskTimerPath paths spec.name task.name) = some t
  unit : ∃ t, render spec = .ok t ∧ g (unitPath paths spec.name) = some t
  unit_kept : ∀ x ∈ log, x.1 ≠ .removeFile (unitPath paths spec.name)
  disabled : ∀ p, StaleTask paths spec.name (keepOf spec) p →
    p.extension = some ("timer" : Text) → f p ≠ none → DisabledFirst p log
  ordered : Ordered spec log

theorem Installed.stems {f g : Path → Option Text} (h : Installed paths spec f g) {dir : Path}
    (hdir : dir = paths.quadletDir ∨ dir = paths.systemdDir) {stem : Text}
    (hpre : taskStemPrefix spec.name <+: stem) :
    (∃ p, Path.Inside dir p ∧ p.fileStem = some stem ∧ g p ≠ none) ↔
      ∃ task ∈ spec.tasks, stem = taskUnitName spec.name task.name := by
  constructor
  · rintro ⟨p,hin,hstem,hne⟩
    have hkeep : stem ∈ keepOf spec := by
      by_contra hkeep
      refine hne (h.pruned p ⟨?_,stem,hstem,hpre,hkeep⟩)
      rcases hdir with rfl | rfl
      · exact .inl hin
      · exact .inr hin
    obtain ⟨task,htask,rfl⟩ := List.mem_map.mp hkeep
    exact ⟨task,htask,rfl⟩
  · rintro ⟨task,htask,rfl⟩
    have hne := taskUnitName_ne_nil spec.name task.name
    rcases hdir with rfl | rfl
    · refine ⟨taskContainerPath paths spec.name task.name,by simp [taskContainerPath],
        fileStem_container _ hne,?_⟩
      rw [h.written _ _ (mem_unitFiles.mpr (.inr ⟨task,htask,.inl ⟨rfl,rfl⟩⟩))]
      exact Option.some_ne_none _
    · refine ⟨taskTimerPath paths spec.name task.name,by simp [taskTimerPath],
        fileStem_timer _ hne,?_⟩
      rw [h.written _ _ (mem_unitFiles.mpr (.inr ⟨task,htask,.inr ⟨rfl,rfl⟩⟩))]
      exact Option.some_ne_none _

/-- No operation of an apply deletes the app's own unit. -/
theorem apply_keeps_unit :
    All (fun e => e ≠ .removeFile (unitPath paths spec.name)) (apply paths spec).run :=
  all_apply {
    present := fun _ => Eff.noConfusion
    read := fun _ => Eff.noConfusion
    list := fun _ => Eff.noConfusion
    disable := fun _ => Eff.noConfusion
    removes := fun _ hp h => not_ownTask_unitPath spec.name ((Eff.removeFile.inj h) ▸ hp.own)
    preflight := fun _ => Eff.noConfusion
    create := fun _ => Eff.noConfusion
    writes := fun _ _ _ _ => Eff.noConfusion
    reload := Eff.noConfusion
    start := Eff.noConfusion
    restart := Eff.noConfusion
    enable := fun _ => Eff.noConfusion }

/-- When applying a spec succeeds, the app's tasks are those of the spec, whatever was there. -/
theorem tasks_converge {answers : List Answer} {w' : World} {log : List (Sigma Eff.Resp)}
    (h : (World.machine paths).recorder.finish answers (apply paths spec).run (w,[]) =
      some (.ok (),(w',log))) : Converged paths spec w.fs.contents w'.fs.contents log := by
  have htells := tells_all (tells_and (@apply_tells paths w spec) apply_ok) apply_keeps_unit
  obtain ⟨⟨⟨hordered,hdisabled⟩,hinstalled⟩,hunit⟩ := tells_finish htells h
  have hv := hinstalled.valid
  refine ⟨fun dir hdir stem hpre => hinstalled.stems hdir hpre,fun task htask => ?_,
    fun task htask => ?_,⟨unitText spec,render_eq_ok.mpr ⟨hv,rfl⟩,?_⟩,hunit,hdisabled,hordered⟩
  · refine ⟨taskText spec task,?_,hinstalled.written _ _
      (mem_unitFiles.mpr (.inr ⟨task,htask,.inl ⟨rfl,rfl⟩⟩))⟩
    unfold renderTask
    rw [hv]
    rfl
  · refine ⟨timerText spec task,?_,hinstalled.written _ _
      (mem_unitFiles.mpr (.inr ⟨task,htask,.inr ⟨rfl,rfl⟩⟩))⟩
    unfold renderTimer
    rw [hv]
    rfl
  · exact hinstalled.written _ _ (mem_unitFiles.mpr (.inl ⟨rfl,rfl⟩))

end Apply

section Sample

def nightly : WorkloadSpec :=
  { name := "web", image := "web", tasks := [⟨"backup","daily",["true"]⟩] }

/-- The timer of a task that the spec no longer names. -/
def oldTimer : World := .initial (.single Paths.default.systemdDir "kuadrat-web-task-old.timer"
  managedMarker)

theorem nightly_converges : ∃ (w' : World) (log : List (Sigma Eff.Resp)),
    Converged .default nightly oldTimer.fs.contents w'.fs.contents log ∧
    DisabledFirst (Paths.default.systemdDir.join "kuadrat-web-task-old.timer") log := by
  have hrun : ∃ answers w' log, (World.machine .default).recorder.finish answers
      (apply .default nightly).run (oldTimer,[]) = some (.ok (),(w',log)) :=
    ⟨[.output ⟨0,"",""⟩,.done,.done,.done,.done,.done,.done,.done,.done,.done,.done,
      .entries ["kuadrat-web.container","kuadrat-web-task-backup.container"],.done,
      .entries ["kuadrat-web-task-backup.timer","kuadrat-web-task-old.timer"],.done,.done,
      .output ⟨0,"",""⟩,.done,.output ⟨0,"",""⟩,.output ⟨0,"",""⟩,.output ⟨0,"",""⟩],_,_,rfl⟩
  obtain ⟨answers,w',log,hrun⟩ := hrun
  have h := tasks_converge hrun
  refine ⟨w',log,h,h.disabled _ ?_ (by decide +kernel) (by decide +kernel)⟩
  exact ⟨.inr (by decide +kernel),"kuadrat-web-task-old",by decide +kernel,by decide +kernel,
    by decide +kernel⟩

end Sample
end Kuadrat
