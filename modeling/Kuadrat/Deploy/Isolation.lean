import Kuadrat.Deploy.Reach
import Kuadrat.Workloads.Possible

/-!
# Two apps side by side

Which pairs of apps share no file. Ownership is read off file names alone, so it is
settled by the two slugs and the slugs of the tasks.
-/
namespace Kuadrat

open Effect Machine

section Belongs
variable (paths : Paths) (a b : WorkloadSpec)

/-- The file is one of the spec's: its unit, a unit of one of its tasks, or its fragment. -/
def Belongs (p : Path) : Prop :=
  p = unitPath paths b.name ∨
  (∃ task ∈ b.tasks, p = taskContainerPath paths b.name task.name ∨
    p = taskTimerPath paths b.name task.name) ∨
  p = fragmentPath paths b.slug

/-- What stands behind `kuadrat-` in the unit name of a task. -/
def taskSlug (name task : Text) : Text := slug name ++ "-task-" ++ slug task

/-- No unit name of `b` is the unit name of `a` or looks like a task of `a`. -/
def Clear : Prop := ¬LooksLikeTask a.name b.slug ∧ ∀ task ∈ b.tasks,
  taskSlug b.name task.name ≠ a.slug ∧ ¬LooksLikeTask a.name (taskSlug b.name task.name)

instance : Decidable (Clear a b) := inferInstanceAs (Decidable (_ ∧ _))

variable {paths a b} {name name' stem : Text}

theorem taskUnitName_eq_taskSlug (name task : Text) :
    taskUnitName name task = unitPrefix ++ taskSlug name task := by
  simp [taskUnitName,taskSlug]

theorem ownTask_join_timer (hs : stem ≠ []) :
    OwnTask paths name (paths.systemdDir.join (stem ++ ".timer")) ↔
      taskStemPrefix name <+: stem := by
  unfold OwnTask
  rw [fileStem_timer _ hs]
  simp

theorem ownTask_taskContainerPath {task : Text} :
    OwnTask paths name (taskContainerPath paths name' task) ↔
      LooksLikeTask name (taskSlug name' task) := by
  rw [taskContainerPath,ownTask_join_container (taskUnitName_ne_nil _ _),taskUnitName_eq_taskSlug]
  exact taskStemPrefix_prefix

theorem ownTask_taskTimerPath {task : Text} :
    OwnTask paths name (taskTimerPath paths name' task) ↔
      LooksLikeTask name (taskSlug name' task) := by
  rw [taskTimerPath,ownTask_join_timer (taskUnitName_ne_nil _ _),taskUnitName_eq_taskSlug]
  exact taskStemPrefix_prefix

theorem taskContainerPath_eq_unitPath {task : Text} :
    taskContainerPath paths name' task = unitPath paths name ↔ taskSlug name' task = slug name := by
  rw [taskContainerPath,unitPath,Path.join_inj,List.append_left_inj,taskUnitName_eq_taskSlug,unitName,
    List.append_right_inj]
  exact and_iff_right rfl

theorem fragmentPath_inj {s s' : Text} : fragmentPath paths s = fragmentPath paths s' ↔ s = s' := by
  rw [fragmentPath,fragmentPath,Path.join_inj,List.append_left_inj]
  exact and_iff_right rfl

/-- The paths that `a` claims are clear of the files of `b`. -/
theorem not_owns_of_clear (hslug : a.slug ≠ b.slug) (h : Clear a b) {p : Path}
    (hp : Belongs paths b p) : ¬Owns paths a.name p := by
  rintro (ho | ho | ho)
  · rcases hp with rfl | ⟨task,ht,rfl | rfl⟩ | rfl
    · exact hslug (unitPath_inj.mp ho).symm
    · exact (h.2 task ht).1 (taskContainerPath_eq_unitPath.mp ho)
    · exact paths.quadlet_ne_systemd (Path.join_inj.mp ho).1.symm
    · exact unitPath_ne_fragment _ _ ho.symm
  · rcases hp with rfl | ⟨task,ht,rfl | rfl⟩ | rfl
    · exact h.1 (ownTask_unitPath.mp ho)
    · exact (h.2 task ht).2 (ownTask_taskContainerPath.mp ho)
    · exact (h.2 task ht).2 (ownTask_taskTimerPath.mp ho)
    · exact not_ownTask_fragment _ _ ho
  · rcases hp with rfl | ⟨task,ht,rfl | rfl⟩ | rfl
    · exact unitPath_ne_fragment _ _ ho
    · exact paths.quadlet_ne_caddy (Path.join_inj.mp ho).1
    · exact paths.systemd_ne_caddy (Path.join_inj.mp ho).1
    · exact hslug (fragmentPath_inj.mp ho).symm

/-- Otherwise one file of the Quadlet directory is claimed by both. -/
theorem shared_of_not_clear (paths : Paths) (h : ¬Clear a b) : ∃ file : Text,
    Belongs paths b (paths.quadletDir.join file) ∧
    (paths.quadletDir.join file = unitPath paths a.name ∨
      OwnTask paths a.name (paths.quadletDir.join file)) := by
  by_cases hunit : LooksLikeTask a.name b.slug
  · exact ⟨_,.inl rfl,.inr (ownTask_unitPath.mpr hunit)⟩
  have htasks : ¬∀ task ∈ b.tasks, taskSlug b.name task.name ≠ a.slug ∧
      ¬LooksLikeTask a.name (taskSlug b.name task.name) := fun ht => h ⟨hunit,ht⟩
  push Not at htasks
  obtain ⟨task,ht,himp⟩ := htasks
  refine ⟨_,.inr (.inl ⟨task,ht,.inl rfl⟩),?_⟩
  by_cases hs : taskSlug b.name task.name = a.slug
  · exact .inl (taskContainerPath_eq_unitPath.mpr hs)
  · exact .inr (ownTask_taskContainerPath.mpr (himp hs))

end Belongs

section Isolated
variable {paths : Paths} {a b : WorkloadSpec}

/-- Nothing that is done for `a`, finished or cut short, changes a file of `b`. -/
structure Isolated (paths : Paths) (a b : WorkloadSpec) : Prop where
  apply : ∀ w w' answers rest,
    (World.machine paths).advance answers (apply paths a).run w = some (rest,w') →
    SameFiles (Belongs paths b) w w'
  remove : ∀ w w' answers rest,
    (World.machine paths).advance answers (remove paths a.name).run w = some (rest,w') →
    SameFiles (Belongs paths b) w w'
  deploy : ∀ codec repo d w w' answers rest,
    StoredName ⟨paths,codec⟩ (· = a.name) a.name w.store →
    (World.machine paths).advance answers (runReserved ⟨paths,codec⟩ a repo d).run w =
      some (rest,w') →
    SameFiles (Belongs paths b) w w'
  reconcile : ∀ codec row w w' answers rest, row.app = a.name →
    StoredName ⟨paths,codec⟩ (· = a.name) a.name w.store →
    (World.machine paths).advance answers (reconcileRow ⟨paths,codec⟩ row).run w =
      some (rest,w') →
    SameFiles (Belongs paths b) w w'

theorem isolated_of_clear (hslug : a.slug ≠ b.slug) (h : Clear a b) : Isolated paths a b := by
  have hD : ∀ codec, Deploys (fun e => ∀ p, Belongs paths b p → ¬e.Touches p) ⟨paths,codec⟩
      fun n => n = a.name := fun codec => deploys_clear fun p hp => not_owns_of_clear hslug h hp
  have hsame : ∀ w, SameFiles (Belongs paths b) w w := fun _ _ _ => rfl
  refine ⟨fun w w' answers rest hrun => ?_,fun w w' answers rest hrun => ?_,
    fun codec repo d w w' answers rest hstored hrun => ?_,
    fun codec row w w' answers rest hrow hstored hrun => ?_⟩
  · have hall := all_mono ((hD serde).units a rfl) apply_within
    exact cut_of_wp ((kept_sameFiles w).wp (fun _ => id) hall (hsame w)) hrun
  · have hall := all_mono ((hD serde).removal a.name rfl) remove_within
    exact cut_of_wp ((kept_sameFiles w).wp (fun _ => id) hall (hsame w)) hrun
  · exact cut_of_wp (wp_runReserved_kept (kept_sameFiles w) (fun _ => id) (hsame w) hstored (hD codec)
      rfl rfl repo d) hrun
  · exact cut_of_wp (wp_reconcileRow_kept (kept_sameFiles w) (fun _ => id) (hsame w) hstored
      (hD codec).toUndoes hrow rfl) hrun

/-- Two specs with different slugs are isolated exactly when no unit name of `b` can be taken for
one of `a`. -/
theorem isolated_iff_clear (paths : Paths) (a b : WorkloadSpec) (hslug : a.slug ≠ b.slug) :
    Isolated paths a b ↔ Clear a b := by
  refine ⟨fun hiso => ?_,isolated_of_clear hslug⟩
  by_contra hclear
  obtain ⟨file,hbelongs,howns⟩ := shared_of_not_clear paths hclear
  -- A host whose only file is that one, with the marker that every file of kuadrat has.
  have hcan := remove_can (w := .initial (.single paths.quadletDir file managedMarker))
    (List.prefix_refl _) rfl howns
  obtain ⟨answers,r,w',hfin,a',rfl,-⟩ := can_finish hcan
  have hremoved := wpOk_finish remove_ok hfin
  have hgone : w'.fs.contents (paths.quadletDir.join file) = none := by
    rcases howns with howns | howns
    · exact howns ▸ hremoved.unit
    · exact hremoved.tasks _ howns
  have hkept := hiso.remove _ w' answers _ ((finish_eq_some _).mp hfin) _ hbelongs
  rw [hgone] at hkept
  simp [World.initial,FileTree.contents_single] at hkept

end Isolated

section Example

def webSpec : WorkloadSpec := { name := "web", image := "localhost/web" }

theorem web_api_isolated : Isolated .default webSpec { webSpec with name := "api" } :=
  (isolated_iff_clear .default webSpec { webSpec with name := "api" } (by decide +kernel)).mpr
    (by decide +kernel)

/-- Its slug starts like the units of the tasks of `web`. -/
def nestedSpec : WorkloadSpec := { webSpec with name := "web task x" }

/-- Only the second app is deployed. -/
def nestedWorld : World :=
  .initial (.single ["","etc","containers","systemd"] "kuadrat-web-task-x.container"
    (unitText nestedSpec))

/-- The first apply of `web`, on a host where `web task x` runs. -/
def webApply : List Answer :=
  [.done,.done,.done,.done,.done,
    .entries ["kuadrat-web.container","kuadrat-web-task-x.container"],.done,.done,.done,.done,
    succeeds "",succeeds ""]

/-- Both apps are valid and can be registered, and applying the first deletes the second's unit. -/
theorem nested_slug_pruned :
    (webSpec.validate = .ok () ∧ nestedSpec.validate = .ok () ∧ webSpec.slug ≠ nestedSpec.slug) ∧
    (∃ s, Store.empty.registerApp ⟨"web","/srv/web",none⟩ = .ok s ∧
      ∃ s', s.registerApp ⟨"web task x","/srv/x",none⟩ = .ok s') ∧
    nestedWorld.fs.contents (unitPath .default nestedSpec.name) = some (unitText nestedSpec) ∧
    ((World.machine .default).finish webApply (apply .default webSpec).run nestedWorld).map
      (fun r => (r.1,r.2.fs.contents (unitPath .default nestedSpec.name))) =
      some (.ok (),none) := by
  refine ⟨by decide +kernel,?_,by decide +kernel,by decide +kernel⟩
  exact ⟨_,rfl,_,rfl⟩

end Example
end Kuadrat
