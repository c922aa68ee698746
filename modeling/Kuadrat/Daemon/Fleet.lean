import Kuadrat.Daemon.DeployJson
import Kuadrat.Daemon.Pages
import Kuadrat.Daemon.System
import Kuadrat.Workloads.Halfway
import Kuadrat.Workloads.Query
import Kuadrat.Workloads.Running

/-!
# The state of the fleet

`status` looks for an app's unit and asks systemd about its service. Over any history of applies
and removes, on a host where services exit and are started again without kuadrat, an app none of
whose own calls failed is told as it is, whatever became of the calls for other apps.
-/
namespace Kuadrat

open Effect
open Mcp (SerdeJson)

section Status

/-- What the first word of `systemctl is-active` says. -/
def stateOf (word : Text) : WorkloadState :=
  if word = "active" then .running
  else if word = "inactive" then .stopped
  else if word = "failed" then .failed
  else .unknown

theorem stateOf_running {word : Text} : stateOf word = .running ↔ word = "active" := by
  unfold stateOf
  split
  · exact ⟨fun _ => ‹_›,fun _ => rfl⟩
  · rename_i hne
    refine ⟨fun h => ?_,fun h => absurd h hne⟩
    split at h
    · cases h
    · split at h <;> cases h

theorem stateOf_ne_notInstalled (word : Text) : stateOf word ≠ .notInstalled := by
  unfold stateOf
  split
  · nofun
  · split
    · nofun
    · split <;> nofun

/-- Current state of a workload; `notInstalled` when no unit file exists. -/
def status (paths : Paths) (name : Text) : Run WorkloadState := do
  if ← Run.present (unitPath paths name) then
    let out ← Run.exec (.isActive (unitName name))
    return stateOf out.stdout.trim
  else return .notInstalled

end Status

section Services

/-- What happens on a host without kuadrat: a service exits, systemd starts the definition that it
has loaded or loads what is on the disk, and anything outside the Quadlet directory changes. -/
inductive World.Drifts (paths : Paths) (w : World) : World → Prop
  | exits (unit : Text) : Drifts paths w { w with
    systemd := { w.systemd with running := Function.update w.systemd.running unit none } }
  | starts (unit : Text) : Drifts paths w { w with systemd := { w.systemd with
    running := Function.update w.systemd.running unit (w.systemd.loaded unit) } }
  | reloads : Drifts paths w { w with systemd := w.systemd.execute paths w.fs .daemonReload }
  | elsewhere {w' : World} (hfiles : ∀ p, Path.Inside paths.quadletDir p →
      w'.fs.contents p = w.fs.contents p ∧ (p ∈ w'.fs.dirs ↔ p ∈ w.fs.dirs))
    (hsystemd : w'.systemd = w.systemd) : Drifts paths w w'

/-- The unit that a command starts or stops. -/
def Command.service : Command → Option Text
  | .start unit | .restart unit | .stop unit => some unit
  | _ => none

theorem execute_others {paths : Paths} {fs : FileTree} {s : Systemd} {c : Command} {unit : Text}
    (h : c.service ≠ some unit) : (s.execute paths fs c).running unit = s.running unit ∧
      ((s.execute paths fs c).loaded unit = s.loaded unit ∨
        (s.execute paths fs c).loaded unit = fs.contents (definitionPath paths unit)) := by
  cases c with
  | daemonReload => exact ⟨rfl,.inr rfl⟩
  | start u =>
    have hne : unit ≠ u := fun heq => h (congrArg some heq.symm)
    refine ⟨?_,?_⟩
    · simp only [Systemd.execute]
      split
      · rfl
      · exact Function.update_of_ne hne _ _
    · simp only [Systemd.execute]
      split <;> exact .inl rfl
  | restart u => exact ⟨Function.update_of_ne (fun heq => h (congrArg some heq.symm)) _ _,.inl rfl⟩
  | stop u => exact ⟨Function.update_of_ne (fun heq => h (congrArg some heq.symm)) _ _,.inl rfl⟩
  | _ => exact ⟨rfl,.inl rfl⟩

end Services

section Standing
variable (paths : Paths) (name : Text)

/-- The unit of an app, what systemd has loaded of it and what it runs are those of its current
spec; without one there is none. -/
structure Standing (current : Option WorkloadSpec) (w : World) : Prop where
  unit : w.fs.contents (unitPath paths name) = current.map unitText
  free : unitPath paths name ∉ w.fs.dirs
  loaded : w.systemd.loaded (unitName name) = current.map unitText
  running : w.systemd.running (unitName name) = none ∨
    w.systemd.running (unitName name) = current.map unitText

/-- The effect leaves the app's unit and its service alone. -/
structure Eff.Spares (e : Eff) : Prop where
  file : ¬e.Touches (unitPath paths name)
  service : ∀ c, e = .run c → c.service ≠ some (unitName name)

/-- A directory that is made is one of the two unit directories. -/
def Eff.MakesUnitDirs (e : Eff) : Prop :=
  ∀ p, e = .createDirAll p → p = paths.quadletDir ∨ p = paths.systemdDir

variable {paths name} {current : Option WorkloadSpec} {w w' : World} {ok : Eff → Answer → Prop}

theorem Standing.congr {name' : Text} (hslug : slug name = slug name')
    (h : Standing paths name current w) : Standing paths name' current w := by
  have hunit : unitName name = unitName name' := congrArg (unitPrefix ++ ·) hslug
  have hpath : unitPath paths name = unitPath paths name' := unitPath_inj.mpr hslug
  exact ⟨hpath ▸ h.unit,hpath ▸ h.free,hunit ▸ h.loaded,hunit ▸ h.running⟩

theorem inside_unitPath : Path.Inside paths.quadletDir (unitPath paths name) := by simp [unitPath]

theorem Standing.drift (h : Standing paths name current w) (hdrift : w.Drifts paths w') :
    Standing paths name current w' := by
  cases hdrift with
  | exits unit =>
    refine ⟨h.unit,h.free,h.loaded,?_⟩
    by_cases hu : unitName name = unit
    · exact .inl (hu ▸ Function.update_self _ _ _)
    · have hsame := Function.update_of_ne hu none w.systemd.running
      exact h.running.imp hsame.trans hsame.trans
  | starts unit =>
    refine ⟨h.unit,h.free,h.loaded,?_⟩
    by_cases hu : unitName name = unit
    · subst hu
      exact .inr ((Function.update_self _ _ _).trans h.loaded)
    · have hsame := Function.update_of_ne hu (w.systemd.loaded unit) w.systemd.running
      exact h.running.imp hsame.trans hsame.trans
  | reloads => exact ⟨h.unit,h.free,h.unit,h.running⟩
  | elsewhere hfiles hsystemd =>
    obtain ⟨hunit,hdirs⟩ := hfiles _ inside_unitPath
    exact ⟨hunit.trans h.unit,fun hmem => h.free (hdirs.mp hmem),hsystemd ▸ h.loaded,
      hsystemd ▸ h.running⟩

/-- A unit directory that is made is not made in the place of a unit. -/
theorem free_of_answer {e : Eff} {x : Answer} {r : e.Resp} (hdirs : e.MakesUnitDirs paths)
    (ha : w.answer paths e x = some (r,w')) (hfree : unitPath paths name ∉ w.fs.dirs) :
    unitPath paths name ∉ w'.fs.dirs := by
  have hin : Path.Inside paths.quadletDir (unitPath paths name) := inside_unitPath
  obtain ⟨hquadlet,hsystemd⟩ := not_prefix_of_inside (.inl hin)
  rcases answer_cases ha with rfl | ⟨p,t,fs,rfl,hfs,rfl⟩ | ⟨p,fs,rfl,hfs,rfl⟩ |
    ⟨p,fs,rfl,hfs,rfl⟩ | ⟨c,rfl,rfl⟩ | ⟨o,rfl,rfl⟩ | ⟨event,rfl,rfl⟩
  case inr.inl => rwa [FileTree.dirs_of_write hfs]
  case inr.inr.inl =>
    rw [(FileTree.createDirAll_eq_some hfs).2,List.mem_append,List.mem_inits]
    rintro (habove | hold)
    · rcases hdirs p rfl with rfl | rfl
      · exact hquadlet habove
      · exact hsystemd habove
    · exact hfree hold
  case inr.inr.inr.inl => rwa [FileTree.dirs_of_removeFile hfs]
  all_goals exact hfree

/-- What an effect that spares the app does changes nothing of it. -/
theorem Standing.answer {e : Eff} {x : Answer} {r : e.Resp} (h : Standing paths name current w)
    (hspares : e.Spares paths name) (hdirs : e.MakesUnitDirs paths)
    (ha : w.answer paths e x = some (r,w')) : Standing paths name current (w'.record e) := by
  have hfree := free_of_answer hdirs ha h.free
  have hunit : w'.fs.contents (unitPath paths name) = w.fs.contents (unitPath paths name) := by
    rcases contents_of_answer ha with hsame | ⟨p,t,rfl,hwrite⟩ | ⟨p,rfl,hremove⟩
    · rw [hsame]
    · exact hwrite ▸ Function.update_of_ne (fun heq => hspares.file heq.symm) _ _
    · exact hremove ▸ Function.update_of_ne (fun heq => hspares.file heq.symm) _ _
  rcases systemd_of_answer ha with hsame | ⟨c,rfl,hexecute⟩
  · exact ⟨hunit.trans h.unit,hfree,hsame ▸ h.loaded,hsame ▸ h.running⟩
  · obtain ⟨hrunning,hloaded⟩ := @execute_others paths w.fs w.systemd c _ (hspares.service c rfl)
    refine ⟨hunit.trans h.unit,hfree,?_,?_⟩
    · rw [World.record_systemd,hexecute]
      rcases hloaded with hl | hl
      · exact hl.trans h.loaded
      · exact hl.trans h.unit
    · rw [World.record_systemd,hexecute]
      exact h.running.imp hrunning.trans hrunning.trans

end Standing

section Calls
variable {paths : Paths} {name : Text} {current : Option WorkloadSpec} {w : World}
  {ok : Eff → Answer → Prop} {spec : WorkloadSpec} {other : Text}

theorem spares_run {c : Command} (h : c.service ≠ some (unitName name)) :
    (Eff.run c).Spares paths name := by
  refine ⟨id,fun c' hc => ?_⟩
  cases hc
  exact h

theorem unitName_ne (h : slug other ≠ slug name) : some (unitName other) ≠ some (unitName name) :=
  fun heq => h (List.append_cancel_left (Option.some.inj heq))

section Other
variable (hslug : slug other ≠ slug name) (hlooks : ¬LooksLikeTask other (slug name))
include hslug hlooks

/-- Neither the unit nor a task file of another app is the unit of this one. -/
theorem ne_unitPath {p : Path} (hp : p = unitPath paths other ∨ OwnTask paths other p) :
    p ≠ unitPath paths name := by
  rintro rfl
  rcases hp with hunit | hown
  · exact hslug (unitPath_inj.mp hunit.symm)
  · exact hlooks (ownTask_unitPath.mp hown)

theorem prunes_spares {keep : List Text} : Prunes (Eff.Spares paths name) paths other keep where
  present _ := ⟨id,nofun⟩
  read _ := ⟨id,nofun⟩
  list _ := ⟨id,nofun⟩
  disable _ := spares_run nofun
  removes _ hstale := ⟨ne_unitPath hslug hlooks (.inr hstale.own),nofun⟩

theorem remove_spares : All (Eff.Spares paths name) (remove paths other).run :=
  all_remove {
    toPrunes := prunes_spares hslug hlooks
    removeUnit := ⟨ne_unitPath hslug hlooks (.inl rfl),nofun⟩
    stop := spares_run (unitName_ne hslug)
    reload := spares_run nofun }

end Other

theorem apply_spares (hslug : slug spec.name ≠ slug name)
    (hlooks : ¬LooksLikeTask spec.name (slug name)) :
    All (Eff.Spares paths name) (apply paths spec).run :=
  all_apply {
    toPrunes := prunes_spares hslug hlooks
    preflight := fun _ => spares_run nofun
    create := fun _ => ⟨id,nofun⟩
    writes := fun _ _ _ hmem => ⟨ne_unitPath hslug hlooks (owns_of_mem_unitFiles hmem),nofun⟩
    reload := spares_run nofun
    start := spares_run (unitName_ne hslug)
    restart := spares_run (unitName_ne hslug)
    enable := fun _ => spares_run nofun }

theorem inspects_unitDirs : Inspects (Eff.MakesUnitDirs paths) :=
  ⟨fun _ => nofun,fun _ => nofun⟩

theorem prunes_unitDirs {keep : List Text} : Prunes (Eff.MakesUnitDirs paths) paths other keep where
  toInspects := inspects_unitDirs
  list _ := nofun
  disable _ := nofun
  removes _ _ := nofun

theorem remove_makesUnitDirs : All (Eff.MakesUnitDirs paths) (remove paths other).run :=
  all_remove { toPrunes := prunes_unitDirs, removeUnit := nofun, stop := nofun, reload := nofun }

theorem apply_makesUnitDirs : All (Eff.MakesUnitDirs paths) (apply paths spec).run := by
  by_cases hv : spec.validate = .ok ()
  · have hwrite : ∀ p t, All (Eff.MakesUnitDirs paths) (Run.write p t).run :=
      fun p t => all_perform nofun
    rw [apply_of_valid hv]
    refine all_run_bind (all_forM fun task _ => all_preflight (fun _ => nofun) task) fun _ => ?_
    refine all_run_bind (all_checkOwned inspects_unitDirs _ _) fun _ => ?_
    refine all_run_bind (all_readPrevious inspects_unitDirs _) fun previous => ?_
    refine all_run_bind ?_ fun _ => ?_
    · refine all_run_bind (all_perform fun p hp => .inl (by cases hp; rfl)) fun _ => ?_
      refine all_run_bind (all_when (all_perform fun p hp => .inr (by cases hp; rfl))) fun _ => ?_
      refine all_run_bind (hwrite _ _) fun _ => all_forM fun tf _ => ?_
      exact all_run_bind (hwrite _ _) fun _ => hwrite _ _
    refine all_run_bind (all_pruneTasks prunes_unitDirs) fun _ => ?_
    refine all_run_bind (all_systemctl nofun) fun _ => ?_
    exact all_run_bind (all_systemctl nofun) fun _ => all_forM fun tf _ => all_systemctl nofun
  · obtain ⟨e,heq⟩ := apply_of_not_valid hv
    rw [heq]
    trivial

/-- A call for another app, however it ends, changes nothing of this one. -/
theorem Standing.other_call {call : FleetCall} (h : Standing paths name current w)
    (hslug : slug call.workload ≠ slug name) (hlooks : ¬LooksLikeTask call.workload (slug name)) :
    wp (hostSpec paths ok (Standing paths name current)) (call.program paths).run
      (fun _ => Standing paths name current) w := by
  have hall : All (fun e => e.Spares paths name ∧ e.MakesUnitDirs paths)
      (call.program paths).run := by
    cases call with
    | apply spec => exact all_and (apply_spares hslug hlooks) apply_makesUnitDirs
    | remove other => exact all_and (remove_spares hslug hlooks) remove_makesUnitDirs
  exact wp_invariant _ hall h (fun _ hw => hw) fun w e x r w' hA _ hw ha => hw.answer hA.1 hA.2 ha

theorem execute_loaded {fs : FileTree} {s : Systemd} {c : Command} (h : c ≠ .daemonReload) :
    (s.execute paths fs c).loaded = s.loaded := by
  cases c with
  | daemonReload => exact absurd rfl h
  | start u =>
    simp only [Systemd.execute]
    split <;> rfl
  | _ => rfl

/-- Activation reloads first, and loads nothing anew after that. -/
theorem activate_loaded {previous : Option Text} {unit : Text} {files : List TaskFiles}
    (hdisk : w.fs.contents (unitPath paths name) = some unit) :
    wpOk (host paths ok) (activate name previous unit files)
      (fun _ w' => w'.systemd.loaded (unitName name) = some unit) w := by
  refine wpOk_seq (systemctl_execute _) fun _ w₁ h₁ => ?_
  have hloaded : w₁.systemd.loaded (unitName name) = some unit := by
    rw [h₁.2]
    exact hdisk
  refine wpOk_of_wp (wp_invariant (fun w' => w'.systemd.loaded (unitName name) = some unit)
    (A := fun e => e ≠ .run .daemonReload) ?_ hloaded (fun _ _ => trivial) ?_)
  · refine all_run_bind (all_systemctl ?_) fun _ => all_forM fun tf _ => all_systemctl nofun
    split <;> exact nofun
  intro w e x r w' hA _ hw ha
  rcases systemd_of_answer ha with hsame | ⟨c,rfl,hexecute⟩
  · rw [World.record_systemd,hsame,hw]
  · rw [World.record_systemd,hexecute,execute_loaded fun hc => hA (congrArg Eff.run hc),hw]

theorem apply_loaded : wpOk (host paths ok) (apply paths spec)
    (fun _ w' => w'.systemd.loaded (unitName spec.name) = some (unitText spec)) w := by
  by_cases hv : spec.validate = .ok ()
  · rw [apply_of_valid hv]
    have hany : ∀ {α : Type} (p : Run α) w, wpOk (host paths ok) p (fun _ _ => True) w :=
      wpOk_true fun _ _ => trivial
    refine wpOk_seq (hany _ _) fun _ w₁ _ => wpOk_seq (hany _ _) fun _ w₂ _ => ?_
    refine wpOk_seq (hany _ _) fun previous w₃ _ => ?_
    refine wpOk_seq (writeUnits_ok hv) fun _ w₄ h₄ => wpOk_seq pruneTasks_ok fun _ w₅ h₅ => ?_
    have hmem : (unitPath paths spec.name,unitText spec) ∈ unitFiles paths spec :=
      mem_unitFiles.mpr (.inl ⟨rfl,rfl⟩)
    refine activate_loaded ?_
    rw [(h₅ _).2 (not_stale_of_mem hmem),h₄.written _ _ hmem]
  · obtain ⟨e,heq⟩ := apply_of_not_valid hv
    rw [heq]
    exact wpOk_throw _ _ _

theorem free_ok {α : Type} {p : Run α} (h : All (Eff.MakesUnitDirs paths) p.run)
    (hfree : unitPath paths name ∉ w.fs.dirs) :
    wpOk (host paths ok) p (fun _ w' => unitPath paths name ∉ w'.fs.dirs) w := by
  refine wpOk_of_wp (wp_invariant (fun w' => unitPath paths name ∉ w'.fs.dirs) h hfree
    (fun _ _ => trivial) fun w e x r w' hA _ hw ha => ?_)
  have hstill := free_of_answer hA ha hw
  exact hstill

/-- An app that is applied stands by its new spec: what ran before was its old unit or nothing. -/
theorem Standing.apply (h : Standing paths spec.name current w) : wpOk (host paths ok)
    (apply paths spec) (fun _ w' => Standing paths spec.name (some spec) w') w := by
  refine wpOk_mono (wpOk_and (wpOk_and apply_ok apply_running)
    (wpOk_and apply_loaded (free_ok apply_makesUnitDirs h.free))) fun _ w' hw => ?_
  obtain ⟨⟨hinstalled,-,hrunning⟩,hloaded,hfree⟩ := hw
  refine ⟨hinstalled.written _ _ (mem_unitFiles.mpr (.inl ⟨rfl,rfl⟩)),hfree,hloaded,.inr ?_⟩
  rw [hrunning,h.unit,runningAfter]
  split
  · rfl
  · rename_i hsame
    rcases h.running with hnone | hcurrent
    · rw [hnone]
      rfl
    · rw [hcurrent]
      cases hc : current with
      | none => rfl
      | some old =>
        rw [hc] at hsame
        have hunit : unitText old = unitText spec := by simpa using hsame
        simp [hunit]

/-- After its removal nothing of an app is left. -/
theorem Standing.remove (h : Standing paths name current w) : wpOk (host paths ok)
    (remove paths name) (fun _ w' => Standing paths name none w') w := by
  have hservice : wpOk (host paths ok) (Kuadrat.remove paths name) (fun _ w' =>
      w'.systemd.loaded (unitName name) = none ∧ w'.systemd.running (unitName name) = none) w := by
    refine wpOk_seq (wpOk_and pruneTasks_ok (wpOk_of_wp (wp_systemd_frame
      (all_pruneTasks prunes_unmanaging)))) fun pruned w₁ h₁ => ?_
    have hunit : w₁.fs.contents (unitPath paths name) = current.map unitText := by
      rw [(h₁.1 _).2 fun hstale => not_ownTask_unitPath name hstale.own,h.unit]
    refine wpOk_seq (wpOk_and (ensureOwned_ok _ _ _) (wpOk_of_wp (wp_systemd_frame
      (all_ensureOwned inspects_unmanaging _ _ _)))) fun owned w₂ h₂ => ?_
    obtain ⟨⟨hfs,-,habsent⟩,hsystemd⟩ := h₂
    split
    · refine wpOk_seq (systemctl_execute _) fun _ w₃ h₃ => ?_
      have hremove : All Eff.Unmanaging (Run.removeFile (unitPath paths name)).run :=
        all_perform nofun
      refine wpOk_seq (wpOk_and (removeFile_ok _) (wpOk_of_wp (wp_systemd_frame hremove)))
        fun _ w₄ h₄ => wpOk_mono (systemctl_execute _) fun _ w₅ h₅ => ?_
      rw [h₅.2,h₄.2,h₃.2]
      refine ⟨?_,Function.update_self _ _ _⟩
      change w₄.fs.contents (unitPath paths name) = none
      rw [h₄.1,Function.update_self]
    · rename_i ho
      have hnone : current.map unitText = none := hunit ▸ habsent (by simpa using ho)
      have hloaded : w₂.systemd.loaded (unitName name) = none := by
        rw [hsystemd,h₁.2,h.loaded,hnone]
      have hrunning : w₂.systemd.running (unitName name) = none := by
        rw [hsystemd,h₁.2]
        exact h.running.elim id fun hr => hr.trans hnone
      refine when_ok (fun _ => ?_) fun _ => ⟨hloaded,hrunning⟩
      refine wpOk_mono (systemctl_execute _) fun _ w₃ h₃ => ?_
      rw [h₃.2]
      refine ⟨?_,hrunning⟩
      change w₂.fs.contents (unitPath paths name) = none
      rw [hfs,hunit,hnone]
  refine wpOk_mono (wpOk_and (wpOk_and remove_ok hservice) (free_ok remove_makesUnitDirs h.free))
    fun _ w' hw => ?_
  obtain ⟨⟨hremoved,hloaded,hrunning⟩,hfree⟩ := hw
  exact ⟨hremoved.unit,hfree,hloaded,.inl hrunning⟩

end Calls

section History

/-- Calls, the latest first, each with its result; one without a result died half-way. -/
abbrev Past := List (FleetCall × Option (Except Message Unit))

/-- The result of a call that has returned. -/
def returned {α : Type} : Prog Eff Eff.Resp α → Option α
  | .ret a => some a
  | .op .. => none

/-- The history of a host: calls one after the other, each of which may fail or die anywhere, and
a host that changes in between. -/
inductive Operated (paths : Paths) (w₀ : World) : Past → World → Prop
  | start : Operated paths w₀ [] w₀
  | call {past : Past} {w w' : World} {p : Prog Eff Eff.Resp (Except Message Unit)}
    {answers : List Answer} (call : FleetCall) : Operated paths w₀ past w →
    (World.machine paths).advance answers (call.program paths).run w = some (p,w') →
    Operated paths w₀ ((call,returned p)::past) w'
  | drift {past : Past} {w w' : World} : Operated paths w₀ past w → w.Drifts paths w' →
    Operated paths w₀ past w'

def FleetCall.applied : FleetCall → Option WorkloadSpec
  | apply spec => some spec
  | remove _ => none

/-- The spec that an app was last applied with, unless it was removed since. -/
def currentSpec (name : Text) (past : Past) : Option WorkloadSpec :=
  (past.find? fun e => slug e.1.workload = slug name).bind fun e => e.1.applied

/-- Every call for the app has returned without an error, and no call was for an app that takes
its unit for one of its own tasks. -/
def Untroubled (name : Text) (past : Past) : Prop :=
  ∀ e ∈ past, if slug e.1.workload = slug name then e.2 = some (.ok ())
    else ¬LooksLikeTask e.1.workload (slug name)

variable {paths : Paths} {name : Text} {current : Option WorkloadSpec} {w₀ w w' : World}
  {past : Past}

theorem Standing.own_call {call : FleetCall} (h : Standing paths name current w)
    (hslug : slug call.workload = slug name) : wpOk (host paths fun _ _ => True)
      (call.program paths) (fun _ w' => Standing paths name call.applied w') w := by
  cases call with
  | apply spec =>
    exact wpOk_mono (h.congr hslug.symm).apply fun _ _ h' => h'.congr hslug
  | remove other =>
    exact wpOk_mono (h.congr hslug.symm).remove fun _ _ h' => h'.congr hslug

/-- Along a history that does not trouble it, an app stands by the spec applied last. -/
theorem Operated.standing (h : Operated paths w₀ past w) (hnew : Standing paths name none w₀)
    (hpast : Untroubled name past) : Standing paths name (currentSpec name past) w := by
  induction h with
  | start => exact hnew
  | @call past w w' p answers call _ hrun ih =>
    obtain ⟨hcall,hpast⟩ := List.forall_mem_cons.mp hpast
    have hw := ih hpast
    have hallowed : ∀ ok : Eff → Answer → Prop, (∀ e x, ok e x) →
        (World.machine paths).Allowed ok answers (call.program paths).run w :=
      fun ok hok => Machine.allowed_of_forall _ (fun e x _ => hok e x) _ _
    by_cases hslug : slug call.workload = slug name
    · have hcurrent : currentSpec name ((call,returned p)::past) = call.applied := by
        rw [currentSpec,List.find?_cons_of_pos (by simpa using hslug)]
        rfl
      have hreturned : returned p = some (.ok ()) := by simpa [hslug] using hcall
      cases p with
      | op e k => cases hreturned
      | ret r =>
        rw [hcurrent]
        exact Machine.wp_complete _ (hw.own_call hslug) (hallowed _ fun _ _ => trivial) hrun ()
          (Option.some.inj hreturned)
    · have hcurrent : currentSpec name ((call,returned p)::past) = currentSpec name past := by
        rw [currentSpec,List.find?_cons_of_neg (by simpa using hslug)]
        rfl
      rw [hcurrent]
      exact Machine.wp_cut _ (hw.other_call hslug (by simpa [hslug] using hcall))
        (fun _ _ h => h) (hallowed (fun _ _ => True) fun _ _ => trivial) hrun
  | drift _ hdrift ih => exact (ih hpast).drift hdrift

/-- systemd calls a service active exactly when it runs. -/
def saysActive (w : World) : (e : Eff) → e.Resp → Bool
  | .run (.isActive unit), .ok out =>
    (out.stdout.trim == ("active" : Text)) == (w.systemd.running unit).isSome
  | _, _ => true

def tellingHost (paths : Paths) : Machine Eff Eff.Resp Answer World :=
  (World.machine paths).restrictIn saysActive

/-- What is said of an app is so: it is not installed exactly when it was never applied or is
removed, and it is running exactly when systemd runs the unit of the spec applied last. -/
structure Truthful (name : Text) (past : Past) (w : World) (state : WorkloadState) : Prop where
  installed : state = .notInstalled ↔ currentSpec name past = none
  running : state = .running ↔ ∃ spec, currentSpec name past = some spec ∧
    w.systemd.running (unitName name) = some (unitText spec)

theorem Standing.present_iff (h : Standing paths name current w) :
    w.fs.present (unitPath paths name) = current.isSome := by
  have hdir : w.fs.dirs.contains (unitPath paths name) = false := by simpa using h.free
  rw [FileTree.present,h.unit,hdir,Bool.or_false,Option.isSome_map]

section Telling
variable {ok : Eff → Answer → Prop}

theorem wp_telling {e : Eff} {Q : e.Resp → World → Prop}
    (h : ∀ x r w', w.answer paths e x = some (r,w') → saysActive w e r = true → Q r (w'.record e)) :
    wp ((tellingHost paths).spec ok fun _ => True) (.perform e) Q w := by
  refine ⟨trivial,fun r w' hr => ?_⟩
  obtain ⟨hgood,x,-,hs⟩ := Machine.restrictIn_post _ |>.mp hr
  simp only [World.machine,Option.map_eq_some_iff,Prod.mk.injEq] at hs
  obtain ⟨⟨r',w''⟩,ha,rfl,rfl⟩ := hs
  exact h x r' w'' ha hgood

/-- The files and the services of two worlds are the same. -/
def World.Alike (w w' : World) : Prop := w'.fs = w.fs ∧ w'.systemd = w.systemd

theorem World.Alike.trans {w₁ w₂ : World} (h : w.Alike w₁) (h' : w₁.Alike w₂) : w.Alike w₂ :=
  ⟨h'.1.trans h.1,h'.2.trans h.2⟩

theorem present_telling {p : Path} : wp ((tellingHost paths).spec ok fun _ => True)
    (Run.present p).run (fun r w' => w.Alike w' ∧ ∀ b, r = .ok b → b = w.fs.present p) w := by
  refine wp_telling fun x r w' ha _ => ?_
  cases x <;> simp only [World.answer,Option.some.injEq,Prod.mk.injEq,reduceCtorEq] at ha
  · obtain ⟨rfl,rfl⟩ := ha
    exact ⟨⟨rfl,rfl⟩,fun b hb => by cases hb⟩
  · obtain ⟨rfl,rfl⟩ := ha
    exact ⟨⟨rfl,rfl⟩,fun b hb => (Except.ok.inj hb).symm⟩

theorem isActive_telling {unit : Text} : wp ((tellingHost paths).spec ok fun _ => True)
    (Run.exec (.isActive unit)).run (fun r w' => w.Alike w' ∧ ∀ out, r = .ok out →
      (out.stdout.trim = "active" ↔ (w.systemd.running unit).isSome)) w := by
  refine wp_telling fun x r w' ha hgood => ?_
  cases x <;> simp only [World.answer,Option.some.injEq,Prod.mk.injEq,reduceCtorEq] at ha
  · obtain ⟨rfl,rfl⟩ := ha
    exact ⟨⟨rfl,rfl⟩,fun b hb => by cases hb⟩
  · rename_i out
    obtain ⟨rfl,rfl⟩ := ha
    refine ⟨?_,fun out' hout => ?_⟩
    · split <;> exact ⟨rfl,rfl⟩
    · cases hout
      have hsame : (out.stdout.trim == ("active" : Text)) = (w.systemd.running unit).isSome :=
        beq_iff_eq.mp hgood
      rw [← hsame,beq_iff_eq]

/-- What `status` comes to on a host: it looks for the unit, and for the service behind it. -/
structure Seen (paths : Paths) (name : Text) (w : World) (state : WorkloadState) : Prop where
  unit : state = .notInstalled ↔ w.fs.present (unitPath paths name) = false
  service : state = .running ↔ w.fs.present (unitPath paths name) = true ∧
    (w.systemd.running (unitName name)).isSome

/-- Asking changes nothing. -/
theorem status_seen : wp ((tellingHost paths).spec ok fun _ => True) (status paths name).run
    (fun r w' => w.Alike w' ∧ ∀ state, r = .ok state → Seen paths name w state) w := by
  refine wp_run_seq present_telling (fun b w₁ h₁ => ?_) fun e w₁ h₁ => ⟨h₁.1,nofun⟩
  have hb := h₁.2 b rfl
  split
  · rename_i hpresent
    refine wp_run_seq isActive_telling (fun out w₂ h₂ => ?_)
      fun e w₂ h₂ => ⟨h₁.1.trans h₂.1,nofun⟩
    refine ⟨h₁.1.trans h₂.1,fun state hstate => ?_⟩
    obtain rfl := Except.ok.inj hstate
    refine ⟨iff_of_false (stateOf_ne_notInstalled _) (by simp [← hb,hpresent]),?_⟩
    rw [stateOf_running,h₂.2 out rfl,h₁.1.2]
    exact (and_iff_right (hb.symm.trans hpresent)).symm
  · rename_i habsent
    have hfalse : w.fs.present (unitPath paths name) = false := hb.symm.trans (by simpa using habsent)
    refine ⟨h₁.1,fun state hstate => ?_⟩
    obtain rfl := Except.ok.inj hstate
    refine ⟨iff_of_true rfl hfalse,iff_of_false nofun fun hservice => ?_⟩
    rw [hfalse] at hservice
    cases hservice.1

/-- Of an app that stands by its spec, what is seen is so. -/
theorem Standing.truthful {state : WorkloadState}
    (h : Standing paths name (currentSpec name past) w) (hseen : Seen paths name w state) :
    Truthful name past w state := by
  refine ⟨?_,?_⟩
  · rw [hseen.unit,h.present_iff,Option.isSome_eq_false_iff,Option.isNone_iff_eq_none]
  · rw [hseen.service,h.present_iff,Option.isSome_iff_exists,Option.isSome_iff_exists]
    constructor
    · rintro ⟨⟨spec,hspec⟩,t,ht⟩
      refine ⟨spec,hspec,(h.running.resolve_left ?_).trans (congrArg _ hspec)⟩
      rw [ht]
      nofun
    · rintro ⟨spec,hspec,hrunning⟩
      exact ⟨⟨spec,hspec⟩,_,hrunning⟩

/-- A complete run ends in what was shown of it. -/
theorem telling_finish {α : Type} {p : Prog Eff Eff.Resp α} {Q : α → World → Prop} {a : α}
    {answers : List Answer} (h : wp ((tellingHost paths).spec (fun _ _ => True) fun _ => True) p Q w)
    (hrun : (tellingHost paths).finish answers p w = some (a,w')) : Q a w' :=
  Machine.wp_complete _ h (Machine.allowed_of_forall _ (fun _ _ _ => trivial) _ _)
    ((Machine.finish_eq_some _).mp hrun)

end Telling

/-- Whatever was called for other apps, in whatever way those calls ended, and whatever the host did
in between: an app none of whose own calls failed is told as it is. -/
theorem status_told (h : Operated paths w₀ past w) (hnew : Standing paths name none w₀)
    (hpast : Untroubled name past) {answers : List Answer} {state : WorkloadState}
    (hrun : (tellingHost paths).finish answers (status paths name).run w = some (.ok state,w')) :
    Truthful name past w state ∧ w.Alike w' := by
  have hstatus := telling_finish status_seen hrun
  exact ⟨(h.standing hnew hpast).truthful (hstatus.2 state rfl),hstatus.1⟩

end History

section Sample

def webWorkload : WorkloadSpec := { name := "web", image := "web" }

/-- On a host with a unit of somebody else no app was ever applied. -/
theorem ownQuadlet_new (name : Text) : Standing .default name none ownQuadlet := by
  refine ⟨?_,fun hmem => ?_,rfl,.inl rfl⟩
  · change (FileTree.single _ _ _).contents _ = none
    rw [FileTree.contents_single,if_neg fun heq => ?_]
    have hhead := congrArg List.head? (Path.join_inj.mp heq).2
    cases hhead
  · exact (not_prefix_of_inside (.inl inside_unitPath)).1 (FileTree.mem_dirs_single.mp hmem)

/-- The app was applied and has exited since; a call for another one died before it did anything. -/
theorem exited_history : ∃ past w w', Operated .default ownQuadlet past w ∧
    past.map Prod.snd = [none,some (.ok ())] ∧ Untroubled "web" past ∧
    (tellingHost .default).finish [.done,.output ⟨3,"inactive\n",""⟩]
      (status .default "web").run w = some (.ok .stopped,w') := by
  refine ⟨_,_,_,.drift (@Operated.call _ _ _ _ _ _ []
    (.apply { webWorkload with name := "api" }) (@Operated.call _ _ _ _ _ _
      [.done,.done,.done,.done,.done,.entries ["kuadrat-web.container","nginx.container"],.done,
        .output ⟨0,"",""⟩,.output ⟨0,"",""⟩] (.apply webWorkload) .start rfl) rfl)
    (.exits "kuadrat-web"),rfl,?_,rfl⟩
  refine List.forall_mem_cons.mpr ⟨?_,List.forall_mem_cons.mpr ⟨?_,nofun⟩⟩
  · rw [if_neg (by decide)]
    decide
  · exact (if_pos (by decide)).mpr rfl

theorem exited_told : ∃ past w, Operated .default ownQuadlet past w ∧
    past.map Prod.snd = [none,some (.ok ())] ∧ Truthful "web" past w .stopped := by
  obtain ⟨past,w,w',hpast,hends,hcalm,hstatus⟩ := exited_history
  exact ⟨past,w,hpast,hends,(status_told hpast (ownQuadlet_new "web") hcalm hstatus).1⟩

end Sample

section Summaries
variable (paths : Paths)

/-- `summarise`: a status read that fails is reported as a status. -/
def AppSummary.of (c : AppConfig) (read : Except Message WorkloadState) : AppSummary :=
  ⟨c.name,c.repoPath,c.route,match read with
    | .ok state => state
    | .error _ => .unknown⟩

def summariseAll : List AppConfig → Prog Eff Eff.Resp (List AppSummary)
  | [] => .ret []
  | c::configs => do
    let read ← (status paths c.name).run
    let out ← summariseAll configs
    .ret (.of c read::out)

/-- `api::list_apps`. -/
def listApps (s : Store) : Prog Eff Eff.Resp (ApiResult (List AppSummary)) :=
  match s.listAppConfigs with
  | .error e => .ret (.error (.internal (Message.context ["reading registrations"] e)))
  | .ok configs => do
    let out ← summariseAll paths configs
    .ret (.ok out)

/-- `api::get_app`. -/
def getApp (s : Store) (name : Text) : Prog Eff Eff.Resp (ApiResult AppSummary) :=
  match registration name (s.appConfig name) with
  | .error e => .ret (.error e)
  | .ok config => do
    let read ← (status paths config.name).run
    .ret (.ok (.of config read))

def Route.value (route : Route) : Json :=
  .obj [("domain",.str route.domain),("port",.num { whole := route.port.toNat })]

def AppSummary.value (out : AppSummary) : Json :=
  .obj [("name",.str out.name),("repo_path",.str out.repoPath),
    ("route",out.route.elim .null Route.value),("status",.str out.status.label)]

def readRoute : Json → Option (Option Route)
  | .null => some none
  | v => do
    let domain ← readText v "domain"
    let port ← (v.get "port").bind Json.asU64
    return some ⟨domain,UInt16.ofNat port⟩

def readState (label : Text) : Option WorkloadState :=
  [.running,.stopped,.failed,.notInstalled,.unknown].find? fun s : WorkloadState =>
    (s.label : Text) = label

/-- A client reads what the API says of an app. -/
def readApp (v : Json) : Option AppSummary := do
  let name ← readText v "name"
  let repoPath ← readText v "repo_path"
  let route ← (v.get "route").bind readRoute
  let state ← (readText v "status").bind readState
  return ⟨name,repoPath,route,state⟩

def readApps (v : Json) : Option (List AppSummary) :=
  (readItems v).bind fun items => items.mapM readApp

theorem readState_label (state : WorkloadState) : readState state.label = some state := by
  cases state <;> decide

theorem readRoute_value (route : Route) : readRoute route.value = some (some route) := by
  have hport : route.port.toNat < 2^64 := route.port.toNat_lt.trans (by decide)
  have hread : readRoute route.value = do
      let port ← Json.asU64 (.num { whole := route.port.toNat })
      return some ⟨route.domain,UInt16.ofNat port⟩ := rfl
  rw [hread,asU64_whole hport]
  exact congrArg (fun port => some (some (Route.mk route.domain port))) UInt16.ofNat_toNat

theorem readApp_value (out : AppSummary) : readApp out.value = some out := by
  have hroute : readRoute (out.route.elim .null Route.value) = some out.route := by
    cases out.route with
    | none => rfl
    | some route => exact readRoute_value route
  have hread : readApp out.value = do
      let route ← readRoute (out.route.elim .null Route.value)
      let state ← readState out.status.label
      return ⟨out.name,out.repoPath,route,state⟩ := rfl
  rw [hread,hroute,readState_label]
  rfl

theorem readApps_value (out : List AppSummary) :
    readApps (.arr (out.map AppSummary.value)) = some out := by
  rw [readApps,readItems,Option.bind_some]
  induction out with
  | nil => rfl
  | cons a out ih =>
    rw [List.map_cons,List.mapM_cons,readApp_value,ih]
    rfl

end Summaries

section Told
variable {paths : Paths} {w₀ w w' : World} {past : Past} {s : Store} {json : SerdeJson}

/-- The state that a word of `systemctl is-active` says. -/
def StateWord (word : Text) : WorkloadState → Prop
  | .running => word = "active"
  | .stopped => word = "inactive"
  | .failed => word = "failed"
  | .notInstalled => False
  | .unknown => word ≠ "active" ∧ word ≠ "inactive" ∧ word ≠ "failed"

/-- The answers of a host that is asked about an app, and the state that they come to. Nothing is
known after an error, or after a word that says nothing. -/
inductive Asked (paths : Paths) (w : World) (name : Text) : List Answer → WorkloadState → Prop
  | unseen (why : Message) : Asked paths w name [.fail why] .unknown
  | absent : w.fs.present (unitPath paths name) = false → Asked paths w name [.done] .notInstalled
  | unanswered (why : Message) : w.fs.present (unitPath paths name) = true →
    Asked paths w name [.done,.fail why] .unknown
  | word {out : CommandOutput} {state : WorkloadState} :
    w.fs.present (unitPath paths name) = true → StateWord out.stdout.trim state →
    Asked paths w name [.done,.output out] state

theorem stateWord_stateOf (word : Text) : StateWord word (stateOf word) := by
  unfold stateOf
  split
  · assumption
  split
  · assumption
  split
  · assumption
  · exact ⟨‹_›,‹_›,‹_›⟩

/-- One question and its answer. -/
theorem telling_answer {e : Eff} {answers : List Answer} {r : e.Resp}
    (hrun : (tellingHost paths).finish answers (.perform e) w = some (r,w')) :
    ∃ x w₁, answers = [x] ∧ w.answer paths e x = some (r,w₁) ∧ w' = w₁.record e := by
  obtain ⟨x,rfl,hstep⟩ := Machine.finish_perform _ hrun
  have hworld := (Option.filter_eq_some_iff.mp hstep).1
  obtain ⟨⟨r',w₁⟩,ha,heq⟩ := Option.map_eq_some_iff.mp hworld
  cases heq
  exact ⟨x,w₁,rfl,ha,rfl⟩

theorem present_asked {p : Path} {answers : List Answer} {r : Except Message Bool}
    (hrun : (tellingHost paths).finish answers (Run.present p).run w = some (r,w')) :
    w'.fs = w.fs ∧ ((∃ why, answers = [.fail why] ∧ r = .error why) ∨
      (answers = [.done] ∧ r = .ok (w.fs.present p))) := by
  obtain ⟨x,w₁,rfl,ha,rfl⟩ := telling_answer hrun
  cases x <;> simp only [World.answer,Option.some.injEq,Prod.mk.injEq,reduceCtorEq] at ha
  · obtain ⟨rfl,rfl⟩ := ha
    exact ⟨rfl,.inl ⟨_,rfl,rfl⟩⟩
  · obtain ⟨rfl,rfl⟩ := ha
    exact ⟨rfl,.inr ⟨rfl,rfl⟩⟩

theorem command_asked {c : Command} {answers : List Answer} {r : Except Message CommandOutput}
    (hrun : (tellingHost paths).finish answers (Run.exec c).run w = some (r,w')) :
    (∃ why, answers = [.fail why] ∧ r = .error why) ∨
      ∃ out, answers = [.output out] ∧ r = .ok out := by
  obtain ⟨x,w₁,rfl,ha,-⟩ := telling_answer hrun
  cases x <;> simp only [World.answer,Option.some.injEq,Prod.mk.injEq,reduceCtorEq] at ha
  · obtain ⟨rfl,-⟩ := ha
    exact .inl ⟨_,rfl,rfl⟩
  · obtain ⟨rfl,-⟩ := ha
    exact .inr ⟨_,rfl,rfl⟩

/-- What `summarise` makes of a status read is what the host's answers come to. -/
theorem status_asked (c : AppConfig) {answers : List Answer} {read : Except Message WorkloadState}
    (hrun : (tellingHost paths).finish answers (status paths c.name).run w = some (read,w')) :
    Asked paths w c.name answers (AppSummary.of c read).status ∧
      ((∃ state, read = .ok state) ∨ ∃ why, Answer.fail why ∈ answers) := by
  rw [status,Prog.run_bind] at hrun
  obtain ⟨xs,ys,b,w₁,rfl,hpresent,hrun⟩ := Machine.finish_bind _ hrun
  obtain ⟨-,⟨why,rfl,rfl⟩ | ⟨rfl,rfl⟩⟩ := present_asked hpresent
  · obtain ⟨rfl,hr,-⟩ := Machine.advance_ret _ |>.mp ((Machine.finish_eq_some _).mp hrun)
    cases hr
    exact ⟨.unseen why,.inr ⟨why,List.mem_cons_self⟩⟩
  rw [Prog.orElse_ok] at hrun
  cases hunit : w.fs.present (unitPath paths c.name) with
  | false =>
    rw [hunit] at hrun
    obtain ⟨rfl,hr,-⟩ := Machine.advance_ret _ |>.mp ((Machine.finish_eq_some _).mp hrun)
    cases hr
    exact ⟨.absent hunit,.inl ⟨_,rfl⟩⟩
  | true =>
    rw [hunit,if_pos rfl,Prog.run_bind] at hrun
    obtain ⟨xs,ys,out,w₂,rfl,hactive,hrun⟩ := Machine.finish_bind _ hrun
    obtain ⟨why,rfl,rfl⟩ | ⟨out,rfl,rfl⟩ := command_asked hactive
    · obtain ⟨rfl,hr,-⟩ := Machine.advance_ret _ |>.mp ((Machine.finish_eq_some _).mp hrun)
      cases hr
      exact ⟨.unanswered why hunit,.inr ⟨why,by simp⟩⟩
    · obtain ⟨rfl,hr,-⟩ := Machine.advance_ret _ |>.mp ((Machine.finish_eq_some _).mp hrun)
      cases hr
      exact ⟨.word hunit (stateWord_stateOf _),.inl ⟨_,rfl⟩⟩

/-- What is said of a registered app: its registration, and the state that the host's answers come
to. It is the true state of the app when the host has answered every question about it. -/
structure SummaryTold (paths : Paths) (past : Past) (w : World) (c : AppConfig)
    (answers : List Answer) (out : AppSummary) : Prop where
  registered : out.name = c.name ∧ out.repoPath = c.repoPath ∧ out.route = c.route
  asked : Asked paths w c.name answers out.status
  truthful : Untroubled c.name past → (∀ why, Answer.fail why ∉ answers) →
    Truthful c.name past w out.status

theorem Asked.alike {name : Text} {answers : List Answer} {state : WorkloadState}
    (halike : w.Alike w') (h : Asked paths w' name answers state) :
    Asked paths w name answers state := by
  cases h with
  | unseen why => exact .unseen why
  | absent hunit => exact .absent (halike.1 ▸ hunit)
  | unanswered why hunit => exact .unanswered why (halike.1 ▸ hunit)
  | word hunit hword => exact .word (halike.1 ▸ hunit) hword

theorem Seen.alike {name : Text} {state : WorkloadState} (halike : w.Alike w')
    (h : Seen paths name w' state) : Seen paths name w state := by
  obtain ⟨hfs,hsystemd⟩ := halike
  refine ⟨?_,?_⟩
  · rw [← hfs]
    exact h.unit
  · rw [← hfs,← hsystemd]
    exact h.service

theorem summary_told {c : AppConfig} {answers : List Answer} {read : Except Message WorkloadState}
    {w₁ : World} (h : Operated paths w₀ past w) (hnew : ∀ name, Standing paths name none w₀)
    (halike : w.Alike w₁)
    (hrun : (tellingHost paths).finish answers (status paths c.name).run w₁ = some (read,w')) :
    w.Alike w' ∧ SummaryTold paths past w c answers (.of c read) := by
  have hseen := telling_finish status_seen hrun
  obtain ⟨hasked,hread⟩ := status_asked c hrun
  refine ⟨halike.trans hseen.1,⟨rfl,rfl,rfl⟩,hasked.alike halike,fun hpast hanswered => ?_⟩
  obtain ⟨state,rfl⟩ := hread.resolve_right fun ⟨why,hwhy⟩ => hanswered why hwhy
  exact (h.standing (hnew c.name) hpast).truthful ((hseen.2 state rfl).alike halike)

/-- What is said of the apps, one after the other; each has its own part of the answers. -/
inductive FleetTold (paths : Paths) (past : Past) (w : World) :
    List AppConfig → List Answer → List AppSummary → Prop
  | nil : FleetTold paths past w [] [] []
  | cons {c : AppConfig} {configs : List AppConfig} {xs ys : List Answer} {a : AppSummary}
    {out : List AppSummary} : SummaryTold paths past w c xs a →
    FleetTold paths past w configs ys out → FleetTold paths past w (c::configs) (xs++ys) (a::out)

/-- One app after the other is looked at, and none is left out for another's sake. -/
theorem summariseAll_told (h : Operated paths w₀ past w)
    (hnew : ∀ name, Standing paths name none w₀) {configs : List AppConfig} {w₁ : World}
    (halike : w.Alike w₁) {answers : List Answer} {out : List AppSummary}
    (hrun : (tellingHost paths).finish answers (summariseAll paths configs) w₁ = some (out,w')) :
    w.Alike w' ∧ FleetTold paths past w configs answers out := by
  induction configs generalizing w₁ answers out with
  | nil =>
    obtain ⟨rfl,hr,rfl⟩ := Machine.advance_ret _ |>.mp ((Machine.finish_eq_some _).mp hrun)
    cases hr
    exact ⟨halike,.nil⟩
  | cons c configs ih =>
    obtain ⟨xs,ys,read,w₂,rfl,hread,hrun⟩ := Machine.finish_bind _ hrun
    obtain ⟨halike₂,htold⟩ := summary_told h hnew halike hread
    obtain ⟨ys,zs,rest,w₃,rfl,hrest,hrun⟩ := Machine.finish_bind _ hrun
    obtain ⟨rfl,hr,rfl⟩ := Machine.advance_ret _ |>.mp ((Machine.finish_eq_some _).mp hrun)
    cases hr
    rw [List.append_nil]
    obtain ⟨halike₃,hfleet⟩ := ih halike₂ hrest
    exact ⟨halike₃,.cons htold hfleet⟩

/-- The reply to a request for all apps: an error when their registrations cannot be read, or what
is said of each. -/
def ListTold (paths : Paths) (past : Past) (w : World) (s : Store) (answers : List Answer)
    (r : ApiResult (List AppSummary)) : Prop :=
  match s.listAppConfigs with
  | .error e => r = .error (.internal (Message.context ["reading registrations"] e))
  | .ok configs => ∃ out, r = .ok out ∧ FleetTold paths past w configs answers out

/-- The reply to a request for one app. -/
def AppTold (paths : Paths) (past : Past) (w : World) (s : Store) (name : Text)
    (answers : List Answer) (r : ApiResult AppSummary) : Prop :=
  match registration name (s.appConfig name) with
  | .error e => r = .error e
  | .ok config => ∃ out, r = .ok out ∧ SummaryTold paths past w config answers out

theorem listApps_told (h : Operated paths w₀ past w) (hnew : ∀ name, Standing paths name none w₀)
    {answers : List Answer} {r : ApiResult (List AppSummary)}
    (hrun : (tellingHost paths).finish answers (listApps paths s) w = some (r,w')) :
    w.Alike w' ∧ ListTold paths past w s answers r := by
  unfold listApps at hrun
  unfold ListTold
  split at hrun
  · obtain ⟨-,hr,rfl⟩ := Machine.advance_ret _ |>.mp ((Machine.finish_eq_some _).mp hrun)
    cases hr
    exact ⟨⟨rfl,rfl⟩,rfl⟩
  · obtain ⟨xs,ys,out,w₁,rfl,hall,hrun⟩ := Machine.finish_bind _ hrun
    obtain ⟨rfl,hr,rfl⟩ := Machine.advance_ret _ |>.mp ((Machine.finish_eq_some _).mp hrun)
    cases hr
    rw [List.append_nil]
    obtain ⟨halike,htold⟩ := summariseAll_told h hnew ⟨rfl,rfl⟩ hall
    exact ⟨halike,out,rfl,htold⟩

theorem getApp_told (h : Operated paths w₀ past w) (hnew : ∀ name, Standing paths name none w₀)
    {name : Text} {answers : List Answer} {r : ApiResult AppSummary}
    (hrun : (tellingHost paths).finish answers (getApp paths s name) w = some (r,w')) :
    w.Alike w' ∧ AppTold paths past w s name answers r := by
  unfold getApp at hrun
  unfold AppTold
  split at hrun
  · obtain ⟨-,hr,rfl⟩ := Machine.advance_ret _ |>.mp ((Machine.finish_eq_some _).mp hrun)
    cases hr
    exact ⟨⟨rfl,rfl⟩,rfl⟩
  · obtain ⟨xs,ys,read,w₁,rfl,hread,hrun⟩ := Machine.finish_bind _ hrun
    obtain ⟨rfl,hr,rfl⟩ := Machine.advance_ret _ |>.mp ((Machine.finish_eq_some _).mp hrun)
    cases hr
    rw [List.append_nil]
    obtain ⟨halike,htold⟩ := summary_told h hnew ⟨rfl,rfl⟩ hread
    exact ⟨halike,_,rfl,htold⟩

/-- The fleet over the API, after any history of the host and for any store: every registered app
is told in its turn, in the state that the host's answers about it come to, and no app is missing
on account of another; asking changes nothing; and a client decodes what was told. -/
theorem fleet_told (h : Operated paths w₀ past w) (hnew : ∀ name, Standing paths name none w₀) :
    (∀ answers r w', (tellingHost paths).finish answers (listApps paths s) w = some (r,w') →
      w.Alike w' ∧ ListTold paths past w s answers r ∧ ∀ out, r = .ok out →
        RoundTrips json (.arr (out.map AppSummary.value)) →
        (parseJson json (json.toString (.arr (out.map AppSummary.value)))).bind readApps =
          some out) ∧
    ∀ name answers r w', (tellingHost paths).finish answers (getApp paths s name) w = some (r,w') →
      w.Alike w' ∧ AppTold paths past w s name answers r ∧ ∀ out, r = .ok out →
        RoundTrips json out.value →
        (parseJson json (json.toString out.value)).bind readApp = some out := by
  constructor
  · intro answers r w' hrun
    obtain ⟨halike,htold⟩ := listApps_told h hnew hrun
    refine ⟨halike,htold,fun out _ hjson => ?_⟩
    rw [parseJson_toString hjson,Option.bind_some,readApps_value]
  · intro name answers r w' hrun
    obtain ⟨halike,htold⟩ := getApp_told h hnew hrun
    refine ⟨halike,htold,fun out _ hjson => ?_⟩
    rw [parseJson_toString hjson,Option.bind_some,readApp_value]

end Told

section Sample

def webSummary : AppSummary := ⟨"web","/srv/web",none,.stopped⟩

/-- A reader that knows the list of the one app. -/
def summaryJson : SerdeJson where
  fromStr t :=
    if t = (Json.arr [webSummary.value]).compact then .ok (.arr [webSummary.value])
    else .error "expected value at line 1 column 1"
  toString := Json.compact
  writes := Json.writes_compact

theorem roundTrips_summaryJson : RoundTrips summaryJson (.arr [webSummary.value]) := by
  simp only [RoundTrips,summaryJson,if_pos]

theorem listApps_registered : listApps .default registeredStore =
    summariseAll .default [⟨"web","/srv/web",none⟩] >>= fun out => .ret (.ok out) := by
  have hlisted : registeredStore.listAppConfigs = .ok [⟨"web","/srv/web",none⟩] := by
    decide +kernel
  rw [listApps,hlisted]

/-- The one registered app, told as it is, and read as it was told. -/
theorem exited_listed : ∃ past w, Operated .default ownQuadlet past w ∧
    ListTold .default past w registeredStore [.done,.output ⟨3,"inactive\n",""⟩]
      (.ok [webSummary]) ∧
    (parseJson summaryJson (summaryJson.toString (.arr [webSummary.value]))).bind readApps =
      some [webSummary] := by
  obtain ⟨past,w,w',hpast,-,-,hstatus⟩ := exited_history
  have hlisted : (tellingHost .default).finish [.done,.output ⟨3,"inactive\n",""⟩]
      (listApps .default registeredStore) w = some (.ok [webSummary],w') := by
    rw [Machine.finish_eq_some] at hstatus ⊢
    rw [listApps_registered]
    exact Machine.advance_bind _ _ (Machine.advance_bind _ _ hstatus)
  have htold := (@fleet_told .default _ _ _ _ summaryJson hpast ownQuadlet_new).1 _ _ _ hlisted
  exact ⟨past,w,hpast,htold.2.1,htold.2.2 _ rfl roundTrips_summaryJson⟩

end Sample

end Kuadrat
