import Kuadrat.Workloads.Outcome

/-!
# The definition that runs

What systemd runs after a successful apply. The choice between `start` and
`restart` looks at the file on disk alone, so it goes wrong when an earlier call
left the new file there and never got to the restart.
-/
namespace Kuadrat

open Effect

section Quiet
variable {paths : Paths} {ok : Eff → Answer → Prop} {w : World}

/-- The operation leaves systemd as it is. -/
def Eff.Unmanaging (e : Eff) : Prop := ∀ c, e = .run c → ¬c.Manages

theorem quiet_ok {α : Type} {p : Run α} (hp : All (fun e => ∀ q, True → ¬e.Touches q) p.run)
    (hs : All Eff.Unmanaging p.run) : wpOk (host paths ok) p
      (fun _ w' => w'.fs.contents = w.fs.contents ∧ w'.systemd = w.systemd) w := by
  refine wpOk_and (wpOk_of_wp (wp_mono (wp_contents_frame hp) fun _ w' h => ?_))
    (wpOk_of_wp (wp_systemd_frame hs))
  exact funext fun q => h q trivial

theorem inspects_unmanaging : Inspects Eff.Unmanaging :=
  ⟨by rintro _ _ ⟨⟩,by rintro _ _ ⟨⟩⟩

theorem prunes_unmanaging {name : Text} {keep : List Text} :
    Prunes Eff.Unmanaging paths name keep where
  toInspects := inspects_unmanaging
  list _ := by rintro _ ⟨⟩
  disable _ := by
    rintro _ ⟨⟩
    exact id
  removes _ _ := by rintro _ ⟨⟩

theorem all_writeUnits_unmanaging (p : Path) (unit : Text) (files : List TaskFiles) :
    All Eff.Unmanaging (writeUnits paths p unit files).run := by
  have hcreate : ∀ q, All Eff.Unmanaging (Run.createDirAll q).run :=
    fun q => all_perform (by rintro _ ⟨⟩)
  have hwrite : ∀ q t, All Eff.Unmanaging (Run.write q t).run :=
    fun q t => all_perform (by rintro _ ⟨⟩)
  refine all_run_bind (hcreate _) fun _ => all_run_bind (all_when (hcreate _)) fun _ => ?_
  refine all_run_bind (hwrite _ _) fun _ => all_forM fun tf _ => ?_
  exact all_run_bind (hwrite _ _) fun _ => hwrite _ _

theorem readPrevious_ok (p : Path) : wpOk (host paths ok) (readPrevious p)
    (fun previous w' => previous = w.fs.contents p ∧ w'.fs = w.fs ∧ w'.systemd = w.systemd) w := by
  refine wpOk_bind (wp_present trivial (fun _ b hb => ?_) fun _ _ b hb => by cases hb)
  cases hb
  split
  · refine wpOk_bind (wp_readToString trivial (fun t _ ht a ha => ?_) fun _ _ b hb => by cases hb)
    cases ha
    exact (wpOk_pure _ _ _).mpr ⟨ht.symm,rfl,rfl⟩
  · rename_i habsent
    refine (wpOk_pure _ _ _).mpr ⟨?_,rfl,rfl⟩
    simp only [FileTree.present,Bool.or_eq_true,not_or,Option.not_isSome_iff_eq_none] at habsent
    exact habsent.1.symm

/-- A command that succeeds has done what systemd does for it. -/
theorem systemctl_execute (c : Command) : wpOk (host paths ok) (systemctl c)
    (fun _ w' => w'.fs = w.fs ∧ w'.systemd = w.systemd.execute paths w.fs c) w := by
  refine wpOk_bind (wp_exec trivial (fun out _ a ha => ?_) fun _ _ b hb => by cases hb)
  cases ha
  split
  · exact (wpOk_pure _ _ _).mpr ⟨rfl,rfl⟩
  · exact wpOk_throw _ _ _

end Quiet

section Activate
variable {paths : Paths} {ok : Eff → Answer → Prop} {w : World} {spec : WorkloadSpec}

/-- What runs after a successful apply: `restart` takes the new definition over, and `start`
leaves one that runs already. -/
def runningAfter (previous running : Option Text) (unit : Text) : Option Text :=
  if previous.any (· != unit) then some unit else some (running.getD unit)

theorem activate_ok {name : Text} {previous : Option Text} {unit : Text} {files : List TaskFiles}
    (hdisk : w.fs.contents (unitPath paths name) = some unit) :
    wpOk (host paths ok) (activate name previous unit files) (fun _ w' =>
      w'.systemd.running (unitName name) =
        runningAfter previous (w.systemd.running (unitName name)) unit) w := by
  refine wpOk_seq (systemctl_execute _) fun _ w₁ h₁ => ?_
  have hloaded : w₁.systemd.loaded (unitName name) = some unit := by
    rw [h₁.2]
    exact hdisk
  have hrunning : w₁.systemd.running = w.systemd.running := by rw [h₁.2]; rfl
  have htasks : ∀ w₂ : World, wpOk (host paths ok)
      (forM files fun tf => systemctl (.enableNow tf.timerUnit))
      (fun _ w' => w'.systemd = w₂.systemd) w₂ := by
    intro w₂
    refine wpOk_of_wp (wp_systemd_frame (all_forM fun tf _ => all_systemctl ?_))
    rintro _ ⟨⟩
    exact id
  dsimp only
  refine wpOk_seq (systemctl_execute _) fun _ w₂ h₂ => wpOk_mono (htasks w₂) fun _ w₃ h₃ => ?_
  rw [h₃,h₂.2]
  unfold runningAfter
  split
  · simp [Systemd.execute,hloaded]
  · simp only [Systemd.execute,hrunning]
    cases hr : w.systemd.running (unitName name) with
    | some text => simp [hrunning,hr]
    | none => simp [hloaded]

/-- A successful apply compared the file on disk with the new unit, and nothing else. -/
theorem apply_running : wpOk (host paths ok) (apply paths spec) (fun _ w' =>
    spec.validate = .ok () ∧ w'.systemd.running (unitName spec.name) =
      runningAfter (w.fs.contents (unitPath paths spec.name))
        (w.systemd.running (unitName spec.name)) (unitText spec)) w := by
  by_cases hv : spec.validate = .ok ()
  · rw [apply_of_valid hv]
    have hins : Inspects fun e => ∀ p : Path, True → ¬e.Touches p :=
      ⟨fun _ _ _ => id,fun _ _ _ => id⟩
    refine wpOk_seq (quiet_ok (all_forM fun task _ => all_preflight (fun _ _ _ => id) task)
      (all_forM fun task _ => all_preflight (fun _ => by rintro _ ⟨⟩; exact id) task))
      fun _ w₁ h₁ => ?_
    refine wpOk_seq (quiet_ok (all_checkOwned hins _ _) (all_checkOwned inspects_unmanaging _ _))
      fun _ w₂ h₂ => ?_
    refine wpOk_seq (readPrevious_ok _) fun previous w₃ h₃ => ?_
    have hwrites : All Eff.Unmanaging (writeUnits paths (unitPath paths spec.name) (unitText spec)
        (spec.tasks.map (TaskFiles.of paths spec))).run := all_writeUnits_unmanaging _ _ _
    refine wpOk_seq (wpOk_and (writeUnits_ok hv) (wpOk_of_wp (wp_systemd_frame hwrites)))
      fun _ w₄ h₄ => ?_
    refine wpOk_seq (wpOk_and pruneTasks_ok (wpOk_of_wp (wp_systemd_frame
      (all_pruneTasks prunes_unmanaging)))) fun _ w₅ h₅ => ?_
    have hmem : (unitPath paths spec.name,unitText spec) ∈ unitFiles paths spec :=
      mem_unitFiles.mpr (.inl ⟨rfl,rfl⟩)
    have hdisk : w₅.fs.contents (unitPath paths spec.name) = some (unitText spec) := by
      rw [(h₅.1 _).2 (not_stale_of_mem hmem),h₄.1.written _ _ hmem]
    refine wpOk_mono (activate_ok hdisk) fun _ w₆ h₆ => ⟨hv,?_⟩
    rw [h₆,h₃.1,h₂.1,h₁.1,h₅.2,h₄.2,h₃.2.2,h₂.2,h₁.2]
  · obtain ⟨e,heq⟩ := apply_of_not_valid hv
    rw [heq]
    exact wpOk_throw _ _ _

end Activate

section Calls
variable {paths : Paths} {name : Text}

/-- One call of `apply`, with the world before and after it. -/
structure ApplyCall where
  spec : WorkloadSpec
  before : World
  result : Except Message Unit
  after : World

/-- A sequence of calls for one app; the host answers each as it likes. -/
inductive ApplyCalls (paths : Paths) (name : Text) : World → List ApplyCall → Prop
  | nil (w : World) : ApplyCalls paths name w []
  | cons {w w' : World} {spec : WorkloadSpec} {answers : List Answer} {result : Except Message Unit}
      {calls : List ApplyCall} (hname : spec.name = name)
      (hrun : (World.machine paths).finish answers (apply paths spec).run w = some (result,w'))
      (hrest : ApplyCalls paths name w' calls) :
      ApplyCalls paths name w (⟨spec,w,result,w'⟩::calls)

/-- The running definition is the rendered spec. -/
def Runs (spec : WorkloadSpec) (w : World) : Prop :=
  ∃ t, render spec = .ok t ∧ w.systemd.running (unitName spec.name) = some t

/-- Nothing runs, or the spec's own unit does, or the file on disk is another unit. -/
def Ready (paths : Paths) (spec : WorkloadSpec) (w : World) : Prop :=
  w.systemd.running (unitName spec.name) = none ∨ Runs spec w ∨
    ∃ t, w.fs.contents (unitPath paths spec.name) = some t ∧ render spec ≠ .ok t

theorem runningAfter_eq_iff {previous running : Option Text} {unit : Text} :
    runningAfter previous running unit = some unit ↔
      running = none ∨ running = some unit ∨ ∃ t, previous = some t ∧ unit ≠ t := by
  unfold runningAfter
  cases previous with
  | none => cases running <;> simp
  | some old =>
    by_cases h : old = unit
    · subst h
      cases running <;> simp
    · simp [h,Ne.symm h]

theorem runs_after_iff {spec : WorkloadSpec} {w w' : World} {answers : List Answer}
    (hrun : (World.machine paths).finish answers (apply paths spec).run w = some (.ok (),w')) :
    Runs spec w' ↔ Ready paths spec w := by
  obtain ⟨hv,hafter⟩ := wpOk_finish apply_running hrun
  have hrender : ∀ {t}, render spec = .ok t ↔ unitText spec = t := fun {t} => by
    rw [render_eq_ok,and_iff_right hv]
  unfold Ready Runs
  simp only [ne_eq,hrender,exists_eq_left',hafter]
  exact runningAfter_eq_iff

/-- The host is ready for any spec when nothing runs or what runs is what is on disk. -/
theorem ready_of_synced {spec : WorkloadSpec} {w : World}
    (h : w.systemd.running (unitName spec.name) = none ∨
      w.systemd.running (unitName spec.name) = w.fs.contents (unitPath paths spec.name)) :
    Ready paths spec w := by
  rcases h with h | h
  · exact .inl h
  cases hr : w.systemd.running (unitName spec.name) with
  | none => exact .inl hr
  | some t =>
    by_cases ht : render spec = .ok t
    · exact .inr (.inl ⟨t,ht,hr⟩)
    · exact .inr (.inr ⟨t,h ▸ hr,ht⟩)

/-- Over any sequence of calls, every successful one leaves its definition running exactly when
every successful one found the host ready for it. -/
theorem apply_calls_run_iff_ready (paths : Paths) (name : Text) (w : World)
    (calls : List ApplyCall) (h : ApplyCalls paths name w calls) :
    (∀ call ∈ calls, call.result = .ok () → Runs call.spec call.after) ↔
      ∀ call ∈ calls, call.result = .ok () → Ready paths call.spec call.before := by
  induction h with
  | nil => simp
  | cons _ hrun _ ih =>
    simp only [List.forall_mem_cons,ih]
    refine and_congr_left fun _ => forall_congr' fun hok => ?_
    exact runs_after_iff (hok ▸ hrun)

end Calls

section Example

def firstVersion : WorkloadSpec := { name := "web", image := "localhost/web:1" }
def secondVersion : WorkloadSpec := { firstVersion with image := "localhost/web:2" }

/-- A host on which nothing runs. -/
def idleWorld : World := .initial (.single ["","repo"] "Containerfile" "")

/-- The answers of an apply up to its daemon-reload, without a unit on disk. -/
def freshApply : List Answer :=
  [.done,.done,.done,.done,.done,.entries ["kuadrat-web.container"],.done]

/-- The same when there is a unit on disk. -/
def nextApply : List Answer :=
  [.done,.done,.done,.done,.done,.done,.done,.entries ["kuadrat-web.container"],.done]

/-- The calls that these answers make of a sequence of specs. -/
def applyAll (paths : Paths) : List (WorkloadSpec × List Answer) → World → Option (List ApplyCall)
  | [], _ => some []
  | (spec,answers)::rest, w =>
    ((World.machine paths).finish answers (apply paths spec).run w).bind fun r =>
      (applyAll paths rest r.2).map (⟨spec,w,r.1,r.2⟩::·)

theorem applyCalls_of_applyAll {paths : Paths} {name : Text}
    {scripts : List (WorkloadSpec × List Answer)} {w : World} {calls : List ApplyCall}
    (hname : ∀ s ∈ scripts, s.1.name = name) (h : applyAll paths scripts w = some calls) :
    ApplyCalls paths name w calls := by
  induction scripts generalizing w calls with
  | nil =>
    cases h
    exact .nil w
  | cons s scripts ih =>
    obtain ⟨hs,hname⟩ := List.forall_mem_cons.mp hname
    obtain ⟨r,hrun,h⟩ := Option.bind_eq_some_iff.mp h
    obtain ⟨rest,hrest,rfl⟩ := Option.map_eq_some_iff.mp h
    exact .cons hs hrun (ih hname hrest)

/-- The first version runs, the second one's unit cannot be written, and the retry of the second
succeeds. -/
def upgrade : List (WorkloadSpec × List Answer) :=
  [(firstVersion,freshApply ++ [succeeds "",succeeds ""]),
    (secondVersion,nextApply.take 5 ++ [.fail ["disk full"]]),
    (secondVersion,nextApply ++ [succeeds "",succeeds ""])]

/-- What is on disk runs, or nothing does. -/
def ApplyCall.synced (call : ApplyCall) : Bool :=
  call.before.systemd.running (unitName call.spec.name) == none ||
  call.before.systemd.running (unitName call.spec.name) ==
    call.before.fs.contents (unitPath .default call.spec.name)

theorem upgrade_runs : ∃ calls, ApplyCalls .default "web" idleWorld calls ∧
    calls.map (fun call => (call.spec,call.result)) = [(firstVersion,.ok ()),
      (secondVersion,.error ["disk full"]),(secondVersion,.ok ())] ∧
    ∀ call ∈ calls, call.result = .ok () → Runs call.spec call.after := by
  have hresult : (applyAll .default upgrade idleWorld).map (fun calls =>
      (calls.map (fun call => (call.spec,call.result)),calls.all ApplyCall.synced)) =
      some ([(firstVersion,.ok ()),(secondVersion,.error ["disk full"]),(secondVersion,.ok ())],
        true) := by decide +kernel
  obtain ⟨calls,h,heq⟩ := Option.map_eq_some_iff.mp hresult
  rw [Prod.mk.injEq] at heq
  have hcalls : ApplyCalls .default "web" idleWorld calls :=
    applyCalls_of_applyAll (by decide) h
  refine ⟨calls,hcalls,heq.1,?_⟩
  refine (apply_calls_run_iff_ready .default "web" idleWorld calls hcalls).mpr ?_
  intro call hcall _
  have hsynced := List.all_eq_true.mp heq.2 call hcall
  simp only [ApplyCall.synced,Bool.or_eq_true,beq_iff_eq] at hsynced
  exact ready_of_synced hsynced

/-- The first version runs, the second one's daemon-reload fails, and the retry of the second
succeeds. -/
def retried : List (WorkloadSpec × List Answer) :=
  [(firstVersion,freshApply ++ [succeeds "",succeeds ""]),
    (secondVersion,nextApply ++ [.fail ["timed out"]]),
    (secondVersion,nextApply ++ [succeeds "",succeeds ""])]

/-- A retry that finds its own file on disk starts nothing: the old version still runs. -/
theorem retry_keeps_old_version : ∃ calls, ApplyCalls .default "web" idleWorld calls ∧
    idleWorld.systemd.running (unitName "web") = none ∧
    ∃ call ∈ calls, call.result = .ok () ∧ ¬Runs call.spec call.after := by
  have hresult : (applyAll .default retried idleWorld).bind (fun calls =>
      calls.getLast?.map fun call => ((call.spec,call.result),
        call.after.systemd.running (unitName "web"))) =
      some ((secondVersion,.ok ()),some (unitText firstVersion)) := by decide +kernel
  obtain ⟨calls,h,heq⟩ := Option.bind_eq_some_iff.mp hresult
  obtain ⟨call,hlast,heq⟩ := Option.map_eq_some_iff.mp heq
  simp only [Prod.mk.injEq] at heq
  obtain ⟨⟨hspec,hok⟩,hold⟩ := heq
  refine ⟨calls,applyCalls_of_applyAll (by decide) h,rfl,call,List.mem_of_getLast? hlast,hok,?_⟩
  rintro ⟨t,ht,hruns⟩
  rw [hspec] at ht hruns
  have hne : unitText firstVersion ≠ unitText secondVersion := by decide +kernel
  rw [(render_eq_ok.mp ht).2] at hne
  exact hne (Option.some.inj (hold.symm.trans hruns))

end Example
end Kuadrat
