import Kuadrat.Systemd.Specifiers
import Kuadrat.Workloads.Arguments

/-!
# Percent signs in the rendered units

Volumes, environments and commands are rendered with their percent signs doubled. The image,
the published ports, the secrets and the health command are rendered as they stand, so they
read back as the spec has them exactly when they have no percent sign.
-/
namespace Kuadrat
open Systemd

/-- The directives that Quadlet copies onto the `ExecStart=` line it generates. -/
inductive Copied
  | image
  | publishPort
  | volume
  | environment
  | secret
  | healthCmd
  | exec
  deriving DecidableEq

namespace Copied

def key : Copied → Text
  | image => "Image"
  | publishPort => "PublishPort"
  | volume => "Volume"
  | environment => "Environment"
  | secret => "Secret"
  | healthCmd => "HealthCmd"
  | exec => "Exec"

theorem plain_key (d : Copied) : Plain d.key := by cases d <;> decide

theorem key_injective {d d' : Copied} (h : d.key = d'.key) : d = d' := by
  cases d <;> cases d' <;> first | rfl | exact absurd h (by decide)

/-- The texts behind a rendered value, with `%%` read as `%`: its words where the directive is
split into words, else the value itself. -/
def read : Copied → Text → Option (List Text)
  | environment, v | exec, v => decode v
  | _, v => some [unescapePercent v]

end Copied

section Own
variable (spec : WorkloadSpec) (task : ScheduledTask)

/-- What the spec says for each directive of its unit, as texts that are not quoted. -/
def unitOwn : Copied → List (List Text)
  | .image => [[spec.image]]
  | .publishPort => spec.ports.map ([·])
  | .volume => spec.volumes.map ([·])
  | .environment => spec.env.map fun e => [e.1 ++ '='::e.2]
  | .secret => spec.secrets.map ([·])
  | .healthCmd => spec.healthCmd.toList.map ([·])
  | .exec => spec.command.toList

/-- A task's unit has the image, the environment and the secrets of the app, and its own
command. -/
def taskOwn : Copied → List (List Text)
  | .image => [[spec.image]]
  | .environment => spec.env.map fun e => [e.1 ++ '='::e.2]
  | .secret => spec.secrets.map ([·])
  | .exec => [task.command]
  | _ => []

/-- What the renderers write for each directive. -/
def unitWritten : Copied → List Text
  | .image => [spec.image]
  | .publishPort => spec.ports
  | .volume => spec.volumes.map escapePercent
  | .environment => (environmentEntries spec.env).map Prod.snd
  | .secret => spec.secrets
  | .healthCmd => spec.healthCmd.toList
  | .exec => spec.command.toList.map fun command => (execEntry command).2

def taskWritten : Copied → List Text
  | .image => [spec.image]
  | .environment => (environmentEntries spec.env).map Prod.snd
  | .secret => spec.secrets
  | .exec => [(execEntry task.command).2]
  | _ => []

end Own

/-- In the values of each directive the percent signs are paired, and read back the values are
those of the spec. -/
structure SpecifierFree (text : Text) (own : Copied → List (List Text)) : Prop where
  pairs : ∀ d : Copied, ∀ v ∈ rawValues d.key text, paired v = true
  literal : ∀ d : Copied, (rawValues d.key text).map d.read = (own d).map some

section Written
variable {spec : WorkloadSpec} {task : ScheduledTask}

theorem key_values (key : Text) (values : List Text) :
    (values.map (entry key)).filterMap (valueFor key) = values := by
  rw [List.filterMap_map]
  exact (List.filterMap_congr fun v _ => if_pos rfl).trans (List.filterMap_some ..)

theorem key_volumes (volumes : List Text) :
    (volumes.map fun volume => entry "Volume" (escapePercent volume)).filterMap (valueFor "Volume") =
      volumes.map escapePercent := by
  rw [← key_values "Volume" (volumes.map escapePercent),List.map_map]
  rfl

theorem key_health (healthCmd : Option Text) :
    (healthCmd.toList.flatMap healthEntries).filterMap (valueFor "HealthCmd") =
      healthCmd.toList := by
  cases healthCmd with
  | none => rfl
  | some health => rfl

/-- Lines of one directive have its values, and none of another directive. -/
theorem lines_of {d' d : Copied} {es : List (Text × Text)} {values : List Text}
    (h : es.filterMap (valueFor d'.key) = values)
    (hother : d'.key ≠ d.key → es.filterMap (valueFor d.key) = []) :
    es.filterMap (valueFor d.key) = if d' = d then values else [] := by
  by_cases heq : d' = d
  · subst heq
    rw [if_pos rfl,h]
  · rw [if_neg heq,hother fun hkey => heq (Copied.key_injective hkey)]

theorem lines_environment (d : Copied) (env : List (Text × Text)) :
    (environmentEntries env).filterMap (valueFor d.key) =
      if .environment = d then (environmentEntries env).map Prod.snd else [] :=
  lines_of (environment_values env) fun h => other_environment h env

theorem lines_execs (d : Copied) (commands : List (List Text)) :
    (commands.map execEntry).filterMap (valueFor d.key) =
      if .exec = d then commands.map fun command => (execEntry command).2 else [] :=
  lines_of (exec_values commands) fun h => other_execs h commands

theorem lines_secrets (d : Copied) (secrets : List Text) :
    (secrets.map (entry "Secret")).filterMap (valueFor d.key) =
      if .secret = d then secrets else [] :=
  lines_of (key_values _ secrets) fun h => other_values h secrets

theorem lines_image (d : Copied) (image : Text) (es : List (Text × Text)) :
    (entry "Image" image::es).filterMap (valueFor d.key) =
      (if .image = d then [image] else []) ++ es.filterMap (valueFor d.key) := by
  have hline : ([image].map (entry "Image")).filterMap (valueFor d.key) =
      if .image = d then [image] else [] :=
    lines_of (key_values _ [image]) fun h => other_values h [image]
  rw [← hline,← List.filterMap_append]
  rfl

theorem unit_written (d : Copied) : ((unitSections spec).flatMap Section.entries).filterMap
    (valueFor d.key) = unitWritten spec d := by
  have hothers : ∀ key ∈ (["Description","ContainerName","HealthTimeout","Restart","MemoryMax",
      "WantedBy"] : List Text), key ≠ d.key := by cases d <;> decide
  simp only [List.forall_mem_cons] at hothers
  obtain ⟨hdescription,hname,htimeout,hrestart,hmemory,hwanted,-⟩ := hothers
  have hports : (spec.ports.map (entry "PublishPort")).filterMap (valueFor d.key) =
      if .publishPort = d then spec.ports else [] :=
    lines_of (key_values _ spec.ports) fun h => other_values h spec.ports
  have hvolumes : (spec.volumes.map fun volume => entry "Volume" (escapePercent volume)).filterMap
      (valueFor d.key) = if .volume = d then spec.volumes.map escapePercent else [] :=
    lines_of (key_volumes spec.volumes) fun h => other_volumes h spec.volumes
  have hhealth : (spec.healthCmd.toList.flatMap healthEntries).filterMap (valueFor d.key) =
      if .healthCmd = d then spec.healthCmd.toList else [] :=
    lines_of (key_health spec.healthCmd) fun h => other_health h htimeout spec.healthCmd
  simp only [unitSections,descriptionSection,List.flatMap_cons,List.flatMap_nil,
    List.filterMap_append,List.filterMap_nil,other_entry hdescription,other_entry hname,
    other_entry hrestart,other_entry hwanted,other_values hmemory,lines_image,hports,hvolumes,
    lines_environment,lines_secrets,hhealth,lines_execs,List.nil_append,List.append_nil]
  cases d <;> simp [unitWritten]

theorem task_written (d : Copied) : ((taskSections spec task).flatMap Section.entries).filterMap
    (valueFor d.key) = taskWritten spec task d := by
  have hothers : ∀ key ∈ (["Description","ContainerName","Type"] : List Text), key ≠ d.key := by
    cases d <;> decide
  simp only [List.forall_mem_cons] at hothers
  obtain ⟨hdescription,hname,htype,-⟩ := hothers
  have hexec : [execEntry task.command].filterMap (valueFor d.key) =
      if .exec = d then [(execEntry task.command).2] else [] := lines_execs d [task.command]
  simp only [taskSections,descriptionSection,List.flatMap_cons,List.flatMap_nil,
    List.filterMap_append,List.filterMap_nil,other_entry hdescription,other_entry hname,
    other_entry htype,lines_image,lines_environment,lines_secrets,hexec,List.nil_append,
    List.append_nil]
  cases d <;> simp [taskWritten]

end Written

section Pairs

theorem paired_escapePercent (a : Text) : paired (escapePercent a) = true := by
  induction a with
  | nil => rfl
  | cons c rest ih =>
    rw [escapePercent,List.flatMap_cons]
    by_cases h : c = '%'
    · rw [if_pos h]
      exact ih
    · rw [if_neg h,List.singleton_append,paired_cons h]
      exact ih

/-- Quoting puts backslashes before other characters only. -/
theorem paired_quoteWord {a : Text} (h : paired a = true) : paired (quoteWord a) = true := by
  have hescaped : paired (escapeQuoted a) = true := by
    refine paired_flatMap (by decide) (fun c hc => ?_) h
    split
    · decide
    · split
      · decide
      · exact fun hmem => hc (List.mem_singleton.mp hmem).symm
  unfold quoteWord
  split
  · rw [List.append_assoc,paired_append (by decide),paired_append hescaped]
    decide
  · exact h

theorem paired_exec (command : List Text) : paired (execEntry command).2 = true := by
  refine paired_intercalate (by decide) fun w hw => ?_
  obtain ⟨a,-,rfl⟩ := List.mem_map.mp hw
  exact paired_quoteWord (paired_escapePercent a)

theorem paired_environment {env : List (Text × Text)} :
    ∀ v ∈ (environmentEntries env).map Prod.snd, paired v = true := by
  intro v hv
  rw [environmentEntries,List.map_map] at hv
  obtain ⟨⟨key,value⟩,-,rfl⟩ := List.mem_map.mp hv
  have hone : escapePercent key ++ ['='] ++ escapePercent value =
      escapePercent (key ++ '='::value) := by simp [escapePercent]
  change paired (quoteWord (escapePercent key ++ ['='] ++ escapePercent value)) = true
  rw [hone]
  exact paired_quoteWord (paired_escapePercent _)

end Pairs

section Agree

/-- The written values of a directive have no specifier and read back as the spec's own. -/
def Recovers (d : Copied) (written : List Text) (own : List (List Text)) : Prop :=
  (∀ v ∈ written, paired v = true) ∧ written.map d.read = own.map some

variable {spec : WorkloadSpec} {task : ScheduledTask}

/-- Values that are written as they stand. -/
theorem recovers_bare {d : Copied} (hd : d.read = fun v => some [unescapePercent v])
    (values : List Text) : Recovers d values (values.map ([·])) ↔ ∀ v ∈ values, '%' ∉ v := by
  unfold Recovers
  rw [hd,List.map_map,List.map_inj_left,← forall₂_and]
  refine forall₂_congr fun v _ => ?_
  rw [← literal_iff]
  simp

theorem recovers_volumes (volumes : List Text) :
    Recovers .volume (volumes.map escapePercent) (volumes.map ([·])) := by
  constructor
  · intro v hv
    obtain ⟨volume,-,rfl⟩ := List.mem_map.mp hv
    exact paired_escapePercent volume
  · rw [List.map_map,List.map_map]
    refine List.map_congr_left fun volume _ => ?_
    exact congrArg (fun v => some [v]) (unescapePercent_escapePercent volume)

theorem recovers_environment (env : List (Text × Text)) :
    Recovers .environment ((environmentEntries env).map Prod.snd)
      (env.map fun e => [e.1 ++ '='::e.2]) := by
  refine ⟨paired_environment,(decode_environment env).trans ?_⟩
  rw [List.map_map]
  rfl

theorem recovers_exec (commands : List (List Text)) :
    Recovers .exec (commands.map fun command => (execEntry command).2) commands := by
  constructor
  · intro v hv
    obtain ⟨command,-,rfl⟩ := List.mem_map.mp hv
    exact paired_exec command
  · rw [List.map_map]
    exact List.map_congr_left fun command _ => decode_command command

/-- The fields that are rendered as they stand have no percent sign. -/
def PercentFree (spec : WorkloadSpec) : Prop :=
  '%' ∉ spec.image ∧ (∀ port ∈ spec.ports, '%' ∉ port) ∧ (∀ secret ∈ spec.secrets, '%' ∉ secret) ∧
    ∀ health ∈ spec.healthCmd.toList, '%' ∉ health

instance (spec : WorkloadSpec) : Decidable (PercentFree spec) :=
  inferInstanceAs (Decidable (_ ∧ _ ∧ _ ∧ _))

theorem unit_recovers_iff :
    (∀ d, Recovers d (unitWritten spec d) (unitOwn spec d)) ↔ PercentFree spec := by
  have himage := (recovers_bare (d := .image) rfl [spec.image]).trans List.forall_mem_singleton
  constructor
  · intro h
    exact ⟨himage.mp (h .image),(recovers_bare rfl _).mp (h .publishPort),
      (recovers_bare rfl _).mp (h .secret),(recovers_bare rfl _).mp (h .healthCmd)⟩
  · intro h d
    cases d with
    | image => exact himage.mpr h.1
    | publishPort => exact (recovers_bare rfl _).mpr h.2.1
    | volume => exact recovers_volumes _
    | environment => exact recovers_environment _
    | secret => exact (recovers_bare rfl _).mpr h.2.2.1
    | healthCmd => exact (recovers_bare rfl _).mpr h.2.2.2
    | exec => exact recovers_exec _

theorem task_recovers (h : PercentFree spec) (d : Copied) :
    Recovers d (taskWritten spec task d) (taskOwn spec task d) := by
  cases d with
  | image => exact (recovers_bare (d := .image) rfl [spec.image]).mpr (List.forall_mem_singleton.mpr h.1)
  | environment => exact recovers_environment _
  | secret => exact (recovers_bare rfl _).mpr h.2.2.1
  | exec => exact recovers_exec [task.command]
  | publishPort | volume | healthCmd => exact ⟨List.forall_mem_nil _,rfl⟩

end Agree

section Rendered
variable {spec : WorkloadSpec}

/-- A text is free of specifiers when what is written for each directive is. -/
theorem specifierFree_iff_recovers {text : Text} {written : Copied → List Text}
    {own : Copied → List (List Text)} (h : ∀ d : Copied, rawValues d.key text = written d) :
    SpecifierFree text own ↔ ∀ d, Recovers d (written d) (own d) := by
  constructor
  · intro hfree d
    rw [← h]
    exact ⟨hfree.pairs d,hfree.literal d⟩
  · intro hall
    refine ⟨fun d => ?_,fun d => ?_⟩
    · rw [h]
      exact (hall d).1
    · rw [h]
      exact (hall d).2

theorem specifierFree_unit (hvalid : spec.validate = .ok ()) :
    SpecifierFree (unitText spec) (unitOwn spec) ↔ PercentFree spec :=
  (specifierFree_iff_recovers fun d => (rawValues_unit hvalid d.plain_key).trans (unit_written d)).trans
    unit_recovers_iff

theorem specifierFree_task {task : ScheduledTask} (hvalid : spec.validate = .ok ())
    (htask : task ∈ spec.tasks) (h : PercentFree spec) :
    SpecifierFree (taskText spec task) (taskOwn spec task) := by
  apply (specifierFree_iff_recovers fun d =>
    (rawValues_task hvalid htask d.plain_key).trans (task_written d)).mpr
  exact task_recovers h

/-- No percent sign of a valid spec acts as a specifier, exactly when the fields that are
rendered as they stand have none. -/
theorem specifierFree_iff (hvalid : spec.validate = .ok ()) :
    ((∃ t, render spec = .ok t ∧ SpecifierFree t (unitOwn spec)) ∧
      ∀ task ∈ spec.tasks, ∃ t, renderTask spec task = .ok t ∧
        SpecifierFree t (taskOwn spec task)) ↔ PercentFree spec := by
  have hrender : render spec = .ok (unitText spec) := render_eq_ok.mpr ⟨hvalid,rfl⟩
  have htasks : ∀ task, renderTask spec task = .ok (taskText spec task) := by
    intro task
    rw [renderTask,hvalid]
    rfl
  constructor
  · intro h
    obtain ⟨⟨t,ht,hfree⟩,-⟩ := h
    cases hrender.symm.trans ht
    exact (specifierFree_unit hvalid).mp hfree
  · intro h
    exact ⟨⟨_,hrender,(specifierFree_unit hvalid).mpr h⟩,fun task htask =>
      ⟨_,htasks task,specifierFree_task hvalid htask h⟩⟩

/-- Percent signs in all three fields that are escaped, and in the command of a task. -/
def percentSpec : WorkloadSpec where
  name := "web"
  image := "web"
  command := some ["date","+%F %%"]
  env := [("%KEY","100%"),("FORMAT","%i-%n")]
  volumes := ["/srv/%i:/data","/var/%%:/var"]
  tasks := [⟨"report","daily",["date","+%s","say \"%T\""]⟩]

theorem percentSpec_specifierFree : (∃ t, render percentSpec = .ok t ∧
    SpecifierFree t (unitOwn percentSpec)) ∧ ∀ task ∈ percentSpec.tasks, ∃ t,
      renderTask percentSpec task = .ok t ∧ SpecifierFree t (taskOwn percentSpec task) :=
  (@specifierFree_iff percentSpec (by decide +kernel)).mpr (by decide)

/-- A health command that prints the time. -/
def timedHealth : WorkloadSpec where
  name := "web"
  image := "web"
  healthCmd := some "date +%s"

theorem timedHealth_expands : timedHealth.validate = .ok () ∧
    ¬∃ t, render timedHealth = .ok t ∧ SpecifierFree t (unitOwn timedHealth) := by
  have hvalid : timedHealth.validate = .ok () := by decide +kernel
  refine ⟨hvalid,fun h => ?_⟩
  obtain ⟨t,ht,hfree⟩ := h
  have htext : t = unitText timedHealth := by
    have hrender := render_eq_ok.mp ht
    exact hrender.2.symm
  subst htext
  exact absurd (hfree.pairs .healthCmd "date +%s" (by decide +kernel)) (by decide)

end Rendered
end Kuadrat
