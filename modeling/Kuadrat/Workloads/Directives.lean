import Kuadrat.Slug
import Kuadrat.Systemd.UnitFile
import Kuadrat.Workloads.Render

/-!
# The directives of the rendered units

Every text the renderers write is a file of sections with one line for each entry. Read
back with systemd's line syntax, it has the directives its spec asks for exactly when no
value that is written as it stands ends in a backslash above another directive.
-/
namespace Kuadrat
open Systemd

section Sections

def entry (key value : Text) : Text × Text := (key,value)

def descriptionSection (text : Text) : Section := ⟨"Unit",[entry "Description" text]⟩

def environmentEntries (env : List (Text × Text)) : List (Text × Text) :=
  env.map fun (key,value) =>
    entry "Environment" (quoteWord (escapePercent key ++ ['='] ++ escapePercent value))

def execEntry (command : List Text) : Text × Text :=
  entry "Exec" (Text.join [' '] (command.map fun a => quoteWord (escapePercent a)))

def healthEntries (health : Text) : List (Text × Text) :=
  [entry "HealthCmd" health,entry "HealthTimeout" (Text.decimal healthAttemptTimeout ++ ['s'])]

def unitSections (spec : WorkloadSpec) : List Section :=
  [descriptionSection ("kuadrat workload " ++ spec.name),
    ⟨"Container",[entry "Image" spec.image,entry "ContainerName" (containerName spec)] ++
      spec.ports.map (entry "PublishPort") ++
      spec.volumes.map (fun volume => entry "Volume" (escapePercent volume)) ++
      environmentEntries spec.env ++ spec.secrets.map (entry "Secret") ++
      spec.healthCmd.toList.flatMap healthEntries ++ spec.command.toList.map execEntry⟩,
    ⟨"Service",entry "Restart" spec.restartPolicy.asSystemd::
      spec.memoryMax.toList.map (entry "MemoryMax")⟩,
    ⟨"Install",[entry "WantedBy" "multi-user.target"]⟩]

def taskSections (spec : WorkloadSpec) (task : ScheduledTask) : List Section :=
  [descriptionSection ("kuadrat task " ++ slug task.name ++ " for " ++ spec.name),
    ⟨"Container",[entry "Image" spec.image,
        entry "ContainerName" (taskUnitName spec.name task.name)] ++
      environmentEntries spec.env ++ spec.secrets.map (entry "Secret") ++
      [execEntry task.command]⟩,
    ⟨"Service",[entry "Type" "oneshot"]⟩]

def timerSections (spec : WorkloadSpec) (task : ScheduledTask) : List Section :=
  [descriptionSection ("kuadrat timer " ++ slug task.name ++ " for " ++ spec.name),
    ⟨"Timer",[entry "OnCalendar" (escapePercent task.schedule),entry "Persistent" "true"]⟩,
    ⟨"Install",[entry "WantedBy" "timers.target"]⟩]

/-- The lines of a section's entries. -/
def entriesText (es : List (Text × Text)) : Text := es.flatMap fun e => line e.1 e.2

@[simp] theorem entriesText_nil : entriesText [] = [] := rfl

@[simp] theorem entriesText_cons (e : Text × Text) (es : List (Text × Text)) :
    entriesText (e::es) = line e.1 e.2 ++ entriesText es := rfl

@[simp] theorem entriesText_append (es es' : List (Text × Text)) :
    entriesText (es ++ es') = entriesText es ++ entriesText es' := List.flatMap_append

theorem entriesText_map {α : Type} (f : α → Text × Text) (l : List α) :
    entriesText (l.map f) = l.flatMap fun a => line (f a).1 (f a).2 := List.flatMap_map ..

@[simp] theorem entriesText_values (key : Text) (values : List Text) :
    entriesText (values.map (entry key)) = values.flatMap (line key) := entriesText_map _ _

@[simp] theorem entriesText_volumes (volumes : List Text) :
    entriesText (volumes.map fun volume => entry "Volume" (escapePercent volume)) =
      volumes.flatMap fun volume => line "Volume" (escapePercent volume) := entriesText_map _ _

@[simp] theorem entriesText_environment (env : List (Text × Text)) :
    entriesText (environmentEntries env) = environmentLines env := entriesText_map _ _

@[simp] theorem entriesText_exec (command : Option (List Text)) :
    entriesText (command.toList.map execEntry) = command.toList.flatMap execLine :=
  entriesText_map _ _

@[simp] theorem entriesText_health (health : Option Text) :
    entriesText (health.toList.flatMap healthEntries) = health.toList.flatMap healthLines := by
  rw [entriesText,List.flatMap_assoc]
  rfl

theorem text_eq (s : Section) : s.text = '['::s.name ++ [']','\n'] ++ entriesText s.entries := by
  simp [Section.text,Section.lines,List.flatMap_map,entriesText,line,entryLine]

variable (spec : WorkloadSpec) (task : ScheduledTask)

theorem unitText_eq : unitText spec = fileText managedMarker (unitSections spec) := by
  simp only [unitText,managed,fileText,unitSections,descriptionSection,text_eq,secretLines,
    List.map_cons,List.map_nil,entriesText_append,entriesText_cons,entriesText_nil,
    entriesText_values,entriesText_volumes,entriesText_environment,entriesText_health,
    entriesText_exec]
  simp [entry,line,List.intercalate]

theorem taskText_eq : taskText spec task = fileText managedMarker (taskSections spec task) := by
  simp [taskText,managed,fileText,taskSections,descriptionSection,text_eq,execEntry,execLine,
    entry,line,secretLines,List.intercalate]

theorem timerText_eq : timerText spec task = fileText managedMarker (timerSections spec task) := by
  simp [timerText,managed,fileText,timerSections,descriptionSection,text_eq,entry,line,
    List.intercalate]

end Sections

section Unbroken

theorem forM_eq_ok {ε α : Type} {f : α → Except ε Unit} {l : List α} :
    forM l f = .ok () ↔ ∀ a ∈ l, f a = .ok () := by
  induction l with
  | nil => simp [pure,Except.pure]
  | cons a rest ih => rw [List.forM_cons,seq_eq_ok,ih,List.forall_mem_cons]

theorem singleLine_eq_ok {field : Message} {value : Text} :
    WorkloadSpec.singleLine field value = .ok () ↔ Unbroken value := by
  rw [WorkloadSpec.singleLine,reject_eq_ok,Bool.or_eq_false_iff]
  constructor
  · rintro ⟨hn,hr⟩ c hc
    have hn' : c ≠ '\n' := fun h => absurd (h ▸ hc) (by simpa using hn)
    have hr' : c ≠ '\r' := fun h => absurd (h ▸ hc) (by simpa using hr)
    simp [isBreak,hn',hr']
  · intro h
    constructor
    · simpa using fun hm => absurd (h '\n' hm) (by decide)
    · simpa using fun hm => absurd (h '\r' hm) (by decide)

theorem singleLines_eq_ok {label : Message} {values : List Text} :
    WorkloadSpec.singleLines label values = .ok () ↔ ∀ v ∈ values, Unbroken v := by
  rw [WorkloadSpec.singleLines,forM_eq_ok]
  constructor
  · intro h v hv
    rw [← List.zipIdx_map_fst 0 values] at hv
    obtain ⟨p,hp,rfl⟩ := List.mem_map.mp hv
    exact singleLine_eq_ok.mp (h p hp)
  · intro h v hv
    exact singleLine_eq_ok.mpr (h _ (List.fst_mem_of_mem_zipIdx hv))

/-- What validation promises about line breaks. -/
structure FieldsUnbroken (spec : WorkloadSpec) : Prop where
  name : Unbroken spec.name
  image : Unbroken spec.image
  ports : ∀ port ∈ spec.ports, Unbroken port
  volumes : ∀ volume ∈ spec.volumes, Unbroken volume
  env : ∀ e ∈ spec.env, Unbroken e.1 ∧ Unbroken e.2
  secrets : ∀ secret ∈ spec.secrets, Unbroken secret
  memoryMax : ∀ memory ∈ spec.memoryMax, Unbroken memory
  healthCmd : ∀ health ∈ spec.healthCmd, Unbroken health
  command : ∀ command ∈ spec.command, ∀ arg ∈ command, Unbroken arg
  tasks : ∀ task ∈ spec.tasks, Unbroken task.schedule ∧ ∀ arg ∈ task.command, Unbroken arg

theorem validateTasks_unbroken {seen : List Text} {tasks : List ScheduledTask}
    (h : WorkloadSpec.validateTasks seen tasks = .ok ()) :
    ∀ task ∈ tasks, Unbroken task.schedule ∧ ∀ arg ∈ task.command, Unbroken arg := by
  induction tasks generalizing seen with
  | nil => simp
  | cons task rest ih =>
    simp only [WorkloadSpec.validateTasks,seq_eq_ok,singleLine_eq_ok,singleLines_eq_ok] at h
    obtain ⟨-,-,-,-,hschedule,-,hcommand,hrest⟩ := h
    intro t ht
    rcases List.mem_cons.mp ht with rfl | ht
    · exact ⟨hschedule,hcommand⟩
    · exact ih hrest t ht

theorem fieldsUnbroken {spec : WorkloadSpec} (h : spec.validate = .ok ()) :
    FieldsUnbroken spec := by
  simp only [WorkloadSpec.validate,seq_eq_ok,forM_eq_ok,singleLine_eq_ok,singleLines_eq_ok,
    Option.mem_toList] at h
  obtain ⟨-,hname,himage,hports,hvolumes,henv,hsecrets,hmemory,hhealth,hcommand,-,-,htasks⟩ := h
  refine ⟨hname,himage,hports,hvolumes,henv,hsecrets,hmemory,hhealth,?_,
    validateTasks_unbroken htasks⟩
  intro command hc
  rw [Option.mem_def] at hc
  simpa [hc] using hcommand

theorem unbroken_slug (name : Text) : Unbroken (slug name) := by
  intro c hc
  rcases slug_chars name c hc with h | rfl
  · exact not_break_of_not_blank (not_blank_of_alphanum h)
  · rfl

theorem unbroken_flatMap {l : Text} {f : Char → Text} (h : ∀ c ∈ l, Unbroken (f c)) :
    Unbroken (l.flatMap f) := by
  intro c hc
  obtain ⟨d,hd,hmem⟩ := List.mem_flatMap.mp hc
  exact h d hd c hmem

theorem unbroken_escapePercent {l : Text} (h : Unbroken l) : Unbroken (escapePercent l) := by
  refine unbroken_flatMap fun c hc => ?_
  split
  · decide
  · simpa [Unbroken] using h c hc

theorem unbroken_escapeQuoted {l : Text} (h : Unbroken l) : Unbroken (escapeQuoted l) := by
  refine unbroken_flatMap fun c hc => ?_
  split
  · decide
  · split
    · decide
    · simpa [Unbroken] using h c hc

theorem unbroken_quoteWord {l : Text} (h : Unbroken l) : Unbroken (quoteWord l) := by
  unfold quoteWord
  split
  · exact .append (.append (by decide) (unbroken_escapeQuoted h)) (by decide)
  · exact h

theorem join_cons_cons (sep w w' : Text) (rest : List Text) :
    Text.join sep (w::w'::rest) = w ++ sep ++ Text.join sep (w'::rest) := by
  simp [Text.join,List.intercalate]

theorem unbroken_join {words : List Text} (h : ∀ w ∈ words, Unbroken w) :
    Unbroken (Text.join [' '] words) := by
  induction words with
  | nil => exact fun c hc => nomatch hc
  | cons w rest ih =>
    have hrest := ih fun x hx => h x (List.mem_cons_of_mem _ hx)
    have hw := h w List.mem_cons_self
    cases rest with
    | nil => simpa [Text.join,List.intercalate] using hw
    | cons w' rest =>
      rw [join_cons_cons]
      exact .append (.append hw (by decide)) hrest

end Unbroken

section Joins

theorem joins_escapePercent (l : Text) : joins (escapePercent l) = joins l := by
  induction l using List.reverseRecOn with
  | nil => rfl
  | append_singleton l c =>
    have hsplit : escapePercent (l ++ [c]) =
        escapePercent l ++ if c = '%' then ['%','%'] else [c] := by simp [escapePercent]
    rw [hsplit,joins_append l (List.cons_ne_nil c []),joins_append _ (by split <;> simp)]
    split
    · next h => rw [h]; rfl
    · rfl

theorem joins_of_not_mem {l : Text} (h : '\\' ∉ l) : joins l = false := by
  rw [joins,beq_eq_false_iff_ne]
  exact fun hlast => h (List.mem_of_getLast? hlast)

theorem backslash_not_mem_slug (name : Text) : '\\' ∉ slug name := by
  intro hm
  rcases slug_chars name _ hm with h | h
  · exact absurd h (by decide)
  · exact absurd h (by decide)

theorem joins_containerName (spec : WorkloadSpec) : joins (containerName spec) = false := by
  refine joins_of_not_mem fun hm => ?_
  rcases List.mem_append.mp hm with h | h
  · exact absurd h (by decide)
  · exact backslash_not_mem_slug _ h

theorem joins_taskUnitName (specName taskName : Text) :
    joins (taskUnitName specName taskName) = false := by
  refine joins_of_not_mem fun hm => ?_
  rcases List.mem_append.mp hm with h | h
  · rcases List.mem_append.mp h with h | h
    · rcases List.mem_append.mp h with h | h
      · exact absurd h (by decide)
      · exact backslash_not_mem_slug _ h
    · exact absurd h (by decide)
  · exact backslash_not_mem_slug _ h

/-- A word that a backslash ends is quoted, so no quoted word joins the next line. -/
theorem joins_quoteWord (l : Text) : joins (quoteWord l) = false := by
  unfold quoteWord
  split
  · rw [joins_append _ (List.cons_ne_nil _ _)]
    rfl
  · next h =>
    have hmem : '\\' ∉ l := by
      intro hm
      refine h ?_
      rw [Bool.or_eq_true,List.any_eq_true]
      exact .inr ⟨'\\',hm,by decide⟩
    exact joins_of_not_mem hmem

theorem joins_join {words : List Text} (h : ∀ w ∈ words, joins w = false) :
    joins (Text.join [' '] words) = false := by
  induction words with
  | nil => rfl
  | cons w rest ih =>
    have hrest := ih fun x hx => h x (List.mem_cons_of_mem _ hx)
    cases rest with
    | nil => simpa [Text.join,List.intercalate] using h w List.mem_cons_self
    | cons w' rest =>
      rw [join_cons_cons]
      cases htail : Text.join [' '] (w'::rest) with
      | nil =>
        rw [List.append_nil,joins_append w (List.cons_ne_nil _ _)]
        rfl
      | cons c t =>
        rw [joins_append _ (List.cons_ne_nil c t),← htail]
        exact hrest

end Joins

section WellFormed
variable {spec : WorkloadSpec} {task : ScheduledTask}

theorem singleLine_entry {key value : Text} (hkey : Plain key) (hvalue : Unbroken value) :
    SingleLine (entry key value) := ⟨hkey,hvalue⟩

theorem singleLine_values {key : Text} {values : List Text} (hkey : Plain key)
    (h : ∀ v ∈ values, Unbroken v) : ∀ e ∈ values.map (entry key), SingleLine e := by
  intro e he
  obtain ⟨v,hv,rfl⟩ := List.mem_map.mp he
  exact singleLine_entry hkey (h v hv)

theorem singleLine_environment {env : List (Text × Text)}
    (h : ∀ e ∈ env, Unbroken e.1 ∧ Unbroken e.2) : ∀ e ∈ environmentEntries env, SingleLine e := by
  intro e he
  obtain ⟨kv,hkv,rfl⟩ := List.mem_map.mp he
  obtain ⟨hk,hv⟩ := h kv hkv
  exact singleLine_entry (by decide) (unbroken_quoteWord
    (.append (.append (unbroken_escapePercent hk) (by decide)) (unbroken_escapePercent hv)))

theorem singleLine_exec {command : List Text} (h : ∀ arg ∈ command, Unbroken arg) :
    SingleLine (execEntry command) := by
  refine singleLine_entry (by decide) (unbroken_join fun w hw => ?_)
  obtain ⟨arg,harg,rfl⟩ := List.mem_map.mp hw
  exact unbroken_quoteWord (unbroken_escapePercent (h arg harg))

theorem singleLine_volumes {volumes : List Text} (h : ∀ v ∈ volumes, Unbroken v) :
    ∀ e ∈ volumes.map fun volume => entry "Volume" (escapePercent volume), SingleLine e := by
  intro e he
  obtain ⟨v,hv,rfl⟩ := List.mem_map.mp he
  exact singleLine_entry (by decide) (unbroken_escapePercent (h v hv))

theorem singleLine_health {healthCmd : Option Text} (h : ∀ health ∈ healthCmd, Unbroken health) :
    ∀ e ∈ healthCmd.toList.flatMap healthEntries, SingleLine e := by
  intro e he
  obtain ⟨health,hmem,he⟩ := List.mem_flatMap.mp he
  simp only [healthEntries,List.mem_cons,List.not_mem_nil,or_false] at he
  rcases he with rfl | rfl
  · exact singleLine_entry (by decide) (h health (Option.mem_toList.mp hmem))
  · exact singleLine_entry (by decide) (by decide)

theorem wellFormed_section {name : Text} {es : List (Text × Text)} (hname : Plain name)
    (h : ∀ e ∈ es, SingleLine e) : (⟨name,es⟩ : Section).WellFormed := ⟨hname,h⟩

theorem wellFormed_description {text : Text} (h : Unbroken text) :
    (descriptionSection text).WellFormed :=
  wellFormed_section (by decide) (List.forall_mem_singleton.mpr (singleLine_entry (by decide) h))

theorem unitSections_wellFormed (h : FieldsUnbroken spec) :
    ∀ s ∈ unitSections spec, s.WellFormed := by
  have hcontainer : Unbroken (containerName spec) := .append (by decide) (unbroken_slug _)
  have hrestart : Unbroken spec.restartPolicy.asSystemd := by
    cases spec.restartPolicy <;> decide
  have hexec : ∀ e ∈ spec.command.toList.map execEntry, SingleLine e := by
    intro e he
    obtain ⟨command,hmem,rfl⟩ := List.mem_map.mp he
    exact singleLine_exec (h.command command (Option.mem_toList.mp hmem))
  have hfixed : ∀ e ∈ [entry "Image" spec.image,entry "ContainerName" (containerName spec)],
      SingleLine e := by
    rw [List.forall_mem_cons,List.forall_mem_singleton]
    exact ⟨singleLine_entry (by decide) h.image,singleLine_entry (by decide) hcontainer⟩
  simp only [unitSections,List.forall_mem_cons,List.not_mem_nil,false_imp_iff,implies_true,and_true]
  refine ⟨wellFormed_description (.append (by decide) h.name),wellFormed_section (by decide) ?_,
    wellFormed_section (by decide) ?_,wellFormed_section (by decide) ?_⟩
  · simp only [List.forall_mem_append]
    exact ⟨⟨⟨⟨⟨⟨hfixed,singleLine_values (by decide) h.ports⟩,singleLine_volumes h.volumes⟩,
      singleLine_environment h.env⟩,singleLine_values (by decide) h.secrets⟩,
      singleLine_health h.healthCmd⟩,hexec⟩
  · refine List.forall_mem_cons.mpr ⟨singleLine_entry (by decide) hrestart,?_⟩
    exact singleLine_values (by decide) fun v hv => h.memoryMax v (Option.mem_toList.mp hv)
  · exact List.forall_mem_singleton.mpr (singleLine_entry (by decide) (by decide))

/-- The names in the descriptions of a task's two files. -/
theorem unbroken_description (h : FieldsUnbroken spec) {what : Text} (hwhat : Unbroken what)
    (task : ScheduledTask) : Unbroken (what ++ slug task.name ++ " for " ++ spec.name) :=
  .append (.append (.append hwhat (unbroken_slug _)) (by decide)) h.name

theorem taskSections_wellFormed (h : FieldsUnbroken spec) (htask : task ∈ spec.tasks) :
    ∀ s ∈ taskSections spec task, s.WellFormed := by
  have hunit : Unbroken (taskUnitName spec.name task.name) :=
    .append (.append (.append (by decide) (unbroken_slug _)) (by decide)) (unbroken_slug _)
  have hfixed : ∀ e ∈ [entry "Image" spec.image,
      entry "ContainerName" (taskUnitName spec.name task.name)], SingleLine e := by
    rw [List.forall_mem_cons,List.forall_mem_singleton]
    exact ⟨singleLine_entry (by decide) h.image,singleLine_entry (by decide) hunit⟩
  simp only [taskSections,List.forall_mem_cons,List.not_mem_nil,false_imp_iff,implies_true,and_true]
  refine ⟨wellFormed_description (unbroken_description h (by decide) task),
    wellFormed_section (by decide) ?_,wellFormed_section (by decide) ?_⟩
  · simp only [List.forall_mem_append,List.forall_mem_singleton]
    exact ⟨⟨⟨hfixed,singleLine_environment h.env⟩,singleLine_values (by decide) h.secrets⟩,
      singleLine_exec (h.tasks task htask).2⟩
  · exact List.forall_mem_singleton.mpr (singleLine_entry (by decide) (by decide))

theorem timerSections_wellFormed (h : FieldsUnbroken spec) (htask : task ∈ spec.tasks) :
    ∀ s ∈ timerSections spec task, s.WellFormed := by
  simp only [timerSections,List.forall_mem_cons,List.not_mem_nil,false_imp_iff,implies_true,
    and_true]
  refine ⟨wellFormed_description (unbroken_description h (by decide) task),
    wellFormed_section (by decide) ?_,wellFormed_section (by decide) ?_⟩
  · rw [List.forall_mem_cons,List.forall_mem_singleton]
    exact ⟨singleLine_entry (by decide) (unbroken_escapePercent (h.tasks task htask).1),
      singleLine_entry (by decide) (by decide)⟩
  · exact List.forall_mem_singleton.mpr (singleLine_entry (by decide) (by decide))

end WellFormed

section Exact
variable {spec : WorkloadSpec} {task : ScheduledTask}

/-- The (section, key) pairs that `render` intends for a spec of this shape. -/
def unitKeys (spec : WorkloadSpec) : List (Text × Text) :=
  [entry "Unit" "Description",entry "Container" "Image",entry "Container" "ContainerName"] ++
  spec.ports.map (fun _ => entry "Container" "PublishPort") ++
  spec.volumes.map (fun _ => entry "Container" "Volume") ++
  spec.env.map (fun _ => entry "Container" "Environment") ++
  spec.secrets.map (fun _ => entry "Container" "Secret") ++
  spec.healthCmd.toList.flatMap
    (fun _ => [entry "Container" "HealthCmd",entry "Container" "HealthTimeout"]) ++
  spec.command.toList.map (fun _ => entry "Container" "Exec") ++
  [entry "Service" "Restart"] ++ spec.memoryMax.toList.map (fun _ => entry "Service" "MemoryMax") ++
  [entry "Install" "WantedBy"]

def taskKeys (spec : WorkloadSpec) : List (Text × Text) :=
  [entry "Unit" "Description",entry "Container" "Image",entry "Container" "ContainerName"] ++
  spec.env.map (fun _ => entry "Container" "Environment") ++
  spec.secrets.map (fun _ => entry "Container" "Secret") ++
  [entry "Container" "Exec",entry "Service" "Type"]

def timerKeys : List (Text × Text) :=
  [entry "Unit" "Description",entry "Timer" "OnCalendar",entry "Timer" "Persistent",
    entry "Install" "WantedBy"]

/-- Every file of a spec holds the directives its shape asks for, and no others. -/
structure DirectivesExact (spec : WorkloadSpec) : Prop where
  unit : ∃ t, render spec = .ok t ∧ keys t = unitKeys spec
  task : ∀ task ∈ spec.tasks, ∃ t, renderTask spec task = .ok t ∧ keys t = taskKeys spec
  timer : ∀ task ∈ spec.tasks, ∃ t, renderTimer spec task = .ok t ∧ keys t = timerKeys

/-- A field that is written as it stands ends in a backslash only where no directive of
its section follows. -/
structure Contained (spec : WorkloadSpec) : Prop where
  image : joins spec.image = false
  ports : OnlyAtEnd joins (spec.volumes = [] ∧ spec.env = [] ∧ spec.secrets = [] ∧
    spec.healthCmd = none ∧ spec.command = none) spec.ports
  volumes : OnlyAtEnd joins (spec.env = [] ∧ spec.secrets = [] ∧ spec.healthCmd = none ∧
    spec.command = none) spec.volumes
  secrets : OnlyAtEnd joins (spec.healthCmd = none ∧ spec.command = none ∧ spec.tasks = [])
    spec.secrets
  healthCmd : ∀ health ∈ spec.healthCmd, joins health = false
  schedules : ∀ task ∈ spec.tasks, joins task.schedule = false

theorem joins_exec (command : List Text) : joins (execEntry command).2 = false := by
  refine joins_join fun w hw => ?_
  obtain ⟨arg,-,rfl⟩ := List.mem_map.mp hw
  exact joins_quoteWord _

theorem onlyAtEnd_environment (last : Prop) (env : List (Text × Text)) :
    OnlyAtEnd (fun e => joins e.2) last (environmentEntries env) := by
  refine onlyAtEnd_of_none fun e he => ?_
  obtain ⟨kv,-,rfl⟩ := List.mem_map.mp he
  exact joins_quoteWord _

theorem onlyAtEnd_exec (last : Prop) (command : Option (List Text)) :
    OnlyAtEnd (fun e => joins e.2) last (command.toList.map execEntry) := by
  refine onlyAtEnd_of_none fun e he => ?_
  obtain ⟨c,-,rfl⟩ := List.mem_map.mp he
  exact joins_exec c

theorem onlyAtEnd_health (last : Prop) (healthCmd : Option Text) :
    OnlyAtEnd (fun e => joins e.2) last (healthCmd.toList.flatMap healthEntries) ↔
      ∀ health ∈ healthCmd, joins health = false := by
  cases healthCmd with
  | none => simp
  | some health =>
    have htimeout : joins (Text.decimal healthAttemptTimeout ++ ['s']) = false := by decide
    simp [healthEntries,OnlyAtEnd,entry,htimeout]

/-- A section with one entry has nothing to swallow. -/
theorem unjoined_single (name : Text) (e : Text × Text) : (⟨name,[e]⟩ : Section).Unjoined :=
  onlyAtEnd_singleton.mpr fun _ => trivial

theorem onlyAtEnd_fixed {last : Prop} (image : Text) {name : Text} (hname : joins name = false) :
    OnlyAtEnd (fun e => joins e.2) last [entry "Image" image,entry "ContainerName" name] ↔
      joins image = false := by
  simp [OnlyAtEnd,entry,hname]

theorem onlyAtEnd_values {last : Prop} (key : Text) (values : List Text) :
    OnlyAtEnd (fun e => joins e.2) last (values.map (entry key)) ↔ OnlyAtEnd joins last values :=
  onlyAtEnd_map

theorem onlyAtEnd_volumes {last : Prop} (volumes : List Text) :
    OnlyAtEnd (fun e => joins e.2) last
      (volumes.map fun volume => entry "Volume" (escapePercent volume)) ↔
      OnlyAtEnd joins last volumes := by
  rw [onlyAtEnd_map]
  simp only [entry,joins_escapePercent]

theorem service_unjoined (policy : RestartPolicy) (memoryMax : Option Text) :
    OnlyAtEnd (fun e => joins e.2) True
      (entry "Restart" policy.asSystemd::memoryMax.toList.map (entry "MemoryMax")) := by
  have hrestart : joins policy.asSystemd = false := by cases policy <;> decide
  refine ⟨fun h => absurd h (by simp [entry,hrestart]),?_⟩
  cases memoryMax with
  | none => exact trivial
  | some memory => exact onlyAtEnd_singleton.mpr fun _ => trivial

theorem unit_unjoined_iff : (∀ s ∈ unitSections spec, s.Unjoined) ↔
    joins spec.image = false ∧
    OnlyAtEnd joins (spec.volumes = [] ∧ spec.env = [] ∧ spec.secrets = [] ∧
      spec.healthCmd = none ∧ spec.command = none) spec.ports ∧
    OnlyAtEnd joins (spec.env = [] ∧ spec.secrets = [] ∧ spec.healthCmd = none ∧
      spec.command = none) spec.volumes ∧
    OnlyAtEnd joins (spec.healthCmd = none ∧ spec.command = none) spec.secrets ∧
    ∀ health ∈ spec.healthCmd, joins health = false := by
  have hhealth : spec.healthCmd.toList.flatMap healthEntries = [] ↔ spec.healthCmd = none := by
    cases spec.healthCmd <;> simp [healthEntries]
  have henv : environmentEntries spec.env = [] ↔ spec.env = [] := List.map_eq_nil_iff
  simp only [unitSections,List.forall_mem_cons,List.not_mem_nil,false_imp_iff,implies_true,
    and_true,descriptionSection,unjoined_single,true_and]
  simp only [Section.Unjoined,service_unjoined,and_true]
  simp only [onlyAtEnd_append,onlyAtEnd_fixed _ (joins_containerName spec),onlyAtEnd_values,
    onlyAtEnd_volumes,onlyAtEnd_environment,onlyAtEnd_exec,onlyAtEnd_health,hhealth,henv,
    List.map_eq_nil_iff,Option.toList_eq_nil_iff,and_true,and_assoc]

theorem task_unjoined_iff : (∀ s ∈ taskSections spec task, s.Unjoined) ↔
    joins spec.image = false ∧ ∀ secret ∈ spec.secrets, joins secret = false := by
  simp only [taskSections,List.forall_mem_cons,List.not_mem_nil,false_imp_iff,implies_true,
    and_true,descriptionSection,unjoined_single,true_and]
  have hexec : OnlyAtEnd (fun e => joins e.2) True [execEntry task.command] :=
    onlyAtEnd_singleton.mpr fun _ => trivial
  simp only [Section.Unjoined,onlyAtEnd_append,onlyAtEnd_fixed _ (joins_taskUnitName _ _),
    onlyAtEnd_environment,onlyAtEnd_values,hexec,and_true]
  rw [onlyAtEnd_false (List.cons_ne_nil _ _)]

theorem timer_unjoined_iff : (∀ s ∈ timerSections spec task, s.Unjoined) ↔
    joins task.schedule = false := by
  simp only [timerSections,List.forall_mem_cons,List.not_mem_nil,false_imp_iff,implies_true,
    and_true,descriptionSection,unjoined_single,true_and]
  simp [Section.Unjoined,OnlyAtEnd,entry,joins_escapePercent]

theorem unitSections_keys : (unitSections spec).flatMap Section.keys = unitKeys spec := by
  simp only [unitSections,unitKeys,Section.keys,descriptionSection,environmentEntries,
    List.flatMap_cons,List.flatMap_nil,List.map_append,List.map_cons,List.map_nil,List.map_map,
    List.map_flatMap,List.append_assoc,List.cons_append,List.nil_append,List.append_nil]
  rfl

theorem taskSections_keys : (taskSections spec task).flatMap Section.keys = taskKeys spec := by
  simp only [taskSections,taskKeys,Section.keys,descriptionSection,environmentEntries,
    List.flatMap_cons,List.flatMap_nil,List.map_append,List.map_cons,List.map_nil,List.map_map,
    List.append_assoc,List.cons_append,List.nil_append,List.append_nil]
  rfl

theorem timerSections_keys : (timerSections spec task).flatMap Section.keys = timerKeys := rfl

theorem exists_ok {ε α : Type} {a : α} {P : α → Prop} :
    (∃ t, (Except.ok a : Except ε α) = .ok t ∧ P t) ↔ P a := by simp

theorem marker_comment : isComment managedMarker = true ∧ Unbroken managedMarker := by decide

/-- A valid spec's files hold exactly the directives of its shape when every field that is
written as it stands is contained, and only then. -/
theorem directives_exact_iff (hvalid : spec.validate = .ok ()) :
    DirectivesExact spec ↔ Contained spec := by
  have hfields := fieldsUnbroken hvalid
  have hunit : (∃ t, render spec = .ok t ∧ keys t = unitKeys spec) ↔
      ∀ s ∈ unitSections spec, s.Unjoined := by
    have hrender : render spec = .ok (unitText spec) := render_eq_ok.mpr ⟨hvalid,rfl⟩
    rw [hrender,exists_ok,unitText_eq,← unitSections_keys]
    exact keys_fileText_iff marker_comment.1 marker_comment.2 (unitSections_wellFormed hfields)
      (List.cons_ne_nil _ _)
  have htask : ∀ task ∈ spec.tasks, (∃ t, renderTask spec task = .ok t ∧ keys t = taskKeys spec) ↔
      ∀ s ∈ taskSections spec task, s.Unjoined := by
    intro task hmem
    have hrender : renderTask spec task = .ok (taskText spec task) := by
      rw [renderTask,hvalid]
      rfl
    rw [hrender,exists_ok,taskText_eq,← taskSections_keys]
    exact keys_fileText_iff marker_comment.1 marker_comment.2 (taskSections_wellFormed hfields hmem)
      (List.cons_ne_nil _ _)
  have htimer : ∀ task ∈ spec.tasks, (∃ t, renderTimer spec task = .ok t ∧ keys t = timerKeys) ↔
      ∀ s ∈ timerSections spec task, s.Unjoined := by
    intro task hmem
    have hrender : renderTimer spec task = .ok (timerText spec task) := by
      rw [renderTimer,hvalid]
      rfl
    rw [hrender,exists_ok,timerText_eq,← timerSections_keys]
    exact keys_fileText_iff marker_comment.1 marker_comment.2 (timerSections_wellFormed hfields hmem)
      (List.cons_ne_nil _ _)
  constructor
  · rintro ⟨hu,ht,hr⟩
    obtain ⟨himage,hports,hvolumes,hsecrets,hhealth⟩ := unit_unjoined_iff.mp (hunit.mp hu)
    refine ⟨himage,hports,hvolumes,?_,hhealth,fun task hmem =>
      timer_unjoined_iff.mp ((htimer task hmem).mp (hr task hmem))⟩
    -- a task's `Exec` line follows its secrets, so with a task no secret may join
    cases htasks : spec.tasks with
    | nil => simpa using hsecrets
    | cons task rest =>
      have hmem : task ∈ spec.tasks := htasks ▸ List.mem_cons_self
      exact onlyAtEnd_of_none (task_unjoined_iff.mp ((htask task hmem).mp (ht task hmem))).2
  · intro h
    have hsecrets : OnlyAtEnd joins (spec.healthCmd = none ∧ spec.command = none) spec.secrets :=
      h.secrets.mono fun hlast => ⟨hlast.1,hlast.2.1⟩
    refine ⟨hunit.mpr (unit_unjoined_iff.mpr ⟨h.image,h.ports,h.volumes,hsecrets,h.healthCmd⟩),
      fun task hmem => (htask task hmem).mpr (task_unjoined_iff.mpr ⟨h.image,?_⟩),
      fun task hmem => (htimer task hmem).mpr (timer_unjoined_iff.mpr (h.schedules task hmem))⟩
    exact (onlyAtEnd_false fun hlast => List.ne_nil_of_mem hmem hlast.2.2).mp h.secrets

end Exact

section Samples

/-- A spec with every kind of field, and a backslash where it does no harm. -/
def fullSpec : WorkloadSpec where
  name := "web api"
  image := "docker.io/library/alpine:3.20"
  command := some ["sh","-c","echo \"hi\" \\"]
  env := [("GREETING","hello world")]
  ports := ["8080:80"]
  volumes := ["/srv/web:/data"]
  secrets := ["db-password"]
  memoryMax := some "256M\\"
  healthCmd := some "curl -f localhost"
  tasks := [⟨"backup","daily",["true"]⟩]

theorem fullSpec_exact : DirectivesExact fullSpec := by
  refine (directives_exact_iff (by decide +kernel)).mpr ⟨by decide,?_,?_,?_,by decide,by decide⟩
  · exact ⟨fun h => absurd h (by decide),trivial⟩
  · exact ⟨fun h => absurd h (by decide),trivial⟩
  · exact ⟨fun h => absurd h (by decide),trivial⟩

/-- A health command pasted with the backslash that continued it in a shell script. -/
def continuedSpec : WorkloadSpec where
  name := "web"
  image := "docker.io/library/alpine:3.20"
  healthCmd := some "curl -f localhost \\"

/-- The unit of a valid spec loses its health timeout to the line above it. -/
theorem continued_health_swallows_timeout :
    continuedSpec.validate = .ok () ∧ ¬DirectivesExact continuedSpec ∧
      entry "Container" "HealthTimeout" ∉ keys (unitText continuedSpec) := by
  refine ⟨by decide +kernel,?_,by decide +kernel⟩
  rintro ⟨⟨t,ht,hkeys⟩,-,-⟩
  obtain ⟨-,rfl⟩ := render_eq_ok.mp ht
  exact absurd hkeys (by decide +kernel)

end Samples

end Kuadrat
