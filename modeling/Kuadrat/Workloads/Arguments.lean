import Kuadrat.Systemd.Words
import Kuadrat.Workloads.Directives

/-!
# Commands and environments behind their escapes

Percent signs are doubled first and words quoted after that. Decoding undoes both, so that
a command reads back as its arguments and each pair of the environment as one word.
-/
namespace Kuadrat
open Systemd

section Words

theorem isBare_of_not_special {c : Char} (hw : isWhitespace c = false) (hd : c ≠ '"')
    (hs : c ≠ '\'') (hb : c ≠ '\\') : isBare c = true := by
  have hsep : isSeparator c = false := by
    rw [isSeparator,Bool.or_eq_false_iff,Bool.or_eq_false_iff,beq_eq_false_iff_ne,
      beq_eq_false_iff_ne,beq_eq_false_iff_ne]
    refine ⟨⟨?_,?_⟩,?_⟩ <;> rintro rfl <;> exact absurd hw (by decide)
  simp [isBare,hsep,hd,hs,hb]

theorem spells_quoteWord (a : Text) : Spells (quoteWord a) a := by
  unfold quoteWord
  split
  · exact spells_quoted a
  · next h =>
    rw [Bool.or_eq_true,not_or,List.isEmpty_iff,Bool.not_eq_true,List.any_eq_false] at h
    refine spells_bare (fun c hc => ?_) h.1
    have hplain := h.2 c hc
    simp only [Bool.or_eq_true,beq_iff_eq,not_or,Bool.not_eq_true] at hplain
    exact isBare_of_not_special hplain.1.1.1 hplain.1.1.2 hplain.1.2 hplain.2

theorem unescapePercent_escapePercent (a : Text) : unescapePercent (escapePercent a) = a := by
  induction a with
  | nil => rfl
  | cons c rest ih =>
    rw [escapePercent,List.flatMap_cons]
    by_cases h : c = '%'
    · rw [if_pos h,h]
      exact congrArg ('%'::·) ih
    · rw [if_neg h,List.singleton_append,unescapePercent.eq_2 c _ fun _ hc _ => h hc]
      exact congrArg (c::·) ih

theorem decode_command (command : List Text) : decode (execEntry command).2 = some command := by
  have hspells : List.Forall₂ Spells (command.map fun a => quoteWord (escapePercent a))
      (command.map escapePercent) := by
    rw [List.forall₂_map_left_iff,List.forall₂_map_right_iff,List.forall₂_same]
    exact fun a _ => spells_quoteWord (escapePercent a)
  have hsplit : split .between (execEntry command).2 = some (command.map escapePercent) :=
    split_words hspells
  rw [decode,hsplit,Option.map_some,List.map_map]
  congr 1
  exact List.map_id'' unescapePercent_escapePercent command

/-- A pair of the environment is one word. -/
theorem decode_assignment (key value : Text) :
    decode (quoteWord (escapePercent key ++ ['='] ++ escapePercent value)) =
      some [key ++ '='::value] := by
  have hone : escapePercent key ++ ['='] ++ escapePercent value =
      escapePercent (key ++ '='::value) := by simp [escapePercent]
  have hsplit := split_words (.cons (spells_quoteWord (escapePercent (key ++ '='::value))) .nil)
  rw [List.intercalate,List.intersperse_singleton,List.flatten_singleton] at hsplit
  rw [decode,hone,hsplit,Option.map_some,List.map_singleton,unescapePercent_escapePercent]

end Words

section Values
variable {spec : WorkloadSpec} {task : ScheduledTask}

theorem other_values {key key' : Text} (h : key' ≠ key) (values : List Text) :
    (values.map (entry key')).filterMap (valueFor key) = [] := by
  rw [List.filterMap_map,List.filterMap_eq_nil_iff]
  exact fun _ _ => if_neg h

theorem other_volumes {key : Text} (h : ("Volume" : Text) ≠ key) (volumes : List Text) :
    (volumes.map fun volume => entry "Volume" (escapePercent volume)).filterMap (valueFor key) =
      [] := by
  rw [List.filterMap_map,List.filterMap_eq_nil_iff]
  exact fun _ _ => if_neg h

theorem other_environment {key : Text} (h : ("Environment" : Text) ≠ key)
    (env : List (Text × Text)) : (environmentEntries env).filterMap (valueFor key) = [] := by
  rw [environmentEntries,List.filterMap_map,List.filterMap_eq_nil_iff]
  exact fun _ _ => if_neg h

theorem other_health {key : Text} (h : ("HealthCmd" : Text) ≠ key)
    (h' : ("HealthTimeout" : Text) ≠ key) (healthCmd : Option Text) :
    (healthCmd.toList.flatMap healthEntries).filterMap (valueFor key) = [] := by
  cases healthCmd with
  | none => rfl
  | some health =>
    rw [Option.toList_some,List.flatMap_singleton,List.filterMap_eq_nil_iff]
    intro e he
    rcases List.mem_cons.mp he with rfl | he
    · exact if_neg h
    · rw [List.mem_singleton.mp he]
      exact if_neg h'

theorem other_execs {key : Text} (h : ("Exec" : Text) ≠ key) (commands : List (List Text)) :
    (commands.map execEntry).filterMap (valueFor key) = [] := by
  rw [List.filterMap_map,List.filterMap_eq_nil_iff]
  exact fun _ _ => if_neg h

theorem other_entry {key key' : Text} (h : key' ≠ key) (value : Text) (es : List (Text × Text)) :
    (entry key' value::es).filterMap (valueFor key) = es.filterMap (valueFor key) :=
  List.filterMap_cons_none (if_neg h)

theorem environment_values (env : List (Text × Text)) :
    (environmentEntries env).filterMap (valueFor "Environment") =
      (environmentEntries env).map Prod.snd := by
  rw [environmentEntries,List.filterMap_map,List.map_map,← List.filterMap_eq_map]
  exact List.filterMap_congr fun _ _ => rfl

theorem exec_values (commands : List (List Text)) :
    (commands.map execEntry).filterMap (valueFor "Exec") =
      commands.map fun command => (execEntry command).2 := by
  rw [List.filterMap_map,← List.filterMap_eq_map]
  exact List.filterMap_congr fun _ _ => rfl

theorem unit_execs : ((unitSections spec).flatMap Section.entries).filterMap (valueFor "Exec") =
    spec.command.toList.map fun command => (execEntry command).2 := by
  simp (disch := decide) only [unitSections,descriptionSection,List.flatMap_cons,
    List.flatMap_nil,List.filterMap_append,List.filterMap_nil,other_entry,other_values,
    other_volumes,other_environment,other_health,exec_values,List.nil_append,List.append_nil]

theorem unit_environment :
    ((unitSections spec).flatMap Section.entries).filterMap (valueFor "Environment") =
      (environmentEntries spec.env).map Prod.snd := by
  simp (disch := decide) only [unitSections,descriptionSection,List.flatMap_cons,
    List.flatMap_nil,List.filterMap_append,List.filterMap_nil,other_entry,other_values,
    other_volumes,environment_values,other_health,other_execs,List.nil_append,List.append_nil]

theorem task_execs :
    ((taskSections spec task).flatMap Section.entries).filterMap (valueFor "Exec") =
      [(execEntry task.command).2] := by
  have hexec : [execEntry task.command].filterMap (valueFor "Exec") =
      [(execEntry task.command).2] := exec_values [task.command]
  simp (disch := decide) only [taskSections,descriptionSection,List.flatMap_cons,
    List.flatMap_nil,List.filterMap_append,List.filterMap_nil,other_entry,other_values,
    other_environment,hexec,List.nil_append,List.append_nil]

theorem task_environment :
    ((taskSections spec task).flatMap Section.entries).filterMap (valueFor "Environment") =
      (environmentEntries spec.env).map Prod.snd := by
  have hexec : [execEntry task.command].filterMap (valueFor "Environment") = [] :=
    other_execs (by decide) [task.command]
  simp (disch := decide) only [taskSections,descriptionSection,List.flatMap_cons,
    List.flatMap_nil,List.filterMap_append,List.filterMap_nil,other_entry,other_values,
    environment_values,hexec,List.nil_append,List.append_nil]

theorem decode_environment (env : List (Text × Text)) :
    ((environmentEntries env).map Prod.snd).map decode =
      env.map fun e => some [e.1 ++ '='::e.2] := by
  rw [environmentEntries,List.map_map,List.map_map]
  exact List.map_congr_left fun e _ => decode_assignment e.1 e.2

theorem marker_no_key {key : Text} (hkey : Plain key) :
    (key ++ ['=']).isPrefixOf? managedMarker = none := by
  obtain ⟨c,t,rfl,hc⟩ := hkey.cons
  have hmarker : managedMarker = '#'::managedMarker.tail := rfl
  rw [hmarker,List.cons_append,List.isPrefixOf?,if_neg]
  simpa using ne_of_alphanum hc (d := '#') (by decide)

theorem rawValues_unit (hvalid : spec.validate = .ok ()) {key : Text} (hkey : Plain key) :
    rawValues key (unitText spec) =
      ((unitSections spec).flatMap Section.entries).filterMap (valueFor key) := by
  rw [unitText_eq]
  exact rawValues_fileText hkey marker_comment.2 (marker_no_key hkey)
    (unitSections_wellFormed (fieldsUnbroken hvalid)) (List.cons_ne_nil _ _)

theorem rawValues_task (hvalid : spec.validate = .ok ()) (htask : task ∈ spec.tasks) {key : Text}
    (hkey : Plain key) : rawValues key (taskText spec task) =
      ((taskSections spec task).flatMap Section.entries).filterMap (valueFor key) := by
  rw [taskText_eq]
  exact rawValues_fileText hkey marker_comment.2 (marker_no_key hkey)
    (taskSections_wellFormed (fieldsUnbroken hvalid) htask) (List.cons_ne_nil _ _)

/-- The `Exec=` and `Environment=` values of a file decode to this command, if there is one,
and to one word for each pair. -/
structure Carries (text : Text) (command : Option (List Text)) (env : List (Text × Text)) :
    Prop where
  exec : (rawValues "Exec" text).map decode = command.toList.map some
  environment : (rawValues "Environment" text).map decode = env.map fun e => some [e.1 ++ '='::e.2]

/-- Commands and environments come back from every file that has them. -/
theorem words_survive (hvalid : spec.validate = .ok ()) :
    (∃ t, render spec = .ok t ∧ Carries t spec.command spec.env) ∧
      ∀ task ∈ spec.tasks, ∃ t, renderTask spec task = .ok t ∧
        Carries t (some task.command) spec.env := by
  constructor
  · refine ⟨unitText spec,render_eq_ok.mpr ⟨hvalid,rfl⟩,?_,?_⟩
    · rw [rawValues_unit hvalid (by decide),unit_execs,List.map_map]
      exact List.map_congr_left fun command _ => decode_command command
    · rw [rawValues_unit hvalid (by decide),unit_environment,decode_environment]
  · intro task htask
    have hrender : renderTask spec task = .ok (taskText spec task) := by
      rw [renderTask,hvalid]
      rfl
    refine ⟨taskText spec task,hrender,?_,?_⟩
    · rw [rawValues_task hvalid htask (by decide),task_execs,List.map_singleton,decode_command]
      rfl
    · rw [rawValues_task hvalid htask (by decide),task_environment,decode_environment]

theorem fullSpec_words_survive : ∃ t, render fullSpec = .ok t ∧
    Carries t (some ["sh","-c","echo \"hi\" \\"]) [("GREETING","hello world")] :=
  (@words_survive fullSpec (by decide +kernel)).1

end Values

end Kuadrat
