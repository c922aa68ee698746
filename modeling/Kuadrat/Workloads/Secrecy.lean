import Mathlib.Data.List.Forall2
import Kuadrat.Workloads.Render

/-!
# What a validation error tells

The values of a spec that may hold a secret enter its validation only through whether they
contain a line break. Two specs that differ in nothing else get the same answer.
-/
namespace Kuadrat

def hasLineBreak (t : Text) : Bool := t.contains '\n' || t.contains '\r'

/-- Two texts that `single_line` cannot tell apart. -/
def SameBreaks (a b : Text) : Prop := hasLineBreak a = hasLineBreak b

structure ScheduledTask.Alike (t t' : ScheduledTask) : Prop where
  name : t.name = t'.name
  schedule : t.schedule = t'.schedule
  command : List.Forall₂ SameBreaks t.command t'.command

/-- Specs that are equal except in the contents of env values, command arguments, `health_cmd`,
volumes, ports, secret names and task command words. -/
structure WorkloadSpec.Alike (s s' : WorkloadSpec) : Prop where
  name : s.name = s'.name
  image : s.image = s'.image
  command : Option.Rel (List.Forall₂ SameBreaks) s.command s'.command
  env : List.Forall₂ (fun e e' => e.1 = e'.1 ∧ SameBreaks e.2 e'.2) s.env s'.env
  ports : List.Forall₂ SameBreaks s.ports s'.ports
  volumes : List.Forall₂ SameBreaks s.volumes s'.volumes
  secrets : List.Forall₂ SameBreaks s.secrets s'.secrets
  memoryMax : s.memoryMax = s'.memoryMax
  healthCmd : Option.Rel SameBreaks s.healthCmd s'.healthCmd
  restartPolicy : s.restartPolicy = s'.restartPolicy
  route : s.route = s'.route
  tasks : List.Forall₂ ScheduledTask.Alike s.tasks s'.tasks

/-- A loop over two lists runs alike when its body does at corresponding elements. -/
theorem forM_congr {m : Type → Type} [Monad m] {α β : Type} {R : α → β → Prop} {f : α → m Unit}
    {g : β → m Unit} {l : List α} {l' : List β} (h : List.Forall₂ R l l')
    (hbody : ∀ a b, R a b → f a = g b) : forM l f = forM l' g := by
  induction h with
  | nil => rfl
  | cons hab _ ih => rw [List.forM_cons,List.forM_cons,hbody _ _ hab,ih]

theorem forall₂_zipIdx {α β : Type} {R : α → β → Prop} {l : List α} {l' : List β}
    (h : List.Forall₂ R l l') (n : ℕ) :
    List.Forall₂ (fun v v' => R v.1 v'.1 ∧ v.2 = v'.2) (l.zipIdx n) (l'.zipIdx n) := by
  induction h generalizing n with
  | nil => exact .nil
  | cons hab _ ih => exact .cons ⟨hab,rfl⟩ (ih (n+1))

namespace WorkloadSpec
variable {label : Message}

theorem singleLine_congr {v v' : Text} (h : SameBreaks v v') :
    singleLine label v = singleLine label v' := by
  have hbreak : (v.contains '\n' || v.contains '\r') = (v'.contains '\n' || v'.contains '\r') := h
  rw [singleLine,singleLine,hbreak]

theorem singleLines_congr {vs vs' : List Text} (h : List.Forall₂ SameBreaks vs vs') :
    singleLines label vs = singleLines label vs' :=
  forM_congr (forall₂_zipIdx h 0) fun v v' hv => by rw [hv.2,singleLine_congr hv.1]

theorem singleLine_option_congr {o o' : Option Text} (h : Option.Rel SameBreaks o o') :
    forM o.toList (singleLine label) = forM o'.toList (singleLine label) := by
  cases h with
  | none => rfl
  | some hv => exact forM_congr (.cons hv .nil) fun _ _ => singleLine_congr

theorem singleLines_option_congr {o o' : Option (List Text)}
    (h : Option.Rel (List.Forall₂ SameBreaks) o o') :
    singleLines label (o.getD []) = singleLines label (o'.getD []) := by
  cases h with
  | none => rfl
  | some hvs => exact singleLines_congr hvs

theorem isEmpty_congr {vs vs' : List Text} (h : List.Forall₂ SameBreaks vs vs') :
    vs.isEmpty = vs'.isEmpty := by
  cases h with
  | nil => rfl
  | cons => rfl

theorem validateTasks_congr {tasks tasks' : List ScheduledTask}
    (h : List.Forall₂ ScheduledTask.Alike tasks tasks') (seen : List Text) :
    validateTasks seen tasks = validateTasks seen tasks' := by
  induction h generalizing seen with
  | nil => rfl
  | cons htask _ ih =>
    rw [validateTasks,validateTasks,htask.name,htask.schedule,isEmpty_congr htask.command,
      singleLines_congr htask.command,ih]

theorem healthCmd_isNone_congr {o o' : Option Text} (h : Option.Rel SameBreaks o o') :
    o.isNone = o'.isNone := by
  cases h with
  | none => rfl
  | some => rfl

/-- The checks of one variable, as the loop of `validate` makes them. -/
abbrev checkVariable : Text × Text → Except Message Unit := fun (key,value) => do
  singleLine ["env key ",.debug key] key
  singleLine ["env value for ",.debug key] value

theorem env_congr {env env' : List (Text × Text)}
    (h : List.Forall₂ (fun e e' => e.1 = e'.1 ∧ SameBreaks e.2 e'.2) env env') :
    forM env checkVariable = forM env' checkVariable :=
  forM_congr h fun e e' he => by rw [checkVariable,he.1,singleLine_congr he.2]

theorem Alike.validate_eq {s s' : WorkloadSpec} (h : Alike s s') : s.validate = s'.validate := by
  rw [validate,validate,env_congr h.env,slug,slug,h.name,h.image,singleLines_congr h.ports,
    singleLines_congr h.volumes,singleLines_congr h.secrets,h.memoryMax,
    singleLine_option_congr h.healthCmd,singleLines_option_congr h.command,h.route,
    healthCmd_isNone_congr h.healthCmd,validateTasks_congr h.tasks]

end WorkloadSpec

/-- What a renderer returns after the validation only says that it passed. -/
theorem validated_eq_error {v : Except Message Unit} {t : Text} {e : Message} :
    (do v; return t) = .error e ↔ v = .error e := by
  cases v with
  | error e' => simp [bind,Except.bind]
  | ok u => simp [bind,Except.bind,pure,Except.pure]

/-- Validation answers two specs that differ in secret-bearing values alike, and so do the
errors of the three renderers. -/
theorem errors_tell_nothing {s s' : WorkloadSpec} (h : s.Alike s') :
    s.validate = s'.validate ∧ ∀ e, (render s = .error e ↔ render s' = .error e) ∧
      ∀ task task', (renderTask s task = .error e ↔ renderTask s' task' = .error e) ∧
        (renderTimer s task = .error e ↔ renderTimer s' task' = .error e) := by
  have hv := h.validate_eq
  refine ⟨hv,fun e => ⟨?_,fun task task' => ⟨?_,?_⟩⟩⟩
  · rw [render,render,validated_eq_error,validated_eq_error,hv]
  · rw [renderTask,renderTask,validated_eq_error,validated_eq_error,hv]
  · rw [renderTimer,renderTimer,validated_eq_error,validated_eq_error,hv]

/-- A spec with a password where one may stand. -/
def passwordSpec (password : Text) : WorkloadSpec where
  name := "web"
  image := "web:1"
  command := some ["--password",password]
  env := [("PASSWORD",password)]
  healthCmd := some password
  tasks := [⟨"backup","daily",[password]⟩]

theorem passwordSpec_alike {p p' : Text} (h : SameBreaks p p') :
    (passwordSpec p).Alike (passwordSpec p') where
  name := rfl
  image := rfl
  command := .some (.cons rfl (.cons h .nil))
  env := .cons ⟨rfl,h⟩ .nil
  ports := .nil
  volumes := .nil
  secrets := .nil
  memoryMax := rfl
  healthCmd := .some h
  restartPolicy := rfl
  route := rfl
  tasks := .cons ⟨rfl,rfl,.cons h .nil⟩ .nil

theorem passwordSpec_errors :
    (passwordSpec "hunter2\n").validate = (passwordSpec "\rswordfish").validate ∧
    (passwordSpec "\rswordfish").validate = .error ["env value for ",.debug "PASSWORD",
      " contains a line break, which would inject Quadlet directives"] :=
  ⟨(errors_tell_nothing (passwordSpec_alike rfl)).1,by decide⟩

end Kuadrat
