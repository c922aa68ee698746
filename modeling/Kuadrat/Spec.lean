import Kuadrat.Text

/-!
# Workload specs

The declarative description of one workload, its validation, and the slug that
names every artefact derived from it.
-/
namespace Kuadrat

structure Route where
  domain : Text
  port : UInt16
  deriving DecidableEq

inductive RestartPolicy
  | always
  | onFailure
  | no
  deriving DecidableEq

def RestartPolicy.asSystemd : RestartPolicy → Text
  | .always => "always"
  | .onFailure => "on-failure"
  | .no => "no"

/-- A systemd `OnCalendar` expression and the command it runs. -/
structure ScheduledTask where
  name : Text
  schedule : Text
  command : List Text
  deriving DecidableEq

structure WorkloadSpec where
  name : Text
  image : Text
  command : Option (List Text) := none
  env : List (Text × Text) := []
  ports : List Text := []
  volumes : List Text := []
  secrets : List Text := []
  memoryMax : Option Text := none
  healthCmd : Option Text := none
  restartPolicy : RestartPolicy := .always
  route : Option Route := none
  tasks : List ScheduledTask := []
  deriving DecidableEq

/-- One character of the slug loop: `out` is the text so far, `lastDash` whether the last
character seen was written as a dash. -/
def slugStep (acc : Text × Bool) (ch : Char) : Text × Bool :=
  if ch.isAlphanum then (acc.1 ++ [ch.toLower],false)
  else if (ch == ' ' || ch == '-' || ch == '_') && !acc.2 && !acc.1.isEmpty then
    (acc.1 ++ ['-'],true)
  else acc

/-- Lowercase, collapse separators to `-`, drop anything else. -/
def slug (name : Text) : Text :=
  let out := (name.trim.foldl slugStep ([],false)).1
  (out.reverse.dropWhile (· == '-')).reverse

namespace WorkloadSpec

def slug (spec : WorkloadSpec) : Text := Kuadrat.slug spec.name

/-- Reject a line break in a field that renders as one unit-file line. Value never echoed. -/
def singleLine (field : Message) (value : Text) : Except Message Unit :=
  reject (value.contains '\n' || value.contains '\r')
    (field ++ msg [" contains a line break, which would inject Quadlet directives"])

def emptyIdentifier (what : String) (name : Text) : Message :=
  [what,.debug name," yields an empty identifier; it needs at least one letter or digit"]

/-- The field label `name[i]` of the i-th element of a list. -/
def indexed (label : Message) (i : ℕ) : Message := label ++ msg ["[",.text (Text.decimal i),"]"]

/-- The checks of one list of single-line values, labelled by position. -/
def singleLines (label : Message) (values : List Text) : Except Message Unit :=
  forM values.zipIdx fun v => singleLine (indexed label v.2) v.1

/-- The checks of the tasks in order; `seen` holds the slugs of the earlier ones. -/
def validateTasks (seen : List Text) : List ScheduledTask → Except Message Unit
  | [] => return ()
  | task::rest => do
    reject (Kuadrat.slug task.name).isEmpty (emptyIdentifier "task name " task.name)
    reject (seen.contains (Kuadrat.slug task.name)) ["duplicate task name ",.debug task.name]
    singleLine ["task ",.debug task.name," name"] task.name
    reject task.schedule.trim.isEmpty ["task ",.debug task.name," has an empty schedule"]
    singleLine ["task ",.debug task.name," schedule"] task.schedule
    reject task.command.isEmpty ["task ",.debug task.name," has an empty command"]
    singleLines ["task ",.debug task.name," command"] task.command
    validateTasks (Kuadrat.slug task.name::seen) rest

/-- Reject anything that would not survive being written into a Quadlet unit file. Messages
name the offending field, never its value. -/
def validate (spec : WorkloadSpec) : Except Message Unit := do
  reject spec.slug.isEmpty (emptyIdentifier "workload name " spec.name)
  singleLine ["name"] spec.name
  singleLine ["image"] spec.image
  singleLines ["ports"] spec.ports
  singleLines ["volumes"] spec.volumes
  forM spec.env fun (key,value) => do
    singleLine ["env key ",.debug key] key
    singleLine ["env value for ",.debug key] value
  singleLines ["secrets"] spec.secrets
  forM spec.memoryMax.toList (singleLine ["memory_max"])
  forM spec.healthCmd.toList (singleLine ["health_cmd"])
  singleLines ["command"] (spec.command.getD [])
  reject (spec.route.isSome && spec.healthCmd.isNone) ["workload ",.debug spec.name,
    " declares a route but no health_cmd: public traffic must not reach a " ++
      "service with no readiness check"]
  forM spec.route.toList fun route => singleLine ["route domain"] route.domain
  validateTasks [] spec.tasks

theorem validateTasks_slugs {seen : List Text} {tasks : List ScheduledTask}
    (h : validateTasks seen tasks = .ok ()) :
    (∀ task ∈ tasks, Kuadrat.slug task.name ≠ [] ∧ Kuadrat.slug task.name ∉ seen) ∧
      (tasks.map fun task => Kuadrat.slug task.name).Nodup := by
  induction tasks generalizing seen with
  | nil => simp
  | cons task rest ih =>
    simp only [validateTasks,seq_eq_ok,reject_eq_ok] at h
    obtain ⟨hne,hseen,-,-,-,-,-,hrest⟩ := h
    obtain ⟨hall,hnodup⟩ := ih hrest
    have hne' : Kuadrat.slug task.name ≠ [] := by simpa using hne
    have hseen' : Kuadrat.slug task.name ∉ seen := by simpa using hseen
    constructor
    · intro t ht
      rcases List.mem_cons.mp ht with rfl | ht
      · exact ⟨hne',hseen'⟩
      · exact ⟨(hall t ht).1,fun hs => (hall t ht).2 (List.mem_cons_of_mem _ hs)⟩
    · refine List.nodup_cons.mpr ⟨fun hmem => ?_,hnodup⟩
      obtain ⟨t,ht,heq⟩ := List.mem_map.mp hmem
      exact (hall t ht).2 (by rw [heq]; exact List.mem_cons_self)

theorem slugs_of_validate {spec : WorkloadSpec} (h : spec.validate = .ok ()) : spec.slug ≠ [] ∧
    (∀ task ∈ spec.tasks, Kuadrat.slug task.name ≠ []) ∧
    (spec.tasks.map fun task => Kuadrat.slug task.name).Nodup := by
  simp only [validate,seq_eq_ok,reject_eq_ok] at h
  have htasks := validateTasks_slugs h.2.2.2.2.2.2.2.2.2.2.2.2
  exact ⟨by simpa using h.1,fun task ht => (htasks.1 task ht).1,htasks.2⟩

end WorkloadSpec
end Kuadrat
