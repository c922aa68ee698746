import Kuadrat.Text

/-!
# Stages, statuses and events

The value types of a deploy and of its durable timeline. The database stores
each of them as text; `fromStr` reads back what `asStr` writes.
-/
namespace Kuadrat

inductive Stage
  | detect
  | build
  | secrets
  | apply
  | route
  | healthcheck
  deriving DecidableEq

inductive DeployStatus
  | inProgress
  | done
  | rolledBack
  | failed
  deriving DecidableEq

inductive EventStatus
  | started
  | succeeded
  | failed
  deriving DecidableEq

namespace Stage

def asStr : Stage → String
  | detect => "detect"
  | build => "build"
  | secrets => "secrets"
  | apply => "apply"
  | route => "route"
  | healthcheck => "healthcheck"

def fromStr : String → Option Stage
  | "detect" => some detect
  | "build" => some build
  | "secrets" => some secrets
  | "apply" => some apply
  | "route" => some route
  | "healthcheck" => some healthcheck
  | _ => none

theorem fromStr_asStr (stage : Stage) : fromStr stage.asStr = some stage := by
  cases stage <;> rfl

/-- `{:?}` of a stage. -/
def debug : Stage → String
  | detect => "Detect"
  | build => "Build"
  | secrets => "Secrets"
  | apply => "Apply"
  | route => "Route"
  | healthcheck => "Healthcheck"

end Stage

namespace DeployStatus

def asStr : DeployStatus → String
  | inProgress => "in_progress"
  | done => "done"
  | rolledBack => "rolled_back"
  | failed => "failed"

def fromStr : String → Option DeployStatus
  | "in_progress" => some inProgress
  | "done" => some done
  | "rolled_back" => some rolledBack
  | "failed" => some failed
  | _ => none

theorem fromStr_asStr (status : DeployStatus) : fromStr status.asStr = some status := by
  cases status <;> rfl

end DeployStatus

namespace EventStatus

def asStr : EventStatus → String
  | started => "started"
  | succeeded => "succeeded"
  | failed => "failed"

def fromStr : String → Option EventStatus
  | "started" => some started
  | "succeeded" => some succeeded
  | "failed" => some failed
  | _ => none

theorem fromStr_asStr (status : EventStatus) : fromStr status.asStr = some status := by
  cases status <;> rfl

end EventStatus

/-- What an event is about: one stage of the deploy loop, or the whole deploy reaching its
terminal status. -/
inductive EventKind
  | stage (stage : Stage) (status : EventStatus)
  | finished (status : DeployStatus)
  deriving DecidableEq

/-- The stage-column literal that marks a deploy-level event. -/
def deployRow : String := "deploy"

def EventKind.columns : EventKind → String × String
  | stage s status => (s.asStr,status.asStr)
  | finished status => (deployRow,status.asStr)

/-- The kind behind a pair of columns; a deploy-level row must be terminal. -/
def EventKind.ofColumns (stageS statusS : String) : Option EventKind :=
  if stageS = deployRow then
    (DeployStatus.fromStr statusS).bind fun status =>
      if status = .inProgress then none else some (.finished status)
  else
    (Stage.fromStr stageS).bind fun stage =>
      (EventStatus.fromStr statusS).map fun status => .stage stage status

theorem EventKind.ofColumns_columns (kind : EventKind) :
    ofColumns kind.columns.1 kind.columns.2 =
      if kind = .finished .inProgress then none else some kind := by
  cases kind with
  | stage s status => cases s <;> cases status <;> rfl
  | finished status => cases status <;> rfl

structure Event where
  deployId : ℕ
  kind : EventKind
  detail : Option Message
  deriving DecidableEq

def Event.forStage (deployId : ℕ) (stage : Stage) (status : EventStatus)
    (detail : Option Message) : Event := ⟨deployId,.stage stage status,detail⟩

def Event.finished (deployId : ℕ) (status : DeployStatus) (detail : Option Message) : Event :=
  ⟨deployId,.finished status,detail⟩

/-- An event as it exists after the store has written it. -/
structure StoredEvent where
  id : ℕ
  event : Event
  deriving DecidableEq

end Kuadrat
