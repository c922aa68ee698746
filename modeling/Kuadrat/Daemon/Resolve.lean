import Kuadrat.Deploy.Driver

/-!
# Resolving the spec of a registered app

The errors of the API, and the part of its deploy path that computes from what was
read: the registration, the spec of the registered repo, its validation.
-/
namespace Kuadrat

inductive StatusCode
  | badRequest
  | unauthorized
  | notFound
  | conflict
  | internalServerError
  deriving DecidableEq

/-- An error with the status the design assigns it. -/
structure ApiError where
  code : StatusCode
  msg : Message
  deriving DecidableEq

namespace ApiError

def notFound (m : Message) : ApiError := ⟨.notFound,m⟩
def badRequest (m : Message) : ApiError := ⟨.badRequest,m⟩
def unauthorized (m : Message) : ApiError := ⟨.unauthorized,m⟩
def conflict (m : Message) : ApiError := ⟨.conflict,m⟩
def internal (m : Message) : ApiError := ⟨.internalServerError,m⟩
def isConflict (e : ApiError) : Bool := e.code == .conflict

end ApiError

abbrev ApiResult := Except ApiError

/-- The registration of `name`, from what the store answers. -/
def registration (name : Text) (reply : Except Message (Option AppConfig)) :
    ApiResult AppConfig :=
  match reply with
  | .error e => .error (.internal (Message.context ["reading registration"] e))
  | .ok none => .error (.notFound ["no app ",.text name])
  | .ok (some config) => .ok config

variable (codec : SpecCodec)

/-- The decoded `kuadrat.json` of the registered repo. -/
def repoSpec (config : AppConfig) (fsysRead : Path → Option Text) : Except Message WorkloadSpec :=
  let file := (Path.ofText config.repoPath).join "kuadrat.json"
  match fsysRead file with
  | some text => (codec.ofText text).mapError
      (Message.context ["parsing ",.text (Path.display file)])
  | none => bail ["no spec for ",.text config.name,": add a kuadrat.json to ",
      .text config.repoPath," or deploy it once with one"]

/-- The spec to deploy for a registered app. The route comes from the registration,
unconditionally. -/
def specFor (config : AppConfig) (fsysRead : Path → Option Text) : Except Message WorkloadSpec := do
  let spec ← repoSpec codec config fsysRead
  return { spec with name := config.name, route := config.route }

/-- Load and validate the spec from one registration snapshot. -/
def deploySpec (config : AppConfig) (fsysRead : Path → Option Text) :
    ApiResult (WorkloadSpec × Path) := do
  let repo := Path.ofText config.repoPath
  let spec ← (specFor codec config fsysRead).mapError ApiError.badRequest
  spec.validate.mapError ApiError.badRequest
  return (spec,repo)

/-- What is accepted for a deploy is what `specFor` resolves, once it is valid. -/
theorem deploySpec_eq_ok {config : AppConfig} {fsysRead : Path → Option Text}
    {spec : WorkloadSpec} {repo : Path} :
    deploySpec codec config fsysRead = .ok (spec,repo) ↔
      specFor codec config fsysRead = .ok spec ∧ spec.validate = .ok () ∧
        repo = Path.ofText config.repoPath := by
  unfold deploySpec
  cases specFor codec config fsysRead with
  | error e => simp [Except.mapError,bind,Except.bind]
  | ok resolved =>
    cases hvalid : resolved.validate with
    | error e =>
      simp only [Except.mapError,bind,Except.bind,hvalid,reduceCtorEq,Except.ok.injEq,false_iff]
      rintro ⟨rfl,hok,-⟩
      exact nomatch hvalid.symm.trans hok
    | ok u =>
      simp only [Except.mapError,bind,Except.bind,hvalid,pure,Except.pure,Except.ok.injEq,
        Prod.mk.injEq]
      constructor
      · rintro ⟨rfl,rfl⟩
        exact ⟨rfl,hvalid,rfl⟩
      · rintro ⟨rfl,-,rfl⟩
        exact ⟨rfl,rfl⟩

end Kuadrat
