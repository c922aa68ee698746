import Kuadrat.Cli.Args
import Kuadrat.Deploy.Driver

/-!
# Resolving the spec of a local deploy

`kuadrat deploy` first registers the app from its own arguments, for the daemon
that may answer, and resolves a spec by itself only when none does.
-/
namespace Kuadrat

/-- A path that the operating system gives back; it need not be valid UTF-8. -/
structure OsPath where
  display : Text
  toStr : Option Text

/-- What a read of one file meets. -/
inductive FileEntry
  | absent
  | unreadable (why : Message)
  | text (t : Text)

/-- `read_to_string(..).ok()`. -/
def FileEntry.contents : FileEntry → Option Text
  | .text t => some t
  | _ => none

/-- The filesystem that the command line and the daemon share. A canonical path leads to
the same entries as the path it came from. -/
structure Disk where
  entry : Path → FileEntry
  canonicalize : Path → Except Message OsPath
  entry_canonical : ∀ {repo : Path} {abs : OsPath} {t : Text}, canonicalize repo = .ok abs →
    abs.toStr = some t → ∀ name, entry ((Path.ofText t).join name) = entry (repo.join name)

variable (codec : SpecCodec) (disk : Disk)

/-- Register the app from the arguments of `kuadrat deploy`, before the handoff to a daemon. -/
def backfillRegistration (store : Store) (app : Text) (repo : Path) (route : Option Route) :
    Except Message Store := do
  let abs ← (disk.canonicalize repo).mapError
    (Message.context ["no such path: ",.text repo.display])
  match abs.toStr with
  | none => bail ["repo path ",.text abs.display," is not valid UTF-8"]
  | some repoPath => store.registerApp ⟨app,repoPath,route⟩

/-- What a local deploy decodes, in order: a `kuadrat.json` in the repo, else the spec stored
from a prior deploy. -/
def loadSpec (app : Text) (repo : Path) (store : Store) : Except Message WorkloadSpec :=
  let file := repo.join "kuadrat.json"
  match disk.entry file with
  | .text text => (codec.ofText text).mapError
      (Message.context ["parsing ",.text (Path.display file)])
  | .unreadable why => bail (Message.context ["reading ",.text (Path.display file)] why)
  | .absent => match store.currentSpec app with
    | some json => (codec.ofText json).mapError (Message.context ["parsing the stored spec"])
    | none => bail ["no spec for ",.text app,": add a kuadrat.json to ",.text repo.display,
        " or deploy it once with one"]

/-- Resolve the spec of `app`: the name is forced, and the flag replaces any route. -/
def resolveSpec (app : Text) (repo : Path) (store : Store) (routeOverride : Option Route) :
    Except Message WorkloadSpec := do
  let spec ← loadSpec codec disk app repo store
  let spec := { spec with name := app }
  match routeOverride with
  | some route => return { spec with route := some route }
  | none => return spec

/-- What `kuadrat deploy` does before it looks for a daemon. -/
def prepareDeploy (store : Store) (app : Text) (repo : Path) (route : Option Text) :
    Except Message (Option Route × Store) := do
  let routeOverride ← route.mapM parseRoute
  let store ← backfillRegistration disk store app repo routeOverride
  return (routeOverride,store)

end Kuadrat
