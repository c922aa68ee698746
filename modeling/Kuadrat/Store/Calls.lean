import Kuadrat.Store.Tables

/-!
# Calls of the store

Registrations, and the table of every call with its reply. A call that returns an
error leaves the tables as they were.
-/
namespace Kuadrat

/-- `Path::is_absolute` on Unix. -/
def isAbsolute (p : Text) : Bool := p.head? = some '/'

namespace Store

/-- The names that have a registration or a deployed spec. -/
def names (s : Store) : List Text := s.configs.keys ++ s.apps.keys

/-- Register an app, or replace its registration, writing every column. -/
def registerApp (s : Store) (config : AppConfig) : Except Message Store :=
  if (slug config.name).isEmpty then
    .error ["app name ",.debug config.name," yields an empty identifier; it needs at least one " ++
      "letter or digit"]
  else if !isAbsolute config.repoPath then
    .error ["repo_path ",.debug config.repoPath," for app ",.debug config.name," is not absolute; the " ++
      "daemon's working directory is not the operator's shell, so a relative path resolves " ++
      "against the wrong place"]
  else if s.names.any fun name => name != config.name && slug name == slug config.name then
    .error ["slug ",.debug (slug config.name)," for app ",.debug config.name," collides with an " ++
      "existing app"]
  else .ok { s with
    configs := s.configs.insert config.name {
      repoPath := config.repoPath
      routeDomain := config.route.map Route.domain
      routePort := config.route.map fun route => (route.port.toNat : ℤ) } }

/-- Read a route back from its two columns, which are written together. -/
def buildAppConfig (name repoPath : Text) (domain : Option Text) (port : Option ℤ) :
    Except Message AppConfig :=
  match domain,port with
  | some domain,some port =>
    if port < 0 ∨ 65535 < port then
      .error ["app ",.debug name," has route port ",.text (toString port),
        ", which is outside 0-65535"]
    else if port = 0 then
      .error ["app ",.debug name," has route port 0, which is not a valid port to serve on"]
    else .ok ⟨name,repoPath,some ⟨domain,UInt16.ofNat port.toNat⟩⟩
  | none,none => .ok ⟨name,repoPath,none⟩
  | some _,none => .error ["app ",.debug name," has a route domain but no port"]
  | none,some _ => .error ["app ",.debug name," has a route port but no domain"]

/-- The registration of `name`, or `none` if it was never registered. -/
def appConfig (s : Store) (name : Text) : Except Message (Option AppConfig) :=
  match s.configs.lookup name with
  | none => .ok none
  | some row => (buildAppConfig name row.repoPath row.routeDomain row.routePort).map some

/-- A row that is read keeps its name and its checkout, and has no route without a port. -/
theorem buildAppConfig_ok {name repoPath : Text} {domain : Option Text} {port : Option ℤ}
    {config : AppConfig} (h : buildAppConfig name repoPath domain port = .ok config) :
    config.name = name ∧ config.repoPath = repoPath ∧
      ∀ route, config.route = some route → route.port ≠ 0 := by
  unfold buildAppConfig at h
  split at h
  · rename_i _ port
    split at h
    · cases h
    rename_i hrange
    split at h
    · cases h
    rename_i hzero
    cases h
    refine ⟨rfl,rfl,fun route hroute hport => ?_⟩
    cases hroute
    have hnat := congrArg UInt16.toNat hport
    rw [UInt16.toNat_ofNat'] at hnat
    change port.toNat % 65536 = 0 at hnat
    omega
  · cases h
    exact ⟨rfl,rfl,fun route hroute => by cases hroute⟩
  · cases h
  · cases h

theorem appConfig_ok {s : Store} {name : Text} {config : AppConfig}
    (h : s.appConfig name = .ok (some config)) : ∃ row, s.configs.lookup name = some row ∧
      buildAppConfig name row.repoPath row.routeDomain row.routePort = .ok config := by
  unfold appConfig at h
  split at h
  · cases h
  · rename_i row hrow
    refine ⟨row,hrow,?_⟩
    cases hbuild : buildAppConfig name row.repoPath row.routeDomain row.routePort with
    | error e =>
      rw [hbuild] at h
      cases h
    | ok config' =>
      rw [hbuild] at h
      cases h
      rfl

end Store

/-- One call of the store. -/
inductive StoreOp
  | putSpec (name slug specJson : Text)
  | currentSpec (name : Text)
  | createDeploy (app : Text)
  | advanceStage (deployId : ℕ) (stage : Stage)
  | finishDeploy (deployId : ℕ) (status : DeployStatus) (detail : Option Message)
  | finishDeployWithEvent (deployId : ℕ) (status : DeployStatus) (detail : Option Message)
  | deploy (deployId : ℕ)
  | inProgressDeploys
  | acquireLock (app : Text) (deployId : ℕ)
  | releaseLock (app : Text)
  | releaseOrphanedLocks
  | appendEvent (event : Event)
  | eventsFor (deployId : ℕ)
  | registerApp (config : AppConfig)
  | appConfig (name : Text)

@[reducible] def StoreOp.Reply : StoreOp → Type
  | putSpec .. => Unit
  | currentSpec _ => Option Text
  | createDeploy _ => ℕ
  | advanceStage .. => Unit
  | finishDeploy .. => Unit
  | finishDeployWithEvent .. => StoredEvent
  | deploy _ => Option DeployRow
  | inProgressDeploys => List DeployRow
  | acquireLock .. => Bool
  | releaseLock _ => Unit
  | releaseOrphanedLocks => List Text
  | appendEvent _ => StoredEvent
  | eventsFor _ => List StoredEvent
  | registerApp _ => Unit
  | appConfig _ => Option AppConfig

/-- The call may change the row of deploy `d`. -/
def StoreOp.Moves (d : ℕ) : StoreOp → Prop
  | advanceStage d' _ | finishDeploy d' .. | finishDeployWithEvent d' .. => d' = d
  | _ => False

namespace Store

/-- A statement that may be rejected: then the transaction is rolled back. -/
def commit {α : Type} (s : Store) : Except Message (α × Store) → Except Message α × Store
  | .ok (a,s') => (.ok a,s')
  | .error e => (.error e,s)

def call (s : Store) : (o : StoreOp) → Except Message o.Reply × Store
  | .putSpec name slug specJson => s.commit ((s.putSpec name slug specJson).map fun s' => ((),s'))
  | .currentSpec name => (.ok (s.currentSpec name),s)
  | .createDeploy app => (.ok (s.createDeploy app).1,(s.createDeploy app).2)
  | .advanceStage d stage => s.commit ((s.advanceStage d stage).map fun s' => ((),s'))
  | .finishDeploy d status detail => s.commit ((s.finishDeploy d status detail).map fun s' => ((),s'))
  | .finishDeployWithEvent d status detail => s.commit (s.finishDeployWithEvent d status detail)
  | .deploy d => (.ok (s.deploy d),s)
  | .inProgressDeploys => (.ok s.inProgressDeploys,s)
  | .acquireLock app d => (.ok (s.acquireLock app d).1,(s.acquireLock app d).2)
  | .releaseLock app => (.ok (),s.releaseLock app)
  | .releaseOrphanedLocks => (.ok s.releaseOrphanedLocks.1,s.releaseOrphanedLocks.2)
  | .appendEvent event => (.ok (s.appendEvent event).1,(s.appendEvent event).2)
  | .eventsFor d => (s.eventsFor d,s)
  | .registerApp config => s.commit ((s.registerApp config).map fun s' => ((),s'))
  | .appConfig name => (s.appConfig name,s)

end Store
end Kuadrat
