import Kuadrat.Spec
import Kuadrat.Deploy.Stage
import Mathlib.Data.List.AList

/-!
# The durable store

Every call of the store is one atomic step on its tables. The row ids come from
`AUTOINCREMENT` counters, so an id above the counter was never handed out.
-/
namespace Kuadrat

structure DeployRow where
  id : ℕ
  app : Text
  stage : Stage
  status : DeployStatus
  detail : Option Message
  deriving DecidableEq

structure AppRow where
  slug : Text
  specJson : Text
  deriving DecidableEq

/-- What the operator asked for: where an app's source lives, and its route. -/
structure AppConfig where
  name : Text
  repoPath : Text
  route : Option Route
  deriving DecidableEq

structure ConfigRow where
  repoPath : Text
  routeDomain : Option Text
  routePort : Option ℤ
  deriving DecidableEq

structure Store where
  apps : AList fun _ : Text => AppRow
  deploys : List DeployRow
  lastDeploy : ℕ
  locks : AList fun _ : Text => ℕ
  events : List StoredEvent
  lastEvent : ℕ
  configs : AList fun _ : Text => ConfigRow
  slug_unique : ∀ a ra b rb, apps.lookup a = some ra → apps.lookup b = some rb →
    ra.slug = rb.slug → a = b
  deploys_le : ∀ r ∈ deploys, r.id ≤ lastDeploy
  deploys_sorted : deploys.Pairwise fun r r' => r.id < r'.id
  events_le : ∀ e ∈ events, e.id ≤ lastEvent
  events_sorted : events.Pairwise fun e e' => e.id < e'.id

namespace Store

def empty : Store where
  apps := ∅
  deploys := []
  lastDeploy := 0
  locks := ∅
  events := []
  lastEvent := 0
  configs := ∅
  slug_unique a ra b rb h := by simp at h
  deploys_le := by simp
  deploys_sorted := .nil
  events_le := by simp
  events_sorted := .nil

def row (s : Store) (d : ℕ) : Option DeployRow := s.deploys.find? fun r => r.id = d
def lock (s : Store) (app : Text) : Option ℕ := s.locks.lookup app
def spec (s : Store) (name : Text) : Option Text := (s.apps.lookup name).map AppRow.specJson

/-- The row is there and has not reached a terminal status. -/
def InProgress (s : Store) (d : ℕ) : Prop := ∃ r, s.row d = some r ∧ r.status = .inProgress

/-- Upsert the current spec of `name`; a slug that another app has is a collision. -/
def putSpec (s : Store) (name slug specJson : Text) : Except Message Store :=
  if h : ∀ b ∈ s.apps.keys, b ≠ name → (s.apps.lookup b).map AppRow.slug ≠ some slug then
    .ok { s with
      apps := s.apps.insert name ⟨slug,specJson⟩
      slug_unique := fun a ra b rb ha hb hs => by
        by_cases han : a = name
        · by_cases hbn : b = name
          · rw [han,hbn]
          · subst han
            rw [AList.lookup_insert,Option.some.injEq] at ha
            rw [AList.lookup_insert_ne hbn] at hb
            have hmem : b ∈ s.apps.keys := AList.mem_keys.mp (AList.lookup_isSome.mp (by simp [hb]))
            exact absurd (by rw [hb,Option.map_some,← hs,← ha]) (h b hmem hbn)
        · rw [AList.lookup_insert_ne han] at ha
          by_cases hbn : b = name
          · subst hbn
            rw [AList.lookup_insert,Option.some.injEq] at hb
            have hmem : a ∈ s.apps.keys := AList.mem_keys.mp (AList.lookup_isSome.mp (by simp [ha]))
            exact absurd (by rw [ha,Option.map_some,hs,← hb]) (h a hmem han)
          · rw [AList.lookup_insert_ne hbn] at hb
            exact s.slug_unique a ra b rb ha hb hs }
  else .error ["slug ",.debug slug," for app ",.debug name," collides with an existing app"]

def currentSpec (s : Store) (name : Text) : Option Text := s.spec name

/-- A new deploy of `app`, at `Detect` and in progress. -/
def createDeploy (s : Store) (app : Text) : ℕ × Store :=
  (s.lastDeploy+1,{ s with
    deploys := s.deploys ++ [⟨s.lastDeploy+1,app,.detect,.inProgress,none⟩]
    lastDeploy := s.lastDeploy+1
    deploys_le := by
      intro r hr
      rcases List.mem_append.mp hr with hr | hr
      · exact Nat.le_succ_of_le (s.deploys_le r hr)
      · rw [List.mem_singleton] at hr
        simp [hr]
    deploys_sorted := by
      refine List.pairwise_append.mpr ⟨s.deploys_sorted,List.pairwise_singleton _ _,?_⟩
      intro r hr r' hr'
      rw [List.mem_singleton] at hr'
      rw [hr']
      exact Nat.lt_succ_of_le (s.deploys_le r hr) })

/-- Rewrite the row of one deploy, its id apart. -/
def setRow (s : Store) (d : ℕ) (f : DeployRow → DeployRow) : Store where
  __ := s
  deploys := s.deploys.map fun r => if r.id = d then { f r with id := r.id } else r
  deploys_le := by
    intro r hr
    obtain ⟨r',hr',rfl⟩ := List.mem_map.mp hr
    have := s.deploys_le r' hr'
    split <;> exact this
  deploys_sorted := by
    refine List.pairwise_map.mpr (s.deploys_sorted.imp ?_)
    intro r r' h
    split <;> split <;> exact h

/-- Move an in-progress deploy to `stage`. -/
def advanceStage (s : Store) (d : ℕ) (stage : Stage) : Except Message Store :=
  if (s.row d).any fun r => r.status = .inProgress then
    .ok (s.setRow d fun r => { r with stage := stage })
  else .error ["no in-progress deploy with id ",.text (Text.decimal d)]

def finishDeploy (s : Store) (d : ℕ) (status : DeployStatus) (detail : Option Message) :
    Except Message Store :=
  if (s.row d).isSome then
    .ok (s.setRow d fun r => { r with status := status, detail := detail })
  else .error ["no deploy with id ",.text (Text.decimal d)]

/-- Append one event and return it as stored. -/
def appendEvent (s : Store) (event : Event) : StoredEvent × Store :=
  (⟨s.lastEvent+1,event⟩,{ s with
    events := s.events ++ [⟨s.lastEvent+1,event⟩]
    lastEvent := s.lastEvent+1
    events_le := by
      intro e he
      rcases List.mem_append.mp he with he | he
      · exact Nat.le_succ_of_le (s.events_le e he)
      · rw [List.mem_singleton] at he
        simp [he]
    events_sorted := by
      refine List.pairwise_append.mpr ⟨s.events_sorted,List.pairwise_singleton _ _,?_⟩
      intro e he e' he'
      rw [List.mem_singleton] at he'
      rw [he']
      exact Nat.lt_succ_of_le (s.events_le e he) })

/-- `DELETE FROM locks` of the apps whose deploy satisfies `free`. -/
def dropLocks (s : Store) (free : ℕ → Bool) : Store :=
  { s with locks :=
    ⟨s.locks.entries.filter fun e => !free e.2,s.locks.nodupKeys.sublist List.filter_sublist⟩ }

/-- Finish a deploy, append its terminal event, and release its lock, in one transaction. -/
def finishDeployWithEvent (s : Store) (d : ℕ) (status : DeployStatus) (detail : Option Message) :
    Except Message (StoredEvent × Store) := do
  let s ← s.finishDeploy d status detail
  return (s.dropLocks (· == d)).appendEvent (.finished d status detail)

def deploy (s : Store) (d : ℕ) : Option DeployRow := s.row d

/-- Every deploy still in progress, by id. -/
def inProgressDeploys (s : Store) : List DeployRow :=
  s.deploys.filter fun r => r.status = .inProgress

/-- Try to take the per-app lock: `true` if acquired, `false` if already held. -/
def acquireLock (s : Store) (app : Text) (d : ℕ) : Bool × Store :=
  if (s.lock app).isSome then (false,s) else (true,{ s with locks := s.locks.insert app d })

def releaseLock (s : Store) (app : Text) : Store := { s with locks := s.locks.erase app }

/-- The deploy has reached a terminal status. -/
def finished (s : Store) (d : ℕ) : Bool := (s.row d).any fun r => r.status ≠ .inProgress

/-- Release locks whose deploy has already finished, and say which apps that freed. -/
def releaseOrphanedLocks (s : Store) : List Text × Store :=
  (s.locks.keys.filter fun app => (s.lock app).any s.finished,s.dropLocks s.finished)

/-- All events of a deploy in insertion order; a deploy-level row must be terminal. -/
def eventsFor (s : Store) (d : ℕ) : Except Message (List StoredEvent) :=
  let events := s.events.filter fun e => e.event.deployId = d
  if events.any fun e => e.event.kind = .finished .inProgress then
    .error ["event for deploy ",.text (Text.decimal d)," is deploy-level but not terminal"]
  else .ok events

end Store
end Kuadrat
