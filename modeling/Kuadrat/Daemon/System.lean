import Kuadrat.Effect.Pool
import Kuadrat.Codec.Spec
import Kuadrat.Store.Effects
import Kuadrat.Daemon.Handlers

/-!
# Handlers, tasks and CLI processes over one database

Any number of programs run side by side. A call of the store is one atomic step, a guard is
given to one thread at a time, and the host answers as it likes. A future that is dropped
releases its guards and does nothing more.
-/
namespace Kuadrat

open Effect

/-- What the host makes of the operations that go to it. -/
abbrev Host := (e : Eff) → e.Resp

/-- What the threads share. The last three fields only record what was done: the deploy a
thread has created or was handed, the deploys whose lock was granted, and which threads are
spawned tasks. -/
structure Shared where
  store : Store
  holder : Guard → Option ℕ
  owner : ℕ → Option ℕ
  granted : List ℕ
  spawned : ℕ → Bool

namespace Shared

def initial (store : Store) : Shared := ⟨store,fun _ => none,fun _ => none,[],fun _ => false⟩

/-- Keep the books about a call of thread `i`. -/
def record (s : Shared) (i : ℕ) : (o : StoreOp) → Except Message o.Reply → Shared
  | .createDeploy _, .ok d => { s with owner := Function.update s.owner i (some d) }
  | .acquireLock _ d, .ok true => { s with granted := d::s.granted }
  | _, _ => s

def answer (s : Shared) (i : ℕ) : (e : Eff) → Host → Option (e.Resp × Shared)
  | .store o, _ => some ((s.store.call o).1,
      { s.record i o (s.store.call o).1 with store := (s.store.call o).2 })
  | .acquire g, _ =>
    if s.holder g = none then
      some ((),{ s with holder := Function.update s.holder g (some i) })
    else none
  | .release g, _ =>
    some ((),if s.holder g = some i then { s with holder := Function.update s.holder g none } else s)
  | .emit _, _ | .spawn .., _ => some ((),s)
  | e, host => some (host e,s)

/-- The task `j` that thread `i` spawns owns the deploy from now on. -/
def handOver (s : Shared) (i j : ℕ) : Eff → Shared
  | .spawn _ _ d => { s with
      owner := Function.update (Function.update s.owner j (some d)) i none
      spawned := Function.update s.spawned j true }
  | _ => s

/-- Thread `i` is gone: its guards are free, and it owns nothing. -/
def leave (s : Shared) (i : ℕ) : Shared := { s with
  holder := fun g => if s.holder g = some i then none else s.holder g
  owner := Function.update s.owner i none
  spawned := Function.update s.spawned i false }

@[simp] theorem holder_record (s : Shared) (i : ℕ) (o : StoreOp) (r : Except Message o.Reply) :
    (s.record i o r).holder = s.holder := by
  unfold record
  split <;> rfl

end Shared

/-- The daemon and the CLI processes beside it: only a trigger starts other tasks. -/
def system (ctx : Ctx) : Pool Eff Eff.Resp Host Shared where
  answer := Shared.answer
  child
    | .spawn spec repo deployId => some (spawnedDeploy ctx spec repo deployId)
    | _ => none
  handOver := Shared.handOver
  leave := Shared.leave
  child_runs e p h := by
    cases e with
    | spawn spec repo deployId =>
      cases h
      rfl
    | present | readToString | write | createDirAll | removeFile | readDir | run | timed | store
    | emit | acquire | release => cases h

abbrev SystemState := Pool.State Eff Eff.Resp Shared
abbrev SystemMove := Pool.Move Eff Eff.Resp Host

/-- The operations during which a future can be dropped: those it has to wait for. -/
def Eff.Awaits : Eff → Prop
  | .store _ | .emit _ | .release _ | .spawn .. => False
  | _ => True

/-- The thread waits for something, and is not a task of its own. -/
def SystemState.Droppable (s : SystemState) (i : ℕ) : Prop :=
  s.shared.spawned i = false ∧ ∃ e k, s.threads i = .op e k ∧ e.Awaits

/-- Nothing happens to the store between the steps of the threads. -/
theorem store_put {ctx : Ctx} (s : SystemState) (i : ℕ) (p : Prog Eff Eff.Resp Unit) :
    ((system ctx).put s i p).shared.store = s.shared.store := by
  simp only [Pool.put]
  split <;> rfl

/-- A step of a thread is one call of the store, or leaves the store alone. -/
theorem store_answer {s t : Shared} {i : ℕ} {e : Eff} {host : Host} {r : e.Resp}
    (h : s.answer i e host = some (r,t)) :
    t.store = s.store ∨ ∃ o, e = .store o ∧ t.store = (s.store.call o).2 := by
  cases e with
  | store o =>
    cases h
    exact .inr ⟨o,rfl,rfl⟩
  | acquire g =>
    obtain ⟨-,h⟩ := Option.ite_none_right_eq_some.mp h
    cases h
    exact .inl rfl
  | release g =>
    simp only [Shared.answer,Option.some.injEq,Prod.mk.injEq,true_and] at h
    rw [← h]
    split <;> exact .inl rfl
  | present | readToString | write | createDirAll | removeFile | readDir | run | timed | emit
  | spawn =>
    cases h
    exact .inl rfl

/-- A call of the store, other than the one that creates a row, changes nobody's deploy. -/
theorem answer_store {s t : Shared} {i : ℕ} {host : Host} {o : StoreOp} {r : Except Message o.Reply}
    (hcreate : ∀ app, o ≠ .createDeploy app) (h : s.answer i (.store o) host = some (r,t)) :
    r = (s.store.call o).1 ∧ t.store = (s.store.call o).2 ∧ t.owner = s.owner ∧
      t.holder = s.holder ∧ t.spawned = s.spawned := by
  have hrecord : (s.record i o (s.store.call o).1).owner = s.owner ∧
      (s.record i o (s.store.call o).1).spawned = s.spawned := by
    unfold Shared.record
    split
    · exact absurd rfl (hcreate _)
    · exact ⟨rfl,rfl⟩
    · exact ⟨rfl,rfl⟩
  cases h
  exact ⟨rfl,rfl,hrecord.1,Shared.holder_record ..,hrecord.2⟩

/-- A host on which nothing is found and every operation fails. -/
def silentHost : Host
  | .present _ => .ok false
  | .timed _ => .stalled
  | .readToString _ | .write .. | .createDirAll _ | .removeFile _ | .readDir _ | .run _
  | .store _ => .error []
  | .emit _ | .acquire _ | .release _ | .spawn .. => ()

/-- Thread `i` takes `n` steps. -/
def steps (i n : ℕ) (host : Host) : List SystemMove := List.replicate n (.run i host)

section Sample

/-- One registered app, and nothing deployed yet. -/
def registeredStore : Store :=
  ((Store.empty.registerApp ⟨"web","/srv/web",none⟩).toOption).getD .empty

/-- A push to the branch that is checked out. -/
def sampleDelivery : Prog Eff Eff.Resp Unit :=
  forget (dispatchPush sampleContext.codec "web" (some ⟨"main","c0ffee"⟩))

end Sample

end Kuadrat
