import Kuadrat.Effect.Observed
import Kuadrat.Daemon.System
import Kuadrat.Store.Course

/-!
# The checkouts under the daemon

Each registration names a directory, which a delivery resets and a deploy builds from. What
happens to these directories is noted beside the system: which one a deploy was reserved for,
at which commit it stands, and what was built from it.
-/
namespace Kuadrat

open Effect

/-- The command has come to its end in time, and without an error. -/
def Timed.succeeded : Timed → Bool
  | .finished (.ok out) took => took ≤ gitTimeout && out.success
  | _ => false

/-- What is known of the checkouts, which are the directories in `K`: the registration that each
thread has read, the checkout that each deploy was reserved for, the commit that a checkout
stands at if that is known, the commit that the push of a deploy has named, and the commit that
the image of a deploy was built from. -/
structure Notes (K : Type) where
  read : ℕ → Option AppConfig
  repo : ℕ → Option K
  head : K → Option Text
  pushed : ℕ → Option Text
  built : ℕ → Option Text

section Notes
variable {K : Type} [DecidableEq K] (place : Path → K)

/-- Note something of the deploy that a thread owns. -/
def noteAt {α : Type} (owner : Option ℕ) (f : ℕ → Option α) (a : Option α) : ℕ → Option α :=
  match owner with
  | some d => Function.update f d a
  | none => f

namespace Notes

def blank : Notes K := ⟨fun _ => none,fun _ => none,fun _ => none,fun _ => none,fun _ => none⟩

/-- A reset that succeeds leaves the checkout at its commit, one that does not leaves it
anywhere; an image is built from the commit at which the context directory stands. -/
def record (n : Notes K) (s : Shared) (i : ℕ) : (e : Eff) → e.Resp → Notes K
  | .store (.appConfig _), .ok (some config) =>
    { n with read := Function.update n.read i (some config) }
  | .store (.acquireLock _ d), .ok true => { n with
      repo := Function.update n.repo d ((n.read i).map fun c => place (Path.ofText c.repoPath)) }
  | .timed (.gitReset repo sha), r => { n with
      head := Function.update n.head (place (Path.ofText repo))
        (if r.succeeded then some sha else none)
      pushed := noteAt (s.owner i) n.pushed (some sha) }
  | .run (.podmanBuild _ _ dir), _ => { n with
      built := noteAt (s.owner i) n.built (n.head (place (Path.ofText dir))) }
  | _, _ => n

/-- Thread `i` is gone. When its deploy has not ended, git may have been at work for it, and
nothing is known of the checkout any more. -/
def leave (n : Notes K) (s : Shared) (i : ℕ) : Notes K :=
  match (s.owner i).filter (fun d => !s.store.finished d) >>= n.repo with
  | some k => { n with head := Function.update n.head k none }
  | none => n

end Notes

/-- The daemon with its checkouts; `place` is the directory that a path leads to. -/
def checkouts (ctx : Ctx) : Pool Eff Eff.Resp Host (Shared × Notes K) :=
  (system ctx).observed ⟨Notes.record place,Notes.leave⟩

end Notes

abbrev CheckoutState (K : Type) := Pool.State Eff Eff.Resp (Shared × Notes K)

/-- Requests that come at any time: triggers, deliveries and registrations. Handlers may be
dropped wherever they wait, a spawned task keeps running. -/
def Visits (ctx : Ctx) (s : SystemState) : SystemMove → Prop
  | .enter _ p => (∃ name, p = forget (startDeploy ctx.codec name)) ∨
    (∃ app push, p = forget (dispatchPush ctx.codec app push)) ∨ ∃ config, p = forget (register config)
  | .drop i => s.Droppable i
  | .run .. | .fork .. => True

section Claims
variable {K : Type} (place : Path → K)

/-- Whoever resets a checkout owns the only deploy in progress that was reserved for it. -/
def ResetsOwn (s : CheckoutState K) : Prop :=
  ∀ i repo sha k, s.threads i = .op (.timed (.gitReset repo sha)) k → ∀ d,
    s.shared.1.store.InProgress d → s.shared.2.repo d = some (place (Path.ofText repo)) →
      s.shared.1.owner i = some d

/-- A deploy of a push that ends well was built from the commit that the push has named. -/
def BuiltAsPushed (s : CheckoutState K) : Prop :=
  ∀ d row sha, s.shared.1.store.row d = some row → row.status = .done →
    s.shared.2.pushed d = some sha → s.shared.2.built d = some sha

/-- No two apps are registered for one directory. -/
def Store.Separate (s : Store) : Prop := ∀ name name' path path', s.checkout name = some path →
  s.checkout name' = some path' → place (Path.ofText path) = place (Path.ofText path') → name = name'

/-- The directory of a registration is neither that of another app, nor has another app a deploy
in progress that was reserved for it. -/
def KeepsApart (ctx : Ctx) (s : CheckoutState K) (mv : SystemMove) : Prop :=
  Visits ctx s.bare mv ∧ ∀ i host config k, mv = .run i host →
    s.threads i = .op (.store (.registerApp config)) k →
    (∀ name path, s.shared.1.store.checkout name = some path →
      place (Path.ofText path) = place (Path.ofText config.repoPath) → name = config.name) ∧
    ∀ d row, s.shared.1.store.row d = some row → row.status = .inProgress →
      s.shared.2.repo d = some (place (Path.ofText config.repoPath)) → row.app = config.name

end Claims

/-- Without the notes, the daemon with its checkouts is the system. -/
theorem system_of_checkouts {K : Type} [DecidableEq K] {place : Path → K} {ctx : Ctx}
    {s t : CheckoutState K} (h : (checkouts place ctx).Run (KeepsApart place ctx) s t) :
    (system ctx).Run (Visits ctx) s.bare t.bare :=
  Pool.observed_run (fun _ _ hallow => hallow.1) h

end Kuadrat
