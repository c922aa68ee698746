import Kuadrat.Effect.Machine
import Kuadrat.Store.Calls
import Kuadrat.Workloads.Paths

/-!
# The effects of kuadrat

Everything the code does to the outside goes through one of these operations:
the filesystem seam, the executor seam, the store, the event sink, and, in the
daemon, its two guards and `tokio::spawn`.
-/
namespace Kuadrat

open Effect

structure CommandOutput where
  status : ℤ
  stdout : Text
  stderr : Text
  deriving DecidableEq

def CommandOutput.success (out : CommandOutput) : Bool := out.status = 0

/-- The host commands that the modelled code runs. -/
inductive Command
  | daemonReload
  | start (unit : Text)
  | restart (unit : Text)
  | stop (unit : Text)
  | enableNow (unit : Text)
  | disableNow (unit : Text)
  | isActive (unit : Text)
  | reloadCaddy
  | analyzeCalendar (schedule : Text)
  | podmanBuild (image containerfile contextDir : Text)
  | podmanSecretLs
  | podmanHealthcheckRun (container : Text)
  | gitRevParseHead (dir : Text)
  | gitSymbolicRef (repo : Text)
  | gitFetch (repo : Text)
  | gitReset (repo sha : Text)
  deriving DecidableEq

namespace Command

def program : Command → String
  | daemonReload | start _ | restart _ | stop _ | enableNow _ | disableNow _ | isActive _
  | reloadCaddy => "systemctl"
  | analyzeCalendar _ => "systemd-analyze"
  | podmanBuild .. | podmanSecretLs | podmanHealthcheckRun _ => "podman"
  | gitRevParseHead _ | gitSymbolicRef _ | gitFetch _ | gitReset .. => "git"

def args : Command → List Text
  | daemonReload => ["daemon-reload"]
  | start unit => ["start",unit]
  | restart unit => ["restart",unit]
  | stop unit => ["stop",unit]
  | enableNow unit => ["enable","--now",unit]
  | disableNow unit => ["disable","--now",unit]
  | isActive unit => ["is-active",unit]
  | reloadCaddy => ["reload","caddy"]
  | analyzeCalendar schedule => ["calendar",schedule]
  | podmanBuild image containerfile contextDir =>
    ["build","-t",image,"-f",containerfile,contextDir]
  | podmanSecretLs => ["secret","ls","--format","\x7b\x7b.Name\x7d\x7d"]
  | podmanHealthcheckRun container => ["healthcheck","run",container]
  | gitRevParseHead dir => ["-C",dir,"rev-parse","HEAD"]
  | gitSymbolicRef repo => ["-C",repo,"symbolic-ref","--short","HEAD"]
  | gitFetch repo => ["-C",repo,"fetch","origin"]
  | gitReset repo sha => ["-C",repo,"reset","--hard",sha]

/-- The commands that ask systemd to change something. -/
def isSystemctl (c : Command) : Bool := c.program == "systemctl"

end Command

/-- Nanoseconds. -/
abbrev Duration := ℕ

def Duration.ofSecs (n : ℕ) : Duration := n*1000000000

/-- What a command run under a timeout gives back: its result after some time, or nothing
at all when its future never resolves and cannot be detached. -/
inductive Timed
  | finished (result : Except Message CommandOutput) (took : Duration)
  | stalled

/-- The daemon's two guards: the trigger lock and the only permit of the deploy slot. -/
inductive Guard
  | trigger
  | slot
  deriving DecidableEq

inductive Eff
  | present (p : Path)
  | readToString (p : Path)
  | write (p : Path) (contents : Text)
  | createDirAll (p : Path)
  | removeFile (p : Path)
  | readDir (p : Path)
  | run (c : Command)
  | timed (c : Command)
  | store (o : StoreOp)
  | emit (event : StoredEvent)
  | acquire (g : Guard)
  | release (g : Guard)
  | spawn (spec : WorkloadSpec) (repo : Path) (deployId : ℕ)

@[reducible] def Eff.Resp : Eff → Type
  | present _ => Except Message Bool
  | readToString _ => Except Message Text
  | write .. => Except Message Unit
  | createDirAll _ => Except Message Unit
  | removeFile _ => Except Message Unit
  | readDir _ => Except Message (List Text)
  | run _ => Except Message CommandOutput
  | timed _ => Timed
  | store o => Except Message o.Reply
  | emit _ => Unit
  | acquire _ => Unit
  | release _ => Unit
  | spawn .. => Unit

/-- Effectful code that can fail with an `anyhow` error. -/
abbrev Run := Proc Eff Eff.Resp Message

namespace Run

def ofExcept {α : Type} : Except Message α → Run α
  | .ok a => pure a
  | .error e => throw e

@[simp] theorem ofExcept_ok {α : Type} (a : α) : ofExcept (.ok a) = pure a := rfl

/-- `if c { p }`. -/
def when (c : Bool) (p : Run Unit) : Run Unit := if c then p else return ()

def present (p : Path) : Run Bool := .mk (.perform (Eff.present p))
def readToString (p : Path) : Run Text := .mk (.perform (Eff.readToString p))
def write (p : Path) (contents : Text) : Run Unit := .mk (.perform (Eff.write p contents))
def createDirAll (p : Path) : Run Unit := .mk (.perform (Eff.createDirAll p))
def removeFile (p : Path) : Run Unit := .mk (.perform (Eff.removeFile p))
/-- Full paths of the entries directly inside `p`, in unspecified order. -/
def readDir (p : Path) : Run (List Path) := do
  let names ← .mk (.perform (Eff.readDir p))
  return names.map p.join
def exec (c : Command) : Run CommandOutput := .mk (.perform (Eff.run c))
def store (o : StoreOp) : Run o.Reply := .mk (.perform (Eff.store o))
def timed (c : Command) : Run Timed := .lift (.perform (Eff.timed c))
def emit (event : StoredEvent) : Run Unit := .lift (.perform (Eff.emit event))

end Run
end Kuadrat
