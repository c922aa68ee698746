import Kuadrat.Workloads.Outcome

/-!
# Calls that cannot fail

On a host where every operation succeeds, a call only fails when it meets a file
that kuadrat did not write. So it succeeds when the app's files all carry the
marker.
-/
namespace Kuadrat

open Effect

/-- The files of `P` that are there carry the marker. -/
def MarkedOn (P : Path → Prop) (f : Path → Option Text) : Prop :=
  ∀ p, P p → ∀ t, f p = some t → Marked t

section Sure
variable {paths : Paths} {w : World}

end Sure

section Prune
variable {paths : Paths} {w : World} {name : Text} {keep : List Text}

end Prune

section Calls
variable {paths : Paths} {w : World} {spec : WorkloadSpec} {name slug : Text} {route : Route}

/-- The files of an app that its unit stage looks at. -/
def UnitRegion (paths : Paths) (name : Text) (p : Path) : Prop :=
  p = unitPath paths name ∨ OwnTask paths name p

/-- The paths whose owner a call that installs the spec asks for. -/
def InstallAsks (paths : Paths) (spec : WorkloadSpec) (p : Path) : Prop :=
  (∃ t, (p,t) ∈ unitFiles paths spec) ∨ StaleTask paths spec.name (keepOf spec) p

theorem InstallAsks.region {p : Path} (h : InstallAsks paths spec p) :
    UnitRegion paths spec.name p := by
  rcases h with ⟨t,h⟩ | h
  · exact owns_of_mem_unitFiles h
  · exact .inr h.own

end Calls
end Kuadrat
