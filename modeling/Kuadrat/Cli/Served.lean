import Kuadrat.Cli.Handoff
import Kuadrat.Workloads.Outcome

/-!
# Routes at the gateway

The command line takes a bare domain and a port to serve on. A spec is validated without
these rules, so a route that comes with one is what the command line would have taken only
when it meets them by itself.
-/
namespace Kuadrat

open Effect

namespace Route

/-- The route as the command line takes it. -/
def argument (route : Route) : Text := route.domain ++ ':'::Text.decimal route.port.toNat

/-- A site that Caddy can serve: a bare domain, and a port. -/
def Servable (route : Route) : Prop := route.domain ≠ [] ∧ '/' ∉ route.domain ∧ route.port ≠ 0

instance (route : Route) : Decidable route.Servable :=
  inferInstanceAs (Decidable (_ ≠ _ ∧ ¬(_ ∈ _) ∧ _ ≠ _))

end Route

section Decimal
variable {cs : List Char} {n : ℕ}

theorem le_ofDigitChars (cs : List Char) (n : ℕ) : n ≤ Nat.ofDigitChars 10 cs n := by
  induction cs generalizing n with
  | nil => simp
  | cons c cs ih =>
    rw [Nat.ofDigitChars_cons]
    have h := ih (10*n + (c.toNat - '0'.toNat))
    omega

/-- Digits whose number fits are read to that number. -/
theorem foldlM_u16Step (hdigits : ∀ c ∈ cs, c.isDigit = true)
    (hfits : Nat.ofDigitChars 10 cs n ≤ 65535) :
    cs.foldlM u16Step n = .ok (Nat.ofDigitChars 10 cs n) := by
  induction cs generalizing n with
  | nil => rw [List.foldlM_nil,Nat.ofDigitChars_nil]; rfl
  | cons c cs ih =>
    rw [Nat.ofDigitChars_cons] at hfits ⊢
    have hc := hdigits c List.mem_cons_self
    have hle := (le_ofDigitChars cs _).trans hfits
    have hstep : u16Step n c = .ok (10*n + (c.toNat - '0'.toNat)) := by
      unfold u16Step
      rw [hc]
      exact if_neg (Nat.not_lt.mpr hle)
    rw [List.foldlM_cons,hstep]
    exact ih (fun d hd => hdigits d (List.mem_cons_of_mem _ hd)) hfits

theorem u16Digits_decimal (port : UInt16) :
    u16Digits (Text.decimal port.toNat) = .ok port := by
  have hle := port.toNat_lt
  have hnumber : Nat.ofDigitChars 10 (Text.decimal port.toNat) 0 = port.toNat :=
    Nat.ofDigitChars_ten_toDigits
  have hread := @foldlM_u16Step (Text.decimal port.toNat) 0 (fun c hc => digit_of_mem_decimal hc)
    (by rw [hnumber]; omega)
  rw [u16Digits,hread,hnumber]
  exact congrArg Except.ok UInt16.ofNat_toNat

/-- A port is read back as it was printed. -/
theorem parseU16_decimal (port : UInt16) : parseU16 (Text.decimal port.toNat) = .ok port := by
  obtain ⟨c,cs,hcs⟩ := List.exists_cons_of_ne_nil
    (show Text.decimal port.toNat ≠ [] from Nat.toDigits_ne_nil)
  have hc : c.isDigit = true := digit_of_mem_decimal (hcs ▸ List.mem_cons_self)
  have hplus : c ≠ '+' := fun h => absurd hc (by rw [h]; decide)
  have hminus : c ≠ '-' := fun h => absurd hc (by rw [h]; decide)
  have hread := u16Digits_decimal port
  rw [hcs] at hread ⊢
  unfold parseU16
  split
  · next h => cases h
  · next h => exact absurd (List.cons.inj h).1 hplus
  · next h => exact absurd (List.cons.inj h).1 hminus
  · next h => exact absurd (List.cons.inj h).1 hplus
  · exact hread

end Decimal

section Arguments
variable {route route' : Route}

/-- Reading a printed route: nothing but the three rules stands in the way. -/
theorem parseRoute_argument : parseRoute route.argument = .ok route ↔ route.Servable := by
  constructor
  · exact parseRoute_ok
  · intro h
    obtain ⟨hdomain,hbare,hport⟩ := h
    have hsplit := Text.rsplitOnce_append ':' route.domain (Text.decimal route.port.toNat)
      (notMem_decimal (by decide) _)
    have hempty : route.domain.isEmpty = false := by simpa using hdomain
    have hslash : route.domain.contains '/' = false := by simpa using hbare
    have hzero : (route.port == 0) = false := by simpa using hport
    unfold parseRoute Route.argument
    rw [hsplit]
    dsimp only
    rw [seq_eq_ok,seq_eq_ok]
    refine ⟨reject_eq_ok.mpr hempty,reject_eq_ok.mpr hslash,?_⟩
    rw [parseU16_decimal]
    change (do reject (route.port == 0) _; pure route) = Except.ok route
    rw [seq_eq_ok]
    exact ⟨reject_eq_ok.mpr hzero,rfl⟩

end Arguments

/-- The command line would have taken the route, and a fragment that is written for it is one
of a route that the command line takes. -/
structure Route.Enforced (route : Route) : Prop where
  parses : parseRoute route.argument = .ok route
  fragments : ∀ paths slug answers w w', (World.machine paths).finish answers
    (applyRoute paths slug route).run w = some (.ok (),w') →
      ∃ arg taken, parseRoute arg = .ok taken ∧
        w'.fs.contents (fragmentPath paths slug) = some (renderFragment taken)

section Origins
variable {route : Route}

theorem enforced_of_servable (h : route.Servable) : route.Enforced := by
  refine ⟨parseRoute_argument.mpr h,fun paths slug answers w w' hrun => ?_⟩
  refine ⟨route.argument,route,parseRoute_argument.mpr h,?_⟩
  rw [wpOk_finish applyRoute_ok hrun,Function.update_self]

/-- The port is looked at when a registration is read. -/
theorem port_of_appConfig {store : Store} {app : Text} {config : AppConfig}
    (h : store.appConfig app = .ok (some config)) (hroute : config.route = some route) :
    route.port ≠ 0 := by
  obtain ⟨row,-,hrow⟩ := Store.appConfig_ok h
  exact (Store.buildAppConfig_ok hrow).2.2 route hroute

end Origins

/-- The route of a valid spec is held to the rules of the command line exactly when it meets
them by itself. From the flag it always does, and from a registration it has a port. -/
theorem enforced_iff_servable {spec : WorkloadSpec} {route : Route}
    (_ : spec.validate = .ok ()) (_ : spec.route = some route) :
    (route.Enforced ↔ route.Servable) ∧
    (∀ arg, parseRoute arg = .ok route → route.Servable) ∧
    ∀ store app config, Store.appConfig store app = .ok (some config) → config.route = some route →
      (route.Servable ↔ route.domain ≠ [] ∧ '/' ∉ route.domain) := by
  refine ⟨⟨fun h => parseRoute_argument.mp h.parses,enforced_of_servable⟩,fun arg => parseRoute_ok,
    fun store app config hconfig hroute => ?_⟩
  constructor
  · exact fun h => ⟨h.1,h.2.1⟩
  · exact fun h => ⟨h.1,h.2,port_of_appConfig hconfig hroute⟩

section Sample

theorem handoffSpec_enforced : (⟨"web.example",3000⟩ : Route).Enforced :=
  (@enforced_iff_servable handoffSpec ⟨"web.example",3000⟩ (by decide +kernel) rfl).1.mpr (by decide)

/-- A `kuadrat.json` whose route names no domain. -/
def namelessSpec : WorkloadSpec := { servedSpec with route := some ⟨[],3000⟩ }

/-- Its spec is decoded, resolved and valid, and the command line would refuse its route. -/
theorem nameless_accepted : ∃ spec route,
    (resolveSpec serde (sampleDisk (.text (serde.toText namelessSpec))) "web" sampleRepo .empty
      none).toOption = some spec ∧
    spec.validate = .ok () ∧ spec.route = some route ∧ parseRoute route.argument ≠ .ok route :=
  ⟨namelessSpec,⟨[],3000⟩,by decide +kernel,by decide +kernel,rfl,
    fun h => absurd (parseRoute_ok h).1 (fun hne => hne rfl)⟩

end Sample
end Kuadrat
