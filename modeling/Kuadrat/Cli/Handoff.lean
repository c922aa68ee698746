import Kuadrat.Cli.Resolve
import Kuadrat.Daemon.Resolve
import Kuadrat.Codec.Spec
import Kuadrat.Store.Effects

/-!
# Two resolvers of one deploy

`kuadrat deploy` hands its app over to a daemon that answers, and resolves the spec by
itself otherwise. Here the two specs are compared over one registration and one repo.
-/
namespace Kuadrat

section Store
variable {s s' : Store} {config : AppConfig}

/-- A registration is read back as it was written, if its route can be served. -/
theorem appConfig_registerApp (h : s.registerApp config = .ok s')
    (hport : ∀ route ∈ config.route, route.port ≠ 0) :
    s'.appConfig config.name = .ok (some config) := by
  obtain ⟨name,repoPath,route⟩ := config
  simp only [Store.appConfig,Store.registerApp_ok h,AList.lookup_insert]
  cases route with
  | none => rfl
  | some route =>
    have hle := route.port.toNat_lt
    have hpos : route.port.toNat ≠ 0 := by
      intro h0
      exact hport route rfl (UInt16.toNat_inj.mp h0)
    have hrange : ¬((route.port.toNat : ℤ) < 0 ∨ 65535 < (route.port.toNat : ℤ)) := by omega
    have hzero : ¬(route.port.toNat : ℤ) = 0 := by omega
    simp only [Store.buildAppConfig,Option.map_some,if_neg hrange,if_neg hzero,Except.map,
      Int.toNat_natCast,UInt16.ofNat_toNat]

end Store

variable (codec : SpecCodec) (disk : Disk)

/-- The spec that the daemon deploys for `app`; one that is not valid is refused with a 400. -/
def daemonSpec (store : Store) (app : Text) : ApiResult WorkloadSpec := do
  let config ← registration app (store.appConfig app)
  let (spec,_) ← deploySpec codec config fun p => (disk.entry p).contents
  return spec

/-- The text that a local deploy decodes: the one of `kuadrat.json`, else the stored one. -/
def localText (store : Store) (app : Text) : FileEntry → Option Text
  | .text t => some t
  | .unreadable _ => none
  | .absent => store.currentSpec app

/-- One spec is deployed whoever resolves it. With a `kuadrat.json` the flag has to be there to
override its route, and the spec has to be valid, which only the daemon looks at by now; without one
no stored spec may be left to fall back to. -/
def Unambiguous (store : Store) (app : Text) (route : Option Route) : FileEntry → Prop
  | .text t => ∀ spec, codec.ofText t = .ok spec → (route.isSome ∨ spec.route = none) ∧
      WorkloadSpec.validate { spec with name := app, route := route } = .ok ()
  | .unreadable _ => True
  | .absent => ∀ json spec, store.currentSpec app = some json → codec.ofText json ≠ .ok spec

section Prepared
variable {codec disk} {store store' : Store} {app : Text} {repo : Path} {arg : Option Text}
  {route : Option Route}

theorem prepareDeploy_ok (h : prepareDeploy disk store app repo arg = .ok (route,store')) :
    arg.mapM parseRoute = .ok route ∧ ∃ abs t, disk.canonicalize repo = .ok abs ∧
      abs.toStr = some t ∧ store.registerApp ⟨app,t,route⟩ = .ok store' := by
  unfold prepareDeploy backfillRegistration at h
  cases harg : arg.mapM parseRoute with
  | error e => simp [harg,bind,Except.bind] at h
  | ok parsed =>
    cases habs : disk.canonicalize repo with
    | error e => simp [harg,habs,Except.mapError,bind,Except.bind] at h
    | ok abs =>
      cases ht : abs.toStr with
      | none => simp [harg,habs,ht,Except.mapError,bind,Except.bind] at h
      | some t =>
        cases hreg : store.registerApp ⟨app,t,parsed⟩ with
        | error e => simp [harg,habs,ht,hreg,Except.mapError,bind,Except.bind] at h
        | ok registered =>
          simp only [harg,habs,ht,hreg,Except.mapError,bind,Except.bind,pure,Except.pure,
            Except.ok.injEq,Prod.mk.injEq] at h
          obtain ⟨rfl,rfl⟩ := h
          exact ⟨rfl,abs,t,rfl,ht,hreg⟩

/-- The port of the parsed flag can be served. -/
theorem parsedRoute_port (h : arg.mapM parseRoute = .ok route) : ∀ r ∈ route, r.port ≠ 0 := by
  cases arg with
  | none =>
    rw [← Except.ok.inj h]
    exact nofun
  | some s =>
    cases hr : parseRoute s with
    | error e => simp [hr,Functor.map,Except.map] at h
    | ok r =>
      simp only [Option.mapM_some,hr,Functor.map,Except.map,Except.ok.injEq] at h
      subst h
      intro r' hr'
      rw [← Option.some.inj hr']
      exact (parseRoute_ok hr).2.2

/-- The spec, if it is valid. -/
def WorkloadSpec.valid (spec : WorkloadSpec) : Option WorkloadSpec :=
  spec.validate.toOption.map fun _ => spec

theorem WorkloadSpec.valid_of_ok {spec : WorkloadSpec} (h : spec.validate = .ok ()) :
    spec.valid = some spec := by
  rw [valid,h]
  rfl

theorem WorkloadSpec.valid_of_error {spec : WorkloadSpec} {e : Message}
    (h : spec.validate = .error e) : spec.valid = none := by
  rw [valid,h]
  rfl

/-- What is deployed from one snapshot of a registration. -/
theorem deploySpec_toOption (config : AppConfig) (fsysRead : Path → Option Text) :
    (deploySpec codec config fsysRead).toOption.map Prod.fst =
      (specFor codec config fsysRead).toOption.bind WorkloadSpec.valid := by
  unfold deploySpec
  cases specFor codec config fsysRead with
  | error e => rfl
  | ok spec =>
    have hvalid : spec.valid = spec.validate.toOption.map fun _ => spec := rfl
    change _ = spec.valid
    rw [hvalid]
    cases hcheck : spec.validate <;>
      simp [hcheck,Except.mapError,Except.toOption,bind,Except.bind,pure,Except.pure]

/-- The daemon decodes `kuadrat.json` alone, takes the route of the registration, and refuses what
is not valid. -/
theorem daemonSpec_prepared (h : prepareDeploy disk store app repo arg = .ok (route,store')) :
    (daemonSpec codec disk store' app).toOption =
      (((disk.entry (repo.join "kuadrat.json")).contents.bind fun t =>
        (codec.ofText t).toOption).map fun spec =>
          { spec with name := app, route := route }).bind WorkloadSpec.valid := by
  obtain ⟨harg,abs,t,habs,ht,hreg⟩ := prepareDeploy_ok h
  have hconfig := appConfig_registerApp hreg (parsedRoute_port harg)
  have hfile := disk.entry_canonical habs ht "kuadrat.json"
  have hdaemon : (daemonSpec codec disk store' app).toOption =
      (deploySpec codec ⟨app,t,route⟩ fun p => (disk.entry p).contents).toOption.map Prod.fst := by
    unfold daemonSpec
    simp only [hconfig,registration,bind,Except.bind]
    cases deploySpec codec ⟨app,t,route⟩ fun p => (disk.entry p).contents <;> rfl
  rw [hdaemon,deploySpec_toOption]
  congr 1
  unfold specFor repoSpec
  simp only [hfile,bind,Except.bind]
  cases (disk.entry (repo.join "kuadrat.json")).contents with
  | none => rfl
  | some text =>
    cases hdec : codec.ofText text <;> simp [hdec,Except.mapError,Except.toOption,pure,Except.pure]

theorem toOption_mapError {α : Type} (f : Message → Message) (r : Except Message α) :
    (r.mapError f).toOption = r.toOption := by
  cases r <;> rfl

/-- A local deploy decodes the stored spec where the daemon has nothing left to read. -/
theorem loadSpec_toOption :
    (loadSpec codec disk app repo store).toOption =
      (localText store app (disk.entry (repo.join "kuadrat.json"))).bind fun t =>
        (codec.ofText t).toOption := by
  unfold loadSpec
  dsimp only
  cases disk.entry (repo.join "kuadrat.json".toList) with
  | unreadable why => rfl
  | text t => exact toOption_mapError _ _
  | absent =>
    simp only [localText]
    cases store.currentSpec app with
    | none => rfl
    | some json => exact toOption_mapError _ _

/-- It overrides a route only with the flag. -/
theorem resolveSpec_toOption :
    (resolveSpec codec disk app repo store route).toOption =
      (loadSpec codec disk app repo store).toOption.map fun spec =>
        { spec with name := app, route := route.or spec.route } := by
  unfold resolveSpec
  cases loadSpec codec disk app repo store <;> cases route <;> rfl

/-- A daemon and a local deploy resolve one spec, or none, exactly when the repo and the store
leave them nothing to differ in. -/
theorem same_spec_iff_unambiguous
    (h : prepareDeploy disk store app repo arg = .ok (route,store')) :
    (daemonSpec codec disk store' app).toOption =
        (resolveSpec codec disk app repo store' route).toOption ↔
      Unambiguous codec store app route (disk.entry (repo.join "kuadrat.json")) := by
  obtain ⟨harg,_,_,-,-,hreg⟩ := prepareDeploy_ok h
  have hstored : store'.currentSpec app = store.currentSpec app := by
    rw [Store.registerApp_ok hreg]
    rfl
  rw [daemonSpec_prepared h,resolveSpec_toOption,loadSpec_toOption]
  cases disk.entry (repo.join "kuadrat.json") with
  | unreadable why => simp [FileEntry.contents,localText,Unambiguous]
  | text t =>
    cases hdec : codec.ofText t with
    | error e => simp [FileEntry.contents,localText,Unambiguous,hdec,Except.toOption]
    | ok spec =>
      simp only [FileEntry.contents,localText,Unambiguous,hdec,Except.toOption,Option.bind_some,
        Option.map_some,Except.ok.injEq,forall_eq']
      cases hcheck : WorkloadSpec.validate { spec with name := app, route := route } with
      | error e => simp [WorkloadSpec.valid_of_error hcheck]
      | ok u =>
        rw [WorkloadSpec.valid_of_ok hcheck]
        cases route <;> simp [eq_comm]
  | absent =>
    simp only [FileEntry.contents,localText,Unambiguous,hstored]
    cases store.currentSpec app with
    | none => simp
    | some json =>
      cases hdec : codec.ofText json with
      | error e =>
        simp only [Option.bind_none,Option.map_none,Option.bind_some,hdec,Except.toOption,
          Option.some.injEq,true_iff]
        rintro _ spec rfl
        simp [hdec]
      | ok spec => simp [hdec,Except.toOption]

end Prepared

section Sample

def sampleRepo : Path := [[],"srv","web"]

/-- A disk whose only repo is `/srv/web`, with `file` as its `kuadrat.json`. -/
def sampleDisk (file : FileEntry) : Disk where
  entry p := if p = sampleRepo.join "kuadrat.json" then file else .absent
  canonicalize repo :=
    if repo = sampleRepo then .ok ⟨"/srv/web",some "/srv/web".toList⟩
    else .error ["No such file or directory (os error 2)"]
  entry_canonical := by
    intro repo abs t habs ht name
    split at habs
    · rename_i hrepo
      rw [← Except.ok.inj habs] at ht
      rw [← Option.some.inj ht,hrepo]
      rfl
    · exact nomatch habs

theorem sampleDisk_file (file : FileEntry) :
    (sampleDisk file).entry (sampleRepo.join "kuadrat.json") = file := by
  unfold sampleDisk
  dsimp only
  exact if_pos rfl

def servedSpec : WorkloadSpec :=
  { name := "web", image := "web", healthCmd := some ("true" : Text) }

def handoffSpec : WorkloadSpec := { servedSpec with route := some ⟨"web.example",3000⟩ }

def uncheckedSpec : WorkloadSpec := { name := "web", image := "web" }

/-- The specs that a daemon and a local deploy take, after the registration. -/
def bothSpecs (file : FileEntry) (store : Store) (arg : Option Text) :
    Option (Option WorkloadSpec × Option WorkloadSpec) :=
  (prepareDeploy (sampleDisk file) store "web" sampleRepo arg).toOption.map fun p =>
    ((daemonSpec serde (sampleDisk file) p.2 "web").toOption,
      (resolveSpec serde (sampleDisk file) "web" sampleRepo p.2 p.1).toOption)

theorem bothSpecs_eq_some {file : FileEntry} {store : Store} {arg : Option Text}
    {daemon here : Option WorkloadSpec} (h : bothSpecs file store arg = some (daemon,here)) :
    ∃ route store',
      prepareDeploy (sampleDisk file) store "web" sampleRepo arg = .ok (route,store') ∧
      (daemonSpec serde (sampleDisk file) store' "web").toOption = daemon ∧
      (resolveSpec serde (sampleDisk file) "web" sampleRepo store' route).toOption = here := by
  obtain ⟨⟨route,store'⟩,hp,heq⟩ := Option.map_eq_some_iff.mp h
  rw [Prod.mk.injEq] at heq
  refine ⟨route,store',?_,heq.1,heq.2⟩
  cases hprep : prepareDeploy (sampleDisk file) store "web" sampleRepo arg with
  | error e => rw [hprep] at hp; exact nomatch hp
  | ok p => rw [hprep] at hp; exact congrArg _ (Option.some.inj hp)

/-- With the flag given, both take the spec of the repo under the flag's route. -/
theorem flag_settles_route : ∃ route store',
    prepareDeploy (sampleDisk (.text (serde.toText handoffSpec))) .empty "web" sampleRepo
      (some ("new.example:80" : Text)) = .ok (route,store') ∧
    (daemonSpec serde (sampleDisk (.text (serde.toText handoffSpec))) store' "web").toOption =
      (resolveSpec serde (sampleDisk (.text (serde.toText handoffSpec))) "web" sampleRepo store'
        route).toOption := by
  have h : (bothSpecs (.text (serde.toText handoffSpec)) .empty
      (some ("new.example:80" : Text))).isSome := by decide +kernel
  obtain ⟨specs,hspecs⟩ := Option.isSome_iff_exists.mp h
  obtain ⟨route,store',hprep,-,-⟩ := bothSpecs_eq_some hspecs
  have hflag : (some ("new.example:80" : Text)).mapM parseRoute =
      .ok (some ⟨"new.example",80⟩) := by decide +kernel
  obtain rfl : some ⟨"new.example",80⟩ = route :=
    Except.ok.inj (hflag.symm.trans (prepareDeploy_ok hprep).1)
  refine ⟨_,store',hprep,(same_spec_iff_unambiguous hprep).mpr ?_⟩
  rw [sampleDisk_file]
  intro spec hspec
  rw [serde.ofText_toText] at hspec
  cases hspec
  exact ⟨.inl rfl,by decide +kernel⟩

/-- Without the flag the daemon drops the route that `kuadrat.json` declares, and a local deploy
serves it; the daemon refuses the flag's route for an app that has no health command, and a local
deploy goes on with it; without a `kuadrat.json` the daemon finds no spec where a local deploy finds
the stored one. -/
theorem handoff_changes_spec :
    (∃ route store', prepareDeploy (sampleDisk (.text (serde.toText handoffSpec))) .empty "web"
        sampleRepo none = .ok (route,store') ∧
      (daemonSpec serde (sampleDisk (.text (serde.toText handoffSpec))) store' "web").toOption =
        some servedSpec ∧
      (resolveSpec serde (sampleDisk (.text (serde.toText handoffSpec))) "web" sampleRepo store'
        route).toOption = some handoffSpec) ∧
    (∃ route store', prepareDeploy (sampleDisk (.text (serde.toText uncheckedSpec))) .empty "web"
        sampleRepo (some ("web.example:3000" : Text)) = .ok (route,store') ∧
      (daemonSpec serde (sampleDisk (.text (serde.toText uncheckedSpec))) store' "web").toOption =
        none ∧
      (resolveSpec serde (sampleDisk (.text (serde.toText uncheckedSpec))) "web" sampleRepo store'
        route).toOption = some { uncheckedSpec with route := some ⟨"web.example",3000⟩ }) ∧
    ∃ store route store', store.currentSpec "web" = some (serde.toText servedSpec) ∧
      prepareDeploy (sampleDisk .absent) store "web" sampleRepo none = .ok (route,store') ∧
      (daemonSpec serde (sampleDisk .absent) store' "web").toOption = none ∧
      (resolveSpec serde (sampleDisk .absent) "web" sampleRepo store' route).toOption =
        some servedSpec := by
  refine ⟨bothSpecs_eq_some (by decide +kernel),bothSpecs_eq_some (by decide +kernel),?_⟩
  have h : ((Store.empty.putSpec "web" "web" (serde.toText servedSpec)).toOption.map fun store =>
      (store.currentSpec "web",bothSpecs .absent store none)) =
      some (some (serde.toText servedSpec),some (none,some servedSpec)) := by decide +kernel
  obtain ⟨store,-,heq⟩ := Option.map_eq_some_iff.mp h
  rw [Prod.mk.injEq] at heq
  obtain ⟨route,store',hboth⟩ := bothSpecs_eq_some heq.2
  exact ⟨store,route,store',heq.1,hboth⟩

end Sample
end Kuadrat
