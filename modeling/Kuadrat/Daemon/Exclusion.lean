import Kuadrat.Codec.Spec
import Kuadrat.Daemon.Books

/-!
# One deploy of an app at a time

Any number of callers reserve and run deploys over one database, each step of each of them
at any time; a caller may also die between any two of its steps.
-/
namespace Kuadrat

open Effect

/-- `reserve`, then `run_reserved`: what the CLI's `run` does with a valid spec, and what a
trigger and the task it spawns do between them. -/
def reserveThenRun (ctx : Ctx) (spec : WorkloadSpec) (repo : Path) : Run DeployOutcome := do
  let deployId ← (reserve spec.name).mapError ReserveError.message
  runReserved ctx spec repo deployId

theorem run_of_valid (ctx : Ctx) {spec : WorkloadSpec} (repo : Path)
    (h : spec.validate = .ok ()) : run ctx spec repo = reserveThenRun ctx spec repo := by
  unfold run
  rw [h,Run.ofExcept_ok,pure_bind]
  rfl

/-- Callers come with any app, any spec and any repo, and do nothing else. -/
def OnlyCallers (_ : SystemState) : SystemMove → Prop
  | .enter _ p => ∃ ctx spec repo, p = forget (reserveThenRun ctx spec repo)
  | .run .. | .fork .. | .drop _ => True

/-- At most one deploy of each app is reserved and not yet at its end. -/
def OneAtATime (s : Shared) : Prop :=
  ∀ d d' r r', d ∈ s.granted → d' ∈ s.granted → s.store.row d = some r → s.store.row d' = some r' →
    r.status = .inProgress → r'.status = .inProgress → r.app = r'.app → d = d'

/-- No step of a thread deletes the lock of a deploy that is not its own. -/
def KeepsForeignLocks (ctx : Ctx) (s : SystemState) : Prop :=
  ∀ i host t, (system ctx).step s (.run i host) = some t → ∀ app d,
    s.shared.store.lock app = some d → s.shared.owner i ≠ some d → t.shared.store.lock app = some d

/-- A caller has written the end of a deploy of `app`, and has yet to return from it: its
backstop release of the app's lock is still to come. -/
def Shared.ReleasePending (s : Shared) (app : Text) : Prop :=
  ∃ j d r, s.owner j = some d ∧ d ∈ s.granted ∧ s.store.row d = some r ∧ r.app = app ∧
    r.status ≠ .inProgress

/-- No lock is asked for while the backstop release of another deploy of the same app is
pending, and no spec is stored under a slug that another app has. -/
def Undisturbed (s : SystemState) (mv : SystemMove) : Prop :=
  OnlyCallers s mv ∧ ∀ i host, mv = .run i host →
    (∀ app d k, s.threads i = .op (.store (.acquireLock app d)) k → ¬s.shared.ReleasePending app) ∧
    ∀ name slug json k, s.threads i = .op (.store (.putSpec name slug json)) k →
      ∃ s', s.shared.store.putSpec name slug json = .ok s'

section Proof
variable {ctx : Ctx} {s t : SystemState}

abbrev anySpec : Option Text → Prop := fun _ => True

/-- What is known throughout: the threads' deploys are their own, and locks exclude. -/
def ExclusiveBooks (memo : ℕ → Held) (s : Shared) : Prop :=
  Owned memo s ∧ (ledger memo s).Exclusive

theorem wp_reserveThenRun (ctx : Ctx) (spec : WorkloadSpec) (repo : Path) :
    wp (deployProtocol anySpec) (forget (reserveThenRun ctx spec repo)) (fun _ _ => True) none := by
  refine wp_forget (Q := fun _ => True) (wp_run_seq (P := fun r m => ∀ d, r = .ok d →
    m = some ⟨.granted,spec.name,d⟩) ?_ (fun d m h => ?_) fun _ _ _ => trivial)
  · rw [Proc.run_mapError]
    refine wp_seq (deployConduct.reserve rfl) fun r m h d hd => ?_
    cases r with
    | ok d' =>
      cases hd
      exact h
    | error e => cases hd
  · rw [h d rfl]
    exact wp_mono (wp_runReserved_held spec repo) fun _ _ _ => trivial

/-- The lock of an app is asked for only when nobody still has to free it. -/
theorem calm_of_undisturbed {memo : ℕ → Held} {s : Shared} (h : ExclusiveBooks memo s) {app : Text}
    (hpending : ¬s.ReleasePending app) : (ledger memo s).Calm app := by
  intro j c hc happ hp
  obtain ⟨r,hr,hrapp,hs⟩ := row_of_held h.2.toCoherent hc
  rw [hp] at hs
  exact hpending ⟨j,c.ticket,r,h.1 j c hc,h.2.granted j c hc (.inr hp),hr,hrapp.trans happ,
    by simpa [Point.isOpen] using hs⟩

theorem step_exclusive {memo : ℕ → Held} {s t : Shared} {i : ℕ} {m : Held}
    (h : ExclusiveBooks memo s) (hf : Follows (ledger memo s).Calm memo s i m t) :
    ExclusiveBooks (Function.update memo i m) t := by
  refine ⟨hf.1,?_⟩
  rcases hf.2 with heq | hs
  · rw [heq]
    exact h.2
  · exact h.2.step hs

theorem upholds_exclusive : (system ctx).Upholds (deployProtocol anySpec) none (fun _ => True)
    ExclusiveBooks Undisturbed where
  fin_rest := trivial
  leave memo s i h _ := ⟨owned_leave h.1,h.2.quit i⟩
  enter memo s i p hm hi hallow := by
    obtain ⟨ctx',spec,repo,rfl⟩ := hallow.1
    refine ⟨none,wp_reserveThenRun ctx' spec repo,?_⟩
    rw [Function.update_eq_self_iff.mpr (hm.gone i hi).symm]
    exact hm.inv
  run memo s i e k host r t hm hi hchild hpre hallow hanswer := by
    obtain ⟨hlock,hput⟩ := hallow.2 i host rfl
    have hspawn : ∀ spec repo d, e ≠ .spawn spec repo d := by
      rintro spec repo d rfl
      cases hchild
    have hsound : s.shared.store.Sound anySpec e := by
      refine ⟨fun name slug json he => ?_,fun _ _ => trivial⟩
      subst he
      exact hput name slug json k hi
    have hcalm : ∀ app d, e = .store (.acquireLock app d) →
        (ledger memo s.shared).Calm app := by
      rintro app d rfl
      exact calm_of_undisturbed hm.inv (hlock app d k hi)
    obtain ⟨m,hpost,hf⟩ := follows_answer _ hm.inv.2.toCoherent hm.inv.1 hpre hspawn hsound hcalm
      hanswer
    exact ⟨m,hpost,step_exclusive hm.inv hf⟩
  fork memo s i j e k p host r t hm hi hchild hj hij hpre hallow hanswer := by
    obtain ⟨spec,repo,d,rfl,rfl,rfl,-,hheld⟩ := fork_cases hchild hpre hanswer
    refine ⟨none,some ⟨.granted,spec.name,d⟩,rfl,wp_mono wp_spawnedDeploy fun _ _ _ => trivial,
      owned_handOver spec repo hm.inv.1 hheld hij,?_⟩
    rw [show (system ctx).handOver = Shared.handOver from rfl,ledger_handOver spec repo hheld]
    exact hm.inv.2.hand i j
  drop memo s i hm _ := ⟨owned_leave hm.inv.1,hm.inv.2.quit i⟩

theorem exclusiveBooks_initial (store : Store) :
    ExclusiveBooks (fun _ => none) (Shared.initial store) :=
  ⟨owned_initial store,⟨⟨nofun,nofun⟩,nofun,nofun,nofun,nofun⟩⟩

theorem oneAtATime_of_books {memo : ℕ → Held} {s : Shared} (h : ExclusiveBooks memo s) :
    OneAtATime s := by
  intro d d' r r' hd hd' hr hr' hs hs' happ
  refine h.2.unique (k := r.app) hd hd' (Store.tickets_eq_some.mpr ⟨r,hr,rfl,by simp [hs]⟩)
    (Store.tickets_eq_some.mpr ⟨r',hr',happ.symm,by simp [hs']⟩)

/-- A thread that keeps to the protocol deletes no lock but that of its own deploy. -/
theorem lock_answer {memo : ℕ → Held} {s t : Shared} {i : ℕ} {e : Eff} {host : Host} {r : e.Resp}
    (h : ExclusiveBooks memo s) (hpre : (memo i).pre e)
    (hspawn : ∀ spec repo d, e ≠ .spawn spec repo d) (hanswer : s.answer i e host = some (r,t))
    {app : Text} {d : ℕ} (hlock : s.store.lock app = some d) (hother : s.owner i ≠ some d) :
    t.store.lock app = some d := by
  by_cases hneutral : ∃ o, e = .store o ∧ Store.Neutral o
  · obtain ⟨o,rfl,ho⟩ := hneutral
    cases hanswer
    change (s.store.call o).2.lock app = some d
    rw [(Store.books_neutral ho).2]
    exact hlock
  · have hsound : s.store.Sound anySpec e := by
      constructor
      · rintro name slug json rfl
        exact absurd ⟨_,rfl,trivial⟩ hneutral
      · exact fun _ _ => trivial
    obtain ⟨m,-,-,hf⟩ := follows_answer (fun _ => True) h.2.toCoherent h.1 hpre hspawn
      hsound (fun _ _ _ => trivial) hanswer
    rcases hf with heq | hs
    · exact (congrFun (congrArg Ledger.lock heq) app).trans hlock
    · refine h.2.lock_step hs hlock fun c hc heq => hother ?_
      rw [h.1 i c hc,heq]

end Proof

/-- No two deploys of one app are reserved and running, and nobody frees the lock of a deploy
of somebody else, as long as no lock is asked for during a pending backstop release. -/
theorem exclusive_of_undisturbed (ctx : Ctx) (store : Store) {s : SystemState}
    (h : (system ctx).Run Undisturbed (Pool.idle (.initial store)) s) :
    OneAtATime s.shared ∧ KeepsForeignLocks ctx s := by
  obtain ⟨memo,hm⟩ := upholds_exclusive.reachable
    (Pool.meets_idle trivial (exclusiveBooks_initial store)) h
  refine ⟨oneAtATime_of_books hm.inv,fun i host t ht app d hlock hother => ?_⟩
  obtain ⟨e,k,r,u,hi,hchild,hanswer,rfl⟩ := Pool.step_run ht
  have hfollow := hm.follows i
  rw [hi] at hfollow
  have hspawn : ∀ spec repo d, e ≠ .spawn spec repo d := by
    rintro spec repo d rfl
    cases hchild
  rw [store_put]
  exact lock_answer hm.inv hfollow.1 hspawn hanswer hlock hother

section Sample

/-- A caller that deploys the sample app. -/
def sampleCaller : Prog Eff Eff.Resp Unit :=
  forget (reserveThenRun sampleContext sampleSpec ["","repo"])

def callers (moves : List SystemMove) : Option SystemState :=
  (system sampleContext).advance moves (Pool.idle (.initial .empty))

/-- The first caller has written its end, and the second one has reserved the app since. -/
def beforeRelease : List SystemMove :=
  .enter 0 sampleCaller::steps 0 12 silentHost ++ .enter 1 sampleCaller::steps 1 2 silentHost

/-- The first caller's backstop release, and a third caller's reservation. -/
def afterRelease : List SystemMove :=
  steps 0 1 silentHost ++ .enter 2 sampleCaller::steps 2 2 silentHost

theorem onlyCallers_beforeRelease (s : SystemState) : ∀ mv ∈ beforeRelease ++ afterRelease,
    OnlyCallers s mv := by
  intro mv hmv
  cases mv with
  | enter i p =>
    refine ⟨sampleContext,sampleSpec,["","repo"],?_⟩
    simp only [beforeRelease,afterRelease,steps,List.mem_append,List.mem_cons,List.mem_replicate,
      Pool.Move.enter.injEq,reduceCtorEq,and_false,or_false,false_or] at hmv
    rcases hmv with (h | h) | h <;> exact h.2
  | run | fork | drop => trivial

/-- The first reservation of an app, which nothing disturbs. -/
theorem first_caller_exclusive : ∃ s, (system sampleContext).Run Undisturbed
    (Pool.idle (.initial .empty)) s ∧ s.shared.granted = [1] ∧ s.shared.store.lock "web" = some 1 ∧
      OneAtATime s.shared ∧ KeepsForeignLocks sampleContext s := by
  have hrun : ∃ s, (system sampleContext).Run Undisturbed (Pool.idle (.initial .empty)) s ∧
      s.shared.granted = [1] ∧ s.shared.store.lock "web" = some 1 := by
    refine ⟨_,.tail (.tail (.tail .refl
      ⟨.enter 0 sampleCaller,⟨⟨sampleContext,sampleSpec,["","repo"],rfl⟩,nofun⟩,rfl⟩)
      ⟨.run 0 silentHost,⟨trivial,?_⟩,rfl⟩) ⟨.run 0 silentHost,⟨trivial,?_⟩,rfl⟩,rfl,rfl⟩
    · rintro i host ⟨⟩
      exact ⟨nofun,nofun⟩
    · rintro i host ⟨⟩
      refine ⟨fun app d k _ hpending => ?_,nofun⟩
      obtain ⟨j,d',r,-,hd,-⟩ := hpending
      exact nomatch hd
  obtain ⟨s,hs,hgranted,hlock⟩ := hrun
  exact ⟨s,hs,hgranted,hlock,exclusive_of_undisturbed sampleContext .empty hs⟩

/-- The backstop release of a deploy that has ended deletes the lock of the next one, and a
third deploy of the app is reserved beside it. -/
theorem backstop_frees_foreign_lock :
    (∃ s, (system sampleContext).Run OnlyCallers (Pool.idle (.initial .empty)) s ∧
      ¬KeepsForeignLocks sampleContext s) ∧
    ∃ s, (system sampleContext).Run OnlyCallers (Pool.idle (.initial .empty)) s ∧
      ¬OneAtATime s.shared := by
  constructor
  · have hrun : ((callers beforeRelease).bind fun s =>
        ((system sampleContext).step s (.run 0 silentHost)).map fun t =>
          (s.shared.store.lock "web",s.shared.owner 0,t.shared.store.lock "web")) =
        some (some 2,some 1,none) := by
      decide +kernel
    obtain ⟨s,hs,h⟩ := Option.bind_eq_some_iff.mp hrun
    obtain ⟨t,ht,h⟩ := Option.map_eq_some_iff.mp h
    simp only [Prod.mk.injEq] at h
    obtain ⟨hlock,howner,hgone⟩ := h
    refine ⟨s,Pool.run_of_advance _ (fun s mv hmv => onlyCallers_beforeRelease s mv
      (List.mem_append_left _ hmv)) hs,fun hkeep => ?_⟩
    have := hkeep 0 silentHost t ht "web" 2 hlock (by simp [howner])
    rw [hgone] at this
    cases this
  · have hrun : (callers (beforeRelease ++ afterRelease)).map (fun s =>
        (s.shared.granted,s.shared.store.row 2,s.shared.store.row 3)) =
        some ([3,2,1],some ⟨2,"web",.detect,.inProgress,none⟩,
          some ⟨3,"web",.detect,.inProgress,none⟩) := by
      decide +kernel
    obtain ⟨s,hs,h⟩ := Option.map_eq_some_iff.mp hrun
    simp only [Prod.mk.injEq] at h
    obtain ⟨hgranted,h2,h3⟩ := h
    refine ⟨s,Pool.run_of_advance _ onlyCallers_beforeRelease hs,fun hone => ?_⟩
    have := hone 2 3 _ _ (by simp [hgranted]) (by simp [hgranted]) h2 h3 rfl rfl rfl
    cases this

end Sample
end Kuadrat
