import Kuadrat.Daemon.Apart

/-!
# Resets beside deploys

Deliveries, triggers, registrations and the spawned tasks of one daemon, in any order. A delivery
asks whether its app is busy, but a checkout can be that of more than one app.
-/
namespace Kuadrat

open Effect

section Answers
variable {K : Type} {place : Path → K} {n : Notes K} {s t : Shared} {i d : ℕ}
  {host : Host} {memo : ℕ → Errand}

theorem view_of_call {o : StoreOp} {r : Except Message o.Reply}
    (hcreate : ∀ app, o ≠ .createDeploy app) (h : s.answer i (.store o) host = some (r,t)) :
    r = (s.store.call o).1 ∧ t.view = { s.view with
      course := (s.store.call o).2.course
      checkout := (s.store.call o).2.checkout } := by
  obtain ⟨hr,hstore,howner,hholder,-⟩ := answer_store hcreate h
  refine ⟨hr,?_⟩
  rw [Shared.view,hstore,howner,hholder]
  rfl

/-- A call that neither creates nor ends a deploy, nor registers an app. -/
theorem view_of_neutral {o : StoreOp} {r : Except Message o.Reply}
    (hcreate : ∀ app, o ≠ .createDeploy app) (hend : ∀ d, ¬Store.Ends d o)
    (hregister : ∀ config, o ≠ .registerApp config) (h : s.answer i (.store o) host = some (r,t)) :
    r = (s.store.call o).1 ∧ t.view = s.view := by
  obtain ⟨hr,hview⟩ := view_of_call hcreate h
  refine ⟨hr,hview.trans ?_⟩
  rw [show (s.store.call o).2.course = s.store.course from
    funext fun d => Store.course_call hcreate (hend d),Store.checkout_call hregister]
  rfl

theorem view_of_ended {o : StoreOp} {status : DeployStatus} {detail : Option Message}
    {r : Except Message o.Reply}
    (ho : o = .finishDeploy d status detail ∨ o = .finishDeployWithEvent d status detail)
    (h : s.answer i (.store o) host = some (r,t)) : t.view = { s.view with
      course := Function.update s.view.course d ((s.view.course d).map fun c => (c.1,status)) } := by
  have hcreate : ∀ app, o ≠ .createDeploy app := by
    rcases ho with rfl | rfl <;> rintro app ⟨⟩
  have hregister : ∀ config, o ≠ .registerApp config := by
    rcases ho with rfl | rfl <;> rintro config ⟨⟩
  have hother : ∀ d', d' ≠ d → ¬Store.Ends d' o := by
    rcases ho with rfl | rfl <;> exact fun d' hd' he => hd' he.symm
  rw [(view_of_call hcreate h).2,Store.checkout_call hregister]
  have hcourse : (s.store.call o).2.course =
      Function.update s.store.course d ((s.store.course d).map fun c => (c.1,status)) := by
    funext d'
    by_cases hd : d' = d
    · rw [hd,Function.update_self,Store.course_ended ho]
    · rw [Function.update_of_ne hd,Store.course_call hcreate (hother d' hd)]
  rw [hcourse]
  rfl

theorem Errands.createDeploy (h : Errands place memo s.view n) {app : Text} {r : Except Message ℕ}
    (hpre : (memo i).pre (.store (.createDeploy app)))
    (hanswer : s.answer i (.store (.createDeploy app)) host = some (r,t)) :
    ∃ m, (memo i).post (.store (.createDeploy app)) r m ∧
      Errands place (Function.update memo i m) t.view n := by
  obtain ⟨c,hi,rfl⟩ := hpre
  cases hanswer
  refine ⟨(memo i).create (s.store.lastDeploy+1),rfl,?_⟩
  have hcreated := h.create hi (d := s.store.lastDeploy+1) Store.course_new
  rw [show s.view.course = s.store.course from rfl,← Store.course_createDeploy] at hcreated
  exact hcreated

theorem Errands.registerApp (h : Errands place memo s.view n) {config : AppConfig}
    {r : Except Message Unit} (hi : memo i = .locked)
    (hother : ∀ name path, s.store.checkout name = some path →
      place (Path.ofText path) = place (Path.ofText config.repoPath) → name = config.name)
    (hlive : ∀ d app, s.store.course d = some (app,.inProgress) →
      n.repo d = some (place (Path.ofText config.repoPath)) → app = config.name)
    (hanswer : s.answer i (.store (.registerApp config)) host = some (r,t)) :
    Errands place (Function.update memo i (memo i)) t.view n := by
  have hcourse : (s.store.call (.registerApp config)).2.course = s.store.course :=
    funext fun d => Store.course_call (by rintro app ⟨⟩) id
  obtain ⟨-,hview⟩ := view_of_call (by rintro app ⟨⟩) hanswer
  rw [hview,hcourse]
  rcases Store.checkout_registerApp (s := s.store) config with hsame | hnew
  · rw [hsame]
    exact h.same
  · rw [hnew,hi]
    exact h.register hi hother hlive

theorem Errands.appConfig [DecidableEq K] (h : Errands place memo s.view n) {name : Text}
    {r : Except Message (Option AppConfig)} (hi : memo i = .locked)
    (hanswer : s.answer i (.store (.appConfig name)) host = some (r,t)) :
    ∃ m, (memo i).post (.store (.appConfig name)) r m ∧
      Errands place (Function.update memo i m) t.view (n.record place s i (.store (.appConfig name)) r) := by
  obtain ⟨hr,hview⟩ := view_of_neutral (by rintro app ⟨⟩) (fun _ => id) (by rintro config ⟨⟩) hanswer
  rw [hview]
  match r, hr with
  | .error e, _ => exact ⟨memo i,rfl,h.same⟩
  | .ok none, _ => exact ⟨memo i,rfl,h.same⟩
  | .ok (some c), hr =>
    obtain ⟨hname,hcheckout⟩ := Store.of_appConfig hr.symm
    exact ⟨.knows c,⟨hname,rfl⟩,h.read hi (hname.symm ▸ hcheckout)⟩

theorem Errands.inProgressDeploys (h : Errands place memo s.view n)
    {r : Except Message (List DeployRow)} (hpre : (memo i).pre (.store .inProgressDeploys))
    (hanswer : s.answer i (.store .inProgressDeploys) host = some (r,t)) :
    ∃ m, (memo i).post (.store .inProgressDeploys) r m ∧
      Errands place (Function.update memo i m) t.view n := by
  obtain ⟨c,hi⟩ := hpre
  cases hanswer
  refine ⟨(memo i).look s.store.inProgressDeploys,rfl,h.look hi fun hnone d hd => ?_⟩
  obtain ⟨row,hrow,happ,hs⟩ := Store.course_eq_some.mp hd
  have hmem : row ∈ s.store.inProgressDeploys := by
    refine Store.mem_inProgressDeploys.mpr ⟨?_,hs⟩
    rw [Store.id_of_row hrow]
    exact hrow
  have hbusy := List.any_eq_false.mp hnone row hmem
  simp [happ] at hbusy

theorem Errands.acquireLock [DecidableEq K] (h : Errands place memo s.view n) {app : Text} {r : Except Message Bool}
    (hpre : (memo i).pre (.store (.acquireLock app d)))
    (hanswer : s.answer i (.store (.acquireLock app d)) host = some (r,t)) :
    ∃ m, (memo i).post (.store (.acquireLock app d)) r m ∧ Errands place
      (Function.update memo i m) t.view (n.record place s i (.store (.acquireLock app d)) r) := by
  obtain ⟨c,hi⟩ := hpre
  obtain ⟨hr,hview⟩ := view_of_neutral (by rintro app ⟨⟩) (fun _ => id) (by rintro config ⟨⟩) hanswer
  have hcreated : Created s.view n i c d := by
    have := h.fits i
    rwa [hi] at this
  rw [hview]
  match r, hr with
  | .ok true, _ =>
    refine ⟨.holds c.repoPath d,by rw [hi]; rfl,?_⟩
    have hreserved := h.reserve hi
    simp only [Notes.record,hcreated.snapshot.read,Option.map_some]
    exact hreserved
  | .ok false, _ =>
    refine ⟨.attempt d,by rw [hi]; rfl,?_⟩
    exact h.turn h.grounds (fun j hj => unmoved_of_trigger hj hcreated.snapshot.trigger rfl rfl
      (fun _ _ => ⟨rfl,rfl,rfl,rfl⟩) rfl) hcreated.owner
  | .error e, hr => cases hr

theorem Errands.store [DecidableEq K] (h : Errands place memo s.view n) {o : StoreOp} {r : Except Message o.Reply}
    (hpre : (memo i).pre (.store o))
    (hother : ∀ config, o = .registerApp config → ∀ name path, s.store.checkout name = some path →
      place (Path.ofText path) = place (Path.ofText config.repoPath) → name = config.name)
    (hlive : ∀ config, o = .registerApp config → ∀ d app,
      s.store.course d = some (app,.inProgress) →
      n.repo d = some (place (Path.ofText config.repoPath)) → app = config.name)
    (hanswer : s.answer i (.store o) host = some (r,t)) : ∃ m, (memo i).post (.store o) r m ∧
      Errands place (Function.update memo i m) t.view (n.record place s i (.store o) r) := by
  cases o with
  | createDeploy app =>
    obtain ⟨m,hm,hnext⟩ := h.createDeploy hpre hanswer
    exact ⟨m,hm,hnext⟩
  | registerApp config =>
    exact ⟨memo i,rfl,h.registerApp hpre (hother config rfl) (hlive config rfl) hanswer⟩
  | appConfig name => exact h.appConfig hpre hanswer
  | inProgressDeploys => exact h.inProgressDeploys hpre hanswer
  | acquireLock app d => exact h.acquireLock hpre hanswer
  | finishDeploy d status detail =>
    obtain ⟨rfl,hi⟩ := hpre
    have hown := (h.fits i).owner (d := d) (by rw [hi]; rfl)
    rw [view_of_ended (.inl rfl) hanswer]
    refine ⟨.attempt d,hi.symm ▸ rfl,h.finish hown (by decide) nofun (.inr rfl)⟩
  | finishDeployWithEvent d status detail =>
    obtain ⟨hd,hs,hdone⟩ := hpre
    rw [view_of_ended (.inr rfl) hanswer]
    refine ⟨.free,rfl,h.finish ((h.fits i).owner hd) hs (fun heq => ?_) (.inl rfl)⟩
    have hbuilt := h.fits i
    rw [hdone heq] at hbuilt
    exact hbuilt.2
  | putSpec | currentSpec | advanceStage | deploy | releaseLock | releaseOrphanedLocks
  | appendEvent | eventsFor =>
    rw [(view_of_neutral (by rintro app ⟨⟩) (fun _ => id) (by rintro config ⟨⟩) hanswer).2]
    exact ⟨memo i,rfl,h.same⟩

theorem Errands.command [DecidableEq K] (h : Errands place memo s.view n) {e : Eff} {r : e.Resp}
    (he : e.OnHost) (hpre : (memo i).pre e) (hanswer : s.answer i e host = some (r,t)) :
    ∃ m, (memo i).post e r m ∧
      Errands place (Function.update memo i m) t.view (n.record place s i e r) := by
  cases e with
  | store | emit | spawn | acquire | release => exact he.elim
  | present | readToString | write | createDirAll | removeFile | readDir =>
    cases hanswer
    exact ⟨memo i,rfl,h.same⟩
  | run c =>
    cases hanswer
    cases c with
    | podmanBuild image file dir =>
      obtain ⟨repo,d,hi,rfl⟩ := hpre
      have hown : s.owner i = some d := (h.fits i).owner (d := d) (by rw [hi]; rfl)
      refine ⟨.built d,by rw [hi]; rfl,?_⟩
      have hbuilt := h.build hi
      simp only [Notes.record,noteAt,hown,Path.ofText_display]
      exact hbuilt
    | _ => exact ⟨memo i,rfl,h.same⟩
  | timed c =>
    cases hanswer
    cases c with
    | gitReset repo sha =>
      obtain ⟨d,hi⟩ := hpre
      have hown : s.owner i = some d := (h.fits i).owner (d := d) (by rw [hi]; rfl)
      have hreset := h.reset hi sha (host (.timed (.gitReset repo sha))).succeeded
      refine ⟨_,by rw [hi]; rfl,?_⟩
      simp only [Notes.record,noteAt,hown]
      exact hreset
    | _ => exact ⟨memo i,rfl,h.same⟩

/-- A step of a thread that keeps to the protocol. -/
theorem Errands.answer [DecidableEq K] (h : Errands place memo s.view n) {e : Eff} {r : e.Resp}
    (hpre : (memo i).pre e) (hspawn : ∀ spec repo d, e ≠ .spawn spec repo d)
    (hother : ∀ config, e = .store (.registerApp config) → ∀ name path,
      s.store.checkout name = some path →
      place (Path.ofText path) = place (Path.ofText config.repoPath) → name = config.name)
    (hlive : ∀ config, e = .store (.registerApp config) → ∀ d app,
      s.store.course d = some (app,.inProgress) →
      n.repo d = some (place (Path.ofText config.repoPath)) → app = config.name)
    (hanswer : s.answer i e host = some (r,t)) : ∃ m, (memo i).post e r m ∧
      Errands place (Function.update memo i m) t.view (n.record place s i e r) := by
  cases e with
  | store o =>
    exact h.store hpre (fun config ho => hother config (congrArg _ ho))
      (fun config ho => hlive config (congrArg _ ho)) hanswer
  | emit event =>
    cases hanswer
    exact ⟨memo i,rfl,h.same⟩
  | acquire g =>
    obtain ⟨hfree,ht⟩ := Option.ite_none_right_eq_some.mp hanswer
    cases ht
    cases g with
    | slot => exact ⟨memo i,rfl,h.same⟩
    | trigger => exact ⟨.locked,rfl,h.acquire hfree⟩
  | release g =>
    simp only [Shared.answer,Option.some.injEq,Prod.mk.injEq,true_and] at hanswer
    cases g with
    | slot =>
      refine ⟨memo i,rfl,?_⟩
      rw [← hanswer]
      split <;> exact h.same
    | trigger =>
      refine ⟨.free,rfl,?_⟩
      have hreleased := h.release (i := i)
      rw [← hanswer]
      split
      · rename_i hheld
        rw [if_pos (show s.view.trigger = some i from hheld)] at hreleased
        exact hreleased
      · rename_i hheld
        rw [if_neg (show ¬s.view.trigger = some i from hheld)] at hreleased
        exact hreleased
  | spawn spec repo d => exact absurd rfl (hspawn spec repo d)
  | present | readToString | write | createDirAll | removeFile | readDir | run | timed =>
    exact h.command trivial hpre hanswer

end Answers

section System
variable {K : Type} {place : Path → K} {ctx : Ctx}

theorem leave_notes [DecidableEq K] {memo : ℕ → Errand} {s : Shared} {n : Notes K} {i : ℕ}
    (h : Errands place memo s.view n) :
    Errands place (Function.update memo i .free) (s.leave i).view (n.leave s i) := by
  unfold Notes.leave
  split
  · rename_i k hk
    obtain ⟨d,hd,hrepo⟩ := Option.bind_eq_some_iff.mp hk
    obtain ⟨howner,hopen⟩ := Option.filter_eq_some_iff.mp hd
    refine h.leave fun k' hk' => ⟨d,howner,?_,?_⟩
    · obtain ⟨c,hc⟩ := Option.ne_none_iff_exists'.mp (h.grounds.there i d howner)
      obtain ⟨row,hrow,happ,hs⟩ := Store.course_eq_some.mp (show s.store.course d = some (c.1,c.2) from hc)
      have hin : row.status = .inProgress := by simpa [Store.finished,hrow] using hopen
      exact ⟨c.1,hc.trans (congrArg some (Prod.ext rfl (hs.symm.trans hin)))⟩
    · by_contra hne
      exact hk' (Function.update_of_ne (fun heq => hne (by rw [heq]; exact hrepo)) ..)
  · exact h.leave fun k hk => absurd rfl hk

/-- The checkouts are kept when registrations keep them apart. -/
theorem upholds_errands [DecidableEq K] : (checkouts place ctx).Upholds errandProtocol .free (fun _ => True)
    (fun memo s => Errands place memo s.1.view s.2) (KeepsApart place ctx) where
  fin_rest := trivial
  leave memo s i h _ := leave_notes h
  enter memo s i p hm hi hallow := by
    refine ⟨.free,?_,?_⟩
    · rcases hallow.1 with ⟨name,rfl⟩ | ⟨app,push,rfl⟩ | ⟨config,rfl⟩
      · exact errand_startDeploy
      · exact errand_dispatchPush
      · exact errand_register
    · rw [Function.update_eq_self_iff.mpr (hm.gone i hi).symm]
      exact hm.inv
  run memo s i e k host r t hm hi hchild hpre hallow hanswer := by
    have hspawn : ∀ spec repo d, e ≠ .spawn spec repo d := by
      rintro spec repo d rfl
      cases hchild
    obtain ⟨ha,hnotes⟩ := Pool.observed_answer hanswer
    have hlive : ∀ config, e = .store (.registerApp config) → ∀ d app,
        s.shared.1.store.course d = some (app,.inProgress) →
        s.shared.2.repo d = some (place (Path.ofText config.repoPath)) → app = config.name := by
      rintro config rfl d app hd hrepo
      obtain ⟨row,hrow,happ,hs⟩ := Store.course_eq_some.mp hd
      exact happ.symm.trans ((hallow.2 i host config k rfl hi).2 d row hrow hs hrepo)
    obtain ⟨m,hpost,hnext⟩ := hm.inv.answer hpre hspawn
      (by rintro config rfl; exact (hallow.2 i host config k rfl hi).1) hlive ha
    refine ⟨m,hpost,?_⟩
    rw [hnotes]
    exact hnext
  fork memo s i j e k p host r t hm hi hchild hj hij hpre hallow hanswer := by
    cases e with
    | spawn spec repo d =>
      cases hchild
      cases hanswer
      obtain ⟨path,hheld,rfl⟩ := hpre
      exact ⟨.free,.holds path d,rfl,errand_spawnedDeploy,
        hm.inv.handOver hheld (hm.gone j hj) hij⟩
    | present | readToString | write | createDirAll | removeFile | readDir | run | timed | store
    | emit | acquire | release => cases hchild
  drop memo s i hm _ := leave_notes hm.inv

theorem errands_initial {store : Store} (h : store.Separate place) :
    Errands place (fun _ => .free) (Shared.initial store).view Notes.blank :=
  ⟨⟨nofun,nofun,fun _ _ => ⟨rfl,rfl⟩,nofun,h,nofun,nofun⟩,fun _ => trivial⟩

end System

/-- Over a database whose apps have different checkouts, as long as registrations keep them
apart: nobody resets a checkout under another deploy, and what a push names is what is built. -/
theorem checkouts_kept_apart {K : Type} [DecidableEq K] (place : Path → K) (ctx : Ctx)
    {store : Store} (hstore : store.Separate place) {s : CheckoutState K}
    (h : (checkouts place ctx).Run (KeepsApart place ctx)
      (Pool.idle (.initial store,.blank)) s) : ResetsOwn place s ∧ BuiltAsPushed s := by
  obtain ⟨memo,hm⟩ := upholds_errands.reachable
    (Pool.meets_idle trivial (errands_initial hstore)) h
  constructor
  · intro i repo sha k hi d hd hrepo
    have hfollow := hm.follows i
    rw [hi] at hfollow
    obtain ⟨d',hheld⟩ := hfollow.1
    have hfits := hm.inv.fits i
    rw [hheld] at hfits
    have hlive : s.shared.1.view.Live d := Store.inProgress_iff_course.mp hd
    rw [hm.inv.grounds.lone d d' _ hlive hfits.live hrepo hfits.repo]
    exact Holding.owner hfits
  · intro d row sha hrow hs hsha
    exact hm.inv.grounds.done d row.app sha (Store.course_eq_some.mpr ⟨row,hrow,rfl,hs⟩) hsha

section Sample

/-- Git succeeds, and there is a spec in the checkout. -/
def workingHost : Host
  | .timed _ => .finished (.ok ⟨0,"main",[]⟩) 0
  | .readToString _ => .ok (serde.toText { name := "web", image := [] })
  | e => silentHost e

/-- The reset that a thread is about to run. -/
def resetOf : Prog Eff Eff.Resp Unit → Option (Text × Text)
  | .op (.timed (.gitReset repo sha)) _ => some (repo,sha)
  | _ => none

theorem resetOf_eq_some {p : Prog Eff Eff.Resp Unit} {repo sha : Text}
    (h : resetOf p = some (repo,sha)) : ∃ k, p = .op (.timed (.gitReset repo sha)) k := by
  unfold resetOf at h
  split at h
  · cases h
    exact ⟨_,rfl⟩
  · cases h

theorem separate_registeredStore : registeredStore.Separate (id : Path → Path) := by
  have hweb : ∀ name path, registeredStore.checkout name = some path → name = "web".toList := by
    intro name path h
    by_contra hne
    have hnone : registeredStore.configs.lookup name = none :=
      (AList.lookup_insert_ne hne).trans (AList.lookup_empty name)
    rw [Store.checkout,hnone] at h
    cases h
  intro name name' path path' h h' _
  rw [hweb name path h,hweb name' path' h']

/-- A delivery is about to reset the checkout that it has reserved. -/
theorem delivery_resets_own : ∃ s, (checkouts id sampleContext).Run (KeepsApart id sampleContext)
    (Pool.idle (.initial registeredStore,Notes.blank (K := Path))) s ∧
      s.shared.1.store.InProgress 1 ∧ resetOf (s.threads 0) = some ("/srv/web".toList,"c0ffee".toList) ∧
      ResetsOwn id s ∧ BuiltAsPushed s := by
  have hrun : ∃ s, (checkouts id sampleContext).Run (KeepsApart id sampleContext)
      (Pool.idle (.initial registeredStore,Notes.blank (K := Path))) s ∧
      s.shared.1.store.InProgress 1 ∧
      resetOf (s.threads 0) = some ("/srv/web".toList,"c0ffee".toList) := by
    refine ⟨_,.tail (.tail (.tail (.tail (.tail (.tail (.tail (.tail .refl
      ⟨.enter 0 sampleDelivery,⟨.inr (.inl ⟨"web",_,rfl⟩),nofun⟩,rfl⟩)
      ⟨.run 0 workingHost,⟨trivial,?_⟩,rfl⟩) ⟨.run 0 workingHost,⟨trivial,?_⟩,rfl⟩)
      ⟨.run 0 workingHost,⟨trivial,?_⟩,rfl⟩) ⟨.run 0 workingHost,⟨trivial,?_⟩,rfl⟩)
      ⟨.run 0 workingHost,⟨trivial,?_⟩,rfl⟩) ⟨.run 0 workingHost,⟨trivial,?_⟩,rfl⟩)
      ⟨.run 0 workingHost,⟨trivial,?_⟩,rfl⟩,⟨_,rfl,rfl⟩,rfl⟩
    all_goals
      rintro i host config k ⟨⟩
      nofun
  obtain ⟨s,hs,hrow,hreset⟩ := hrun
  exact ⟨s,hs,hrow,hreset,checkouts_kept_apart id sampleContext separate_registeredStore hs⟩

/-- A push to `web` has been handed over to a task, which waits for the slot. Then there comes a
push to `api`. -/
def pushBoth : List SystemMove :=
  .enter 0 sampleDelivery::steps 0 9 workingHost ++ .fork 0 1 workingHost::steps 0 1 workingHost ++
    .enter 2 (forget (dispatchPush sampleContext.codec "api" (some ⟨"main","beef"⟩)))::
    steps 2 7 workingHost

theorem visits_pushBoth (s : SystemState) : ∀ mv ∈ pushBoth, Visits sampleContext s mv := by
  intro mv hmv
  cases mv with
  | enter i p =>
    simp only [pushBoth,steps,List.mem_append,List.mem_cons,List.mem_replicate,
      Pool.Move.enter.injEq,reduceCtorEq,and_false,or_false] at hmv
    rcases hmv with ⟨-,rfl⟩ | ⟨-,rfl⟩
    · exact .inr (.inl ⟨"web",_,rfl⟩)
    · exact .inr (.inl ⟨"api",_,rfl⟩)
  | run | fork => trivial
  | drop i => simp [pushBoth,steps] at hmv

/-- Two apps can be registered with one checkout, and a push to the second resets it while the
deploy of the first is waiting to be built from it. -/
theorem shared_checkout_reset : ∃ store, registeredStore.registerApp ⟨"api","/srv/web",none⟩ = .ok store ∧
    ∃ s, (checkouts id sampleContext).Run (fun s mv => Visits sampleContext s.bare mv)
      (Pool.idle (.initial store,Notes.blank (K := Path))) s ∧ ¬ResetsOwn id s := by
  have hrun : ((registeredStore.registerApp ⟨"api","/srv/web",none⟩).toOption.bind fun store =>
      ((checkouts id sampleContext).advance pushBoth
        (Pool.idle (.initial store,Notes.blank (K := Path)))).map fun s =>
          (decide ((s.shared.1.store.row 1).map DeployRow.status = some .inProgress ∧
            s.shared.2.repo 1 = some (Path.ofText "/srv/web") ∧ s.shared.1.owner 2 = some 2),
            resetOf (s.threads 2))) = some (true,some ("/srv/web".toList,"beef".toList)) := by
    decide +kernel
  obtain ⟨store,hstore,h⟩ := Option.bind_eq_some_iff.mp hrun
  obtain ⟨s,hs,h⟩ := Option.map_eq_some_iff.mp h
  simp only [Prod.mk.injEq,decide_eq_true_eq] at h
  obtain ⟨⟨hstatus,hrepo,howner⟩,hreset⟩ := h
  obtain ⟨row,hrow,hopen⟩ := Option.map_eq_some_iff.mp hstatus
  obtain ⟨k,hk⟩ := resetOf_eq_some hreset
  refine ⟨store,?_,s,Pool.run_of_advance _ (fun s => visits_pushBoth s.bare) hs,fun hown => ?_⟩
  · cases hreg : registeredStore.registerApp ⟨"api","/srv/web",none⟩ with
    | error e =>
      rw [hreg] at hstore
      cases hstore
    | ok store' =>
      rw [hreg] at hstore
      cases hstore
      rfl
  · have hfirst := hown 2 _ _ k hk 1 ⟨row,hrow,hopen⟩ hrepo
    rw [howner] at hfirst
    cases hfirst

end Sample
end Kuadrat
