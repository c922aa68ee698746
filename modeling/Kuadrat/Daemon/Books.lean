import Kuadrat.Daemon.System
import Kuadrat.Daemon.Protocol

/-!
# The database as a ledger

The rows and the locks of the store, with what each thread knows of its deploy, are a
ledger. A step of a thread that keeps to the protocol is a step of the ledger, or leaves it
as it is.
-/
namespace Kuadrat

open Effect

namespace Store

/-- The app of each deploy, and whether it is in progress. -/
def tickets (s : Store) (d : ℕ) : Option (Text × Bool) :=
  (s.row d).map fun r => (r.app,decide (r.status = .inProgress))

variable {s s' : Store} {d : ℕ}

theorem tickets_eq_some {app : Text} {b : Bool} : s.tickets d = some (app,b) ↔
    ∃ r, s.row d = some r ∧ r.app = app ∧ decide (r.status = .inProgress) = b := by
  simp [tickets]

theorem inProgress_iff_tickets : s.InProgress d ↔ ∃ app, s.tickets d = some (app,true) := by
  constructor
  · rintro ⟨r,hr,hs⟩
    exact ⟨r.app,tickets_eq_some.mpr ⟨r,hr,rfl,by simp [hs]⟩⟩
  · rintro ⟨app,h⟩
    obtain ⟨r,hr,-,hs⟩ := tickets_eq_some.mp h
    exact ⟨r,hr,by simpa using hs⟩

theorem tickets_new : s.tickets (s.lastDeploy+1) = none := by
  rw [tickets,row_eq_none_of_lt (Nat.lt_succ_self _)]
  rfl

theorem tickets_createDeploy (app : Text) : (s.createDeploy app).2.tickets =
    Function.update s.tickets (s.lastDeploy+1) (some (app,true)) := by
  funext d
  rw [tickets,row_createDeploy,Function.update_apply]
  split <;> rfl

/-- A change of one row that keeps its app. -/
theorem tickets_setRow {f : DeployRow → DeployRow} {app : Text} {b : Bool} (b' : Bool)
    (h : s.tickets d = some (app,b)) (happ : ∀ r, (f r).app = r.app)
    (hf : ∀ r, s.row d = some r → decide ((f r).status = .inProgress) = b') :
    (s.setRow d f).tickets = Function.update s.tickets d (some (app,b')) := by
  obtain ⟨r,hr,hrapp,-⟩ := tickets_eq_some.mp h
  funext d'
  rw [tickets,row_setRow,Function.update_apply]
  split
  · rw [hr]
    simp only [Option.map_some,Option.some.injEq,Prod.mk.injEq]
    exact ⟨(happ r).trans hrapp,hf r hr⟩
  · rfl

/-- The calls that concern neither a row nor a lock. -/
def Neutral : StoreOp → Prop
  | .putSpec .. | .currentSpec _ | .deploy _ | .inProgressDeploys | .appendEvent _ | .eventsFor _
  | .registerApp _ | .appConfig _ => True
  | _ => False

theorem books_neutral {o : StoreOp} (ho : Neutral o) :
    (s.call o).2.tickets = s.tickets ∧ (s.call o).2.lock = s.lock := by
  cases o with
  | putSpec name slug json =>
    refine commit_induct (P := fun t => t.tickets = s.tickets ∧ t.lock = s.lock) ⟨rfl,rfl⟩
      fun a t ht => ?_
    have hput := map_pair_eq_ok.mp ht
    unfold putSpec at hput
    split at hput <;> cases hput
    exact ⟨rfl,rfl⟩
  | registerApp config =>
    refine commit_induct (P := fun t => t.tickets = s.tickets ∧ t.lock = s.lock) ⟨rfl,rfl⟩
      fun a t ht => ?_
    rw [registerApp_ok (map_pair_eq_ok.mp ht)]
    exact ⟨rfl,rfl⟩
  | currentSpec | deploy | inProgressDeploys | appendEvent | eventsFor | appConfig =>
    exact ⟨rfl,rfl⟩
  | createDeploy | advanceStage | finishDeploy | finishDeployWithEvent | acquireLock | releaseLock
  | releaseOrphanedLocks => exact ho.elim

theorem call_finishDeploy {status : DeployStatus} {detail : Option Message}
    (h : (s.row d).isSome) : s.call (.finishDeploy d status detail) =
      (.ok (),s.setRow d fun r => { r with status := status, detail := detail }) := by
  change s.commit ((s.finishDeploy d status detail).map fun t => ((),t)) = _
  rw [finishDeploy_eq_ok.mpr ⟨h,rfl⟩]
  rfl

/-- The tables after the terminal write, with its event. -/
def closing (s : Store) (d : ℕ) (status : DeployStatus) (detail : Option Message) :
    StoredEvent × Store :=
  ((s.setRow d fun r => { r with status := status, detail := detail }).dropLocks
    (· == d)).appendEvent (.finished d status detail)

theorem call_closing {status : DeployStatus} {detail : Option Message} (h : (s.row d).isSome) :
    s.call (.finishDeployWithEvent d status detail) =
      (.ok (s.closing d status detail).1,(s.closing d status detail).2) := by
  change s.commit (s.finishDeployWithEvent d status detail) = _
  rw [finishDeployWithEvent_eq_ok.mpr ⟨h,rfl⟩]
  rfl

theorem lock_closing (status : DeployStatus) (detail : Option Message) (app : Text) :
    (s.closing d status detail).2.lock app = (s.lock app).filter (· ≠ d) := by
  refine (lock_dropLocks (s := s.setRow d _) (· == d) app).trans ?_
  change Option.filter _ (s.lock app) = _
  congr 1
  funext d'
  by_cases hd : d' = d <;> simp [hd]

theorem name_of_appConfig {name : Text} {config : AppConfig}
    (h : s.appConfig name = .ok (some config)) : config.name = name := by
  obtain ⟨row,-,hrow⟩ := appConfig_ok h
  exact (buildAppConfig_ok hrow).1

end Store

section Books
variable {good : Option Text → Prop} {calm : Text → Prop} {memo : ℕ → Held} {s t : Shared}
  {i : ℕ} {host : Host}

/-- The ledger that the database keeps. -/
def ledger (memo : ℕ → Held) (s : Shared) : Ledger ℕ Text where
  tickets := s.store.tickets
  lock := s.store.lock
  granted := { d | d ∈ s.granted }
  claim := memo

/-- The books name the deploy of every thread that knows of one. -/
def Owned (memo : ℕ → Held) (s : Shared) : Prop :=
  ∀ i c, memo i = some c → s.owner i = some c.ticket

theorem Owned.same {c : Claim Text} (c' : Claim Text) (h : Owned memo s) (hc : memo i = some c)
    (ht : c'.ticket = c.ticket) (howner : t.owner = s.owner) :
    Owned (Function.update memo i (some c')) t := by
  intro k d hd
  rw [howner]
  rcases Ledger.claim_update (s := ledger memo s) hd with ⟨rfl,rfl⟩ | ⟨-,hold⟩
  · rw [ht]
    exact h k c hc
  · exact h k d hold

/-- What a step of thread `i` amounts to: it keeps what it knows in line with the books. -/
def Follows (calm : Text → Prop) (memo : ℕ → Held) (s : Shared) (i : ℕ) (m : Held) (t : Shared) :
    Prop :=
  Owned (Function.update memo i m) t ∧
    (ledger (Function.update memo i m) t = ledger memo s ∨
      Ledger.Step calm i (ledger memo s) (ledger (Function.update memo i m) t))

/-- Nothing happens that the ledger keeps track of. -/
theorem follows_same (h : Owned memo s) (htickets : t.store.tickets = s.store.tickets)
    (hlock : t.store.lock = s.store.lock) (hgranted : t.granted = s.granted)
    (howner : t.owner = s.owner) : Follows calm memo s i (memo i) t := by
  refine ⟨fun k c hc => ?_,.inl ?_⟩
  · rw [Function.update_eq_self] at hc
    rw [howner]
    exact h k c hc
  · rw [Function.update_eq_self]
    simp only [ledger,htickets,hlock,hgranted]

theorem follows_createDeploy (h : Owned memo s) {app : Text} {r : Except Message ℕ}
    (hpre : memo i = none)
    (hanswer : s.answer i (.store (.createDeploy app)) host = some (r,t)) :
    ∃ m, (memo i).post good (.store (.createDeploy app)) r m ∧ Follows calm memo s i m t := by
  cases hanswer
  refine ⟨some ⟨.issued,app,s.store.lastDeploy+1⟩,⟨_,rfl,rfl⟩,fun k c hc => ?_,.inr ?_⟩
  · change Function.update s.owner i _ k = _
    rcases Ledger.claim_update (s := ledger memo s) hc with ⟨rfl,rfl⟩ | ⟨hk,hold⟩
    · exact Function.update_self ..
    · rw [Function.update_of_ne hk]
      exact h k c hold
  · exact (Ledger.Step.issue app hpre Store.tickets_new).of_eq
      (Store.tickets_createDeploy app) rfl rfl rfl

theorem follows_acquireLock (h : Owned memo s) {app : Text} {d : ℕ} {r : Except Message Bool}
    (hpre : memo i = some ⟨.issued,app,d⟩) (hcalm : calm app)
    (hanswer : s.answer i (.store (.acquireLock app d)) host = some (r,t)) :
    ∃ m, (memo i).post good (.store (.acquireLock app d)) r m ∧ Follows calm memo s i m t := by
  cases hlock : s.store.lock app with
  | some d' =>
    have hsame : s.answer i (.store (.acquireLock app d)) host = some (.ok false,s) := by
      simp [Shared.answer,Shared.record,Store.call,Store.acquireLock,hlock]
    rw [hsame] at hanswer
    cases hanswer
    exact ⟨some ⟨.refused,app,d⟩,.inr ⟨rfl,rfl⟩,h.same _ hpre rfl rfl,
      .inr ((Ledger.Step.refuse hpre).of_eq rfl rfl rfl rfl)⟩
  | none =>
    have htaken : s.answer i (.store (.acquireLock app d)) host = some (.ok true,{ s with
        store := { s.store with locks := s.store.locks.insert app d }
        granted := d::s.granted }) := by
      simp [Shared.answer,Shared.record,Store.call,Store.acquireLock,hlock]
    rw [htaken] at hanswer
    cases hanswer
    refine ⟨some ⟨.granted,app,d⟩,.inl ⟨rfl,rfl⟩,h.same _ hpre rfl rfl,
      .inr ((Ledger.Step.grant hpre hlock hcalm).of_eq rfl ?_ ?_ rfl)⟩
    · funext app'
      change AList.lookup app' (AList.insert app d s.store.locks) =
        Function.update s.store.lock app (some d) app'
      rw [Function.update_apply]
      split
      · rename_i happ
        rw [happ,AList.lookup_insert]
      · rename_i happ
        exact AList.lookup_insert_ne happ
    · ext d'
      simp [ledger]

/-- A row that some thread knows of is there. -/
theorem row_of_held (h : (ledger memo s).Coherent) {c : Claim Text} (hc : memo i = some c) :
    ∃ r, s.store.row c.ticket = some r ∧ r.app = c.key ∧
      decide (r.status = .inProgress) = c.point.isOpen :=
  Store.tickets_eq_some.mp (h.ticket i c hc)

theorem follows_advanceStage (hcoherent : (ledger memo s).Coherent) (h : Owned memo s) {d : ℕ}
    {stage : Stage} {r : Except Message Unit} {app : Text} (hpre : memo i = some ⟨.granted,app,d⟩)
    (hanswer : s.answer i (.store (.advanceStage d stage)) host = some (r,t)) :
    ∃ m, (memo i).post good (.store (.advanceStage d stage)) r m ∧
      Follows calm memo s i m t := by
  have hopen := hcoherent.ticket i _ hpre
  have hin : s.store.InProgress d := Store.inProgress_iff_tickets.mpr ⟨app,hopen⟩
  have hok := Store.advanceStage_eq_ok.mpr ⟨hin,show
    s.store.setRow d (fun r => { r with stage := stage }) = _ from rfl⟩
  have hcall : s.store.call (.advanceStage d stage) =
      (.ok (),s.store.setRow d fun r => { r with stage := stage }) := by
    change s.store.commit ((s.store.advanceStage d stage).map fun t => ((),t)) = _
    rw [hok]
    rfl
  simp only [Shared.answer,hcall,Option.some.injEq,Prod.mk.injEq] at hanswer
  obtain ⟨rfl,rfl⟩ := hanswer
  refine ⟨memo i,⟨rfl,rfl⟩,follows_same h ?_ rfl rfl rfl⟩
  refine (Store.tickets_setRow (f := fun r => { r with stage := stage }) true hopen (fun _ => rfl)
    fun r hr => ?_).trans (Function.update_eq_self_iff.mpr hopen.symm)
  obtain ⟨r',hr',hs⟩ := hin
  rw [hr] at hr'
  cases hr'
  simp [hs]

theorem follows_finishDeploy (hcoherent : (ledger memo s).Coherent) (h : Owned memo s) {d : ℕ}
    {status : DeployStatus} {detail : Option Message} {r : Except Message Unit} {app : Text}
    (hstatus : status ≠ .inProgress) (hpre : memo i = some ⟨.refused,app,d⟩)
    (hanswer : s.answer i (.store (.finishDeploy d status detail)) host = some (r,t)) :
    ∃ m, (memo i).post good (.store (.finishDeploy d status detail)) r m ∧
      Follows calm memo s i m t := by
  have hrow := hcoherent.ticket i _ hpre
  obtain ⟨row,hr,-⟩ := Store.tickets_eq_some.mp hrow
  simp only [Shared.answer,Store.call_finishDeploy (Option.isSome_of_eq_some hr),
    Option.some.injEq,Prod.mk.injEq] at hanswer
  obtain ⟨rfl,rfl⟩ := hanswer
  refine ⟨some ⟨.closed,app,d⟩,⟨rfl,?_⟩,h.same _ hpre rfl rfl,
    .inr ((Ledger.Step.reject hpre).of_eq ?_ rfl rfl rfl)⟩
  · rw [hpre]
    rfl
  · exact Store.tickets_setRow (f := fun r => { r with status := status, detail := detail }) false
      hrow (fun _ => rfl) fun _ _ => by simp [hstatus]

theorem follows_finishDeployWithEvent (hcoherent : (ledger memo s).Coherent) (h : Owned memo s)
    {c : Claim Text} {status : DeployStatus} {detail : Option Message}
    {r : Except Message StoredEvent} (hstatus : status ≠ .inProgress) (hpre : memo i = some c)
    (hanswer : s.answer i (.store (.finishDeployWithEvent c.ticket status detail)) host =
      some (r,t)) :
    ∃ m, (memo i).post good (.store (.finishDeployWithEvent c.ticket status detail)) r m ∧
      Follows calm memo s i m t := by
  have hrow := hcoherent.ticket i c hpre
  obtain ⟨row,hr,-⟩ := Store.tickets_eq_some.mp hrow
  simp only [Shared.answer,Store.call_closing (Option.isSome_of_eq_some hr),
    Option.some.injEq,Prod.mk.injEq] at hanswer
  obtain ⟨rfl,rfl⟩ := hanswer
  refine ⟨some { c with point := c.point.close },⟨⟨_,rfl⟩,?_⟩,h.same _ hpre rfl rfl,
    .inr ((Ledger.Step.close hpre).of_eq ?_ ?_ rfl rfl)⟩
  · rw [hpre]
    rfl
  · exact Store.tickets_setRow (f := fun r => { r with status := status, detail := detail }) false
      hrow (fun _ => rfl) fun _ _ => by simp [hstatus]
  · exact funext fun app => Store.lock_closing status detail app

theorem follows_releaseLock (h : Owned memo s) {app : Text} {d : ℕ} {r : Except Message Unit}
    (hpre : memo i = some ⟨.expired,app,d⟩)
    (hanswer : s.answer i (.store (.releaseLock app)) host = some (r,t)) :
    ∃ m, (memo i).post good (.store (.releaseLock app)) r m ∧ Follows calm memo s i m t := by
  cases hanswer
  refine ⟨some ⟨.closed,app,d⟩,⟨rfl,?_⟩,h.same _ hpre rfl rfl,
    .inr ((Ledger.Step.free hpre).of_eq rfl ?_ rfl rfl)⟩
  · rw [hpre]
    rfl
  · funext app'
    exact Store.lock_releaseLock app app' |>.trans (Function.update_apply ..).symm

theorem follows_neutral (h : Owned memo s) {o : StoreOp} (ho : Store.Neutral o)
    {r : Except Message o.Reply} (hanswer : s.answer i (.store o) host = some (r,t)) :
    r = (s.store.call o).1 ∧ Follows calm memo s i (memo i) t := by
  obtain ⟨htickets,hlock⟩ := Store.books_neutral (s := s.store) ho
  have hrecord : s.record i o (s.store.call o).1 = s := by
    cases o <;> first | rfl | exact ho.elim
  simp only [Shared.answer,hrecord,Option.some.injEq,Prod.mk.injEq] at hanswer
  obtain ⟨rfl,rfl⟩ := hanswer
  exact ⟨rfl,follows_same h htickets hlock rfl rfl⟩

/-- Guards, the host and the event sink are outside the books. -/
def Eff.Unrecorded : Eff → Prop
  | .store _ | .spawn .. => False
  | _ => True

theorem follows_unrecorded (h : Owned memo s) {e : Eff} (he : e.Unrecorded) {r : e.Resp}
    (hanswer : s.answer i e host = some (r,t)) : Follows calm memo s i (memo i) t := by
  cases e with
  | acquire g =>
    obtain ⟨-,ht⟩ := Option.ite_none_right_eq_some.mp hanswer
    cases ht
    exact follows_same h rfl rfl rfl rfl
  | release g =>
    simp only [Shared.answer,Option.some.injEq,Prod.mk.injEq,true_and] at hanswer
    rw [← hanswer]
    split <;> exact follows_same h rfl rfl rfl rfl
  | present | readToString | write | createDirAll | removeFile | readDir | run | timed | emit =>
    cases hanswer
    exact follows_same h rfl rfl rfl rfl
  | store | spawn => exact he.elim

/-- The calls of the store that the protocol cannot promise a reply for by itself. -/
structure Store.Sound (good : Option Text → Prop) (s : Store) (e : Eff) : Prop where
  put : ∀ name slug json, e = .store (.putSpec name slug json) →
    ∃ s', s.putSpec name slug json = .ok s'
  read : ∀ name, e = .store (.currentSpec name) → good (s.spec name)

theorem follows_store (hcoherent : (ledger memo s).Coherent) (h : Owned memo s) {o : StoreOp}
    {r : Except Message o.Reply} (hpre : (memo i).pre (.store o))
    (hsound : s.store.Sound good (.store o)) (hcalm : ∀ app d, o = .acquireLock app d → calm app)
    (hanswer : s.answer i (.store o) host = some (r,t)) :
    ∃ m, (memo i).post good (.store o) r m ∧ Follows calm memo s i m t := by
  cases o with
  | createDeploy app => exact follows_createDeploy h hpre hanswer
  | acquireLock app d => exact follows_acquireLock h hpre (hcalm app d rfl) hanswer
  | advanceStage d stage =>
    obtain ⟨app,hpre⟩ := hpre
    exact follows_advanceStage hcoherent h hpre hanswer
  | finishDeploy d status detail =>
    obtain ⟨hstatus,app,hpre⟩ := hpre
    exact follows_finishDeploy hcoherent h hstatus hpre hanswer
  | finishDeployWithEvent d status detail =>
    obtain ⟨hstatus,c,hpre,rfl⟩ := hpre
    exact follows_finishDeployWithEvent hcoherent h hstatus hpre hanswer
  | releaseLock app =>
    obtain ⟨d,hpre⟩ := hpre
    exact follows_releaseLock h hpre hanswer
  | putSpec name slug json =>
    obtain ⟨hr,hf⟩ := follows_neutral h (by trivial) hanswer
    obtain ⟨s',hs'⟩ := hsound.put name slug json rfl
    refine ⟨memo i,⟨?_,rfl⟩,hf⟩
    rw [hr]
    change (s.store.commit ((s.store.putSpec name slug json).map fun t => ((),t))).1 = _
    rw [hs']
    rfl
  | currentSpec name =>
    obtain ⟨hr,hf⟩ := follows_neutral h (by trivial) hanswer
    exact ⟨memo i,⟨⟨_,hr,hsound.read name rfl⟩,rfl⟩,hf⟩
  | appendEvent event =>
    obtain ⟨hr,hf⟩ := follows_neutral h (by trivial) hanswer
    exact ⟨memo i,⟨⟨_,hr⟩,rfl⟩,hf⟩
  | appConfig name =>
    obtain ⟨hr,hf⟩ := follows_neutral h (by trivial) hanswer
    exact ⟨memo i,⟨fun config hc => Store.name_of_appConfig (hr.symm.trans hc),rfl⟩,hf⟩
  | deploy | inProgressDeploys | eventsFor =>
    exact ⟨memo i,rfl,(follows_neutral h (by trivial) hanswer).2⟩
  | registerApp | releaseOrphanedLocks => exact hpre.elim

/-- A step of a thread that keeps to the protocol. -/
theorem follows_answer (calm : Text → Prop) (hcoherent : (ledger memo s).Coherent) (h : Owned memo s) {e : Eff}
    {r : e.Resp} (hpre : (memo i).pre e) (hspawn : ∀ spec repo d, e ≠ .spawn spec repo d)
    (hsound : s.store.Sound good e) (hcalm : ∀ app d, e = .store (.acquireLock app d) → calm app)
    (hanswer : s.answer i e host = some (r,t)) :
    ∃ m, (memo i).post good e r m ∧ Follows calm memo s i m t := by
  cases e with
  | store o =>
    exact follows_store hcoherent h hpre hsound (fun app d ho => hcalm app d (ho ▸ rfl)) hanswer
  | spawn spec repo d => exact absurd rfl (hspawn spec repo d)
  | present | readToString | write | createDirAll | removeFile | readDir | run | timed | emit
  | acquire | release => exact ⟨memo i,rfl,follows_unrecorded h (by trivial) hanswer⟩

/-- The trigger hands its deploy over to the task it spawns. -/
theorem owned_handOver (spec : WorkloadSpec) (repo : Path) (h : Owned memo s) {j d : ℕ}
    {app : Text} (hpre : memo i = some ⟨.granted,app,d⟩) (hij : j ≠ i) :
    Owned (Function.update (Function.update memo j (some ⟨.granted,app,d⟩)) i none)
      (s.handOver i j (.spawn spec repo d)) := by
  intro k c hc
  change Function.update (Function.update s.owner j (some d)) i none k = _
  by_cases hki : k = i
  · subst hki
    simp at hc
  · rw [Function.update_of_ne hki] at hc ⊢
    by_cases hkj : k = j
    · subst hkj
      simp only [Function.update_self,Option.some.injEq] at hc ⊢
      rw [← hc]
    · rw [Function.update_of_ne hkj] at hc ⊢
      exact h k c hc

theorem ledger_handOver (spec : WorkloadSpec) (repo : Path) {j d : ℕ} {c : Claim Text}
    (hpre : memo i = some c) : ledger (Function.update (Function.update memo j (some c)) i none)
      (s.handOver i j (.spawn spec repo d)) = (ledger memo s).hand i j := by
  rw [← hpre]
  rfl

/-- A step that starts a thread is the trigger's hand-over. -/
theorem fork_cases {ctx : Ctx} {e : Eff} {p : Prog Eff Eff.Resp Unit} {r : e.Resp}
    (hchild : (system ctx).child e = some p) (hpre : (memo i).pre e)
    (hanswer : s.answer i e host = some (r,t)) : ∃ spec repo d, e = .spawn spec repo d ∧
      p = spawnedDeploy ctx spec repo d ∧ t = s ∧ spec.validate = .ok () ∧
      memo i = some ⟨.granted,spec.name,d⟩ := by
  cases e with
  | spawn spec repo d =>
    cases hchild
    cases hanswer
    exact ⟨spec,repo,d,rfl,rfl,rfl,hpre.1,hpre.2⟩
  | present | readToString | write | createDirAll | removeFile | readDir | run | timed | store
  | emit | acquire | release => cases hchild

theorem owned_leave (h : Owned memo s) : Owned (Function.update memo i none) (s.leave i) := by
  intro k c hc
  change Function.update s.owner i none k = _
  by_cases hki : k = i
  · subst hki
    simp at hc
  · rw [Function.update_of_ne hki] at hc ⊢
    exact h k c hc

/-- Nobody has done anything yet. -/
theorem owned_initial (store : Store) : Owned (fun _ => none) (Shared.initial store) := nofun

end Books

end Kuadrat
