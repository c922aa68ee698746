import Kuadrat.Codec.Spec
import Kuadrat.Deploy.Reach

/-!
# The exits of a deploy

A deploy holds the lock of its app from its reservation on. The statements on the lock
table succeed here; every other read and write of the store may fail, and so may
everything that the host is asked for.
-/
namespace Kuadrat

open Effect

/-- The statements on the lock table alone. -/
def StoreOp.OnLocks : StoreOp → Prop
  | acquireLock .. | releaseLock _ | releaseOrphanedLocks => True
  | _ => False

/-- A statement on the lock table is carried out. -/
def LocksWork (e : Eff) (x : Answer) : Prop := ∀ o, e = .store o → o.OnLocks → x = .done

/-- The deploy holds the lock of its app, and no other one. -/
structure Reserved (name : Text) (d : ℕ) (s : Store) : Prop where
  lock : s.lock name = some d
  only : ∀ app, s.lock app = some d → app = name

/-- No lock names the deploy, and the next one of the app gets the lock. -/
structure Released (name : Text) (d : ℕ) (s : Store) : Prop where
  gone : ∀ app, s.lock app ≠ some d
  next : ∀ d', (s.call (.acquireLock name d')).1 = .ok true

/-- The spec is valid, and the one stored before it can be read and decoded. -/
structure Readable (ctx : Ctx) (spec : WorkloadSpec) (s : Store) (answers : List Answer) : Prop where
  valid : spec.validate = .ok ()
  read : answers.head? = some .done
  decodes : ∀ json, s.spec spec.name = some json → ∃ prev, ctx.codec.ofText json = .ok prev

section Locks
variable {s : Store} {d : ℕ}

/-- Only `acquire_lock` adds a lock. -/
theorem lock_of_call {o : StoreOp} (ho : ∀ app d, o ≠ .acquireLock app d) {app : Text} {d : ℕ}
    (h : (s.call o).2.lock app = some d) : s.lock app = some d := by
  cases o with
  | acquireLock app' d' => exact absurd rfl (ho app' d')
  | putSpec name slug json =>
    refine Store.commit_induct (P := fun t => t.lock app = some d → s.lock app = some d) id
      (fun a t ht => ?_) h
    have hput := Store.map_pair_eq_ok.mp ht
    unfold Store.putSpec at hput
    split at hput <;> cases hput
    exact id
  | advanceStage d' stage =>
    refine Store.commit_induct (P := fun t => t.lock app = some d → s.lock app = some d) id
      (fun a t ht => ?_) h
    rw [(Store.advanceStage_eq_ok.mp (Store.map_pair_eq_ok.mp ht)).2]
    exact id
  | finishDeploy d' status detail =>
    refine Store.commit_induct (P := fun t => t.lock app = some d → s.lock app = some d) id
      (fun a t ht => ?_) h
    rw [(Store.finishDeploy_eq_ok.mp (Store.map_pair_eq_ok.mp ht)).2]
    exact id
  | finishDeployWithEvent d' status detail =>
    refine Store.commit_induct (P := fun t => t.lock app = some d → s.lock app = some d) id
      (fun a t ht => ?_) h
    have heq := congrArg Prod.snd (Store.finishDeployWithEvent_eq_ok.mp ht).2
    dsimp only at heq
    rw [heq,Store.lock_appendEvent,Store.lock_dropLocks,Store.lock_setRow]
    exact fun hf => (Option.filter_eq_some_iff.mp hf).1
  | registerApp config =>
    refine Store.commit_induct (P := fun t => t.lock app = some d → s.lock app = some d) id
      (fun a t ht => ?_) h
    rw [Store.registerApp_ok (Store.map_pair_eq_ok.mp ht)]
    exact id
  | releaseLock name =>
    have hlock : (if app = name then none else s.lock app) = some d :=
      (Store.lock_releaseLock name app).symm.trans h
    split at hlock
    · cases hlock
    · exact hlock
  | releaseOrphanedLocks =>
    have hlock : (s.lock app).filter _ = some d :=
      (Store.lock_dropLocks s.finished app).symm.trans h
    exact (Option.filter_eq_some_iff.mp hlock).1
  | currentSpec | createDeploy | deploy | inProgressDeploys | appendEvent | eventsFor
  | appConfig => exact h

/-- The lock of an app that has none is free for the next deploy. -/
theorem released_of_free {name : Text} (hnone : s.lock name = none)
    (honly : ∀ app, s.lock app = some d → app = name) : Released name d s where
  gone app h := by
    rw [honly app h,hnone] at h
    exact nomatch h
  next d' := by
    change Except.ok (s.acquireLock name d').1 = _
    rw [Store.acquireLock_fst,hnone]
    rfl

theorem Reserved.not_released {name : Text} (h : Reserved name d s) : ¬Released name d s :=
  fun hr => hr.gone name h.lock

end Locks

section Exit
variable {ctx : Ctx} {spec : WorkloadSpec} {repo : Path} {d : ℕ} {w : World}

/-- What a deploy does between its reservation and its end takes no lock. -/
def Eff.TakesNoLock (e : Eff) : Prop := ∀ app d, e ≠ .store (.acquireLock app d)

theorem only_of_answer {paths : Paths} {w w' : World} {e : Eff} {x : Answer} {r : e.Resp}
    {name : Text} (he : e.TakesNoLock) (ha : w.answer paths e x = some (r,w'))
    (h : ∀ app, w.store.lock app = some d → app = name) :
    ∀ app, w'.store.lock app = some d → app = name := by
  intro app hlock
  rcases store_of_answer ha with hs | ⟨o,rfl,hs⟩
  · exact h app (hs ▸ hlock)
  · rw [hs] at hlock
    exact h app (lock_of_call (fun app d ho => he app d (ho ▸ rfl)) hlock)

/-- Whatever fails in the stages, the backstop frees the app. -/
theorem runLocked_releases {previous : Option WorkloadSpec}
    (honly : ∀ app, w.store.lock app = some d → app = spec.name) :
    wp (hostSpec ctx.paths LocksWork fun _ => True) (runLocked ctx spec repo d previous).run
      (fun _ w' => Released spec.name d w'.store) w := by
  have hall : All Eff.TakesNoLock (runStages ctx spec repo spec.slug d previous).run := by
    refine all_runStages_of_host (fun e he => ?_) (fun e he => ?_) (fun _ _ _ => nofun) spec repo
    · rintro app d rfl
      exact he.elim
    · rintro app d rfl
      exact he.elim
  have hstages := @wp_invariant ctx.paths LocksWork (fun _ => True) _ _ _
    (fun w : World => ∀ app, w.store.lock app = some d → app = spec.name) w hall honly
    (fun _ _ => trivial) fun w e x r w' he _ hI ha app => only_of_answer he ha hI app
  refine wp_run_seq (P := fun r w => (∃ a, r = .ok a) ∧
    ∀ app, w.store.lock app = some d → app = spec.name)
    (wp_result.mpr (wp_mono hstages fun _ _ h => ⟨⟨_,rfl⟩,h⟩)) (fun r w₁ h₁ => ?_)
    fun e w₁ h₁ => by
      obtain ⟨⟨_,h⟩,-⟩ := h₁
      cases h
  refine wp_run_seq (P := fun _ w => Released spec.name d w.store) (wp_store trivial (fun _ => ?_)
    fun why hx => by cases hx _ rfl trivial) (fun _ w₂ h₂ => ?_) fun _ _ h₂ => h₂
  · refine released_of_free ((Store.lock_releaseLock _ _).trans (if_pos rfl)) fun app h => ?_
    exact h₁.2 app (lock_of_call (o := .releaseLock spec.name) nofun h)
  · cases r <;> exact h₂

/-- What follows the read of the stored spec. -/
def afterPrevious {α : Type} (ctx : Ctx) (f : Option WorkloadSpec → Run α) :
    Except Message (Option Text) → Prog Eff Eff.Resp (Except Message α)
  | .ok (some json) => match ctx.codec.ofText json with
    | .ok spec => (f (some spec)).run
    | .error e => .ret (.error (.context ["parsing the previously stored spec"] e))
  | .ok none => (f none).run
  | .error e => .ret (.error e)

theorem run_loadPrevious_bind {α : Type} {name : Text} (f : Option WorkloadSpec → Run α) :
    (loadPrevious ctx name >>= f).run =
      .op (.store (.currentSpec name)) (afterPrevious ctx f) := by
  unfold loadPrevious
  rw [Prog.run_bind,Prog.run_bind]
  change Prog.op _ _ = _
  congr 1
  funext reply
  cases reply with
  | error e => rfl
  | ok o =>
    cases o with
    | none => rfl
    | some json =>
      change (Prog.orElse _ (.ok (some json)) >>= Prog.orElse fun a => (f a).run) = _
      simp only [Prog.orElse_ok,afterPrevious]
      cases ctx.codec.ofText json <;> rfl

theorem runReserved_of_valid (hvalid : spec.validate = .ok ()) :
    (runReserved ctx spec repo d).run = .op (.store (.currentSpec spec.name))
      (afterPrevious ctx fun previous => runLocked ctx spec repo d previous) := by
  unfold runReserved
  rw [hvalid,Run.ofExcept_ok,pure_bind]
  exact run_loadPrevious_bind _

/-- The program goes on with what was stored, or ends if that cannot be parsed. -/
theorem afterPrevious_cases {α : Type} (f : Option WorkloadSpec → Run α) (stored : Option Text) :
    ((∀ json, stored = some json → ∃ prev, ctx.codec.ofText json = .ok prev) ∧
      ∃ previous, afterPrevious ctx f (.ok stored) = (f previous).run) ∨
    (¬(∀ json, stored = some json → ∃ prev, ctx.codec.ofText json = .ok prev) ∧
      ∃ e, afterPrevious ctx f (.ok stored) = .ret (.error e)) := by
  cases stored with
  | none => exact .inl ⟨nofun,none,rfl⟩
  | some json =>
    simp only [afterPrevious]
    cases hdec : ctx.codec.ofText json with
    | ok prev =>
      refine .inl ⟨fun json' h => ?_,some prev,rfl⟩
      cases h
      exact ⟨prev,hdec⟩
    | error e =>
      refine .inr ⟨fun h => ?_,_,rfl⟩
      obtain ⟨prev,hprev⟩ := h json rfl
      cases hdec.symm.trans hprev

/-- A run of a reserved deploy either comes to its stages, or leaves the tables alone. -/
theorem runReserved_cases {answers : List Answer} {r : Except Message DeployOutcome} {w' : World}
    (h : (World.machine ctx.paths).finish answers (runReserved ctx spec repo d).run w =
      some (r,w')) :
    (Readable ctx spec w.store answers ∧ ∃ rest previous, answers = [.done] ++ rest ∧
      (World.machine ctx.paths).advance [.done] (runReserved ctx spec repo d).run w =
        some ((runLocked ctx spec repo d previous).run,
          w.record (.store (.currentSpec spec.name)))) ∨
    (¬Readable ctx spec w.store answers ∧ w'.store = w.store) := by
  rw [Machine.finish_eq_some] at h
  cases hvalid : spec.validate with
  | error e =>
    refine .inr ⟨fun hr => (nomatch hvalid.symm.trans hr.valid),?_⟩
    unfold runReserved at h
    rw [hvalid] at h
    obtain ⟨-,-,rfl⟩ := (Machine.advance_ret _).mp h
    rfl
  | ok u =>
    have hread : (World.machine ctx.paths).advance [.done] (runReserved ctx spec repo d).run w =
        some (afterPrevious ctx (fun previous => runLocked ctx spec repo d previous)
          (.ok (w.store.spec spec.name)),w.record (.store (.currentSpec spec.name))) := by
      rw [runReserved_of_valid hvalid]
      rfl
    rw [runReserved_of_valid hvalid] at h
    cases answers with
    | nil => exact nomatch h
    | cons x rest =>
      obtain ⟨e,k,reply,t,hp,hstep,hrest⟩ := (Machine.advance_cons _).mp h
      cases hp
      cases x with
      | done =>
        cases hstep
        change (World.machine ctx.paths).advance rest (afterPrevious ctx _
          (.ok (w.store.spec spec.name))) (w.record _) = _ at hrest
        rcases @afterPrevious_cases ctx _ (fun previous => runLocked ctx spec repo d previous)
          (w.store.spec spec.name) with ⟨hdec,previous,heq⟩ | ⟨hdec,e,heq⟩
        · rw [heq] at hread
          exact .inl ⟨⟨hvalid,rfl,hdec⟩,rest,previous,rfl,hread⟩
        · rw [heq] at hrest
          obtain ⟨rfl,-,rfl⟩ := (Machine.advance_ret _).mp hrest
          exact .inr ⟨fun hr => hdec hr.decodes,rfl⟩
      | fail why =>
        cases hstep
        obtain ⟨rfl,-,rfl⟩ := (Machine.advance_ret _).mp hrest
        exact .inr ⟨fun hr => (nomatch hr.read),rfl⟩
      | entries | output | took | stalled => exact nomatch hstep

theorem runReserved_released_iff {answers : List Answer} {r : Except Message DeployOutcome}
    {w' : World} (hres : Reserved spec.name d w.store)
    (hlocks : (World.machine ctx.paths).Allowed LocksWork answers
      (runReserved ctx spec repo d).run w)
    (h : (World.machine ctx.paths).finish answers (runReserved ctx spec repo d).run w =
      some (r,w')) : Released spec.name d w'.store ↔ Readable ctx spec w.store answers := by
  rcases runReserved_cases h with ⟨hread,rest,previous,rfl,hstages⟩ | ⟨hno,hsame⟩
  · refine iff_of_true ?_ hread
    have hstart := @runLocked_releases ctx spec repo d
      (w.record (.store (.currentSpec spec.name))) previous hres.only
    have hend := Machine.wp_complete _ hstart (Machine.allowed_split _ hlocks hstages)
      (Machine.advance_split _ hstages ((Machine.finish_eq_some _).mp h))
    exact hend
  · refine iff_of_false (fun hr => ?_) hno
    rw [hsame] at hr
    exact hres.not_released hr

/-- A reservation takes the lock of its app, under an id that no lock has named before. -/
theorem reserve_reserved {name : Text} {answers : List Answer} {w₁ : World}
    (hissued : ∀ app d, w.store.lock app = some d → d ≤ w.store.lastDeploy)
    (h : (World.machine ctx.paths).finish answers (reserve name).run w = some (.ok d,w₁)) :
    Reserved name d w₁.store := by
  have hwp : wp (hostSpec ctx.paths (fun _ _ => True) fun _ => True) (reserve name).run
      (fun r w₁ => ∀ d, r = .ok d → Reserved name d w₁.store) w := by
    unfold reserve
    refine wp_run_seq (P := fun r w₁ => ∀ d, r = .ok d → ∀ app, w₁.store.lock app ≠ some d) ?_
      (fun d w₁ h₁ => ?_) fun _ _ _ _ h => nomatch h
    · rw [Proc.run_mapError,wp_bind]
      refine wp_store trivial (fun _ => ?_) fun why _ _ h => nomatch h
      rintro d ⟨⟩ app hlock
      exact absurd (hissued app _ hlock) (Nat.not_succ_le_self _)
    refine wp_run_seq (P := fun r w₂ => r = .ok true → Reserved name d w₂.store) ?_
      (fun acquired w₂ h₂ => ?_) fun _ _ _ _ h => nomatch h
    · rw [Proc.run_mapError,wp_bind]
      refine wp_store trivial (fun _ h => ?_) fun why _ h => nomatch h
      have htaken : (w₁.store.acquireLock name d).1 = true := Except.ok.inj h
      constructor
      · exact (Store.lock_acquireLock name name d).trans (if_pos ⟨rfl,htaken⟩)
      · intro app hlock
        have hlock' := (Store.lock_acquireLock name app d).symm.trans hlock
        split at hlock'
        · rename_i happ
          exact happ.1
        · exact absurd hlock' (h₁ d rfl app)
    · cases acquired with
      | true =>
        rintro d' ⟨⟩
        exact h₂ rfl
      | false =>
        refine wp_run_seq (P := fun _ _ => True) ?_ (fun _ _ _ _ h => nomatch h) fun _ _ _ _ h => nomatch h
        rw [Proc.run_mapError,wp_bind]
        exact wp_store trivial (fun _ => trivial) fun _ _ => trivial
  exact Machine.wp_complete _ hwp (Machine.allowed_of_forall _ (fun _ _ _ => trivial) _ _)
    ((Machine.finish_eq_some _).mp h) d rfl

end Exit

/-- A deploy that was reserved frees its app when `run_reserved` or `run` returns, however they
return, exactly when its spec is valid and the stored one could be read and decoded. -/
theorem released_iff_readable (ctx : Ctx) (spec : WorkloadSpec) (repo : Path) (d : ℕ) (w w' : World)
    (answers : List Answer) (r : Except Message DeployOutcome) :
    (Reserved spec.name d w.store →
      (World.machine ctx.paths).Allowed LocksWork answers (runReserved ctx spec repo d).run w →
      (World.machine ctx.paths).finish answers (runReserved ctx spec repo d).run w = some (r,w') →
      (Released spec.name d w'.store ↔ Readable ctx spec w.store answers)) ∧
    ((∀ app d, w.store.lock app = some d → d ≤ w.store.lastDeploy) →
      (World.machine ctx.paths).Allowed LocksWork answers (run ctx spec repo).run w →
      (World.machine ctx.paths).finish answers (run ctx spec repo).run w = some (r,w') →
      ∀ n w₁, (World.machine ctx.paths).finish (answers.take n) (reserve spec.name).run w =
        some (.ok d,w₁) →
      (Released spec.name d w'.store ↔ Readable ctx spec w₁.store (answers.drop n))) := by
  refine ⟨runReserved_released_iff,fun hissued hlocks h n w₁ hreserve => ?_⟩
  have hres := reserve_reserved hissued hreserve
  rw [Machine.finish_eq_some] at hreserve h
  unfold run at hlocks h
  cases hvalid : spec.validate with
  | error e =>
    rw [hvalid] at h
    obtain ⟨rfl,-,-⟩ := (Machine.advance_ret _).mp h
    rw [List.take_nil] at hreserve
    exact nomatch hreserve
  | ok u =>
    rw [hvalid,Run.ofExcept_ok,pure_bind,Prog.run_bind] at hlocks h
    have hmapped : (World.machine ctx.paths).advance (answers.take n)
        (((reserve spec.name).mapError ReserveError.message).run >>=
          Prog.orElse fun d => (runReserved ctx spec repo d).run) w =
        some ((runReserved ctx spec repo d).run,w₁) := by
      rw [Proc.run_mapError]
      exact Machine.advance_bind _ _ (Machine.advance_bind _ _ hreserve)
    rw [← List.take_append_drop n answers] at hlocks h
    exact runReserved_released_iff hres (Machine.allowed_split _ hlocks hmapped)
      ((Machine.finish_eq_some _).mpr (Machine.advance_split _ hmapped h))

section Sample

/-- A checkout with nothing to build. -/
def emptyCheckout : World := .initial (.single ["","repo"] "README" "")

/-- The same host, with a stored spec that is no JSON object. -/
def corruptWorld : World :=
  { emptyCheckout with store := ((Store.empty.putSpec "web" "web" "\x7b").toOption).getD .empty }

theorem locksWork_done (n : ℕ) : ∀ e, ∀ x ∈ List.replicate n Answer.done, LocksWork e x :=
  fun _ _ hx _ _ _ => (List.mem_replicate.mp hx).2

/-- A deploy that fails at its first stage frees the app, run at once or after a reservation. -/
theorem failed_detect_releases :
    (∃ w r w', (World.machine .default).finish (List.replicate 11 .done)
        (runReserved sampleContext sampleSpec ["","repo"] 1).run w = some (r,w') ∧
      Reserved "web" 1 w.store ∧ Released "web" 1 w'.store) ∧
    ∃ r w', (World.machine .default).finish (List.replicate 13 .done)
        (run sampleContext sampleSpec ["","repo"]).run emptyCheckout = some (r,w') ∧
      Released "web" 1 w'.store := by
  have hissued : ∀ app d, emptyCheckout.store.lock app = some d →
      d ≤ emptyCheckout.store.lastDeploy := nofun
  have hreserve : ∃ w₁, (World.machine .default).finish ((List.replicate 13 .done).take 2)
      (reserve "web").run emptyCheckout = some (.ok 1,w₁) ∧ w₁.store.spec "web" = none ∧
      ∃ r w', (World.machine .default).finish (List.replicate 11 .done)
        (runReserved sampleContext sampleSpec ["","repo"] 1).run w₁ = some (r,w') :=
    ⟨_,rfl,rfl,_,_,rfl⟩
  have hrun : ∃ r w', (World.machine .default).finish (List.replicate 13 .done)
      (run sampleContext sampleSpec ["","repo"]).run emptyCheckout = some (r,w') := ⟨_,_,rfl⟩
  obtain ⟨w₁,hw₁,hspec,r,w',hreserved⟩ := hreserve
  obtain ⟨r',w'',hrun⟩ := hrun
  have hread : ∀ n, Readable sampleContext sampleSpec w₁.store (List.replicate (n+1) .done) :=
    fun n => ⟨by decide +kernel,rfl,fun json h => (nomatch hspec.symm.trans h)⟩
  have hres : Reserved "web" 1 w₁.store := @reserve_reserved sampleContext _ _ _ _ _ hissued hw₁
  constructor
  · refine ⟨w₁,r,w',hreserved,hres,?_⟩
    exact ((released_iff_readable sampleContext sampleSpec ["","repo"] 1 w₁ w' _ r).1 hres
      (Machine.allowed_of_forall _ (locksWork_done 11) _ _) hreserved).mpr (hread 10)
  · refine ⟨r',w'',hrun,?_⟩
    exact ((released_iff_readable sampleContext sampleSpec ["","repo"] 1 emptyCheckout w'' _ r').2
      hissued (Machine.allowed_of_forall _ (locksWork_done 13) _ _) hrun 2 w₁ hw₁).mpr (hread 10)

/-- A stored spec that does not decode keeps the lock of the deploy that fails on it, and the
app cannot be reserved again. -/
theorem corrupt_spec_keeps_lock : ∃ why w',
    (World.machine .default).finish (List.replicate 3 .done)
      (run sampleContext sampleSpec ["","repo"]).run corruptWorld = some (.error why,w') ∧
    w'.store.lock "web" = some 1 ∧ (w'.store.call (.acquireLock "web" 2)).1 = .ok false ∧
    ¬Released "web" 1 w'.store := by
  have hrun : ∃ why w', (World.machine .default).finish (List.replicate 3 .done)
      (run sampleContext sampleSpec ["","repo"]).run corruptWorld = some (.error why,w') ∧
      w'.store.lock "web" = some 1 ∧ (w'.store.call (.acquireLock "web" 2)).1 = .ok false :=
    ⟨_,_,rfl,rfl,rfl⟩
  obtain ⟨why,w',hrun,hlock,hbusy⟩ := hrun
  exact ⟨why,w',hrun,hlock,hbusy,fun h => h.gone "web" hlock⟩

end Sample
end Kuadrat
