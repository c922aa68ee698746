import Kuadrat.Daemon.Recovery

/-!
# Rows that have ended

The driver, a hook and a reconciliation may each decide to end a row, and the terminal write
does not ask whether it has ended already. In which orders of steps does it end only once?
-/
namespace Kuadrat

open Effect

/-- A row that has ended in `s` has the same status and stage in `t`. -/
def Store.EndedStay (s t : Store) : Prop :=
  ∀ d r, s.row d = some r → r.status ≠ .inProgress →
    ∃ r', t.row d = some r' ∧ r'.status = r.status ∧ r'.stage = r.stage

/-- When a reconciliation reads the rows in progress, those of a live thread belong to spawned
tasks; the slot is taken, so that these still wait for it. -/
def FindsOnlyWaiting (ctx : Ctx) (s : SystemState) (mv : SystemMove) : Prop :=
  Daemon ctx s mv ∧ ∀ i host, mv = .run i host → s.Reads i →
    ∀ d j, s.shared.store.InProgress d → s.shared.owner j = some d → s.shared.spawned j = true

section Proof
variable {ctx : Ctx}

theorem Store.EndedStay.refl (s : Store) : s.EndedStay s := fun _ r hr _ => ⟨r,hr,rfl,rfl⟩

theorem Store.EndedStay.trans {s t u : Store} (h : s.EndedStay t) (h' : t.EndedStay u) :
    s.EndedStay u := by
  intro d r hr hs
  obtain ⟨r',hr',hs',hstage'⟩ := h d r hr hs
  obtain ⟨r'',hr'',hs'',hstage''⟩ := h' d r' hr' (by rwa [hs'])
  exact ⟨r'',hr'',hs''.trans hs',hstage''.trans hstage'⟩

/-- The terminal write again, with the status that the row has already. -/
theorem Store.row_call_again {s : Store} {d : ℕ} {r : DeployRow} {detail : Option Message}
    (hr : s.row d = some r) : ∃ r',
      (s.call (.finishDeployWithEvent d r.status detail)).2.row d = some r' ∧
        r'.status = r.status ∧ r'.stage = r.stage := by
  refine ⟨{ r with detail := detail },?_,rfl,rfl⟩
  rw [Store.call_closing (Option.isSome_of_eq_some hr)]
  refine (Store.row_closing ..).trans ?_
  rw [if_pos rfl,hr]
  rfl

/-- A thread that keeps to the protocol does not move a row that has ended. -/
theorem Roster.ended_stay {waits : Prop} {memo : ℕ → Duty} {s : Shared}
    (h : Roster waits memo s) {i : ℕ} {o : StoreOp} (hpre : (memo i).pre (.store o)) :
    s.store.EndedStay (s.store.call o).2 := by
  intro d r hr hs
  have hended : ¬s.store.InProgress d := by
    rintro ⟨r',hr',hs'⟩
    rw [hr] at hr'
    cases hr'
    exact hs hs'
  by_cases hm : o.Moves d
  · cases o with
    | advanceStage d' stage =>
      obtain rfl : d' = d := hm
      rw [(Store.call_advanceStage_ended stage hended).2]
      exact ⟨r,hr,rfl,rfl⟩
    | finishDeploy d' status detail =>
      obtain rfl : d' = d := hm
      exact absurd (h.row i _ _ hpre.2).2 hended
    | finishDeployWithEvent d' status detail =>
      obtain rfl : d' = d := hm
      rcases hpre with ⟨phase,hi,hcloses⟩ | ⟨-,l,hi,hd⟩
      · have hp := (h.row i phase d' hi).2
        cases phase with
        | created | holds | live => exact absurd hp hended
        | spent =>
          obtain ⟨r',hr',hfailed⟩ := hp.1
          rw [hr] at hr'
          cases hr'
          obtain rfl : status = r.status := Eq.trans hcloses hfailed.symm
          exact Store.row_call_again hr
        | refused | queued | dead | done | left => exact hcloses.elim
      · exact absurd ((h.listed i l hi).2 d' hd).1 hended
    | putSpec | currentSpec | createDeploy | deploy | inProgressDeploys | acquireLock
    | releaseLock | releaseOrphanedLocks | appendEvent | eventsFor | registerApp | appConfig =>
      exact hm.elim
  · rw [Store.row_call s.store hm (Option.isSome_of_eq_some hr)]
    exact ⟨r,hr,rfl,rfl⟩

theorem upholds_waiting : (system ctx).Upholds dutyProtocol .free (fun _ => True) (Roster True)
    (FindsOnlyWaiting ctx) :=
  upholds_roster (fun _ _ hallow => hallow.1) fun _ i host hallow hreads d j hd hj =>
    ⟨trivial,hallow.2 i host rfl hreads d j hd hj⟩

/-- No step of the system moves a row that has ended. -/
theorem ended_stay_step {memo : ℕ → Duty} {s t : SystemState}
    (hm : Pool.Meets dutyProtocol .free (fun _ => True) (Roster True) memo s) {mv : SystemMove}
    (hs : (system ctx).step s mv = some t) : s.shared.store.EndedStay t.shared.store := by
  cases mv with
  | enter i p =>
    obtain ⟨-,rfl⟩ := Pool.step_enter hs
    rw [store_put]
    exact .refl _
  | run i host =>
    obtain ⟨e,k,r,u,hi,-,hanswer,rfl⟩ := Pool.step_run hs
    rw [store_put]
    have hfollow := hm.follows i
    rw [hi] at hfollow
    rcases store_answer hanswer with hsame | ⟨o,rfl,ht⟩
    · rw [hsame]
      exact .refl _
    · rw [ht]
      exact hm.inv.ended_stay hfollow.1
  | fork i j host =>
    obtain ⟨e,k,p,r,u,hi,hchild,-,-,hanswer,rfl⟩ := Pool.step_fork hs
    rw [store_put]
    cases e with
    | spawn spec repo d =>
      cases hanswer
      exact .refl _
    | present | readToString | write | createDirAll | removeFile | readDir | run | timed | store
    | emit | acquire | release => cases hchild
  | drop i =>
    cases hs
    rw [store_put]
    exact .refl _

end Proof

/-- Over a database whose logs are sealed they stay sealed, and what has ended stays as it
ended, as long as reconciliations find no row of a handler that has yet to hand it over. -/
theorem ended_once (ctx : Ctx) {store : Store} (hclosed : store.Sealed) {s t : SystemState}
    (hs : (system ctx).Run (FindsOnlyWaiting ctx) (Pool.idle (.initial store)) s)
    (ht : (system ctx).Run (FindsOnlyWaiting ctx) s t) :
    s.shared.store.EndedStay t.shared.store ∧ t.shared.store.Sealed := by
  have hmeets := upholds_waiting.reachable
    (Pool.meets_idle trivial (roster_initial fun _ => hclosed)) hs
  have hlast : (∃ memo, Pool.Meets dutyProtocol .free (fun _ => True) (Roster True) memo t) ∧
      s.shared.store.EndedStay t.shared.store := by
    refine run_induction (fun u => (∃ memo, Pool.Meets dutyProtocol .free (fun _ => True)
      (Roster True) memo u) ∧ s.shared.store.EndedStay u.shared.store) ⟨hmeets,.refl _⟩
      (fun u v hu hstep => ?_) ht
    obtain ⟨⟨memo,hm⟩,hstay⟩ := hu
    obtain ⟨mv,-,hmv⟩ := id hstep
    exact ⟨upholds_waiting.step hm hstep,hstay.trans (ended_stay_step hm hmv)⟩
  obtain ⟨⟨memo,hm⟩,hstay⟩ := hlast
  exact ⟨hstay,hm.inv.closed trivial⟩

section Sample

theorem sealed_strandedStore : strandedStore.Sealed := by
  intro d l e l' status hlog
  exact absurd (show [] = l ++ e::l' from hlog).symm (by simp)

theorem unowned_step {ctx : Ctx} {s : SystemState} (i : ℕ) (host : Host)
    (hnone : ∀ j, s.shared.owner j = none) : FindsOnlyWaiting ctx s (.run i host) := by
  refine ⟨trivial,fun _ _ _ _ d j _ hj => ?_⟩
  rw [hnone j] at hj
  cases hj

/-- A reconciliation has ended the row of a crash, with one event, and goes on. -/
theorem stranded_row_stays : ∃ s t, (system sampleContext).Run (FindsOnlyWaiting sampleContext)
    (Pool.idle (.initial strandedStore)) s ∧
    (system sampleContext).Run (FindsOnlyWaiting sampleContext) s t ∧
    s.shared.store.finished 1 = true ∧ (t.shared.store.log 1).length = 1 ∧
    s.shared.store.EndedStay t.shared.store ∧ t.shared.store.Sealed := by
  have hrun : ∃ s t, (system sampleContext).Run (FindsOnlyWaiting sampleContext)
      (Pool.idle (.initial strandedStore)) s ∧
      (system sampleContext).Run (FindsOnlyWaiting sampleContext) s t ∧
      s.shared.store.finished 1 = true ∧ (t.shared.store.log 1).length = 1 :=
    ⟨_,_,.tail (.tail (.tail (.tail (.tail .refl
      ⟨.enter 0 reconcileRequest,⟨.inr (.inr rfl),nofun⟩,rfl⟩)
      ⟨.run 0 silentHost,unowned_step 0 silentHost fun _ => rfl,rfl⟩)
      ⟨.run 0 silentHost,unowned_step 0 silentHost fun _ => rfl,rfl⟩)
      ⟨.run 0 silentHost,unowned_step 0 silentHost fun _ => rfl,rfl⟩)
      ⟨.run 0 silentHost,unowned_step 0 silentHost fun _ => rfl,rfl⟩,
      .tail .refl ⟨.run 0 silentHost,unowned_step 0 silentHost fun _ => rfl,rfl⟩,rfl,rfl⟩
  obtain ⟨s,t,hs,ht,hend,hlog⟩ := hrun
  exact ⟨s,t,hs,ht,hend,hlog,ended_once sampleContext sealed_strandedStore hs ht⟩

/-- A reconciliation ends the row of a delivery that waits for git; then git fails, and the
delivery ends the row once more, with another status and a second terminal event. -/
theorem delivery_ends_row_again : registeredStore.Sealed ∧
    ∃ s t, (system sampleContext).Run (Daemon sampleContext) (Pool.idle (.initial registeredStore)) s ∧
      (system sampleContext).Run (Daemon sampleContext) s t ∧
      ¬s.shared.store.EndedStay t.shared.store ∧ ¬t.shared.store.Sealed := by
  refine ⟨fun d l e l' status hlog => ?_,?_⟩
  · exact absurd (show [] = l ++ e::l' from hlog).symm (by simp)
  have hrun : (((system sampleContext).advance readWhileFetching
      (Pool.idle (.initial registeredStore))).bind fun s₀ =>
        ((system sampleContext).advance (steps 1 1 silentHost) s₀).bind fun s =>
          ((system sampleContext).advance (steps 0 2 silentHost) s).map fun t =>
            ((s.shared.store.row 1).map DeployRow.status,
              (t.shared.store.row 1).map DeployRow.status,
              (t.shared.store.log 1).map fun e => e.event.kind)) =
      some (some .rolledBack,some .failed,[.finished .rolledBack,.finished .failed]) := by
    decide +kernel
  obtain ⟨s₀,hs₀,h⟩ := Option.bind_eq_some_iff.mp hrun
  obtain ⟨s,hs,h⟩ := Option.bind_eq_some_iff.mp h
  obtain ⟨t,ht,h⟩ := Option.map_eq_some_iff.mp h
  simp only [Prod.mk.injEq] at h
  obtain ⟨hbefore,hafter,hlog⟩ := h
  have hsteps : ∀ i n (s : SystemState), ∀ mv ∈ steps i n silentHost, Daemon sampleContext s mv := by
    intro i n s mv hmv
    rw [List.eq_of_mem_replicate hmv]
    trivial
  refine ⟨s,t,.trans (Pool.run_of_advance _ daemon_readWhileFetching hs₀)
    (Pool.run_of_advance _ (hsteps 1 1) hs),Pool.run_of_advance _ (hsteps 0 2) ht,
    fun hstay => ?_,fun hsealed => ?_⟩
  · obtain ⟨r,hr,hrolled⟩ := Option.map_eq_some_iff.mp hbefore
    obtain ⟨r',hr',hsame,-⟩ := hstay 1 r hr (by simp [hrolled])
    rw [hr',Option.map_some,hsame,hrolled] at hafter
    cases hafter
  · obtain ⟨e,l,hl,hk,hrest⟩ := List.map_eq_cons_iff.mp hlog
    obtain ⟨rfl,-⟩ := hsealed 1 [] e l _ hl hk
    cases hrest

end Sample
end Kuadrat
