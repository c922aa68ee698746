import Kuadrat.Daemon.Roster

/-!
# A reconciliation beside live deploys

Triggers, deliveries, reconciliations and the spawned tasks of one daemon, in any order. A
reconciliation has the slot, but a row is in progress before its task has it.
-/
namespace Kuadrat

open Effect

/-- Who ends a row that is in progress owns it, or it is nobody's any more. -/
def EndsNothingLive (ctx : Ctx) (s : SystemState) : Prop :=
  ∀ i host t, (system ctx).step s (.run i host) = some t → ∀ d, s.shared.store.InProgress d →
    ¬t.shared.store.InProgress d → s.shared.owner i = some d ∨ ∀ j, s.shared.owner j ≠ some d

/-- When a reconciliation reads the rows in progress, none of them is that of a live handler or
task. -/
def FindsOnlyStranded (ctx : Ctx) (s : SystemState) (mv : SystemMove) : Prop :=
  Daemon ctx s mv ∧ ∀ i host, mv = .run i host → s.Reads i →
    ∀ d j, s.shared.store.InProgress d → s.shared.owner j ≠ some d

section Proof
variable {ctx : Ctx}

/-- Only a terminal write ends a row. -/
theorem ends_of_answer {s t : Shared} {i d : ℕ} {e : Eff} {host : Host} {r : e.Resp}
    (h : s.answer i e host = some (r,t)) (hd : s.store.InProgress d)
    (hend : ¬t.store.InProgress d) : ∃ o, e = .store o ∧ Store.Ends d o := by
  obtain ⟨row,hrow,hs⟩ := id hd
  rcases store_answer h with hsame | ⟨o,rfl,ht⟩
  · rw [hsame] at hend
    exact absurd hd hend
  · refine ⟨o,rfl,?_⟩
    by_contra ho
    obtain ⟨row',hrow',hs'⟩ := Store.status_call s.store ho hrow
    rw [← ht] at hrow'
    exact hend ⟨row',hrow',hs'.trans hs⟩

/-- A thread that keeps to the protocol ends its own row, or one that is nobody's. -/
theorem Roster.ends_nothing_live {memo : ℕ → Duty} {s : Shared} (h : Roster False memo s)
    {i d : ℕ} {o : StoreOp} (ho : Store.Ends d o) (hpre : (memo i).pre (.store o)) :
    s.owner i = some d ∨ ∀ j, s.owner j ≠ some d := by
  have hown : ∀ phase, memo i = .own phase d → s.owner i = some d := by
    intro phase hi
    rw [h.owner,hi]
    rfl
  obtain ⟨status,detail,rfl | rfl⟩ := ho.eq
  · exact .inl (hown _ hpre.2)
  · rcases hpre with ⟨phase,hi,-⟩ | ⟨-,l,hi,hd⟩
    · exact .inl (hown phase hi)
    · refine .inr fun j hj => ?_
      rw [h.owner] at hj
      exact (((h.listed i l hi).2 d hd).2 j hj).1

end Proof

/-- Over any database, and whatever the order of the steps, nobody ends the row of a live
deploy as long as reconciliations find no such row. -/
theorem live_deploys_go_on (ctx : Ctx) (store : Store) {s : SystemState}
    (h : (system ctx).Run (FindsOnlyStranded ctx) (Pool.idle (.initial store)) s) :
    EndsNothingLive ctx s := by
  have hup : (system ctx).Upholds dutyProtocol .free (fun _ => True) (Roster False)
      (FindsOnlyStranded ctx) := upholds_roster (fun _ _ hallow => hallow.1)
    fun s i host hallow hreads d j hd hj => absurd hj (hallow.2 i host rfl hreads d j hd)
  obtain ⟨memo,hm⟩ := hup.reachable (Pool.meets_idle trivial (roster_initial False.elim)) h
  intro i host t ht d hd hend
  obtain ⟨e,k,r,u,hi,-,hanswer,rfl⟩ := Pool.step_run ht
  rw [store_put] at hend
  obtain ⟨o,rfl,ho⟩ := ends_of_answer hanswer hd hend
  have hfollow := hm.follows i
  rw [hi] at hfollow
  exact hm.inv.ends_nothing_live ho hfollow.1

section Sample

/-- The app has a row in progress from before a restart. -/
def strandedStore : Store := (registeredStore.createDeploy "web").2

def reconcileRequest : Prog Eff Eff.Resp Unit := forget (reconcileApi sampleContext)

/-- After a restart a reconciliation ends the row that the crash has stranded. -/
theorem stranded_row_ended : ∃ s, (system sampleContext).Run (FindsOnlyStranded sampleContext)
    (Pool.idle (.initial strandedStore)) s ∧ s.shared.store.finished 1 = true ∧
      EndsNothingLive sampleContext s := by
  have hrun : ∃ s, (system sampleContext).Run (FindsOnlyStranded sampleContext)
      (Pool.idle (.initial strandedStore)) s ∧ s.shared.store.finished 1 = true := by
    refine ⟨_,.tail (.tail (.tail (.tail (.tail .refl
      ⟨.enter 0 reconcileRequest,⟨.inr (.inr rfl),nofun⟩,rfl⟩)
      ⟨.run 0 silentHost,⟨trivial,?_⟩,rfl⟩) ⟨.run 0 silentHost,⟨trivial,?_⟩,rfl⟩)
      ⟨.run 0 silentHost,⟨trivial,?_⟩,rfl⟩) ⟨.run 0 silentHost,⟨trivial,?_⟩,rfl⟩,rfl⟩
    all_goals
      intro i host _ _ d j _ hj
      exact nomatch hj
  obtain ⟨s,hs,hend⟩ := hrun
  exact ⟨s,hs,hend,live_deploys_go_on sampleContext strandedStore hs⟩

/-- A delivery has reserved its row and waits for git; a reconciliation has the slot, which no
deploy needs before its task, and has read the row. -/
def readWhileFetching : List SystemMove :=
  .enter 0 sampleDelivery::steps 0 5 silentHost ++ .enter 1 reconcileRequest::steps 1 3 silentHost

theorem daemon_readWhileFetching (s : SystemState) : ∀ mv ∈ readWhileFetching,
    Daemon sampleContext s mv := by
  intro mv hmv
  cases mv with
  | enter i p =>
    simp only [readWhileFetching,steps,List.mem_append,List.mem_cons,List.mem_replicate,
      Pool.Move.enter.injEq,reduceCtorEq,and_false,or_false] at hmv
    rcases hmv with ⟨-,rfl⟩ | ⟨-,rfl⟩
    · exact .inr (.inl ⟨"web",_,rfl⟩)
    · exact .inr (.inr rfl)
  | run | fork => trivial
  | drop i => simp [readWhileFetching,steps] at hmv

/-- The reconciliation ends the row of the delivery, whose handler is alive and goes on. -/
theorem live_delivery_ended : ∃ s, (system sampleContext).Run (Daemon sampleContext)
    (Pool.idle (.initial registeredStore)) s ∧ ¬EndsNothingLive sampleContext s := by
  have hrun : (((system sampleContext).advance readWhileFetching
      (Pool.idle (.initial registeredStore))).bind fun s =>
        ((system sampleContext).step s (.run 1 silentHost)).map fun t =>
          (s.shared.store.row 1,s.shared.owner 0,s.shared.owner 1,t.shared.store.finished 1)) =
      some (some ⟨1,"web",.detect,.inProgress,none⟩,some 1,none,true) := by
    decide +kernel
  obtain ⟨s,hs,h⟩ := Option.bind_eq_some_iff.mp hrun
  obtain ⟨t,ht,h⟩ := Option.map_eq_some_iff.mp h
  simp only [Prod.mk.injEq] at h
  obtain ⟨hrow,hhandler,hreconcile,hend⟩ := h
  refine ⟨s,Pool.run_of_advance _ daemon_readWhileFetching hs,fun hlive => ?_⟩
  have hended : ¬t.shared.store.InProgress 1 := by
    rintro ⟨r,hr,hs⟩
    simp [Store.finished,hr,hs] at hend
  rcases hlive 1 silentHost t ht 1 ⟨_,hrow,rfl⟩ hended with hown | hnone
  · rw [hreconcile] at hown
    cases hown
  · exact hnone 0 hhandler

end Sample
end Kuadrat
