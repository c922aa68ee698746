import Kuadrat.Daemon.Books

/-!
# Reservations that nobody finishes

Pushes and API triggers in one daemon, with every outcome of git and every way the server
may drop a handler. A row that is in progress has to have somebody who will finish it.
-/
namespace Kuadrat

open Effect

/-- Requests come at any time, and handlers may be dropped wherever they wait; a spawned task
keeps running. -/
def Requests (ctx : Ctx) (s : SystemState) : SystemMove → Prop
  | .enter _ p => (∃ name, p = forget (startDeploy ctx.codec name)) ∨
    ∃ app push, p = forget (dispatchPush ctx.codec app push)
  | .drop i => s.Droppable i
  | .run .. | .fork .. => True

/-- Every row in progress has a live owner, so that nothing is left when all have ended. -/
structure NothingStranded (s : SystemState) : Prop where
  owned : ∀ d, s.shared.store.InProgress d →
    ∃ i, (s.threads i).ended = false ∧ s.shared.owner i = some d
  settled : (∀ i, (s.threads i).ended) →
    (∀ d, ¬s.shared.store.InProgress d) ∧ ∀ app, s.shared.store.lock app = none

/-- No handler is dropped while its row is in progress, no spec is stored under a slug that
another app has, and every stored spec that is read decodes. -/
def Finishing (ctx : Ctx) (s : SystemState) (mv : SystemMove) : Prop :=
  Requests ctx s mv ∧
  (∀ i, mv = .drop i → ∀ d, s.shared.owner i = some d → ¬s.shared.store.InProgress d) ∧
  ∀ i host, mv = .run i host →
    (∀ name slug json k, s.threads i = .op (.store (.putSpec name slug json)) k →
      ∃ s', s.shared.store.putSpec name slug json = .ok s') ∧
    ∀ name k, s.threads i = .op (.store (.currentSpec name)) k →
      ∀ json, s.shared.store.spec name = some json → ∃ spec, ctx.codec.ofText json = .ok spec

section Proof
variable {ctx : Ctx}

def decodes (ctx : Ctx) (o : Option Text) : Prop :=
  ∀ json, o = some json → ∃ spec, ctx.codec.ofText json = .ok spec

theorem reads_decodes : Reads ctx.codec (decodes ctx) := fun json h => h json rfl

/-- What is known throughout: every row in progress is somebody's, and so is every lock. -/
def CoveredBooks (memo : ℕ → Held) (s : Shared) : Prop := Owned memo s ∧ (ledger memo s).Covered

theorem step_covered {memo : ℕ → Held} {s t : Shared} {i : ℕ} {m : Held} {calm : Text → Prop}
    (h : CoveredBooks memo s) (hf : Follows calm memo s i m t) :
    CoveredBooks (Function.update memo i m) t := by
  refine ⟨hf.1,?_⟩
  rcases hf.2 with heq | hs
  · rw [heq]
    exact h.2
  · exact h.2.step hs

theorem leave_covered {memo : ℕ → Held} {s : Shared} {i : ℕ} (h : CoveredBooks memo s)
    (hfree : (memo i).Free) : CoveredBooks (Function.update memo i none) (s.leave i) :=
  ⟨owned_leave h.1,h.2.quit hfree⟩

theorem upholds_covered : (system ctx).Upholds (deployProtocol (decodes ctx)) none Held.Free
    CoveredBooks (Finishing ctx) where
  fin_rest := Held.free_none
  leave memo s i h hfree := leave_covered h hfree
  enter memo s i p hm hi hallow := by
    refine ⟨none,?_,?_⟩
    · rcases hallow.1 with ⟨name,rfl⟩ | ⟨app,push,rfl⟩
      · exact deployConduct.startDeploy rfl
      · exact deployConduct.dispatchPush rfl
    · rw [Function.update_eq_self_iff.mpr (hm.gone i hi).symm]
      exact hm.inv
  run memo s i e k host r t hm hi hchild hpre hallow hanswer := by
    obtain ⟨hput,hread⟩ := hallow.2.2 i host rfl
    have hspawn : ∀ spec repo d, e ≠ .spawn spec repo d := by
      rintro spec repo d rfl
      cases hchild
    have hsound : s.shared.store.Sound (decodes ctx) e := by
      constructor
      · rintro name slug json rfl
        exact hput name slug json k hi
      · rintro name rfl
        exact hread name k hi
    obtain ⟨m,hpost,hf⟩ := follows_answer (fun _ => True) hm.inv.2.toCoherent hm.inv.1 hpre
      hspawn hsound (fun _ _ _ => trivial) hanswer
    exact ⟨m,hpost,step_covered hm.inv hf⟩
  fork memo s i j e k p host r t hm hi hchild hj hij hpre hallow hanswer := by
    obtain ⟨spec,repo,d,rfl,rfl,rfl,hvalid,hheld⟩ := fork_cases hchild hpre hanswer
    refine ⟨none,some ⟨.granted,spec.name,d⟩,rfl,
      wp_mono wp_spawnedDeploy fun _ _ h => h hvalid reads_decodes,
      owned_handOver spec repo hm.inv.1 hheld hij,?_⟩
    rw [show (system ctx).handOver = Shared.handOver from rfl,ledger_handOver spec repo hheld]
    exact hm.inv.2.hand (hm.gone j hj) hij
  drop memo s i hm hallow := by
    refine leave_covered hm.inv fun c hc => ?_
    have hrow := hm.inv.2.ticket i c hc
    cases hopen : c.point.isOpen with
    | false => rfl
    | true =>
      rw [hopen] at hrow
      exact absurd (Store.inProgress_iff_tickets.mpr ⟨c.key,hrow⟩)
        (hallow.2.1 i rfl c.ticket (hm.inv.1 i c hc))

theorem coveredBooks_initial {store : Store} (hrows : ∀ d, ¬store.InProgress d)
    (hlocks : ∀ app, store.lock app = none) :
    CoveredBooks (fun _ => none) (Shared.initial store) := by
  refine ⟨owned_initial store,⟨⟨nofun,nofun⟩,fun t k hopen => ?_,fun k t hk => ?_,nofun⟩⟩
  · exact absurd (Store.inProgress_iff_tickets.mpr ⟨k,hopen⟩) (hrows t)
  · rw [show (ledger _ (Shared.initial store)).lock k = none from hlocks k] at hk
    cases hk

end Proof

/-- Over a store that a startup has settled, no reservation is stranded as long as no handler
is dropped between its reservation and its hand-over. -/
theorem nothing_stranded_of_finishing (ctx : Ctx) {store : Store}
    (hrows : ∀ d, ¬store.InProgress d) (hlocks : ∀ app, store.lock app = none) {s : SystemState}
    (h : (system ctx).Run (Finishing ctx) (Pool.idle (.initial store)) s) : NothingStranded s := by
  obtain ⟨memo,hm⟩ := upholds_covered.reachable
    (Pool.meets_idle Held.free_none (coveredBooks_initial hrows hlocks)) h
  constructor
  · intro d hd
    obtain ⟨app,hopen⟩ := Store.inProgress_iff_tickets.mp hd
    obtain ⟨i,c,hc,rfl⟩ := hm.inv.2.held d app hopen
    refine ⟨i,?_,hm.inv.1 i c hc⟩
    cases hend : (s.threads i).ended with
    | false => rfl
    | true => cases (hm.gone i hend).symm.trans hc
  · intro hend
    obtain ⟨hopen,hlock⟩ := hm.inv.2.settled fun i => hm.gone i (hend i)
    refine ⟨fun d hd => ?_,hlock⟩
    obtain ⟨app,happ⟩ := Store.inProgress_iff_tickets.mp hd
    exact hopen d app happ

section Sample

theorem registeredStore_settled : (∀ d, ¬registeredStore.InProgress d) ∧
    ∀ app, registeredStore.lock app = none := by
  refine ⟨fun d hd => ?_,fun _ => rfl⟩
  obtain ⟨r,hr,-⟩ := hd
  exact nomatch (show none = some r from hr)

/-- A delivery that waits for git owns the row it has reserved. -/
theorem delivery_owns_row : ∃ s, (system sampleContext).Run (Finishing sampleContext)
    (Pool.idle (.initial registeredStore)) s ∧ s.shared.store.InProgress 1 ∧ NothingStranded s := by
  have hrun : ∃ s, (system sampleContext).Run (Finishing sampleContext)
      (Pool.idle (.initial registeredStore)) s ∧ s.shared.store.InProgress 1 := by
    refine ⟨_,.tail (.tail (.tail (.tail (.tail (.tail .refl
      ⟨.enter 0 sampleDelivery,⟨.inr ⟨"web",_,rfl⟩,nofun,nofun⟩,rfl⟩)
      ⟨.run 0 silentHost,⟨trivial,nofun,?_⟩,rfl⟩) ⟨.run 0 silentHost,⟨trivial,nofun,?_⟩,rfl⟩)
      ⟨.run 0 silentHost,⟨trivial,nofun,?_⟩,rfl⟩) ⟨.run 0 silentHost,⟨trivial,nofun,?_⟩,rfl⟩)
      ⟨.run 0 silentHost,⟨trivial,nofun,?_⟩,rfl⟩,⟨_,rfl,rfl⟩⟩
    all_goals
      rintro i host ⟨⟩
      exact ⟨nofun,nofun⟩
  obtain ⟨s,hs,hrow⟩ := hrun
  exact ⟨s,hs,hrow,nothing_stranded_of_finishing sampleContext registeredStore_settled.1
    registeredStore_settled.2 hs⟩

/-- A client that disconnects while git runs leaves a row in progress and a lock, and nobody
who will finish them. -/
theorem dropped_delivery_strands_row : ∃ s, (system sampleContext).Run (Requests sampleContext)
    (Pool.idle (.initial registeredStore)) s ∧ (∀ i, (s.threads i).ended) ∧
      s.shared.store.InProgress 1 ∧ s.shared.store.lock "web" = some 1 ∧ ¬NothingStranded s := by
  have hrun : ∃ s, (system sampleContext).Run (Requests sampleContext)
      (Pool.idle (.initial registeredStore)) s ∧ (∀ i, (s.threads i).ended) ∧
        s.shared.store.row 1 = some ⟨1,"web",.detect,.inProgress,none⟩ ∧
        s.shared.store.lock "web" = some 1 :=
    ⟨_,.tail (.tail (.tail (.tail (.tail (.tail (.tail .refl
      ⟨.enter 0 sampleDelivery,.inr ⟨"web",_,rfl⟩,rfl⟩)
      ⟨.run 0 silentHost,trivial,rfl⟩) ⟨.run 0 silentHost,trivial,rfl⟩)
      ⟨.run 0 silentHost,trivial,rfl⟩) ⟨.run 0 silentHost,trivial,rfl⟩)
      ⟨.run 0 silentHost,trivial,rfl⟩) ⟨.drop 0,⟨rfl,_,_,rfl,trivial⟩,rfl⟩,
      fun i => by cases i <;> rfl,rfl,rfl⟩
  obtain ⟨s,hs,hend,hrow,hlock⟩ := hrun
  refine ⟨s,hs,hend,⟨_,hrow,rfl⟩,hlock,fun h => ?_⟩
  exact (h.settled hend).1 1 ⟨_,hrow,rfl⟩

end Sample
end Kuadrat
