import Kuadrat.Deploy.Records

/-!
# What a reconciliation leaves

Every call of the store is carried out and every stored spec decodes. The host answers as
it likes, and nothing is assumed of the rows and the locks that crashes left.
-/
namespace Kuadrat

open Effect

/-- The store, and what the host was asked for. -/
structure Desk where
  store : Store
  asked : List Eff := []

/-- A store that carries its calls out, on a host that may answer anything. -/
def Desk.machine : Machine Eff Eff.Resp ((e : Eff) → e.Resp) Desk where
  step k e host := some (match e with
    | .store o => ((k.store.call o).1,{ k with store := (k.store.call o).2 })
    | .emit _ => ((),k)
    | e => (host e,{ k with asked := k.asked ++ [e] }))

abbrev anyHost : Spec Eff Eff.Resp Desk := Desk.machine.spec (fun _ _ => True) fun _ => True

/-- Every spec in the store can be read. -/
def Decodable (ctx : Ctx) (s : Store) : Prop :=
  ∀ name json, s.spec name = some json → ∃ spec, ctx.codec.ofText json = .ok spec

def DeployOutcome.cause : DeployOutcome → Option Message
  | done _ => none
  | rolledBack _ cause | failed _ cause => some cause

/-- One deploy that was in progress, what came of it, and the event that says so. -/
structure Account where
  row : DeployRow
  outcome : DeployOutcome
  event : StoredEvent

/-- The row and the event of an ended deploy agree with its outcome. -/
structure Account.Settled (a : Account) (s : Store) : Prop where
  stage : a.outcome.failedAt = some a.row.stage
  row : s.row a.row.id = some { a.row with status := a.outcome.status, detail := a.outcome.cause }
  event : a.event.event = .finished a.row.id a.outcome.status a.outcome.cause

/-- The store after a reconciliation, with one account for each deploy that was in progress. -/
structure Reconciled (s : Store) (accounts : List Account) (t : Store) : Prop where
  rows : accounts.map Account.row = s.inProgressDeploys
  in_order : (accounts.map fun a => a.row.id).Pairwise (· < ·)
  settled : ∀ a ∈ accounts, a.Settled t
  log : t.events = s.events ++ accounts.map Account.event
  others : ∀ d, ¬s.InProgress d → t.row d = s.row d
  none_left : t.inProgressDeploys = []
  locks : ∀ app d, t.lock app = some d → t.row d = none

section Rules
variable {α : Type} {k : Desk}

theorem wp_desk_call {o : StoreOp} {Q : Except Message o.Reply → Desk → Prop}
    (h : Q (k.store.call o).1 { k with store := (k.store.call o).2 }) :
    wp anyHost (Run.store o).run Q k := by
  refine ⟨trivial,fun r k' hr => ?_⟩
  obtain ⟨host,-,hs⟩ := hr
  cases hs
  exact h

theorem wp_desk_emit {event : StoredEvent} {Q : Except Message Unit → Desk → Prop}
    (h : Q (.ok ()) k) : wp anyHost (Run.emit event).run Q k := by
  refine ⟨trivial,fun r k' hr => ?_⟩
  obtain ⟨host,-,hs⟩ := hr
  cases hs
  exact h

/-- What goes to the host does not reach the store. -/
theorem wp_desk_host {p : Prog Eff Eff.Resp α} (hp : All Eff.OnHost p) :
    wp anyHost p (fun _ k' => k'.store = k.store) k := by
  refine wp_of_all (fun k' : Desk => k'.store = k.store) hp rfl (fun _ _ _ _ => trivial)
    fun k₁ e r k₂ he h hr => ?_
  obtain ⟨host,-,hs⟩ := hr
  cases e with
  | store | emit | spawn | acquire | release => exact he.elim
  | present | readToString | write | createDirAll | removeFile | readDir | run | timed =>
    cases hs
    exact h

end Rules

section Row
variable {s : Store} {row : DeployRow}

/-- The terminal write of a row that is there. -/
theorem Store.call_finish (status : DeployStatus) (detail : Option Message)
    (hr : s.row row.id = some row) :
    ∃ e, (s.call (.finishDeployWithEvent row.id status detail)).1 = .ok e ∧
      e.event = .finished row.id status detail ∧
      (s.call (.finishDeployWithEvent row.id status detail)).2.events = s.events ++ [e] ∧
      (s.call (.finishDeployWithEvent row.id status detail)).2.row =
        Function.update s.row row.id (some { row with status := status, detail := detail }) := by
  obtain ⟨e,he⟩ := call_finishDeployWithEvent_isOk status detail (Option.isSome_of_eq_some hr)
  obtain ⟨hevent,hevents,-⟩ := events_finishDeployWithEvent he
  refine ⟨e,he,by rw [hevent],hevents,?_⟩
  have heq := congrArg Prod.snd (finishDeployWithEvent_eq_ok.mp (commit_eq_ok he)).2
  dsimp only at heq
  funext d
  refine (congrArg (fun t => t.row d) heq).trans ?_
  rw [row_appendEvent,row_dropLocks,row_setRow,Function.update_apply,hr]
  rfl

end Row

section Loop
variable {ctx : Ctx} {s : Store} {k : Desk} {row : DeployRow} {rest : List DeployRow}

theorem loadPrevious_decodable {name : Text} (h : Decodable ctx k.store) :
    wpSure anyHost (loadPrevious ctx name) (fun _ k' => k' = k) k := by
  refine wpSure_seq (P := fun json k' => json = k.store.spec name ∧ k' = k)
    (wp_desk_call ⟨_,rfl,rfl,rfl⟩) fun json k₁ h₁ => ?_
  obtain ⟨rfl,rfl⟩ := h₁
  cases hjson : k₁.store.spec name with
  | none => exact wpSure_pure rfl
  | some json =>
    obtain ⟨spec,hspec⟩ := h name json hjson
    dsimp only
    rw [hspec]
    exact wpSure_pure rfl

theorem deployFinished_sure (status : DeployStatus) (detail : Option Message)
    (hr : k.store.row row.id = some row) :
    wpSure anyHost (finished row.id status detail) (fun _ k' => ∃ e : StoredEvent,
      e.event = .finished row.id status detail ∧ k'.store.events = k.store.events ++ [e] ∧
      k'.store.spec = k.store.spec ∧ k'.store.row =
        Function.update k.store.row row.id (some { row with status := status, detail := detail }))
      k := by
  obtain ⟨e,he,hevent,hevents,hrow⟩ := Store.call_finish status detail hr
  refine wpSure_seq (P := fun e' k' => e' = e ∧
    k' = { k with store := (k.store.call (.finishDeployWithEvent row.id status detail)).2 })
    (wp_desk_call ⟨e,he,rfl,rfl⟩) fun e' k₁ h₁ => ?_
  obtain ⟨rfl,rfl⟩ := h₁
  refine wp_desk_emit ⟨(),rfl,e',hevent,hevents,?_,hrow⟩
  exact Store.spec_call k.store (by rintro _ _ _ ⟨⟩)

/-- Releasing a lock changes neither the rows, nor the log, nor the specs. -/
theorem releaseLock_desk (name : Text) : wpSure anyHost (Run.store (.releaseLock name))
    (fun _ k' => k'.store.row = k.store.row ∧ k'.store.events = k.store.events ∧
      k'.store.spec = k.store.spec) k :=
  wp_desk_call ⟨(),rfl,rfl,rfl,rfl⟩

/-- A row in progress is ended, with one event, whatever its compensation comes to. -/
theorem reconcileRow_settles (hdecode : Decodable ctx k.store)
    (hr : k.store.row row.id = some row) :
    wpSure anyHost (reconcileRow ctx row) (fun outcome k' => ∃ a : Account, a.row = row ∧
      a.outcome = outcome ∧ a.Settled k'.store ∧ k'.store.events = k.store.events ++ [a.event] ∧
      k'.store.spec = k.store.spec ∧ ∀ d, d ≠ row.id → k'.store.row d = k.store.row d) k := by
  refine wpSure_seq (loadPrevious_decodable hdecode) fun previous k₁ h₁ => ?_
  subst h₁
  refine wpSure_seq (wpSure_result (wp_desk_host compensate_onHost)) fun r k₂ h₂ => ?_
  rw [← h₂] at hr ⊢
  -- Both branches end the row, and differ in the outcome alone.
  have hend : ∀ outcome : DeployOutcome, outcome.failedAt = some row.stage →
      wpSure anyHost (do
        finished row.id outcome.status outcome.cause
        Run.store (.releaseLock row.app)
        return outcome) (fun outcome k' => ∃ a : Account, a.row = row ∧ a.outcome = outcome ∧
          a.Settled k'.store ∧ k'.store.events = k₂.store.events ++ [a.event] ∧
          k'.store.spec = k₂.store.spec ∧ ∀ d, d ≠ row.id → k'.store.row d = k₂.store.row d) k₂ := by
    intro outcome hstage
    refine wpSure_seq (deployFinished_sure _ _ hr) fun _ k₃ h₃ => ?_
    obtain ⟨e,hevent,hevents,hspec,hrow⟩ := h₃
    refine wpSure_seq (releaseLock_desk row.app) fun _ k₄ h₄ => wpSure_pure ?_
    obtain ⟨hrow₄,hevents₄,hspec₄⟩ := h₄
    refine ⟨⟨row,outcome,e⟩,rfl,rfl,⟨hstage,?_,hevent⟩,hevents₄.trans hevents,hspec₄.trans hspec,?_⟩
    · rw [hrow₄,hrow,Function.update_self]
    · intro d hd
      rw [hrow₄,hrow,Function.update_of_ne hd]
  cases r with
  | ok _ => exact hend (.rolledBack row.stage _) rfl
  | error e => exact hend (.failed row.stage _) rfl

/-- What the loop has done before it comes to `rest`. -/
structure Tallied (s : Store) (rest : List DeployRow) (accounts : List Account) (t : Store) :
    Prop where
  rows : accounts.map Account.row ++ rest = s.inProgressDeploys
  settled : ∀ a ∈ accounts, a.Settled t
  log : t.events = s.events ++ accounts.map Account.event
  others : ∀ d, (∀ a ∈ accounts, a.row.id ≠ d) → t.row d = s.row d
  spec : t.spec = s.spec

theorem Tallied.start (s : Store) : Tallied s s.inProgressDeploys [] s where
  rows := rfl
  settled a ha := by cases ha
  log := (List.append_nil _).symm
  others _ _ := rfl
  spec := rfl

theorem ids_sorted (s : Store) : (s.inProgressDeploys.map DeployRow.id).Pairwise (· < ·) :=
  List.pairwise_map.mpr (s.deploys_sorted.filter _)

/-- The rows still to come are other ones than those that have been ended. -/
theorem Tallied.row_next {accounts : List Account}
    (h : Tallied s (row::rest) accounts k.store) : k.store.row row.id = some row := by
  have hmem : row ∈ s.inProgressDeploys := by
    rw [← h.rows]
    simp
  have hsorted := ids_sorted s
  rw [← h.rows,List.map_append,List.pairwise_append] at hsorted
  rw [h.others row.id fun a ha => ?_]
  · exact (Store.mem_inProgressDeploys.mp hmem).1
  · have hlt := hsorted.2.2 a.row.id (by simp; exact ⟨a,ha,rfl⟩) row.id (by simp)
    exact Nat.ne_of_lt hlt

theorem Tallied.step {accounts : List Account} {a : Account} {t t' : Store}
    (h : Tallied s (row::rest) accounts t) (hrow : a.row = row) (ha : a.Settled t')
    (hlog : t'.events = t.events ++ [a.event]) (hspec : t'.spec = t.spec)
    (hothers : ∀ d, d ≠ row.id → t'.row d = t.row d) :
    Tallied s rest (accounts ++ [a]) t' where
  rows := by
    rw [← h.rows,List.map_append,List.append_assoc,List.map_singleton,hrow]
    rfl
  settled b hb := by
    rcases List.mem_append.mp hb with hb | hb
    · have hsorted := ids_sorted s
      rw [← h.rows,List.map_append,List.pairwise_append] at hsorted
      have hlt := hsorted.2.2 b.row.id (by simp; exact ⟨b,hb,rfl⟩) row.id (by simp)
      have hb' := h.settled b hb
      exact ⟨hb'.stage,(hothers _ (Nat.ne_of_lt hlt)).trans hb'.row,hb'.event⟩
    · rwa [List.mem_singleton.mp hb]
  log := by rw [hlog,h.log,List.map_append,List.append_assoc]; rfl
  others d hd := by
    have hne : d ≠ row.id := fun heq => hd a (by simp) (by rw [hrow,heq])
    rw [hothers d hne]
    exact h.others d fun b hb => hd b (List.mem_append_left _ hb)
  spec := hspec.trans h.spec

/-- When no row is left, every deploy has a terminal status, or had one before. -/
theorem Tallied.none_left {accounts : List Account} {t : Store} (h : Tallied s [] accounts t) :
    t.inProgressDeploys = [] := by
  refine List.eq_nil_iff_forall_not_mem.mpr fun r hr => ?_
  obtain ⟨hrow,hstatus⟩ := Store.mem_inProgressDeploys.mp hr
  by_cases hd : ∀ a ∈ accounts, a.row.id ≠ r.id
  · have hmem : r ∈ s.inProgressDeploys :=
      Store.mem_inProgressDeploys.mpr ⟨(h.others r.id hd).symm.trans hrow,hstatus⟩
    rw [← h.rows,List.append_nil] at hmem
    obtain ⟨a,ha,harow⟩ := List.mem_map.mp hmem
    exact hd a ha (by rw [harow])
  · push Not at hd
    obtain ⟨a,ha,hid⟩ := hd
    have hsettled := h.settled a ha
    rw [← hid,hsettled.row,Option.some.injEq] at hrow
    have hout : a.outcome.status = .inProgress := by rw [← hstatus,← hrow]
    cases hcase : a.outcome with
    | done image => rw [hcase] at hout; cases hout
    | rolledBack stage cause => rw [hcase] at hout; cases hout
    | failed stage cause => rw [hcase] at hout; cases hout

theorem Tallied.reconciled {accounts : List Account} {t : Store}
    (h : Tallied s [] accounts t) : Reconciled s accounts (t.releaseOrphanedLocks).2 where
  rows := by rw [← h.rows,List.append_nil]
  in_order := by
    have hsorted := ids_sorted s
    rw [← h.rows,List.append_nil,List.map_map] at hsorted
    exact hsorted
  settled a ha := ⟨(h.settled a ha).stage,(h.settled a ha).row,(h.settled a ha).event⟩
  log := h.log
  others d hd := h.others d fun a ha hid => by
    have hmem : a.row ∈ s.inProgressDeploys := by
      rw [← h.rows,List.append_nil]
      exact List.mem_map_of_mem ha
    obtain ⟨hrow,hstatus⟩ := Store.mem_inProgressDeploys.mp hmem
    exact hd ⟨a.row,hid ▸ hrow,hstatus⟩
  none_left := h.none_left
  locks app d hlock := by
    obtain ⟨-,hfree⟩ := Option.filter_eq_some_iff.mp
      ((Store.lock_dropLocks t.finished app).symm.trans hlock)
    cases hrow : t.row d with
    | none => exact hrow
    | some r =>
      have hdone : r.status ≠ .inProgress := fun hstatus => by
        have hmem : r ∈ t.inProgressDeploys :=
          Store.mem_inProgressDeploys.mpr ⟨Store.id_of_row hrow ▸ hrow,hstatus⟩
        rw [h.none_left] at hmem
        cases hmem
      simp [Store.finished,hrow,hdone] at hfree

/-- A store that keeps no lock of an ended deploy has none to release. -/
theorem Store.releaseOrphanedLocks_eq {t : Store}
    (h : ∀ app d, t.lock app = some d → t.row d = none) : t.releaseOrphanedLocks.2 = t := by
  have hentries : t.locks.entries.filter (fun e => !t.finished e.2) = t.locks.entries := by
    refine List.filter_eq_self.mpr fun e he => ?_
    have hnone := h e.1 e.2 (AList.mem_lookup_iff.mpr he)
    simp [Store.finished,hnone]
  have hlocks : (t.dropLocks t.finished).locks = t.locks := AList.ext hentries
  exact congrArg (fun l => { t with locks := l }) hlocks

end Loop

section Reconcile
variable {ctx : Ctx} {k : Desk}

/-- With no deploy in progress and no lock of an ended one, there is nothing to do. -/
theorem reconcile_idle (hrows : k.store.inProgressDeploys = [])
    (hlocks : ∀ app d, k.store.lock app = some d → k.store.row d = none) :
    wp anyHost (reconcile ctx).run (fun r k' => r = .ok [] ∧ k' = k) k := by
  refine wp_run_seq (P := fun r k' => r = .ok [] ∧ k' = k)
    (wp_desk_call ⟨congrArg Except.ok hrows,rfl⟩) (fun rows k₁ h₁ => ?_) fun e k₁ h₁ => by
      cases h₁.1
  obtain ⟨hok,rfl⟩ := h₁
  cases hok
  refine wp_run_seq (P := fun r k' => r = .ok [] ∧ k' = k₁) ⟨rfl,rfl⟩ (fun outcomes k₂ h₂ => ?_)
    fun e k₂ h₂ => by cases h₂.1
  obtain ⟨hok,rfl⟩ := h₂
  cases hok
  refine wp_run_seq (P := fun r k' => (∃ freed, r = .ok freed) ∧ k' = k₂)
    (wp_desk_call ⟨⟨_,rfl⟩,?_⟩) (fun freed k₃ h₃ => ⟨rfl,h₃.2⟩) fun e k₃ h₃ => by
      obtain ⟨⟨_,hok⟩,-⟩ := h₃
      cases hok
  exact congrArg (fun t => { k₂ with store := t }) (Store.releaseOrphanedLocks_eq hlocks)

/-- A reconciliation ends every deploy that was in progress, and leaves the next one nothing
to do. -/
theorem reconcile_settles (hdecode : Decodable ctx k.store) :
    wp anyHost (reconcile ctx).run (fun r k' => ∃ accounts : List Account,
      r = .ok (accounts.map Account.outcome) ∧ Reconciled k.store accounts k'.store ∧
      wp anyHost (reconcile ctx).run (fun r' k'' => r' = .ok [] ∧ k'' = k') k') k := by
  have hsure : wpSure anyHost (reconcile ctx) (fun outcomes k' => ∃ accounts : List Account,
      outcomes = accounts.map Account.outcome ∧ Reconciled k.store accounts k'.store) k := by
    refine wpSure_seq (P := fun rows k' => rows = k.store.inProgressDeploys ∧ k' = k)
      (wp_desk_call ⟨_,rfl,rfl,rfl⟩) fun rows k₁ h₁ => ?_
    obtain ⟨rfl,rfl⟩ := h₁
    refine wpSure_seq (P := fun outcomes k' => ∃ accounts : List Account,
      outcomes = accounts.map Account.outcome ∧ Tallied k₁.store [] accounts k'.store) ?_
      fun outcomes k₂ h₂ => ?_
    · refine wpSure_foldlM (fun rest outcomes k' => ∃ accounts : List Account,
        outcomes = accounts.map Account.outcome ∧ Tallied k₁.store rest accounts k'.store)
        ⟨[],rfl,.start _⟩ (fun row rest outcomes k₂ h₂ => ?_) fun _ _ h => h
      obtain ⟨accounts,rfl,hacc⟩ := h₂
      have hdecode₂ : Decodable ctx k₂.store := fun name json hjson =>
        hdecode name json (hacc.spec ▸ hjson)
      refine wpSure_seq (reconcileRow_settles hdecode₂ hacc.row_next) fun outcome k₃ h₃ =>
        wpSure_pure ?_
      obtain ⟨a,hrow,rfl,ha,hlog,hspec,hothers⟩ := h₃
      refine ⟨accounts ++ [a],?_,hacc.step hrow ha hlog hspec hothers⟩
      rw [List.map_append]
      rfl
    · obtain ⟨accounts,rfl,hacc⟩ := h₂
      refine wpSure_seq (P := fun _ k' => k'.store = k₂.store.releaseOrphanedLocks.2)
        (wp_desk_call ⟨_,rfl,rfl⟩) fun freed k₃ h₃ => wpSure_pure ?_
      exact ⟨accounts,rfl,h₃ ▸ hacc.reconciled⟩
  refine wp_mono hsure fun r k' hr => ?_
  obtain ⟨outcomes,rfl,accounts,rfl,hreconciled⟩ := hr
  exact ⟨accounts,rfl,hreconciled,reconcile_idle hreconciled.none_left hreconciled.locks⟩

end Reconcile

section Sample

/-- Two stranded deploys of one app, an ended one that kept its lock, and a lock without a row. -/
def leftoverStore : Store :=
  [.putSpec "web" "web" (serde.toText sampleSpec),.createDeploy "web",.acquireLock "web" 1,
    .advanceStage 1 .apply,.createDeploy "web",.advanceStage 2 .route,.createDeploy "api",
    .acquireLock "api" 3,.finishDeploy 3 .failed none,.acquireLock "old" 9].foldl
    (fun s o => (s.call o).2) .empty

theorem leftoverStore_settles :
    leftoverStore.inProgressDeploys.map (fun r => (r.id,r.stage)) = [(1,.apply),(2,.route)] ∧
    leftoverStore.lock "api" = some 3 ∧ leftoverStore.lock "old" = some 9 ∧
    wp anyHost (reconcile sampleContext).run (fun r k' => ∃ accounts : List Account,
      r = .ok (accounts.map Account.outcome) ∧ Reconciled leftoverStore accounts k'.store ∧
      wp anyHost (reconcile sampleContext).run (fun r' k'' => r' = .ok [] ∧ k'' = k') k')
      ⟨leftoverStore,[]⟩ := by
  refine ⟨by decide +kernel,by decide +kernel,by decide +kernel,reconcile_settles ?_⟩
  intro name json hjson
  have happs : leftoverStore.apps =
      AList.insert ("web" : Text) (⟨"web",serde.toText sampleSpec⟩ : AppRow) ∅ := rfl
  rw [Store.spec,happs] at hjson
  by_cases hname : name = "web"
  · rw [hname,AList.lookup_insert] at hjson
    have hcodec : sampleContext.codec = serde := rfl
    have hread := serde.ofText_toText sampleSpec
    rw [show serde.toText sampleSpec = json from Option.some.inj hjson,← hcodec] at hread
    exact ⟨sampleSpec,hread⟩
  · rw [AList.lookup_insert_ne hname] at hjson
    cases hjson

end Sample
end Kuadrat
