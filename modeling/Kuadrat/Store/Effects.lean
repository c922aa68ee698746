import Kuadrat.Store.Calls

/-!
# What a call changes

Each table is read through one function (`row`, `lock`, `spec`); the lemmas say
how each call changes that function, and that every other call leaves it alone.
-/
namespace Kuadrat.Store

variable {s s' : Store}

/-- A property of the tables that a successful statement keeps, a rejected one keeps too. -/
theorem commit_induct {α : Type} {P : Store → Prop} {r : Except Message (α × Store)} (h : P s)
    (hok : ∀ a t, r = .ok (a,t) → P t) : P (s.commit r).2 := by
  cases r with
  | error e => exact h
  | ok p => exact hok p.1 p.2 rfl

/-- A call that replies without an error has carried its statement out. -/
theorem commit_eq_ok {α : Type} {r : Except Message (α × Store)} {a : α}
    (h : (s.commit r).1 = .ok a) : r = .ok (a,(s.commit r).2) := by
  cases r with
  | error e => cases h
  | ok p =>
    simp only [commit,Except.ok.injEq] at h ⊢
    rw [← h]

theorem map_pair_eq_ok {r : Except Message Store} {a : Unit} :
    r.map (fun t => ((),t)) = .ok (a,s') ↔ r = .ok s' := by
  cases r <;> simp [Except.map]

section Rows

theorem find_map {l : List DeployRow} {d : ℕ} {f : DeployRow → DeployRow}
    (hf : ∀ r, (f r).id = r.id) :
    (l.map f).find? (fun r => r.id = d) = (l.find? fun r => r.id = d).map f := by
  induction l with
  | nil => rfl
  | cons r l ih =>
    simp only [List.map_cons,List.find?_cons,hf]
    by_cases h : r.id = d
    · simp [h]
    · simp [h,ih]

theorem id_of_row {d : ℕ} {r : DeployRow} (h : s.row d = some r) : r.id = d := by
  simpa using List.find?_some h

theorem mem_of_row {d : ℕ} {r : DeployRow} (h : s.row d = some r) : r ∈ s.deploys :=
  List.mem_of_find?_eq_some h

theorem find_of_mem {l : List DeployRow} {r : DeployRow}
    (hsorted : l.Pairwise fun r r' => r.id < r'.id) (h : r ∈ l) :
    l.find? (fun r' => r'.id = r.id) = some r := by
  induction l with
  | nil => cases h
  | cons r' l ih =>
    rw [List.find?_cons]
    rcases List.mem_cons.mp h with rfl | h
    · simp
    · have hne : r'.id ≠ r.id := Nat.ne_of_lt ((List.pairwise_cons.mp hsorted).1 r h)
      simp only [hne,decide_false]
      exact ih (List.pairwise_cons.mp hsorted).2 h

theorem row_of_mem {r : DeployRow} (h : r ∈ s.deploys) : s.row r.id = some r := by
  exact find_of_mem s.deploys_sorted h

/-- An id the counter has not reached has no row. -/
theorem row_eq_none_of_lt {d : ℕ} (h : s.lastDeploy < d) : s.row d = none := by
  refine List.find?_eq_none.mpr fun r hr => ?_
  have := s.deploys_le r hr
  simpa using Nat.ne_of_lt (Nat.lt_of_le_of_lt this h)

theorem row_setRow (d d' : ℕ) (f : DeployRow → DeployRow) : (s.setRow d f).row d' =
    if d' = d then (s.row d).map (fun r => { f r with id := r.id }) else s.row d' := by
  have hmap := find_map (l := s.deploys) (d := d')
    (f := fun r => if r.id = d then { f r with id := r.id } else r) (fun r => by split <;> rfl)
  change List.find? _ (List.map _ _) = _
  rw [hmap]
  by_cases h : d' = d
  · subst h
    rw [if_pos rfl]
    refine Option.map_congr fun r hr => ?_
    rw [if_pos (id_of_row hr)]
  · rw [if_neg h]
    change Option.map _ (s.row d') = s.row d'
    cases hr : s.row d' with
    | none => rfl
    | some r => rw [Option.map_some,if_neg ((id_of_row hr).trans_ne h)]

theorem row_createDeploy (app : Text) (d : ℕ) : (s.createDeploy app).2.row d =
    if d = s.lastDeploy+1 then some ⟨s.lastDeploy+1,app,.detect,.inProgress,none⟩
    else s.row d := by
  change List.find? _ (s.deploys ++ _) = _
  rw [List.find?_append]
  by_cases h : d = s.lastDeploy+1
  · subst h
    have hnone : s.deploys.find? (fun r => r.id = s.lastDeploy+1) = none :=
      row_eq_none_of_lt (Nat.lt_succ_self _)
    rw [if_pos rfl,hnone]
    simp
  · rw [if_neg h]
    have hlast : [DeployRow.mk (s.lastDeploy+1) app .detect .inProgress none].find?
        (fun r => r.id = d) = none := by simp [Ne.symm h]
    rw [hlast,Option.or_none]
    rfl

theorem mem_inProgressDeploys {r : DeployRow} :
    r ∈ s.inProgressDeploys ↔ s.row r.id = some r ∧ r.status = .inProgress := by
  simp only [inProgressDeploys,List.mem_filter,decide_eq_true_eq]
  exact and_congr_left fun _ => ⟨row_of_mem,mem_of_row⟩

end Rows

section Locks

theorem lock_dropLocks (free : ℕ → Bool) (app : Text) :
    (s.dropLocks free).lock app = (s.lock app).filter fun d => !free d := by
  refine Option.ext fun d => ?_
  change AList.lookup app (s.dropLocks free).locks = some d ↔
    Option.filter _ (AList.lookup app s.locks) = some d
  simp only [← Option.mem_def]
  rw [AList.mem_lookup_iff,Option.mem_filter_iff,AList.mem_lookup_iff]
  exact List.mem_filter

@[simp] theorem lock_setRow (d : ℕ) (f : DeployRow → DeployRow) (app : Text) :
    (s.setRow d f).lock app = s.lock app := rfl

@[simp] theorem lock_appendEvent (event : Event) (app : Text) :
    (s.appendEvent event).2.lock app = s.lock app := rfl

@[simp] theorem row_appendEvent (event : Event) (d : ℕ) :
    (s.appendEvent event).2.row d = s.row d := rfl

@[simp] theorem row_dropLocks (free : ℕ → Bool) (d : ℕ) : (s.dropLocks free).row d = s.row d := rfl

theorem lock_acquireLock (app app' : Text) (d : ℕ) : (s.acquireLock app d).2.lock app' =
    if app' = app ∧ (s.acquireLock app d).1 then some d else s.lock app' := by
  unfold acquireLock
  split
  · simp
  · by_cases h : app' = app
    · subst h
      simp [lock]
    · simp [lock,h,AList.lookup_insert_ne h]

theorem acquireLock_fst (app : Text) (d : ℕ) : (s.acquireLock app d).1 = (s.lock app).isNone := by
  unfold acquireLock
  cases h : s.lock app <;> simp

theorem lock_releaseLock (app app' : Text) : (s.releaseLock app).lock app' =
    if app' = app then none else s.lock app' := by
  by_cases h : app' = app
  · subst h
    simp [lock,releaseLock]
  · simp [lock,releaseLock,h,AList.lookup_erase_ne h]

end Locks

section Finish

theorem advanceStage_eq_ok {d : ℕ} {stage : Stage} : s.advanceStage d stage = .ok s' ↔
    s.InProgress d ∧ s' = s.setRow d fun r => { r with stage := stage } := by
  unfold advanceStage InProgress
  cases h : s.row d with
  | none => simp
  | some r =>
    by_cases hs : r.status = .inProgress
    · simp [hs,eq_comm (a := s')]
    · simp [hs]

theorem finishDeploy_eq_ok {d : ℕ} {status : DeployStatus} {detail : Option Message} :
    s.finishDeploy d status detail = .ok s' ↔ (s.row d).isSome ∧
      s' = s.setRow d fun r => { r with status := status, detail := detail } := by
  unfold finishDeploy
  by_cases h : (s.row d).isSome <;> simp [h,eq_comm]

theorem finishDeployWithEvent_eq_ok {d : ℕ} {status : DeployStatus} {detail : Option Message}
    {e : StoredEvent} : s.finishDeployWithEvent d status detail = .ok (e,s') ↔ (s.row d).isSome ∧
      (e,s') = ((s.setRow d fun r => { r with status := status, detail := detail }).dropLocks
        (· == d)).appendEvent (.finished d status detail) := by
  unfold finishDeployWithEvent
  cases h : s.finishDeploy d status detail with
  | error m =>
    have hnone : (s.row d).isSome = false := by
      unfold finishDeploy at h
      split at h
      · cases h
      · rename_i hr
        simpa using hr
    simp [bind,Except.bind,hnone]
  | ok t =>
    obtain ⟨hr,rfl⟩ := finishDeploy_eq_ok.mp h
    simp [bind,Except.bind,pure,Except.pure,hr,eq_comm]

theorem call_finishDeployWithEvent_isOk {d : ℕ} (status : DeployStatus)
    (detail : Option Message) (h : (s.row d).isSome) :
    ∃ e, (s.call (.finishDeployWithEvent d status detail)).1 = .ok e := by
  change ∃ e, (s.commit (s.finishDeployWithEvent d status detail)).1 = .ok e
  unfold finishDeployWithEvent finishDeploy
  rw [if_pos h]
  exact ⟨_,rfl⟩

/-- After the terminal write the row has its status, and no lock names the deploy. -/
theorem call_finishDeployWithEvent {d : ℕ} {status : DeployStatus} {detail : Option Message}
    {e : StoredEvent} (h : (s.call (.finishDeployWithEvent d status detail)).1 = .ok e) :
    (∃ r, (s.call (.finishDeployWithEvent d status detail)).2.row d = some r ∧
      r.status = status) ∧
    ∀ app, (s.call (.finishDeployWithEvent d status detail)).2.lock app =
      (s.lock app).filter (· ≠ d) := by
  have hcommit : s.finishDeployWithEvent d status detail =
      .ok (e,(s.call (.finishDeployWithEvent d status detail)).2) := commit_eq_ok h
  obtain ⟨hrow,heq⟩ := finishDeployWithEvent_eq_ok.mp hcommit
  obtain ⟨r,hr⟩ := Option.isSome_iff_exists.mp hrow
  have hs := congrArg Prod.snd heq
  dsimp only at hs
  rw [hs]
  constructor
  · refine ⟨{ r with status := status, detail := detail },?_,rfl⟩
    rw [row_appendEvent,row_dropLocks,row_setRow,if_pos rfl,hr]
    rfl
  · intro app
    rw [lock_appendEvent,lock_dropLocks,lock_setRow]
    congr 1
    funext d'
    by_cases hd : d' = d <;> simp [hd]

end Finish

section Specs

theorem spec_of_putSpec {name slug json : Text} (h : s.putSpec name slug json = .ok s') :
    s'.spec = Function.update s.spec name (some json) := by
  unfold putSpec at h
  split at h
  · cases h
    funext n
    by_cases hn : n = name
    · subst hn
      simp [spec]
    · simp [spec,AList.lookup_insert_ne hn,Function.update_of_ne hn]
  · cases h

/-- An accepted registration writes its own row and nothing else. -/
theorem registerApp_ok {config : AppConfig} (h : s.registerApp config = .ok s') :
    s' = { s with
      configs := s.configs.insert config.name {
        repoPath := config.repoPath
        routeDomain := config.route.map Route.domain
        routePort := config.route.map fun route => (route.port.toNat : ℤ) } } := by
  simp only [registerApp] at h
  split at h
  · exact nomatch h
  split at h
  · exact nomatch h
  split at h
  · exact nomatch h
  exact (Except.ok.inj h).symm

/-- Every call but `putSpec` leaves the stored specs alone. -/
theorem spec_call (s : Store) {o : StoreOp} (h : ∀ name slug json, o ≠ .putSpec name slug json) :
    (s.call o).2.spec = s.spec := by
  cases o with
  | putSpec name slug json => exact absurd rfl (h name slug json)
  | advanceStage d stage =>
    refine commit_induct (P := fun t => t.spec = s.spec) rfl fun a t ht => ?_
    rw [(advanceStage_eq_ok.mp (map_pair_eq_ok.mp ht)).2]
    rfl
  | finishDeploy d status detail =>
    refine commit_induct (P := fun t => t.spec = s.spec) rfl fun a t ht => ?_
    rw [(finishDeploy_eq_ok.mp (map_pair_eq_ok.mp ht)).2]
    rfl
  | finishDeployWithEvent d status detail =>
    refine commit_induct (P := fun t => t.spec = s.spec) rfl fun a t ht => ?_
    exact congrArg (fun p => p.2.spec) (finishDeployWithEvent_eq_ok.mp ht).2
  | registerApp config =>
    refine commit_induct (P := fun t => t.spec = s.spec) rfl fun a t ht => ?_
    rw [registerApp_ok (map_pair_eq_ok.mp ht)]
    rfl
  | acquireLock app d =>
    change (s.acquireLock app d).2.spec = s.spec
    unfold acquireLock
    split <;> rfl
  | currentSpec | createDeploy | deploy | inProgressDeploys | releaseLock | releaseOrphanedLocks
  | appendEvent | eventsFor | appConfig => rfl

end Specs

section Frame

theorem row_putSpec {name slug json : Text} (h : s.putSpec name slug json = .ok s') (d : ℕ) :
    s'.row d = s.row d := by
  unfold putSpec at h
  split at h <;> cases h
  rfl

theorem row_acquireLock (app : Text) (d d' : ℕ) : (s.acquireLock app d).2.row d' = s.row d' := by
  unfold acquireLock
  split <;> rfl

theorem le_lastDeploy_of_row {d : ℕ} {r : DeployRow} (h : s.row d = some r) : d ≤ s.lastDeploy := by
  have hle := s.deploys_le r (mem_of_row h)
  rwa [id_of_row h] at hle

/-- A call that does not move a deploy leaves its row alone. -/
theorem row_call (s : Store) {o : StoreOp} {d : ℕ} (hm : ¬o.Moves d) (hd : (s.row d).isSome) :
    (s.call o).2.row d = s.row d := by
  cases o with
  | putSpec name slug json =>
    refine commit_induct (P := fun t => t.row d = s.row d) rfl fun a t ht => ?_
    exact row_putSpec (map_pair_eq_ok.mp ht) d
  | createDeploy app =>
    obtain ⟨r,hr⟩ := Option.isSome_iff_exists.mp hd
    have hle := le_lastDeploy_of_row hr
    refine (row_createDeploy app d).trans (if_neg ?_)
    omega
  | advanceStage d' stage =>
    refine commit_induct (P := fun t => t.row d = s.row d) rfl fun a t ht => ?_
    rw [(advanceStage_eq_ok.mp (map_pair_eq_ok.mp ht)).2,row_setRow,if_neg (Ne.symm hm)]
  | finishDeploy d' status detail =>
    refine commit_induct (P := fun t => t.row d = s.row d) rfl fun a t ht => ?_
    rw [(finishDeploy_eq_ok.mp (map_pair_eq_ok.mp ht)).2,row_setRow,if_neg (Ne.symm hm)]
  | finishDeployWithEvent d' status detail =>
    refine commit_induct (P := fun t => t.row d = s.row d) rfl fun a t ht => ?_
    have ht' := congrArg Prod.snd (finishDeployWithEvent_eq_ok.mp ht).2
    dsimp only at ht'
    rw [ht',row_appendEvent,row_dropLocks,row_setRow,if_neg (Ne.symm hm)]
  | registerApp config =>
    refine commit_induct (P := fun t => t.row d = s.row d) rfl fun a t ht => ?_
    rw [registerApp_ok (map_pair_eq_ok.mp ht)]
    rfl
  | acquireLock app d' => exact row_acquireLock app d' d
  | currentSpec | deploy | inProgressDeploys | releaseLock | releaseOrphanedLocks | appendEvent
  | eventsFor | appConfig => rfl

/-- An accepted call of `advance_stage` moves the row, which stays in progress. -/
theorem call_advanceStage {d : ℕ} {stage : Stage} {u : Unit}
    (h : (s.call (.advanceStage d stage)).1 = .ok u) : ∃ r, s.row d = some r ∧
      r.status = .inProgress ∧
      (s.call (.advanceStage d stage)).2.row d = some { r with stage := stage } := by
  have hcommit := map_pair_eq_ok.mp (commit_eq_ok h)
  obtain ⟨⟨r,hr,hs⟩,heq⟩ := advanceStage_eq_ok.mp hcommit
  refine ⟨r,hr,hs,?_⟩
  refine (congrArg (fun t => t.row d) heq).trans ?_
  rw [row_setRow,if_pos rfl,hr]
  rfl

theorem call_error {α : Type} {r : Except Message (α × Store)} {e : Message}
    (h : (s.commit r).1 = .error e) : (s.commit r).2 = s := by
  cases r with
  | error e => rfl
  | ok p => cases h

end Frame

section Timeline

/-- After the terminal write the log has one event more, the terminal one. -/
theorem events_finishDeployWithEvent {d : ℕ} {status : DeployStatus} {detail : Option Message}
    {e : StoredEvent} (h : (s.call (.finishDeployWithEvent d status detail)).1 = .ok e) :
    e = ⟨s.lastEvent+1,.finished d status detail⟩ ∧
    (s.call (.finishDeployWithEvent d status detail)).2.events = s.events ++ [e] ∧
    (s.call (.finishDeployWithEvent d status detail)).2.lastEvent = s.lastEvent+1 := by
  have hcommit : s.finishDeployWithEvent d status detail =
      .ok (e,(s.call (.finishDeployWithEvent d status detail)).2) := commit_eq_ok h
  have heq := (finishDeployWithEvent_eq_ok.mp hcommit).2
  have he := congrArg Prod.fst heq
  have hs := congrArg Prod.snd heq
  dsimp only at he hs
  rw [hs,he]
  exact ⟨rfl,rfl,rfl⟩

/-- Every other call but `append_event` leaves the log alone. -/
theorem events_call (s : Store) {o : StoreOp} (happend : ∀ event, o ≠ .appendEvent event)
    (hfinish : ∀ d status detail, o ≠ .finishDeployWithEvent d status detail) :
    (s.call o).2.events = s.events ∧ (s.call o).2.lastEvent = s.lastEvent := by
  cases o with
  | appendEvent event => exact absurd rfl (happend event)
  | finishDeployWithEvent d status detail => exact absurd rfl (hfinish d status detail)
  | putSpec name slug json =>
    refine commit_induct (P := fun t => t.events = s.events ∧ t.lastEvent = s.lastEvent)
      ⟨rfl,rfl⟩ fun a t ht => ?_
    have hput := map_pair_eq_ok.mp ht
    unfold putSpec at hput
    split at hput <;> cases hput
    exact ⟨rfl,rfl⟩
  | advanceStage d stage =>
    refine commit_induct (P := fun t => t.events = s.events ∧ t.lastEvent = s.lastEvent)
      ⟨rfl,rfl⟩ fun a t ht => ?_
    rw [(advanceStage_eq_ok.mp (map_pair_eq_ok.mp ht)).2]
    exact ⟨rfl,rfl⟩
  | finishDeploy d status detail =>
    refine commit_induct (P := fun t => t.events = s.events ∧ t.lastEvent = s.lastEvent)
      ⟨rfl,rfl⟩ fun a t ht => ?_
    rw [(finishDeploy_eq_ok.mp (map_pair_eq_ok.mp ht)).2]
    exact ⟨rfl,rfl⟩
  | registerApp config =>
    refine commit_induct (P := fun t => t.events = s.events ∧ t.lastEvent = s.lastEvent)
      ⟨rfl,rfl⟩ fun a t ht => ?_
    rw [registerApp_ok (map_pair_eq_ok.mp ht)]
    exact ⟨rfl,rfl⟩
  | acquireLock app d =>
    change (s.acquireLock app d).2.events = s.events ∧ (s.acquireLock app d).2.lastEvent = _
    unfold acquireLock
    split <;> exact ⟨rfl,rfl⟩
  | currentSpec | createDeploy | deploy | inProgressDeploys | releaseLock | releaseOrphanedLocks
  | eventsFor | appConfig => exact ⟨rfl,rfl⟩

/-- The call may end deploy `d`. -/
def Ends (d : ℕ) : StoreOp → Prop
  | .finishDeploy d' .. | .finishDeployWithEvent d' .. => d' = d
  | _ => False

theorem Ends.eq {d : ℕ} {o : StoreOp} (h : Ends d o) : ∃ status detail,
    o = .finishDeploy d status detail ∨ o = .finishDeployWithEvent d status detail := by
  cases o with
  | finishDeploy d' status detail =>
    obtain rfl : d' = d := h
    exact ⟨status,detail,.inl rfl⟩
  | finishDeployWithEvent d' status detail =>
    obtain rfl : d' = d := h
    exact ⟨status,detail,.inr rfl⟩
  | putSpec | currentSpec | createDeploy | advanceStage | deploy | inProgressDeploys
  | acquireLock | releaseLock | releaseOrphanedLocks | appendEvent | eventsFor | registerApp
  | appConfig => exact h.elim

/-- A row keeps its status until a call ends its deploy. -/
theorem status_call (s : Store) {o : StoreOp} {d : ℕ} {r : DeployRow} (ho : ¬Ends d o)
    (hr : s.row d = some r) : ∃ r', (s.call o).2.row d = some r' ∧ r'.status = r.status := by
  by_cases hm : o.Moves d
  · cases o with
    | advanceStage d' stage =>
      obtain rfl : d' = d := hm
      refine commit_induct (P := fun t => ∃ r', t.row d' = some r' ∧ r'.status = r.status)
        ⟨r,hr,rfl⟩ fun a t ht => ?_
      rw [(advanceStage_eq_ok.mp (map_pair_eq_ok.mp ht)).2,row_setRow,if_pos rfl,hr]
      exact ⟨_,rfl,rfl⟩
    | finishDeploy | finishDeployWithEvent => exact absurd hm ho
    | putSpec | currentSpec | createDeploy | deploy | inProgressDeploys | acquireLock
    | releaseLock | releaseOrphanedLocks | appendEvent | eventsFor | registerApp | appConfig =>
      exact hm.elim
  · rw [row_call s hm (by simp [hr]),hr]
    exact ⟨r,rfl,rfl⟩

/-- A call that ends a deploy gives its row the status. -/
theorem row_ended {d : ℕ} {status : DeployStatus} {detail : Option Message} {o : StoreOp}
    (ho : o = .finishDeploy d status detail ∨ o = .finishDeployWithEvent d status detail)
    (hr : (s.row d).isSome) : ∃ r, (s.call o).2.row d = some r ∧ r.status = status := by
  rcases ho with rfl | rfl
  · have hok := finishDeploy_eq_ok.mpr
      ⟨hr,show s.setRow d (fun r => { r with status := status, detail := detail }) = _ from rfl⟩
    obtain ⟨r,hrow⟩ := Option.isSome_iff_exists.mp hr
    refine ⟨{ r with status := status, detail := detail },?_,rfl⟩
    change (s.commit ((s.finishDeploy d status detail).map fun t => ((),t))).2.row d = _
    rw [hok]
    change (s.setRow d _).row d = _
    rw [row_setRow,if_pos rfl,hrow]
    rfl
  · obtain ⟨e,he⟩ := call_finishDeployWithEvent_isOk status detail hr
    exact (call_finishDeployWithEvent he).1

theorem eventsFor_eq_ok {d : ℕ} {l : List StoredEvent} (h : s.eventsFor d = .ok l) :
    l = s.events.filter fun e => e.event.deployId = d := by
  unfold eventsFor at h
  dsimp only at h
  split at h
  · exact nomatch h
  · exact (Except.ok.inj h).symm

/-- An event stays in the log. -/
theorem mem_events_call (s : Store) (o : StoreOp) {e : StoredEvent} (h : e ∈ s.events) :
    e ∈ (s.call o).2.events := by
  by_cases happend : ∃ event, o = .appendEvent event
  · obtain ⟨event,rfl⟩ := happend
    exact List.mem_append_left _ h
  by_cases hfinish : ∃ d status detail, o = .finishDeployWithEvent d status detail
  · obtain ⟨d,status,detail,rfl⟩ := hfinish
    cases hcall : (s.call (.finishDeployWithEvent d status detail)).1 with
    | error why =>
      rw [show (s.call (.finishDeployWithEvent d status detail)).2 = s from call_error hcall]
      exact h
    | ok e' =>
      rw [(events_finishDeployWithEvent hcall).2.1]
      exact List.mem_append_left _ h
  · have hsame := events_call s (fun event ho => happend ⟨event,ho⟩)
      fun d status detail ho => hfinish ⟨d,status,detail,ho⟩
    rw [hsame.1]
    exact h

end Timeline

/-- A row keeps its app. -/
theorem app_of_setRow {d d' : ℕ} {f : DeployRow → DeployRow} {r : DeployRow}
    (hf : ∀ r, (f r).app = r.app) (h : (s.setRow d f).row d' = some r) :
    ∃ r', s.row d' = some r' ∧ r'.app = r.app := by
  rw [row_setRow] at h
  split at h
  · next heq =>
    obtain ⟨r',hr',rfl⟩ := Option.map_eq_some_iff.mp h
    exact ⟨r',heq ▸ hr',(hf r').symm⟩
  · exact ⟨r,h,rfl⟩

/-- Every row after a call is an old one of the same app, or the one that was created. -/
theorem app_call (s : Store) {o : StoreOp} {d : ℕ} {r : DeployRow}
    (h : (s.call o).2.row d = some r) :
    o = .createDeploy r.app ∨ ∃ r', s.row d = some r' ∧ r'.app = r.app := by
  have hsame : s.row d = some r → ∃ r', s.row d = some r' ∧ r'.app = r.app :=
    fun hr => ⟨r,hr,rfl⟩
  cases o with
  | createDeploy app =>
    rw [show (s.call (.createDeploy app)).2.row d = _ from row_createDeploy app d] at h
    split at h
    · cases h
      exact .inl rfl
    · exact .inr (hsame h)
  | putSpec name slug json =>
    refine .inr (commit_induct (P := fun t => t.row d = some r → _) hsame (fun a t ht hr => ?_) h)
    exact hsame (row_putSpec (map_pair_eq_ok.mp ht) d ▸ hr)
  | advanceStage d' stage =>
    refine .inr (commit_induct (P := fun t => t.row d = some r → _) hsame (fun a t ht hr => ?_) h)
    rw [(advanceStage_eq_ok.mp (map_pair_eq_ok.mp ht)).2] at hr
    exact app_of_setRow (by intro; rfl) hr
  | finishDeploy d' status detail =>
    refine .inr (commit_induct (P := fun t => t.row d = some r → _) hsame (fun a t ht hr => ?_) h)
    rw [(finishDeploy_eq_ok.mp (map_pair_eq_ok.mp ht)).2] at hr
    exact app_of_setRow (by intro; rfl) hr
  | finishDeployWithEvent d' status detail =>
    refine .inr (commit_induct (P := fun t => t.row d = some r → _) hsame (fun a t ht hr => ?_) h)
    have ht' := congrArg Prod.snd (finishDeployWithEvent_eq_ok.mp ht).2
    dsimp only at ht'
    rw [ht',row_appendEvent,row_dropLocks] at hr
    exact app_of_setRow (by intro; rfl) hr
  | registerApp config =>
    refine .inr (commit_induct (P := fun t => t.row d = some r → _) hsame (fun a t ht hr => ?_) h)
    rw [registerApp_ok (map_pair_eq_ok.mp ht)] at hr
    exact hsame hr
  | acquireLock app d' => exact .inr (hsame ((row_acquireLock app d' d).symm.trans h))
  | currentSpec | deploy | inProgressDeploys | releaseLock | releaseOrphanedLocks | appendEvent
  | eventsFor | appConfig => exact .inr (hsame h)

end Kuadrat.Store
