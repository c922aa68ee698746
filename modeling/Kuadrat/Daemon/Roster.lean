import Kuadrat.Daemon.Duty
import Kuadrat.Daemon.Sealed

/-!
# The threads and their rows

Every thread has its duty, and the rows are as the duties say. Who works off the rows of a
reconciliation has the slot; the owners of these rows, if there are any, are tasks that
still wait for it.
-/
namespace Kuadrat

open Effect

namespace Phase

/-- What the phase of its owner says about a row; only where tasks may wait is it of interest
whether the log is closed. -/
def Row (waits : Prop) (s : Store) (d : ℕ) : Phase → Prop
  | created | refused | holds | live => s.InProgress d
  | spent => (∃ r, s.row d = some r ∧ r.status = .failed) ∧ (waits → ¬s.Closed d)
  | dead => ¬s.InProgress d
  | queued | done | left => True

theorem Row.of_open {waits : Prop} {s : Store} {d : ℕ} {phase : Phase} (h : phase.Open) :
    phase.Row waits s d ↔ s.InProgress d := by
  cases phase with
  | created | refused | holds | live => exact Iff.rfl
  | spent | queued | dead | done | left => exact h.elim

end Phase

/-- Nothing happens to the row and the log of `d`. -/
def Store.Spares (s t : Store) (d : ℕ) : Prop := t.row d = s.row d ∧ (t.Closed d ↔ s.Closed d)

section Spares
variable {s t : Store} {d : ℕ} {waits : Prop} {phase : Phase}

theorem Store.Spares.inProgress (h : s.Spares t d) (hd : s.InProgress d) : t.InProgress d := by
  unfold Store.InProgress
  rw [h.1]
  exact hd

theorem Phase.Row.spared (h : s.Spares t d) (hp : phase.Row waits s d) : phase.Row waits t d := by
  cases phase with
  | created | refused | holds | live => exact h.inProgress hp
  | spent =>
    refine ⟨?_,fun hw hclosed => hp.2 hw (h.2.mp hclosed)⟩
    rw [h.1]
    exact hp.1
  | dead =>
    intro hd
    refine hp ?_
    unfold Store.InProgress at hd ⊢
    rwa [← h.1]
  | queued | done | left => trivial

theorem Store.spares_call {o : StoreOp} (happend : ∀ event, o ≠ .appendEvent event)
    (hfinish : ∀ d status detail, o ≠ .finishDeployWithEvent d status detail) (hm : ¬o.Moves d)
    (hd : (s.row d).isSome) : s.Spares (s.call o).2 d :=
  ⟨row_call s hm hd,closed_eq (events_call s happend hfinish).1⟩

theorem Store.spares_closing {d' : ℕ} (status : DeployStatus) (detail : Option Message)
    (hd : d ≠ d') : s.Spares (s.closing d' status detail).2 d :=
  ⟨(row_closing ..).trans (if_neg hd),closed_closing (Ne.symm hd)⟩

end Spares

/-- The duties of the threads, and the shared state, are in line. -/
structure Roster (waits : Prop) (memo : ℕ → Duty) (s : Shared) : Prop where
  owner : ∀ i, s.owner i = (memo i).deploy
  own : ∀ i j d, (memo i).deploy = some d → (memo j).deploy = some d → i = j
  slot : ∀ i, (memo i).InSlot → s.holder .slot = some i
  task : ∀ i, s.spawned i = true → ∃ phase d, memo i = .own phase d ∧ phase.OfTask
  row : ∀ i phase d, memo i = .own phase d →
    (s.store.row d).isSome ∧ phase.Row waits s.store d
  listed : ∀ i l, memo i = .working l → l.Nodup ∧ ∀ d ∈ l, s.store.InProgress d ∧
    ∀ j, (memo j).deploy = some d → waits ∧ ∃ phase, memo j = .own phase d ∧ phase.Passive
  closed : waits → s.store.Sealed

namespace Duty

theorem deploy_eq_some {m : Duty} {d : ℕ} : m.deploy = some d ↔ ∃ phase, m = .own phase d := by
  cases m with
  | own phase d' => simp [deploy]
  | free | slotted | working => simp [deploy]

theorem deploy_vacate {m : Duty} : m.vacate.deploy = m.deploy := by
  cases m <;> rfl

theorem not_inSlot_vacate {m : Duty} : ¬m.vacate.InSlot := by
  cases m with
  | own phase d => cases phase <;> exact id
  | free | slotted | working => exact id

theorem vacate_of_not_inSlot {m : Duty} (h : ¬m.InSlot) : m.vacate = m := by
  cases m with
  | own phase d =>
    cases phase with
    | live | dead | done => exact absurd trivial h
    | created | refused | holds | spent | queued | left => rfl
  | free => rfl
  | slotted | working => exact absurd trivial h

end Duty

section Turn
variable {waits : Prop} {memo : ℕ → Duty} {s t : Shared} {i : ℕ}

theorem Roster.alone (h : Roster waits memo s) {j : ℕ} (hi : (memo i).InSlot)
    (hj : (memo j).InSlot) : j = i :=
  Option.some.inj ((h.slot j hj).symm.trans (h.slot i hi))

/-- The row of a thread that may still end it is on no list. -/
theorem Roster.not_listed (h : Roster waits memo s) {phase : Phase} {d j : ℕ} {l : List ℕ}
    (hi : memo i = .own phase d) (hactive : ¬phase.Passive) (hj : memo j = .working l) :
    d ∉ l := by
  intro hd
  obtain ⟨-,phase',hi',hpassive⟩ := ((h.listed j l hj).2 d hd).2 i (by rw [hi]; rfl)
  rw [hi] at hi'
  cases hi'
  exact hactive hpassive

/-- Nothing happens to any duty. -/
theorem Roster.same (h : Roster waits memo s) (howner : t.owner = s.owner)
    (hslot : ∀ j, (memo j).InSlot → t.holder .slot = some j) (hspawned : t.spawned = s.spawned)
    (hspare : ∀ d, (s.store.row d).isSome → s.store.Spares t.store d)
    (hclosed : waits → t.store.Sealed) : Roster waits memo t where
  owner j := by rw [howner]; exact h.owner j
  own := h.own
  slot := hslot
  task j hj := by
    rw [hspawned] at hj
    exact h.task j hj
  row j phase d hj := by
    obtain ⟨hrow,hp⟩ := h.row j phase d hj
    have hd := hspare d hrow
    rw [hd.1]
    exact ⟨hrow,hp.spared hd⟩
  listed j l hj := by
    obtain ⟨hnodup,hl⟩ := h.listed j l hj
    refine ⟨hnodup,fun d hd => ⟨?_,(hl d hd).2⟩⟩
    obtain ⟨r,hr,hs⟩ := (hl d hd).1
    exact (hspare d (Option.isSome_of_eq_some hr)).inProgress ⟨r,hr,hs⟩
  closed := hclosed

/-- The deploys of the threads, once `i` has taken on another duty. -/
theorem deploy_update (m : Duty) (j : ℕ) : (Function.update memo i m j).deploy =
    Function.update (fun k => (memo k).deploy) i m.deploy j :=
  Function.apply_update (fun _ => Duty.deploy) memo i m j

/-- Nobody else gets the slot when `i` takes on a duty that needs it only as its last one did. -/
theorem Roster.slot_update (h : Roster waits memo s) {m : Duty} {j : ℕ}
    (hm : m.InSlot → (memo i).InSlot) (hj : (Function.update memo i m j).InSlot) :
    s.holder .slot = some j := by
  rcases update_cases (y := Function.update memo i m j) rfl with ⟨rfl,heq⟩ | ⟨-,heq⟩
  · rw [← heq] at hj
    exact h.slot j (hm hj)
  · rw [← heq] at hj
    exact h.slot j hj

/-- Thread `i` takes on another duty with the same deploy. -/
theorem Roster.turn (h : Roster waits memo s) {m : Duty} (hdeploy : m.deploy = (memo i).deploy)
    (howner : t.owner = s.owner) (hspawned : t.spawned = s.spawned)
    (hslot : ∀ j, (Function.update memo i m j).InSlot → t.holder .slot = some j)
    (htask : s.spawned i = true → ∃ phase d, m = .own phase d ∧ phase.OfTask)
    (hself : ∀ phase d, m = .own phase d → (t.store.row d).isSome ∧ phase.Row waits t.store d)
    (hothers : ∀ j phase d, j ≠ i → memo j = .own phase d →
      (t.store.row d).isSome ∧ phase.Row waits t.store d)
    (hlist : ∀ l, m = .working l → l.Nodup ∧ ∀ d ∈ l, t.store.InProgress d ∧
      ∀ j, (memo j).deploy = some d → waits ∧ ∃ phase, memo j = .own phase d ∧ phase.Passive)
    (hlists : ∀ j l, j ≠ i → memo j = .working l → ∀ d ∈ l,
      t.store.InProgress d ∧ (memo i).deploy ≠ some d)
    (hclosed : waits → t.store.Sealed) : Roster waits (Function.update memo i m) t := by
  have hkeep : ∀ j, (Function.update memo i m j).deploy = (memo j).deploy := by
    intro j
    rw [deploy_update,hdeploy,Function.update_eq_self]
  refine ⟨fun j => ?_,fun j k d hj hk => ?_,hslot,fun j hj => ?_,fun j phase d hj => ?_,
    fun j l hj => ?_,hclosed⟩
  · rw [howner,hkeep]
    exact h.owner j
  · rw [hkeep] at hj hk
    exact h.own j k d hj hk
  · rw [hspawned] at hj
    rcases update_cases (y := Function.update memo i m j) rfl with ⟨rfl,heq⟩ | ⟨-,heq⟩
    · rw [← heq]
      exact htask hj
    · rw [← heq]
      exact h.task j hj
  · rcases update_cases hj with ⟨-,hm⟩ | ⟨hji,hj⟩
    · exact hself phase d hm
    · exact hothers j phase d hji hj
  · rcases update_cases hj with ⟨-,hm⟩ | ⟨hji,hold⟩
    · obtain ⟨hnodup,hl⟩ := hlist l hm
      refine ⟨hnodup,fun d hd => ⟨(hl d hd).1,fun k hk => ?_⟩⟩
      rw [hkeep] at hk
      have hki : k ≠ i := by
        rintro rfl
        rw [← hdeploy,hm] at hk
        cases hk
      rw [Function.update_of_ne hki]
      exact (hl d hd).2 k hk
    · obtain ⟨hnodup,hl⟩ := h.listed j l hold
      refine ⟨hnodup,fun d hd => ⟨(hlists j l hji hold d hd).1,fun k hk => ?_⟩⟩
      rw [hkeep] at hk
      have hki : k ≠ i := by
        rintro rfl
        exact (hlists j l hji hold d hd).2 hk
      rw [Function.update_of_ne hki]
      exact (hl d hd).2 k hk

/-- Thread `i` goes on with its row, to which it alone does something. -/
theorem Roster.turn_own (h : Roster waits memo s) {phase phase' : Phase} {d : ℕ}
    (hi : memo i = .own phase d) (hactive : ¬phase.Passive) (howner : t.owner = s.owner)
    (hholder : t.holder = s.holder) (hspawned : t.spawned = s.spawned)
    (hslot : phase'.InSlot → phase.InSlot) (htask : phase.OfTask → phase'.OfTask)
    (hspare : ∀ d', d' ≠ d → (s.store.row d').isSome → s.store.Spares t.store d')
    (hrow : (t.store.row d).isSome) (hphase : phase'.Row waits t.store d)
    (hclosed : waits → t.store.Sealed) :
    Roster waits (Function.update memo i (.own phase' d)) t := by
  have hother : ∀ j phase₁ d₁, j ≠ i → memo j = .own phase₁ d₁ → d₁ ≠ d := by
    rintro j phase₁ d₁ hji hj rfl
    exact hji (h.own j i d₁ (by rw [hj]; rfl) (by rw [hi]; rfl))
  refine h.turn (by rw [hi]; rfl) howner hspawned (fun j hj => ?_) (fun hs => ?_)
    (fun phase₁ d₁ hm => ?_) (fun j phase₁ d₁ hji hj => ?_) (fun l hm => nomatch hm)
    (fun j l hji hj d₁ hd₁ => ?_) hclosed
  · rw [hholder]
    refine h.slot_update (fun hm => ?_) hj
    rw [hi]
    exact hslot hm
  · obtain ⟨phase₁,d₁,hi',htask₁⟩ := h.task i hs
    rw [hi] at hi'
    cases hi'
    exact ⟨phase',d,rfl,htask htask₁⟩
  · cases hm
    exact ⟨hrow,hphase⟩
  · obtain ⟨hrow₁,hp⟩ := h.row j phase₁ d₁ hj
    have hd := hspare d₁ (hother j phase₁ d₁ hji hj) hrow₁
    rw [hd.1]
    exact ⟨hrow₁,hp.spared hd⟩
  · have hne : d₁ ≠ d := by
      rintro rfl
      exact h.not_listed hi hactive hj hd₁
    obtain ⟨r,hr,hs⟩ := ((h.listed j l hj).2 d₁ hd₁).1
    refine ⟨(hspare d₁ hne (Option.isSome_of_eq_some hr)).inProgress ⟨r,hr,hs⟩,?_⟩
    rw [hi]
    exact fun heq => hne (Option.some.inj heq).symm

theorem Roster.not_spawned (h : Roster waits memo s)
    (hi : ∀ phase d, memo i = .own phase d → ¬phase.OfTask) : s.spawned i = false := by
  cases hs : s.spawned i with
  | false => rfl
  | true =>
    obtain ⟨phase,d,hown,htask⟩ := h.task i hs
    exact absurd htask (hi phase d hown)

/-- Thread `i` gives up whatever it had to do. -/
theorem Roster.retire (h : Roster waits memo s) (howner : t.owner = Function.update s.owner i none)
    (hslot : ∀ j, j ≠ i → s.holder .slot = some j → t.holder .slot = some j)
    (hspawned : ∀ j, t.spawned j = true → j ≠ i ∧ s.spawned j = true) (hstore : t.store = s.store) :
    Roster waits (Function.update memo i .free) t := by
  have hkept : ∀ j phase d, Function.update memo i .free j = .own phase d →
      memo j = .own phase d := by
    intro j phase d hj
    rcases update_cases hj with ⟨-,heq⟩ | ⟨-,hj⟩
    · cases heq
    · exact hj
  have hdeploy : ∀ j d, (Function.update memo i .free j).deploy = some d →
      j ≠ i ∧ (memo j).deploy = some d := by
    intro j d hj
    rw [deploy_update] at hj
    rcases update_cases hj with ⟨-,heq⟩ | hj
    · cases heq
    · exact hj
  refine ⟨fun j => ?_,fun j k d hj hk => h.own j k d (hdeploy j d hj).2 (hdeploy k d hk).2,
    fun j hj => ?_,fun j hj => ?_,fun j phase d hj => ?_,fun j l hj => ?_,fun hw => ?_⟩
  · rw [howner,deploy_update,funext h.owner]
    rfl
  · rcases update_cases (y := Function.update memo i .free j) rfl with ⟨-,heq⟩ | ⟨hji,heq⟩
    · rw [← heq] at hj
      exact hj.elim
    · rw [← heq] at hj
      exact hslot j hji (h.slot j hj)
  · obtain ⟨hji,hj⟩ := hspawned j hj
    rw [Function.update_of_ne hji]
    exact h.task j hj
  · rw [hstore]
    exact h.row j phase d (hkept j phase d hj)
  · rcases update_cases hj with ⟨-,heq⟩ | ⟨hji,hj⟩
    · cases heq
    obtain ⟨hnodup,hl⟩ := h.listed j l hj
    rw [hstore]
    refine ⟨hnodup,fun d hd => ⟨(hl d hd).1,fun k hk => ?_⟩⟩
    obtain ⟨hki,hk⟩ := hdeploy k d hk
    rw [Function.update_of_ne hki]
    exact (hl d hd).2 k hk
  · rw [hstore]
    exact h.closed hw

/-- A thread that is free takes on a row that is nobody's, and on no list. -/
theorem Roster.adopt (h : Roster waits memo s) {phase : Phase} {d : ℕ} (hi : memo i = .free)
    (hnobody : ∀ j, (memo j).deploy ≠ some d) (hunlisted : ∀ j l, memo j = .working l → d ∉ l)
    (hin : ¬phase.InSlot) (howner : t.owner = Function.update s.owner i (some d))
    (hholder : t.holder = s.holder)
    (hspawned : ∀ j, t.spawned j = true → (j = i ∧ phase.OfTask) ∨ s.spawned j = true)
    (hspare : ∀ d', d' ≠ d → (s.store.row d').isSome → s.store.Spares t.store d')
    (hrow : (t.store.row d).isSome) (hphase : phase.Row waits t.store d)
    (hclosed : waits → t.store.Sealed) :
    Roster waits (Function.update memo i (.own phase d)) t := by
  have hdeploy : ∀ j d', (Function.update memo i (.own phase d) j).deploy = some d' →
      (j = i ∧ d' = d) ∨ (j ≠ i ∧ (memo j).deploy = some d') := by
    intro j d' hj
    rw [deploy_update] at hj
    rcases update_cases hj with ⟨hji,heq⟩ | hj
    · exact .inl ⟨hji,(Option.some.inj heq).symm⟩
    · exact .inr hj
  refine ⟨fun j => ?_,fun j k d' hj hk => ?_,fun j hj => ?_,fun j hj => ?_,
    fun j phase' d' hj => ?_,fun j l hj => ?_,hclosed⟩
  · rw [howner,deploy_update,funext h.owner]
    rfl
  · rcases hdeploy j d' hj with ⟨hji,hjd⟩ | ⟨-,hj⟩
    · rcases hdeploy k d' hk with ⟨hki,-⟩ | ⟨-,hk⟩
      · exact hji.trans hki.symm
      · exact absurd (hjd ▸ hk) (hnobody k)
    · rcases hdeploy k d' hk with ⟨-,hkd⟩ | ⟨-,hk⟩
      · exact absurd (hkd ▸ hj) (hnobody j)
      · exact h.own j k d' hj hk
  · rw [hholder]
    exact h.slot_update (m := .own phase d) (fun hm => absurd hm hin) hj
  · rcases hspawned j hj with ⟨rfl,htask⟩ | hj
    · exact ⟨phase,d,Function.update_self ..,htask⟩
    · obtain ⟨phase',d',hown,htask⟩ := h.task j hj
      have hji : j ≠ i := by
        rintro rfl
        rw [hi] at hown
        cases hown
      exact ⟨phase',d',(Function.update_of_ne hji ..).trans hown,htask⟩
  · rcases update_cases hj with ⟨-,heq⟩ | ⟨-,hj⟩
    · cases heq
      exact ⟨hrow,hphase⟩
    · obtain ⟨hrow',hp⟩ := h.row j phase' d' hj
      have hne : d' ≠ d := fun heq => hnobody j (Duty.deploy_eq_some.mpr ⟨phase',heq ▸ hj⟩)
      have hd := hspare d' hne hrow'
      rw [hd.1]
      exact ⟨hrow',hp.spared hd⟩
  · rcases update_cases hj with ⟨-,heq⟩ | ⟨-,hj⟩
    · cases heq
    obtain ⟨hnodup,hl⟩ := h.listed j l hj
    refine ⟨hnodup,fun d' hd => ?_⟩
    have hne : d' ≠ d := fun heq => hunlisted j l hj (heq ▸ hd)
    obtain ⟨⟨row,hr,hs⟩,howners⟩ := hl d' hd
    refine ⟨(hspare d' hne (Option.isSome_of_eq_some hr)).inProgress ⟨row,hr,hs⟩,fun k hk => ?_⟩
    rcases hdeploy k d' hk with ⟨-,heq⟩ | ⟨hki,hk⟩
    · exact absurd heq hne
    · rw [Function.update_of_ne hki]
      exact howners k hk

end Turn

section Calls
variable {waits : Prop} {memo : ℕ → Duty} {s t : Shared} {i d : ℕ} {host : Host}

/-- A new row is nobody's, and on no list. -/
theorem Roster.createDeploy (h : Roster waits memo s) {app : Text} {r : Except Message ℕ}
    (hi : memo i = .free) (hanswer : s.answer i (.store (.createDeploy app)) host = some (r,t)) :
    ∃ m, (memo i).post (.store (.createDeploy app)) r m ∧
      Roster waits (Function.update memo i m) t := by
  cases hanswer
  refine ⟨.own .created (s.store.lastDeploy+1),⟨_,rfl,rfl⟩,?_⟩
  have hnone : s.store.row (s.store.lastDeploy+1) = none :=
    Store.row_eq_none_of_lt (Nat.lt_succ_self _)
  have hrow : (s.store.createDeploy app).2.row (s.store.lastDeploy+1) = some _ :=
    (Store.row_createDeploy ..).trans (if_pos rfl)
  refine h.adopt hi (fun j hj => ?_) (fun j l hj hd => ?_) id rfl rfl (fun _ => .inr)
    (fun d _ hd => Store.spares_call (o := .createDeploy app) nofun nofun id hd)
    (Option.isSome_of_eq_some hrow) ⟨_,hrow,rfl⟩
    fun hw => (h.closed hw).call (o := .createDeploy app) nofun nofun fun _ hm => hm.elim
  · obtain ⟨phase,hj⟩ := Duty.deploy_eq_some.mp hj
    have hsome := (h.row j phase _ hj).1
    rw [hnone] at hsome
    cases hsome
  · obtain ⟨row,hr,-⟩ := ((h.listed j l hj).2 _ hd).1
    cases hnone.symm.trans hr

theorem Roster.acquireLock (h : Roster waits memo s) {app : Text} {r : Except Message Bool}
    (hi : memo i = .own .created d)
    (hanswer : s.answer i (.store (.acquireLock app d)) host = some (r,t)) :
    ∃ m, (memo i).post (.store (.acquireLock app d)) r m ∧
      Roster waits (Function.update memo i m) t := by
  obtain ⟨rfl,hstore,howner,hholder,hspawned⟩ := answer_store (by nofun) hanswer
  obtain ⟨hrow,hp⟩ := h.row i _ d hi
  have hspare : ∀ d', (s.store.row d').isSome → s.store.Spares t.store d' := by
    intro d' hd'
    rw [hstore]
    exact Store.spares_call nofun nofun id hd'
  have hturn : ∀ phase : Phase, ¬phase.InSlot → phase.Open →
      Roster waits (Function.update memo i (.own phase d)) t := by
    intro phase hslot hopen
    refine h.turn_own hi id howner hholder hspawned (fun hs => absurd hs hslot) (fun ht => ht.elim)
      (fun d' _ => hspare d') ?_ ((Phase.Row.of_open hopen).mpr ((hspare d hrow).inProgress hp))
      fun hw => ?_
    · rw [(hspare d hrow).1]
      exact hrow
    · rw [hstore]
      exact (h.closed hw).call nofun nofun fun _ hm => hm.elim
  cases hok : (s.store.acquireLock app d).1 with
  | true => exact ⟨.own .holds d,.inl ⟨congrArg Except.ok hok,rfl⟩,hturn _ id trivial⟩
  | false => exact ⟨.own .refused d,.inr ⟨congrArg Except.ok hok,rfl⟩,hturn _ id trivial⟩

/-- The rejection: the row is ended without an event. -/
theorem Roster.finishDeploy (h : Roster waits memo s) {detail : Option Message}
    {r : Except Message Unit} (hi : memo i = .own .refused d)
    (hanswer : s.answer i (.store (.finishDeploy d .failed detail)) host = some (r,t)) :
    ∃ m, (memo i).post (.store (.finishDeploy d .failed detail)) r m ∧
      Roster waits (Function.update memo i m) t := by
  obtain ⟨rfl,hstore,howner,hholder,hspawned⟩ := answer_store (by nofun) hanswer
  obtain ⟨hrow,hp⟩ := h.row i _ d hi
  have hopen : waits → ¬s.store.Closed d := fun hw => (h.closed hw).not_closed hp
  obtain ⟨row,hended,hstatus⟩ := Store.row_ended (s := s.store) (.inl (rfl : StoreOp.finishDeploy d .failed detail = _)) hrow
  have hcall := @Store.call_finishDeploy s.store d .failed detail hrow
  refine ⟨.own .spent d,⟨congrArg Prod.fst hcall,rfl⟩,?_⟩
  refine h.turn_own hi id howner hholder hspawned (fun hs => hs.elim) (fun ht => ht.elim) ?_ ?_
    ⟨⟨row,?_,hstatus⟩,fun hw hclosed => hopen hw ?_⟩ fun hw => ?_
  · intro d' hd' hrow'
    rw [hstore]
    exact Store.spares_call nofun nofun (fun hm => hd' hm.symm) hrow'
  · rw [hstore,hended]
    rfl
  · rw [hstore]
    exact hended
  · rw [hstore] at hclosed
    exact (Store.closed_eq (Store.events_call s.store (by nofun) (by nofun)).1).mp hclosed
  · rw [hstore]
    refine (h.closed hw).call nofun nofun fun d' hm => ?_
    rw [← show d = d' from hm]
    exact hopen hw

/-- A phase in which the owner may end the row leaves its log open. -/
theorem Roster.open_of_closes (h : Roster waits memo s) {phase : Phase} {status : DeployStatus}
    (hi : memo i = .own phase d) (hcloses : phase.Closes status) :
    ¬phase.Passive ∧ status ≠ .inProgress ∧ (waits → ¬s.store.Closed d) := by
  have hp := (h.row i phase d hi).2
  cases phase with
  | created | holds | live => exact ⟨id,hcloses,fun hw => (h.closed hw).not_closed hp⟩
  | spent =>
    obtain rfl : status = .failed := hcloses
    exact ⟨id,nofun,hp.2⟩
  | refused | queued | dead | done | left => exact hcloses.elim

/-- An owner ends its row. -/
theorem Roster.close_own (h : Roster waits memo s) {phase : Phase} {status : DeployStatus}
    {detail : Option Message} {r : Except Message StoredEvent} (hi : memo i = .own phase d)
    (hcloses : phase.Closes status)
    (hanswer : s.answer i (.store (.finishDeployWithEvent d status detail)) host = some (r,t)) :
    Roster waits (Function.update memo i (.own phase.close d)) t := by
  obtain ⟨rfl,hstore,howner,hholder,hspawned⟩ := answer_store (by nofun) hanswer
  obtain ⟨hrow,-⟩ := h.row i _ d hi
  obtain ⟨hactive,hs,hopen⟩ := h.open_of_closes hi hcloses
  rw [Store.call_closing hrow] at hstore
  refine h.turn_own hi hactive howner hholder hspawned (fun hslot => ?_) (fun htask => ?_) ?_ ?_ ?_
    fun hw => ?_
  · cases phase with
    | live => trivial
    | created | refused | holds | spent | queued | dead | done | left => exact hslot.elim
  · cases phase with
    | live | queued | dead | done | left => trivial
    | created | refused | holds | spent => exact htask.elim
  · intro d' hd' _
    rw [hstore]
    exact Store.spares_closing status detail hd'
  · rw [hstore,Store.row_closing,if_pos rfl,Option.isSome_map]
    exact hrow
  · cases phase <;> trivial
  · rw [hstore]
    exact (h.closed hw).closing detail (hopen hw) hrow hs

/-- A reconciliation ends one of the rows it has read. -/
theorem Roster.close_listed (h : Roster waits memo s) {l : List ℕ} {status : DeployStatus}
    {detail : Option Message} {r : Except Message StoredEvent} (hi : memo i = .working l)
    (hd : d ∈ l) (hs : status ≠ .inProgress)
    (hanswer : s.answer i (.store (.finishDeployWithEvent d status detail)) host = some (r,t)) :
    Roster waits (Function.update memo i (.working (l.erase d))) t := by
  obtain ⟨rfl,hstore,howner,hholder,hspawned⟩ := answer_store (by nofun) hanswer
  obtain ⟨hnodup,hl⟩ := h.listed i l hi
  obtain ⟨hin,howners⟩ := hl d hd
  obtain ⟨row,hr,-⟩ := id hin
  have hrow := Option.isSome_of_eq_some hr
  have hslot : (memo i).InSlot := by rw [hi]; trivial
  rw [Store.call_closing hrow] at hstore
  refine h.turn (by rw [hi]; rfl) howner hspawned (fun j hj => ?_) (fun hspawn => ?_)
    (fun phase d' hm => nomatch hm) (fun j phase d' hji hj => ?_) (fun l' hm => ?_)
    (fun j l' hji hj => ?_) fun hw => ?_
  · rw [hholder]
    exact h.slot_update (fun _ => hslot) hj
  · obtain ⟨phase,d',hown,-⟩ := h.task i hspawn
    rw [hi] at hown
    cases hown
  · obtain ⟨hrow',hp⟩ := h.row j phase d' hj
    by_cases hdd : d' = d
    · -- The owner of the row waits for the slot, and knows nothing about the row.
      subst hdd
      obtain ⟨-,phase',hj',hpassive⟩ := howners j (by rw [hj]; rfl)
      rw [hj] at hj'
      cases hj'
      rw [hstore,Store.row_closing,if_pos rfl,Option.isSome_map]
      refine ⟨hrow,?_⟩
      cases phase with
      | queued | left => trivial
      | created | refused | holds | spent | live | dead | done => exact hpassive.elim
    · have hspare := Store.spares_closing (s := s.store) status detail hdd
      rw [hstore,hspare.1]
      exact ⟨hrow',hp.spared hspare⟩
  · cases hm
    refine ⟨hnodup.erase d,fun d' hd' => ?_⟩
    obtain ⟨hne,hd'⟩ := hnodup.mem_erase_iff.mp hd'
    rw [hstore]
    exact ⟨(Store.spares_closing status detail hne).inProgress (hl d' hd').1,(hl d' hd').2⟩
  · exact absurd (h.alone hslot (by rw [hj]; trivial)) hji
  · rw [hstore]
    exact (h.closed hw).closing detail ((h.closed hw).not_closed hin) hrow hs

/-- A row that has ended is not moved. -/
theorem Store.call_advanceStage_ended {s : Store} (stage : Stage) (h : ¬s.InProgress d) :
    (∃ e, (s.call (.advanceStage d stage)).1 = .error e) ∧
      (s.call (.advanceStage d stage)).2 = s := by
  have herror : ∃ e, (s.call (.advanceStage d stage)).1 = .error e := by
    cases hcall : (s.call (.advanceStage d stage)).1 with
    | error e => exact ⟨e,rfl⟩
    | ok u =>
      obtain ⟨r,hr,hs,-⟩ := Store.call_advanceStage hcall
      exact absurd ⟨r,hr,hs⟩ h
  obtain ⟨e,he⟩ := herror
  exact ⟨⟨e,he⟩,Store.call_error he⟩

/-- A task that runs moves its row on; one that comes too late does not. -/
theorem Roster.advanceStage (h : Roster waits memo s) {stage : Stage} {r : Except Message Unit}
    (hi : memo i = .own .live d ∨ memo i = .own .dead d)
    (hanswer : s.answer i (.store (.advanceStage d stage)) host = some (r,t)) :
    ∃ m, (memo i).post (.store (.advanceStage d stage)) r m ∧
      Roster waits (Function.update memo i m) t := by
  obtain ⟨rfl,hstore,howner,hholder,hspawned⟩ := answer_store (by nofun) hanswer
  refine ⟨memo i,⟨rfl,fun hdead => ?_⟩,?_⟩
  · exact (Store.call_advanceStage_ended stage (h.row i _ d hdead).2).1
  rcases hi with hi | hi
  · obtain ⟨hrow,hp⟩ := h.row i _ d hi
    obtain ⟨row,hr,hs⟩ := id hp
    obtain ⟨row',hr',hs'⟩ := Store.status_call s.store (o := .advanceStage d stage) id hr
    rw [← hstore] at hr'
    rw [hi]
    refine h.turn_own hi id howner hholder hspawned id id (fun d' hd' hrow' => ?_)
      (Option.isSome_of_eq_some hr') ⟨row',hr',hs'.trans hs⟩ fun hw => ?_
    · rw [hstore]
      exact Store.spares_call (by nofun) (by nofun) (fun hm => hd' hm.symm) hrow'
    · rw [hstore]
      refine (h.closed hw).call (by nofun) (by nofun) fun d' hm => ?_
      rw [← show d = d' from hm]
      exact (h.closed hw).not_closed hp
  · rw [(Store.call_advanceStage_ended stage (h.row i _ d hi).2).2] at hstore
    rw [Function.update_eq_self]
    refine h.same howner (fun j hj => hholder ▸ h.slot j hj) hspawned (fun d' _ => ?_) fun hw => ?_
    · rw [hstore]
      exact ⟨rfl,Iff.rfl⟩
    · rw [hstore]
      exact h.closed hw

theorem Roster.appendEvent (h : Roster waits memo s) {event : Event}
    {r : Except Message StoredEvent} (hi : memo i = .own .live event.deployId)
    (hstage : ∀ status, event.kind ≠ .finished status)
    (hanswer : s.answer i (.store (.appendEvent event)) host = some (r,t)) :
    Roster waits (Function.update memo i (memo i)) t := by
  obtain ⟨rfl,hstore,howner,hholder,hspawned⟩ := answer_store (by nofun) hanswer
  have hp := (h.row i _ _ hi).2
  rw [Function.update_eq_self]
  refine h.same howner (fun j hj => hholder ▸ h.slot j hj) hspawned (fun d _ => ?_) fun hw => ?_
  · rw [hstore]
    exact ⟨rfl,Store.closed_appendEvent hstage⟩
  · rw [hstore]
    exact (h.closed hw).append ((h.closed hw).not_closed hp) hstage

/-- A reconciliation has read the rows in progress. -/
theorem Roster.inProgressDeploys (h : Roster waits memo s)
    {r : Except Message (List DeployRow)} (hi : memo i = .free ∨ memo i = .slotted)
    (hread : s.holder .slot = some i → ∀ d j, s.store.InProgress d → s.owner j = some d →
      waits ∧ s.spawned j = true)
    (hanswer : s.answer i (.store .inProgressDeploys) host = some (r,t)) :
    ∃ m, (memo i).post (.store .inProgressDeploys) r m ∧
      Roster waits (Function.update memo i m) t := by
  cases hanswer
  rcases hi with hi | hi
  · refine ⟨.free,⟨fun _ => rfl,fun hslotted => ?_⟩,?_⟩
    · rw [hi] at hslotted
      cases hslotted
    · rw [← hi,Function.update_eq_self]
      exact h.same rfl h.slot rfl (fun _ _ => ⟨rfl,Iff.rfl⟩) h.closed
  · have hin : (memo i).InSlot := by rw [hi]; trivial
    refine ⟨.working (s.store.inProgressDeploys.map DeployRow.id),⟨fun hfree => ?_,fun _ =>
      ⟨_,rfl,rfl⟩⟩,?_⟩
    · rw [hi] at hfree
      cases hfree
    refine h.turn (by rw [hi]; rfl) rfl rfl (fun j hj => ?_) (fun hspawn => ?_)
      (fun phase d hm => nomatch hm) (fun j phase d _ hj => h.row j phase d hj) (fun l hm => ?_)
      (fun j l hji hj => ?_) h.closed
    · exact h.slot_update (fun _ => hin) hj
    · obtain ⟨phase,d,hown,-⟩ := h.task i hspawn
      rw [hi] at hown
      cases hown
    · cases hm
      refine ⟨?_,fun d hd => ?_⟩
      · refine (List.pairwise_map.mpr (s.store.deploys_sorted.filter _)).imp ?_
        intro a b hab
        omega
      · obtain ⟨row,hrow,rfl⟩ := List.mem_map.mp hd
        have hopen : s.store.InProgress row.id := ⟨row,Store.mem_inProgressDeploys.mp hrow⟩
        refine ⟨hopen,fun j hj => ?_⟩
        obtain ⟨hw,hspawn⟩ := hread (h.slot i hin) row.id j hopen ((h.owner j).trans hj)
        obtain ⟨phase,d,hown,htask⟩ := h.task j hspawn
        rw [hown] at hj
        cases hj
        refine ⟨hw,phase,hown,?_⟩
        -- The slot is taken, so that this task does not run.
        have hout : ¬phase.InSlot := by
          intro hslot
          have hji := h.alone hin (j := j) (by rw [hown]; exact hslot)
          rw [hji,hi] at hown
          cases hown
        cases phase with
        | queued | left => trivial
        | live | dead | done => exact hout trivial
        | created | refused | holds | spent => exact htask.elim
    · exact absurd (h.alone hin (by rw [hj]; trivial)) hji

theorem Roster.neutral (h : Roster waits memo s) {o : StoreOp} {r : Except Message o.Reply}
    (hcreate : ∀ app, o ≠ .createDeploy app) (happend : ∀ event, o ≠ .appendEvent event)
    (hmoves : ∀ d, ¬o.Moves d) (hanswer : s.answer i (.store o) host = some (r,t)) :
    Roster waits (Function.update memo i (memo i)) t := by
  obtain ⟨rfl,hstore,howner,hholder,hspawned⟩ := answer_store hcreate hanswer
  have hfinish : ∀ d status detail, o ≠ .finishDeployWithEvent d status detail := by
    rintro d status detail rfl
    exact hmoves d rfl
  rw [Function.update_eq_self]
  refine h.same howner (fun j hj => hholder ▸ h.slot j hj) hspawned (fun d hd => ?_) fun hw => ?_
  · rw [hstore]
    exact Store.spares_call happend hfinish (hmoves d) hd
  · rw [hstore]
    exact (h.closed hw).call happend hfinish fun d hm => absurd hm (hmoves d)

/-- Whoever takes the slot is the only one at work. -/
theorem Roster.acquire (h : Roster waits memo s) {m : Duty} (hfree : s.holder .slot = none)
    (hdeploy : m.deploy = (memo i).deploy) (hlist : ∀ l, m ≠ .working l)
    (htask : s.spawned i = true → ∃ phase d, m = .own phase d ∧ phase.OfTask)
    (hself : ∀ phase d, m = .own phase d → (s.store.row d).isSome ∧ phase.Row waits s.store d) :
    Roster waits (Function.update memo i m)
      { s with holder := Function.update s.holder Guard.slot (some i) } := by
  have hidle : ∀ j, ¬(memo j).InSlot := by
    intro j hj
    rw [h.slot j hj] at hfree
    cases hfree
  refine h.turn hdeploy rfl rfl (fun j hj => ?_) htask hself (fun j phase d _ hj =>
    h.row j phase d hj) (fun l hm => absurd hm (hlist l)) (fun j l _ hj => ?_) h.closed
  · by_cases hji : j = i
    · rw [hji]
      exact Function.update_self Guard.slot (some i) s.holder
    · rw [Function.update_of_ne hji] at hj
      exact absurd hj (hidle j)
  · exact absurd (by rw [hj]; trivial) (hidle j)

theorem Roster.acquire_slot (h : Roster waits memo s) {r : Unit}
    (hi : memo i = .free ∨ ∃ d, memo i = .own .queued d)
    (hanswer : s.answer i (.acquire .slot) host = some (r,t)) :
    ∃ m, (memo i).post (.acquire .slot) r m ∧ Roster waits (Function.update memo i m) t := by
  obtain ⟨hfree,ht⟩ := Option.ite_none_right_eq_some.mp hanswer
  cases ht
  rcases hi with hi | ⟨d,hi⟩
  · refine ⟨.slotted,⟨fun _ => rfl,fun d hown => ?_⟩,h.acquire hfree (by rw [hi]; rfl) (fun _ => nofun)
      (fun hspawn => ?_) fun _ _ hm => nomatch hm⟩
    · rw [hi] at hown
      cases hown
    · obtain ⟨phase,d,hown,-⟩ := h.task i hspawn
      rw [hi] at hown
      cases hown
  · obtain ⟨hrow,-⟩ := h.row i _ d hi
    have hturn : ∀ phase : Phase, phase.OfTask → phase.Row waits s.store d →
        Roster waits (Function.update memo i (.own phase d))
          { s with holder := Function.update s.holder .slot (some i) } := by
      intro phase htask hp
      refine h.acquire hfree (by rw [hi]; rfl) (fun _ => nofun) (fun _ => ⟨phase,d,rfl,htask⟩) ?_
      rintro phase' d' ⟨⟩
      exact ⟨hrow,hp⟩
    have hown : ∀ {m : Duty}, (m = .own .live d ∨ m = .own .dead d) →
        (memo i).post (.acquire .slot) () m := by
      intro m hm
      refine ⟨fun hfree' => ?_,fun d' hd' => ?_⟩
      · rw [hi] at hfree'
        cases hfree'
      · rw [hi] at hd'
        cases hd'
        exact hm
    by_cases hin : s.store.InProgress d
    · exact ⟨.own .live d,hown (.inl rfl),hturn .live trivial hin⟩
    · exact ⟨.own .dead d,hown (.inr rfl),hturn .dead trivial hin⟩

theorem Roster.release_slot (h : Roster waits memo s) {r : Unit}
    (hanswer : s.answer i (.release .slot) host = some (r,t)) :
    Roster waits (Function.update memo i (memo i).vacate) t := by
  simp only [Shared.answer,Option.some.injEq,Prod.mk.injEq,true_and] at hanswer
  by_cases hin : (memo i).InSlot
  · rw [if_pos (h.slot i hin)] at hanswer
    subst hanswer
    have hother : ∀ j, j ≠ i → ¬(memo j).InSlot := fun j hji hj => hji (h.alone hin hj)
    refine h.turn ?_ rfl rfl (fun j hj => ?_) (fun hspawn => ?_) (fun phase d hm => ?_)
      (fun j phase d _ hj => h.row j phase d hj) (fun l hm => ?_) (fun j l hji hj => ?_) h.closed
    · exact Duty.deploy_vacate
    · rcases update_cases (y := Function.update memo i (memo i).vacate j) rfl with
        ⟨-,heq⟩ | ⟨hji,heq⟩
      · rw [← heq] at hj
        exact absurd hj Duty.not_inSlot_vacate
      · rw [← heq] at hj
        exact absurd hj (hother j hji)
    · obtain ⟨phase,d,hown,htask⟩ := h.task i hspawn
      rw [hown]
      refine ⟨phase.vacate,d,rfl,?_⟩
      cases phase <;> trivial
    · cases hi : memo i with
      | own phase' d' =>
        rw [hi] at hm hin
        cases hm
        refine ⟨(h.row i phase' d hi).1,?_⟩
        cases phase' <;> trivial
      | free | slotted | working l =>
        rw [hi] at hm
        cases hm
    · cases hi : memo i <;> rw [hi] at hm <;> cases hm
    · exact absurd (by rw [hj]; trivial) (hother j hji)
  · rw [Duty.vacate_of_not_inSlot hin,Function.update_eq_self]
    subst hanswer
    split
    · rename_i hheld
      refine h.same rfl (fun j hj => ?_) rfl (fun _ _ => ⟨rfl,Iff.rfl⟩) h.closed
      have hji : j = i := Option.some.inj ((h.slot j hj).symm.trans hheld)
      exact absurd (hji ▸ hj) hin
    · exact h

/-- A step of a thread that keeps to the protocol. -/
theorem Roster.answer (h : Roster waits memo s) {e : Eff} {r : e.Resp} (hpre : (memo i).pre e)
    (hspawn : ∀ spec repo d, e ≠ .spawn spec repo d)
    (hread : e = .store .inProgressDeploys → s.holder .slot = some i → ∀ d j,
      s.store.InProgress d → s.owner j = some d → waits ∧ s.spawned j = true)
    (hanswer : s.answer i e host = some (r,t)) :
    ∃ m, (memo i).post e r m ∧ Roster waits (Function.update memo i m) t := by
  cases e with
  | store o =>
    cases o with
    | createDeploy app => exact h.createDeploy hpre hanswer
    | acquireLock app d => exact h.acquireLock hpre hanswer
    | finishDeploy d status detail =>
      obtain ⟨rfl,hi⟩ := hpre
      exact h.finishDeploy hi hanswer
    | finishDeployWithEvent d status detail =>
      rcases hpre with ⟨phase,hi,hcloses⟩ | ⟨hs,l,hi,hd⟩
      · refine ⟨.own (phase.close) d,?_,h.close_own hi hcloses hanswer⟩
        rw [hi]
        rfl
      · refine ⟨.working (l.erase d),?_,h.close_listed hi hd hs hanswer⟩
        rw [hi]
        rfl
    | advanceStage d stage => exact h.advanceStage hpre hanswer
    | appendEvent event => exact ⟨memo i,rfl,h.appendEvent hpre.1 hpre.2 hanswer⟩
    | inProgressDeploys => exact h.inProgressDeploys hpre (hread rfl) hanswer
    | appConfig name =>
      have hr := (answer_store (by nofun) hanswer).1
      exact ⟨memo i,⟨fun config hc => Store.name_of_appConfig (hr.symm.trans hc),rfl⟩,
        h.neutral (by nofun) (by nofun) (fun _ => id) hanswer⟩
    | putSpec | currentSpec | deploy | releaseLock | releaseOrphanedLocks | eventsFor
    | registerApp => exact ⟨memo i,rfl,h.neutral (by nofun) (by nofun) (fun _ => id) hanswer⟩
  | acquire g =>
    cases g with
    | slot => exact h.acquire_slot hpre hanswer
    | trigger =>
      obtain ⟨-,ht⟩ := Option.ite_none_right_eq_some.mp hanswer
      cases ht
      refine ⟨memo i,rfl,?_⟩
      rw [Function.update_eq_self]
      exact h.same rfl h.slot rfl (fun _ _ => ⟨rfl,Iff.rfl⟩) h.closed
  | release g =>
    cases g with
    | slot => exact ⟨(memo i).vacate,rfl,h.release_slot hanswer⟩
    | trigger =>
      refine ⟨memo i,rfl,?_⟩
      simp only [Shared.answer,Option.some.injEq,Prod.mk.injEq,true_and] at hanswer
      rw [Function.update_eq_self,← hanswer]
      split
      · exact h.same rfl h.slot rfl (fun _ _ => ⟨rfl,Iff.rfl⟩) h.closed
      · exact h
  | spawn spec repo d => exact absurd rfl (hspawn spec repo d)
  | present | readToString | write | createDirAll | removeFile | readDir | run | timed | emit =>
    cases hanswer
    refine ⟨memo i,rfl,?_⟩
    rw [Function.update_eq_self]
    exact h

end Calls

section Threads
variable {waits : Prop} {memo : ℕ → Duty} {s t : Shared} {i j d : ℕ}

/-- A thread is gone, and with it whatever it had to do. -/
theorem Roster.leave (h : Roster waits memo s) :
    Roster waits (Function.update memo i .free) (s.leave i) := by
  refine h.retire rfl (fun j hji hheld => ?_) (fun j hj => ?_) rfl
  · refine (if_neg fun heq => hji ?_).trans hheld
    exact Option.some.inj (hheld.symm.trans heq)
  · rcases update_cases hj with ⟨-,heq⟩ | hj
    · cases heq
    · exact hj

/-- The deploy of `i` is now that of the task `j`, which waits for the slot. -/
theorem Roster.handOver (h : Roster waits memo s) (spec : WorkloadSpec) (repo : Path)
    (hi : memo i = .own .holds d) (hj : memo j = .free) (hij : j ≠ i) :
    Roster waits (Function.update (Function.update memo j (.own .queued d)) i .free)
      (s.handOver i j (.spawn spec repo d)) := by
  -- Between the two steps the deploy is nobody's.
  have hbetween : Roster waits (Function.update memo i .free)
      { s with owner := Function.update s.owner i none } := by
    refine h.retire rfl (fun _ _ hheld => hheld) (fun k hk => ⟨?_,hk⟩) rfl
    rintro rfl
    refine Bool.noConfusion (hk.symm.trans (h.not_spawned fun phase d' hown => ?_))
    rw [hi] at hown
    cases hown
    exact id
  rw [Function.update_comm hij]
  refine hbetween.adopt ((Function.update_of_ne hij ..).trans hj) (fun k hk => ?_)
    (fun k l hk => ?_) id ?_ rfl (fun k hk => ?_) (fun _ _ _ => ⟨rfl,Iff.rfl⟩) (h.row i _ d hi).1
    trivial h.closed
  · rw [deploy_update] at hk
    rcases update_cases hk with ⟨-,heq⟩ | ⟨hki,hk⟩
    · cases heq
    · exact hki (h.own k i d hk (by rw [hi]; rfl))
  · rcases update_cases hk with ⟨-,heq⟩ | ⟨-,hk⟩
    · cases heq
    · exact h.not_listed hi id hk
  · exact Function.update_comm hij ..
  · rcases update_cases hk with ⟨hkj,-⟩ | ⟨-,hk⟩
    · exact .inl ⟨hkj,trivial⟩
    · exact .inr hk

end Threads

section System
variable {ctx : Ctx}

/-- The requests of a daemon: triggers, deliveries and reconciliations come at any time, and a
handler may be dropped wherever it waits. -/
def Daemon (ctx : Ctx) (s : SystemState) : SystemMove → Prop
  | .enter _ p => (∃ name, p = forget (startDeploy ctx.codec name)) ∨
    (∃ app push, p = forget (dispatchPush ctx.codec app push)) ∨ p = forget (reconcileApi ctx)
  | .drop i => s.Droppable i
  | .run .. | .fork .. => True

/-- Thread `i` has the slot, and is about to read the rows in progress. -/
def SystemState.Reads (s : SystemState) (i : ℕ) : Prop :=
  s.shared.holder .slot = some i ∧ ∃ k, s.threads i = .op (.store .inProgressDeploys) k

/-- The roster is kept when a reconciliation finds no row of a live thread, or only such rows
of tasks if they may wait. -/
theorem upholds_roster {waits : Prop} {allow : SystemState → SystemMove → Prop}
    (hdaemon : ∀ s mv, allow s mv → Daemon ctx s mv)
    (hread : ∀ s i host, allow s (.run i host) → s.Reads i → ∀ d j,
      s.shared.store.InProgress d → s.shared.owner j = some d →
        waits ∧ s.shared.spawned j = true) :
    (system ctx).Upholds dutyProtocol .free (fun _ => True) (Roster waits) allow where
  fin_rest := trivial
  leave memo s i h _ := h.leave
  enter memo s i p hm hi hallow := by
    refine ⟨.free,?_,?_⟩
    · rcases hdaemon s _ hallow with ⟨name,rfl⟩ | ⟨app,push,rfl⟩ | rfl
      · exact dutyConduct.startDeploy rfl
      · exact dutyConduct.dispatchPush rfl
      · exact duty_reconcileApi
    · rw [Function.update_eq_self_iff.mpr (hm.gone i hi).symm]
      exact hm.inv
  run memo s i e k host r t hm hi hchild hpre hallow hanswer := by
    have hspawn : ∀ spec repo d, e ≠ .spawn spec repo d := by
      rintro spec repo d rfl
      cases hchild
    refine hm.inv.answer hpre hspawn (fun he hheld => ?_) hanswer
    subst he
    exact hread s i host hallow ⟨hheld,k,hi⟩
  fork memo s i j e k p host r t hm hi hchild hj hij hpre hallow hanswer := by
    cases e with
    | spawn spec repo d =>
      cases hchild
      cases hanswer
      exact ⟨.free,.own .queued d,rfl,duty_spawnedDeploy,
        hm.inv.handOver spec repo hpre (hm.gone j hj) hij⟩
    | present | readToString | write | createDirAll | removeFile | readDir | run | timed | store
    | emit | acquire | release => cases hchild
  drop memo s i hm _ := hm.inv.leave

theorem roster_initial {waits : Prop} {store : Store} (hclosed : waits → store.Sealed) :
    Roster waits (fun _ => .free) (Shared.initial store) :=
  ⟨fun _ => rfl,nofun,nofun,nofun,nofun,nofun,hclosed⟩

end System

end Kuadrat
