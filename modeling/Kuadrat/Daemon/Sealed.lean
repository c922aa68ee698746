import Kuadrat.Daemon.Books

/-!
# The end of a deploy's log

The terminal event closes the log of its deploy: nothing comes after it, and the row has its
status. A call keeps this as long as no closed deploy is ended again or gets another event.
-/
namespace Kuadrat.Store

variable {s t : Store} {d : ℕ}

/-- The log of `d`, as `events_for` reads it. -/
def log (s : Store) (d : ℕ) : List StoredEvent := s.events.filter fun e => e.event.deployId = d

/-- The log of `d` has a terminal event. -/
def Closed (s : Store) (d : ℕ) : Prop := ∃ e ∈ s.log d, ∃ status, e.event.kind = .finished status

/-- A log has at most one terminal event, nothing after it, and the row has its status. -/
def Sealed (s : Store) : Prop :=
  ∀ d l e l' status, s.log d = l ++ e::l' → e.event.kind = .finished status →
    l' = [] ∧ status ≠ .inProgress ∧ ∃ r, s.row d = some r ∧ r.status = status

theorem Sealed.row_of_closed (h : s.Sealed) (hd : s.Closed d) :
    ∃ r, s.row d = some r ∧ r.status ≠ .inProgress := by
  obtain ⟨e,he,status,hk⟩ := hd
  obtain ⟨l,l',hlog⟩ := List.append_of_mem he
  obtain ⟨-,hs,r,hr,rfl⟩ := h d l e l' status hlog hk
  exact ⟨r,hr,hs⟩

theorem Sealed.not_closed (h : s.Sealed) (hd : s.InProgress d) : ¬s.Closed d := by
  intro hclosed
  obtain ⟨r,hr,hs⟩ := h.row_of_closed hclosed
  obtain ⟨r',hr',hs'⟩ := hd
  rw [hr] at hr'
  cases hr'
  exact hs hs'

/-- The first terminal event of a log is its last event. -/
theorem last_of_concat (hopen : ¬s.Closed d) {a e : StoredEvent}
    {l l' : List StoredEvent} {status : DeployStatus} (hlog : s.log d ++ [a] = l ++ e::l')
    (hk : e.event.kind = .finished status) : l' = [] ∧ e = a := by
  rcases l'.eq_nil_or_concat with rfl | ⟨l'',b,rfl⟩
  · have hlast := (List.append_inj' hlog rfl).2
    exact ⟨rfl,(List.cons.inj hlast).1.symm⟩
  · rw [List.concat_eq_append,← List.cons_append,← List.append_assoc] at hlog
    have hinit : s.log d = l ++ e::l'' := (List.append_inj' hlog rfl).1
    refine absurd ⟨e,?_,status,hk⟩ hopen
    rw [hinit]
    exact List.mem_append_right _ List.mem_cons_self

theorem log_eq (hevents : t.events = s.events) : t.log d = s.log d := by rw [log,log,hevents]

theorem closed_eq (hevents : t.events = s.events) : t.Closed d ↔ s.Closed d := by
  rw [Closed,Closed,log_eq hevents]

/-- The log stays, and so does the row of every deploy whose log is closed. -/
theorem Sealed.frame (h : s.Sealed) (hevents : t.events = s.events)
    (hrow : ∀ d, s.Closed d → t.row d = s.row d) : t.Sealed := by
  intro d l e l' status hlog hk
  rw [log_eq hevents] at hlog
  have hclosed : s.Closed d := by
    refine ⟨e,?_,status,hk⟩
    rw [hlog]
    exact List.mem_append_right _ List.mem_cons_self
  rw [hrow d hclosed]
  exact h d l e l' status hlog hk

/-- A call that only reads or writes elsewhere, or that moves a deploy whose log is open. -/
theorem Sealed.call (h : s.Sealed) {o : StoreOp} (happend : ∀ event, o ≠ .appendEvent event)
    (hfinish : ∀ d status detail, o ≠ .finishDeployWithEvent d status detail)
    (hmoves : ∀ d, o.Moves d → ¬s.Closed d) : (s.call o).2.Sealed := by
  refine h.frame (events_call s happend hfinish).1 fun d hd => row_call s (fun hm => ?_) ?_
  · exact hmoves d hm hd
  · obtain ⟨r,hr,-⟩ := h.row_of_closed hd
    rw [hr]
    rfl

theorem log_appendEvent (event : Event) : (s.appendEvent event).2.log d =
    s.log d ++ if event.deployId = d then [⟨s.lastEvent+1,event⟩] else [] := by
  change List.filter _ (s.events ++ [_]) = _
  rw [List.filter_append]
  congr 1
  by_cases hd : event.deployId = d <;> simp [hd]

theorem log_closing (d' : ℕ) (status : DeployStatus) (detail : Option Message) :
    (s.closing d' status detail).2.log d =
      s.log d ++ if d' = d then [⟨s.lastEvent+1,.finished d' status detail⟩] else [] :=
  log_appendEvent ..

theorem row_closing (d d' : ℕ) (status : DeployStatus) (detail : Option Message) :
    (s.closing d' status detail).2.row d = if d = d' then
      (s.row d').map fun r => { r with status := status, detail := detail } else s.row d := by
  change (s.setRow d' _).row d = _
  rw [row_setRow]

/-- An event of a stage, of a deploy whose log is open. -/
theorem Sealed.append (h : s.Sealed) {event : Event} (hopen : ¬s.Closed event.deployId)
    (hstage : ∀ status, event.kind ≠ .finished status) : (s.appendEvent event).2.Sealed := by
  intro d l e l' status hlog hk
  rw [log_appendEvent] at hlog
  split at hlog
  · rename_i hd
    subst hd
    obtain ⟨-,rfl⟩ := last_of_concat hopen hlog hk
    exact absurd hk (hstage status)
  · rw [List.append_nil] at hlog
    exact h d l e l' status hlog hk

/-- The terminal write, for a deploy whose log is open. -/
theorem Sealed.closing (h : s.Sealed) {status : DeployStatus} (detail : Option Message)
    (hopen : ¬s.Closed d) (hrow : (s.row d).isSome) (hs : status ≠ .inProgress) :
    (s.closing d status detail).2.Sealed := by
  intro d' l e l' status' hlog hk
  rw [log_closing] at hlog
  rw [row_closing]
  by_cases hd : d = d'
  · subst hd
    rw [if_pos rfl] at hlog
    rw [if_pos rfl]
    obtain ⟨rfl,rfl⟩ := last_of_concat hopen hlog hk
    cases hk
    obtain ⟨r,hr⟩ := Option.isSome_iff_exists.mp hrow
    rw [hr]
    exact ⟨rfl,hs,_,rfl,rfl⟩
  · rw [if_neg hd,List.append_nil] at hlog
    rw [if_neg (Ne.symm hd)]
    exact h d' l e l' status' hlog hk

/-- No deploy but `d` gets a terminal event. -/
theorem closed_closing {d' : ℕ} {status : DeployStatus} {detail : Option Message}
    (hd : d' ≠ d) : (s.closing d' status detail).2.Closed d ↔ s.Closed d := by
  rw [Closed,log_closing,if_neg hd,List.append_nil]
  rfl

theorem closed_appendEvent {event : Event} (hstage : ∀ status, event.kind ≠ .finished status) :
    (s.appendEvent event).2.Closed d ↔ s.Closed d := by
  rw [Closed,log_appendEvent]
  constructor
  · rintro ⟨e,he,status,hk⟩
    rcases List.mem_append.mp he with he | he
    · exact ⟨e,he,status,hk⟩
    · split at he
      · rw [List.mem_singleton] at he
        subst he
        exact absurd hk (hstage status)
      · cases he
  · rintro ⟨e,he,hk⟩
    exact ⟨e,List.mem_append_left _ he,hk⟩

end Kuadrat.Store
