import Kuadrat.Deploy.Reach
import Kuadrat.Daemon.Handlers

/-!
# The course of a handler

A handler reads the registration, reserves, and then either finishes its attempt or hands
it over. Its course is stated once for every specification of the operations, by the
stations that the handler passes between them.
-/
namespace Kuadrat

open Effect

variable {M : Type}

/-- Where a handler can stand: before it has created a row, with a row of its own that is new,
that got no lock, that got one, or that `reserve` has already ended, and when it is over. -/
structure Stations (M : Type) where
  free : M → Prop
  created : Text → ℕ → M → Prop
  refused : Text → ℕ → M → Prop
  holds : Text → ℕ → M → Prop
  spent : ℕ → M → Prop
  closed : M → Prop

/-- The attempt can be finished: its row is there. -/
def Stations.Closable (S : Stations M) (d : ℕ) (m : M) : Prop :=
  (∃ app, S.created app d m) ∨ (∃ app, S.holds app d m) ∨ S.spent d m

/-- In a state of `P` the operation may be issued, and is answered as `Q` says. -/
def Leads (T : Spec Eff Eff.Resp M) (P : M → Prop) (e : Eff) (Q : e.Resp → M → Prop) : Prop :=
  ∀ m, P m → T.pre m e ∧ ∀ r m', T.post m e r m' → Q r m'

/-- What a specification has to say for the handlers to keep to their course. -/
structure Conduct (T : Spec Eff Eff.Resp M) (S : Stations M) : Prop where
  closed_of_free : ∀ m, S.free m → S.closed m
  closed_of_spent : ∀ d m, S.spent d m → S.closed m
  acquire : Leads T S.free (.acquire .trigger) fun _ => S.free
  release : Leads T S.closed (.release .trigger) fun _ => S.closed
  emit : ∀ event, Leads T S.closed (.emit event) fun _ => S.closed
  registration : ∀ name, Leads T S.free (.store (.appConfig name)) fun r m =>
    S.free m ∧ ∀ config, r = .ok (some config) → config.name = name
  busy : Leads T S.free (.store .inProgressDeploys) fun _ => S.free
  read : ∀ p, Leads T S.free (.readToString p) fun _ => S.free
  readHeld : ∀ app d p, Leads T (S.holds app d) (.readToString p) fun _ => S.holds app d
  git : ∀ app d c, Leads T (S.holds app d) (.timed c) fun _ => S.holds app d
  create : ∀ app, Leads T S.free (.store (.createDeploy app)) fun r m => match r with
    | .ok d => S.created app d m
    | .error _ => S.closed m
  lock : ∀ app d, Leads T (S.created app d) (.store (.acquireLock app d)) fun r m => match r with
    | .ok true => S.holds app d m
    | .ok false => S.refused app d m
    | .error _ => S.closed m
  reject : ∀ app d detail, Leads T (S.refused app d) (.store (.finishDeploy d .failed detail))
    fun r m => match r with
      | .ok _ => S.spent d m
      | .error _ => S.closed m
  close : ∀ d detail, Leads T (S.Closable d) (.store (.finishDeployWithEvent d .failed detail))
    fun _ => S.closed
  spawn : ∀ spec repo d, spec.validate = .ok () →
    Leads T (S.holds spec.name d) (.spawn spec repo d) fun _ => S.closed

section Rules
variable {T : Spec Eff Eff.Resp M} {m : M}

/-- A program that only deals with the host keeps what such operations keep. -/
theorem wp_onHost {α : Type} {P : M → Prop} {p : Run α}
    (hkeep : ∀ e, Eff.OnHost e → Leads T P e fun _ => P) (hp : All Eff.OnHost p.run) (hm : P m) :
    wp T p.run (fun _ => P) m :=
  wp_of_all P hp hm (fun m e he hm => (hkeep e he m hm).1)
    fun m e r m' he hm h => (hkeep e he m hm).2 r m' h

/-- A call of the store by itself. -/
theorem wp_ask {o : StoreOp} {Q : Except Message o.Reply → M → Prop}
    (hpre : T.pre m (.store o)) (hpost : ∀ r m', T.post m (.store o) r m' → Q r m') :
    wp T (Run.store o).run Q m :=
  ⟨hpre,hpost⟩

/-- A call of the store whose error is turned into one of the caller's. -/
theorem wp_call {ε : Type} {o : StoreOp} {f : Message → ε} {Q : Except ε o.Reply → M → Prop}
    (hpre : T.pre m (.store o)) (hpost : ∀ r m', T.post m (.store o) r m' → Q (r.mapError f) m') :
    wp T ((Run.store o).mapError f).run Q m := by
  rw [Proc.run_mapError,wp_bind]
  exact ⟨hpre,hpost⟩

/-- An operation that cannot fail. -/
theorem wp_lift {e : Eff} {Q : Except ApiError e.Resp → M → Prop} (hpre : T.pre m e)
    (hpost : ∀ r m', T.post m e r m' → Q (.ok r) m') :
    wp T (Prog.perform e >>= fun r => .ret (.ok r)) Q m :=
  (wp_bind ..).mpr ⟨hpre,hpost⟩

theorem wp_ofResult {α : Type} (r : ApiResult α) {Q : Except ApiError α → M → Prop} :
    wp T (Api.ofResult r).run Q m ↔ Q r m := by
  cases r <;> rfl

theorem wp_forget {ε α : Type} {p : Proc Eff Eff.Resp ε α} {Q : M → Prop}
    (h : wp T p.run (fun _ => Q) m) : wp T (forget p) (fun _ => Q) m :=
  (wp_bind ..).mpr h

/-- Holding a guard around a program. -/
theorem wp_locked {α : Type} {g : Guard} {p : Api α} {P Q Q' : M → Prop}
    (hpre : T.pre m (.acquire g)) (hpost : ∀ r m', T.post m (.acquire g) r m' → P m')
    (h : ∀ m, P m → wp T p.run (fun _ => Q) m) (hrelease : Leads T Q (.release g) fun _ => Q') :
    wp T (Api.locked g p).run (fun _ => Q') m := by
  refine wp_run_seq (P := fun r m' => r = .ok () ∧ P m') (wp_lift hpre
    fun r m' hr => ⟨rfl,hpost r m' hr⟩) (fun _ m₁ h₁ => ?_) fun e m₁ h₁ => ?_
  · refine wp_run_seq (wpSure_result (h m₁ h₁.2)) (fun r m₂ h₂ => ?_) fun e m₂ h₂ => ?_
    · obtain ⟨_,-,hQ⟩ := h₂
      refine wp_run_seq (P := fun r m' => r = .ok () ∧ Q' m') (wp_lift (hrelease m₂ hQ).1
        fun r m' hr => ⟨rfl,(hrelease m₂ hQ).2 r m' hr⟩) (fun _ m₃ h₃ => ?_) fun e m₃ h₃ => ?_
      · exact (wp_ofResult r).mpr h₃.2
      · cases h₃.1
    · obtain ⟨_,he,_⟩ := h₂
      cases he
  · cases h₁.1

end Rules

section Course
variable {T : Spec Eff Eff.Resp M} {S : Stations M} (C : Conduct T S) {codec : SpecCodec} {m : M}
include C

theorem Conduct.readRegistration {name : Text} (hm : S.free m) : wp T (readRegistration name).run
    (fun r m' => S.free m' ∧ ∀ config, r = .ok config → config.name = name) m := by
  obtain ⟨hpre,hpost⟩ := C.registration name m hm
  refine (wp_bind ..).mpr ⟨hpre,fun r m' h => ⟨(hpost r m' h).1,fun config hr => ?_⟩⟩
  unfold Kuadrat.registration at hr
  split at hr
  · cases hr
  · cases hr
  · cases hr
    exact (hpost _ m' h).2 config rfl

theorem Conduct.ensureNotBusy {name : Text} (hm : S.free m) : wp T (ensureNotBusy name).run
    (fun _ => S.free) m := by
  obtain ⟨hpre,hpost⟩ := C.busy m hm
  refine wp_run_seq (P := fun _ => S.free) (wp_call hpre hpost) (fun rows m₁ h₁ => ?_)
    fun _ _ h₁ => h₁
  split <;> exact h₁

omit C in
theorem name_of_specFor {config : AppConfig} {fsysRead : Path → Option Text} {spec : WorkloadSpec}
    (h : specFor codec config fsysRead = .ok spec) : spec.name = config.name := by
  unfold specFor at h
  cases hread : repoSpec codec config fsysRead with
  | error e =>
    rw [hread] at h
    cases h
  | ok found =>
    rw [hread] at h
    cases h
    rfl

omit C in
/-- A spec that is accepted for a deploy is valid, and has the name of its registration. -/
theorem wp_readDeploySpec {config : AppConfig} {P : M → Prop} (hm : P m)
    (hread : ∀ p, Leads T P (.readToString p) fun _ => P) : wp T
    (readDeploySpec codec config).run (fun r m' => P m' ∧ ∀ spec repo, r = .ok (spec,repo) →
      spec.validate = .ok () ∧ spec.name = config.name) m := by
  obtain ⟨hpre,hpost⟩ := hread _ m hm
  refine (wp_bind ..).mpr ⟨hpre,fun text m' h => ⟨hpost text m' h,fun spec repo hr => ?_⟩⟩
  obtain ⟨hspec,hvalid,-⟩ := (deploySpec_eq_ok codec).mp hr
  exact ⟨hvalid,name_of_specFor hspec⟩

/-- Where a handler stands when `reserve` has returned. -/
def Stations.Reserved (S : Stations M) (name : Text) (r : Except ReserveError ℕ) (m : M) : Prop :=
  match r with
  | .ok d => S.holds name d m
  | .error (.busy _ d) => S.spent d m
  | .error (.internal _) => S.closed m

theorem Conduct.reserve {name : Text} (hm : S.free m) :
    wp T (reserve name).run (S.Reserved name) m := by
  obtain ⟨hpre,hpost⟩ := C.create name m hm
  refine wp_run_seq (P := fun r m => match r with
    | .ok d => S.created name d m
    | .error e => (∃ why, e = .internal why) ∧ S.closed m) (wp_call hpre fun r m₁ h => ?_)
    (fun d m₁ h₁ => ?_) fun e m₁ h₁ => ?_
  · have := hpost r m₁ h
    cases r with
    | ok d => exact this
    | error why => exact ⟨⟨why,rfl⟩,this⟩
  · obtain ⟨hpre,hpost⟩ := C.lock name d m₁ h₁
    refine wp_run_seq (P := fun r m => match r with
      | .ok true => S.holds name d m
      | .ok false => S.refused name d m
      | .error e => (∃ why, e = .internal why) ∧ S.closed m) (wp_call hpre fun r m₂ h => ?_)
      (fun acquired m₂ h₂ => ?_) fun e m₂ h₂ => ?_
    · have := hpost r m₂ h
      cases r with
      | ok b => cases b <;> exact this
      | error why => exact ⟨⟨why,rfl⟩,this⟩
    · cases acquired with
      | true => exact h₂
      | false =>
        obtain ⟨hpre,hpost⟩ := C.reject name d (some ["another deploy is already in progress"]) m₂ h₂
        refine wp_run_seq (P := fun r m => match r with
          | .ok _ => S.spent d m
          | .error e => (∃ why, e = .internal why) ∧ S.closed m) (wp_call hpre fun r m₃ h => ?_)
          (fun _ m₃ h₃ => h₃) fun e m₃ h₃ => ?_
        · have := hpost r m₃ h
          cases r with
          | ok u => exact this
          | error why => exact ⟨⟨why,rfl⟩,this⟩
        · obtain ⟨⟨why,rfl⟩,hover⟩ := h₃
          exact hover
    · obtain ⟨⟨why,rfl⟩,hover⟩ := h₂
      exact hover
  · obtain ⟨⟨why,rfl⟩,hover⟩ := h₁
    exact hover

theorem Conduct.finishAttempt {d : ℕ} {detail : Message} (hm : S.Closable d m) :
    wp T (finishAttempt d detail).run (fun _ => S.closed) m := by
  obtain ⟨hpre,hpost⟩ := C.close d (some detail) m hm
  refine wp_run_seq (P := fun _ => S.closed) (wp_call hpre hpost) (fun e m₁ h₁ => ?_) fun _ _ h₁ => h₁
  exact wp_lift (C.emit e m₁ h₁).1 (C.emit e m₁ h₁).2

theorem Conduct.recordRefusal {app : Text} {detail : Message} (hm : S.free m) :
    wp T (recordRefusal app detail).run (fun _ => S.closed) m := by
  obtain ⟨hpre,hpost⟩ := C.create app m hm
  refine wp_run_seq (P := fun r m => match r with
    | .ok d => S.created app d m
    | .error _ => S.closed m) (wp_call hpre fun r m₁ h => ?_) (fun d m₁ h₁ => ?_) fun _ _ h₁ => h₁
  · have := hpost r m₁ h
    cases r <;> exact this
  · exact C.finishAttempt (.inl ⟨app,h₁⟩)

theorem Conduct.runGit {app name : Text} {d : ℕ} {c : Command} {action : String}
    (hm : S.holds app d m) : wp T (runGit name c action).run (fun _ => S.holds app d) m := by
  obtain ⟨hpre,hpost⟩ := C.git app d c m hm
  refine wp_run_seq (P := fun _ => S.holds app d) (wp_lift hpre hpost) (fun t m₁ h₁ => ?_)
    fun _ _ h₁ => h₁
  split
  · exact h₁
  · exact h₁
  · split
    · exact h₁
    · split <;> exact h₁

/-- After a success the handler still holds its deploy; after an error it is over. -/
def Stations.Onward {α : Type} (S : Stations M) (app : Text) (d : ℕ) (P : α → Prop)
    (r : ApiResult α) (m : M) : Prop :=
  match r with
  | .ok a => S.holds app d m ∧ P a
  | .error _ => S.closed m

/-- After an error the attempt is finished; after a success the handler goes on with it. -/
theorem Conduct.orFinish {α : Type} {app : Text} {d : ℕ} {detail : Message} {p : Api α}
    {P : α → Prop}
    (h : wp T p.run (fun r m' => S.holds app d m' ∧ ∀ a, r = .ok a → P a) m) :
    wp T (orFinish d detail p).run (S.Onward app d P) m := by
  refine wp_run_seq (wpSure_result h) (fun r m₁ h₁ => ?_) fun e m₁ h₁ => ?_
  · obtain ⟨r,hr,hholds,hP⟩ := h₁
    cases hr
    cases r with
    | ok a => exact ⟨hholds,hP a rfl⟩
    | error err =>
      exact wp_run_seq (C.finishAttempt (.inr (.inl ⟨app,hholds⟩))) (fun _ m₂ h₂ => h₂)
        fun _ m₂ h₂ => h₂
  · obtain ⟨_,he,_⟩ := h₁
    cases he

/-- Handing the deploy over is the last thing a handler does with it. -/
theorem Conduct.spawnThen {α : Type} {spec : WorkloadSpec} {repo : Path} {d : ℕ} {app : Text}
    {a : α} (hvalid : spec.validate = .ok ()) (hname : spec.name = app) (hm : S.holds app d m) :
    wp T (Api.spawn spec repo d >>= fun _ => (pure a : Api α)).run (fun _ => S.closed) m := by
  subst hname
  obtain ⟨hpre,hpost⟩ := C.spawn spec repo d hvalid m hm
  exact wp_run_seq (P := fun _ => S.closed) (wp_lift hpre hpost) (fun _ _ h => h) fun _ _ h => h

theorem Conduct.startDeployLocked {name : Text} (hm : S.free m) :
    wp T (startDeployLocked codec name).run (fun _ => S.closed) m := by
  refine wp_run_seq (C.readRegistration hm) (fun config m₁ h₁ => ?_) fun e m₁ h₁ =>
    C.closed_of_free m₁ h₁.1
  refine wp_run_seq (C.ensureNotBusy h₁.1) (fun _ m₂ h₂ => ?_) fun e m₂ h₂ => C.closed_of_free m₂ h₂
  refine wp_run_seq (wp_readDeploySpec h₂ C.read) (fun p m₃ h₃ => ?_) fun e m₃ h₃ =>
    C.closed_of_free m₃ h₃.1
  obtain ⟨spec,repo⟩ := p
  obtain ⟨hvalid,hname⟩ := h₃.2 spec repo rfl
  refine wp_run_seq (P := fun r m => (∀ d, r = .ok d → S.holds name d m) ∧
    ∀ e, r = .error e → S.closed m ∨ ∃ d, S.spent d m) ?_ (fun d m₄ h₄ => ?_) fun e m₄ h₄ => ?_
  · rw [Proc.run_mapError]
    refine wp_seq (C.reserve h₃.1) fun r m h => ?_
    cases r with
    | ok d => exact ⟨fun d' hd => by cases hd; exact h,nofun⟩
    | error e =>
      refine ⟨nofun,fun _ _ => ?_⟩
      cases e with
      | busy n d => exact .inr ⟨d,h⟩
      | internal why => exact .inl h
  · exact C.spawnThen hvalid (hname.trans (h₁.2 config rfl)) (h₄.1 d rfl)
  · rcases h₄.2 e rfl with h | ⟨d,h⟩
    · exact h
    · exact C.closed_of_spent d m₄ h

theorem Conduct.startDeploy {name : Text} (hm : S.free m) :
    wp T (forget (startDeploy codec name)) (fun _ => S.closed) m :=
  wp_forget (wp_locked (C.acquire m hm).1 (C.acquire m hm).2 (fun _ h => C.startDeployLocked h)
    C.release)

theorem Conduct.deployPush {app : Text} {config : AppConfig} {push : Push} {d : ℕ}
    (hname : config.name = app) (hm : S.holds app d m) :
    wp T (deployPush codec app config push d).run (fun _ => S.closed) m := by
  have hgit : ∀ (detail : Message) (c : Command) (action : String) (m : M), S.holds app d m →
      wp T (Kuadrat.orFinish d detail (Kuadrat.runGit app c action)).run
        (S.Onward app d fun _ => True) m := fun detail c action m hm =>
    C.orFinish (wp_mono (C.runGit hm) fun _ _ h => ⟨h,fun _ _ => trivial⟩)
  refine wp_run_seq (hgit _ _ _ m hm) (fun output m₁ h₁ => ?_) fun e m₁ h₁ => h₁
  dsimp only
  split
  · exact wp_run_seq (C.finishAttempt (.inr (.inl ⟨app,h₁.1⟩))) (fun _ m₂ h₂ => h₂) fun _ _ h₂ => h₂
  · refine wp_run_seq (hgit _ _ _ m₁ h₁.1) (fun _ m₂ h₂ => ?_) fun e m₂ h₂ => h₂
    refine wp_run_seq (hgit _ _ _ m₂ h₂.1) (fun _ m₃ h₃ => ?_) fun e m₃ h₃ => h₃
    refine wp_run_seq (C.orFinish (P := fun p => p.1.validate = .ok () ∧ p.1.name = config.name)
      (wp_mono (wp_readDeploySpec h₃.1 (C.readHeld app d)) fun r m h =>
        ⟨h.1,fun p hp => h.2 p.1 p.2 hp⟩)) (fun p m₄ h₄ => ?_) fun e m₄ h₄ => h₄
    exact C.spawnThen h₄.2.1 (h₄.2.2.trans hname) h₄.1

theorem Conduct.reservePush {app : Text} {config : AppConfig} {push : Push}
    (hname : config.name = app) (hm : S.free m) :
    wp T (reservePush codec app config push).run (fun _ => S.closed) m := by
  refine wp_run_seq (wpSure_mapError (wpSure_result (C.reserve hm))) (fun r m₁ h₁ => ?_)
    fun e m₁ h₁ => ?_
  · obtain ⟨r,hr,h⟩ := h₁
    cases hr
    cases r with
    | ok d => exact C.deployPush hname h
    | error e =>
      cases e with
      | busy n d =>
        exact wp_run_seq (C.finishAttempt (.inr (.inr h))) (fun _ _ h₂ => h₂) fun _ _ h₂ => h₂
      | internal why => exact h
  · obtain ⟨_,he,_⟩ := h₁
    cases he

/-- A delivery passes its stations in order, whatever git and the store answer. -/
theorem Conduct.dispatchPush {app : Text} {push : Option Push} (hm : S.free m) :
    wp T (forget (dispatchPush codec app push)) (fun _ => S.closed) m := by
  refine wp_forget (wp_locked (C.acquire m hm).1 (C.acquire m hm).2 (fun m h =>
    wp_run_seq (C.readRegistration h) (fun config m₁ h₁ => ?_)
      fun e m₁ h₁ => C.closed_of_free m₁ h₁.1) C.release)
  cases push with
  | none => exact C.closed_of_free m₁ h₁.1
  | some push =>
    refine wp_run_seq (wpSure_result (C.ensureNotBusy h₁.1)) (fun r m₂ h₂ => ?_) fun e m₂ h₂ => ?_
    · obtain ⟨_,hr,hfree⟩ := h₂
      cases r with
      | ok _ => exact C.reservePush (h₁.2 config rfl) hfree
      | error err =>
        dsimp only
        split
        · exact wp_run_seq (C.recordRefusal hfree) (fun _ _ h => h) fun _ _ h => h
        · exact C.closed_of_free m₂ hfree
    · obtain ⟨_,he,_⟩ := h₂
      cases he

end Course

end Kuadrat
