import Kuadrat.Daemon.Hooks
import Kuadrat.Deploy.Reconciled
import Kuadrat.Effect.Trace
import Mathlib.Algebra.Group.Nat.Defs

/-!
# The start of the daemon

Guard, recover, then bind: the listener is bound to a loopback address only, and not before the
deploys that a crash left in progress are ended.
-/
namespace Kuadrat

open Effect Hooks

inductive IpAddr
  | v4 (a b c d : UInt8)
  | v6 (s₀ s₁ s₂ s₃ s₄ s₅ s₆ s₇ : UInt16)

structure SocketAddr where
  ip : IpAddr
  port : UInt16

/-- Where the daemon listens, and which host paths it manages. -/
structure Config where
  listen : SocketAddr
  root : Option Path

def defaultPort : UInt16 := 7457

/-- `Config::default`. -/
def Config.default : Config := ⟨⟨.v4 127 0 0 1,defaultPort⟩,none⟩

/-- `Ipv4Addr::is_loopback`, by the first octet. -/
def loopbackV4 (a : UInt8) : Bool := a == 127

/-- The first octet of an address that `to_ipv4_mapped` maps. -/
def toIpv4Mapped : IpAddr → Option UInt8
  | .v4 .. => none
  | .v6 s₀ s₁ s₂ s₃ s₄ s₅ s₆ _ =>
    if s₀ == 0 && s₁ == 0 && s₂ == 0 && s₃ == 0 && s₄ == 0 && s₅ == 0xffff then
      some (s₆ >>> 8).toUInt8
    else none

/-- `Ipv6Addr::is_loopback`. -/
def loopbackV6 : IpAddr → Bool
  | .v4 .. => false
  | .v6 s₀ s₁ s₂ s₃ s₄ s₅ s₆ s₇ =>
    s₀ == 0 && s₁ == 0 && s₂ == 0 && s₃ == 0 && s₄ == 0 && s₅ == 0 && s₆ == 0 && s₇ == 1

/-- IPv4 and IPv6 loopback, including an IPv4-mapped IPv6 loopback. -/
def isLoopback (ip : IpAddr) : Bool :=
  match ip with
  | .v4 a .. => loopbackV4 a
  | .v6 .. =>
    match toIpv4Mapped ip with
    | some a => loopbackV4 a
    | none => loopbackV6 ip

/-- The address as the number it is on the wire. -/
def IpAddr.value : IpAddr → ℕ
  | .v4 a b c d => ((a.toNat*256+b.toNat)*256+c.toNat)*256+d.toNat
  | .v6 s₀ s₁ s₂ s₃ s₄ s₅ s₆ s₇ => ((((((s₀.toNat*65536+s₁.toNat)*65536+s₂.toNat)*65536+
      s₃.toNat)*65536+s₄.toNat)*65536+s₅.toNat)*65536+s₆.toNat)*65536+s₇.toNat

/-- The networks `127.0.0.0/8` and `::ffff:127.0.0.0/104`, and the address `::1`. -/
def IpAddr.Loopback : IpAddr → Prop
  | ip@(.v4 ..) => ip.value/2^24 = 127
  | ip@(.v6 ..) => ip.value = 1 ∨ ip.value/2^24 = 0xffff7f

theorem isLoopback_iff (ip : IpAddr) : isLoopback ip = true ↔ ip.Loopback := by
  cases ip with
  | v4 a b c d =>
    have ha := a.toNat_lt
    have hb := b.toNat_lt
    have hc := c.toNat_lt
    have hd := d.toNat_lt
    rw [isLoopback,loopbackV4,beq_iff_eq,← UInt8.toNat_inj,IpAddr.Loopback,IpAddr.value,
      show (127 : UInt8).toNat = 127 from rfl]
    omega
  | v6 s₀ s₁ s₂ s₃ s₄ s₅ s₆ s₇ =>
    have h₀ := s₀.toNat_lt
    have h₁ := s₁.toNat_lt
    have h₂ := s₂.toNat_lt
    have h₃ := s₃.toNat_lt
    have h₄ := s₄.toNat_lt
    have h₅ := s₅.toNat_lt
    have h₆ := s₆.toNat_lt
    have h₇ := s₇.toNat_lt
    have hoctet : ((s₆ >>> 8).toUInt8 = 127) ↔ s₆.toNat/256 = 127 := by
      rw [← UInt8.toNat_inj]
      simp
      omega
    have hmapped : (s₀ == 0 && s₁ == 0 && s₂ == 0 && s₃ == 0 && s₄ == 0 && s₅ == 0xffff) = true ↔
        s₀.toNat = 0 ∧ s₁.toNat = 0 ∧ s₂.toNat = 0 ∧ s₃.toNat = 0 ∧ s₄.toNat = 0 ∧
          s₅.toNat = 65535 := by
      simp only [Bool.and_eq_true,beq_iff_eq,← UInt16.toNat_inj,UInt16.reduceToNat,and_assoc]
    have hone : loopbackV6 (.v6 s₀ s₁ s₂ s₃ s₄ s₅ s₆ s₇) = true ↔
        (IpAddr.v6 s₀ s₁ s₂ s₃ s₄ s₅ s₆ s₇).value = 1 := by
      simp only [loopbackV6,Bool.and_eq_true,beq_iff_eq,← UInt16.toNat_inj,UInt16.reduceToNat,
        IpAddr.value]
      omega
    by_cases h : (s₀ == 0 && s₁ == 0 && s₂ == 0 && s₃ == 0 && s₄ == 0 && s₅ == 0xffff) = true
    · simp only [isLoopback,toIpv4Mapped,if_pos h,loopbackV4,beq_iff_eq,hoctet,IpAddr.Loopback,
        IpAddr.value]
      have hzero := hmapped.mp h
      omega
    · simp only [isLoopback,toIpv4Mapped,if_neg h,hone,IpAddr.Loopback]
      refine ⟨.inl,fun hvalue => hvalue.resolve_right fun hnet => h (hmapped.mpr ?_)⟩
      rw [IpAddr.value] at hnet
      omega

section Config
variable (display : IpAddr → Text)

/-- Refuse to start on a non-loopback address. -/
def Config.validate (c : Config) : Except Message Unit :=
  let port := Piece.text (Text.decimal c.listen.port.toNat)
  reject (!isLoopback c.listen.ip) ["refusing to listen on ",.text (display c.listen.ip),
    ": kuadrat binds loopback only — it has no authentication. Reach it with an SSH tunnel (ssh -L ",
    port,":127.0.0.1:",port," host) or a VPN."]

end Config

/-- What the start of the daemon does: the operations of a recovery, and its own. -/
inductive BootEff
  | openStore (dbPath : Path)
  | var (name : Text)
  | readFile (path : Text)
  | core (e : Eff)
  | ring (url : Text)
  | bind (addr : SocketAddr)
  | serve (addr : SocketAddr) (hookSecret : Option HookSecret)

@[reducible] def BootEff.Resp : BootEff → Type
  | openStore _ => Except Message Unit
  | var _ => Option Text
  | readFile _ => Except Message Text
  | core e => e.Resp
  | ring _ => Unit
  | bind _ => Except Message Unit
  | serve .. => Except Message Unit

abbrev Boot := Proc BootEff BootEff.Resp Message

namespace Boot

def openStore (dbPath : Path) : Boot Unit := .mk (.perform (BootEff.openStore dbPath))
def var (name : Text) : Boot (Option Text) := .lift (.perform (BootEff.var name))
def readFile (path : Text) : Boot Text := .mk (.perform (BootEff.readFile path))
def ring (url : Text) : Boot Unit := .lift (.perform (BootEff.ring url))
def bind (addr : SocketAddr) : Boot Unit := .mk (.perform (BootEff.bind addr))
def serve (addr : SocketAddr) (hookSecret : Option HookSecret) : Boot Unit :=
  .mk (.perform (BootEff.serve addr hookSecret))

def core {α : Type} (p : Run α) : Boot α :=
  .mk (p.run.through fun e => .perform (BootEff.core e))

def ofExcept {α : Type} : Except Message α → Boot α
  | .ok a => pure a
  | .error e => throw e

end Boot

/-- `KUADRAT_HOOK_SECRET`, else the contents of the file named by `KUADRAT_HOOK_SECRET_FILE`. -/
def Hooks.HookSecret.fromEnv : Boot (Option HookSecret) := do
  match ← Boot.var "KUADRAT_HOOK_SECRET" with
  | some secret => some <$> Boot.ofExcept (HookSecret.new secret)
  | none =>
    match ← Boot.var "KUADRAT_HOOK_SECRET_FILE" with
    | some path => do
      let contents ← (Boot.readFile path).mapError
        (Message.context ["reading hook secret from ",.text path])
      some <$> Boot.ofExcept (HookSecret.new contents)
    | none => return none

/-- `KUADRAT_WEBHOOK_URL`, else the contents of the file named by `KUADRAT_WEBHOOK_URL_FILE`. -/
def Webhook.fromEnv : Boot (Option Text) := do
  match ← Boot.var "KUADRAT_WEBHOOK_URL" with
  | some url => return some url
  | none =>
    match ← Boot.var "KUADRAT_WEBHOOK_URL_FILE" with
    | some path => do
      let contents ← (Boot.readFile path).mapError
        (Message.context ["reading webhook URL from ",.text path])
      return some contents.trim
    | none => return none

section Serve
variable (display : IpAddr → Text) (codec : SpecCodec) (config : Config)

/-- The paths of the daemon, and where its database is. -/
def Config.paths : Paths × Path :=
  match config.root with
  | some root => (.rooted root,((root.join "lib").join "kuadrat").join "kuadrat.db")
  | none => (.default,["","var","lib","kuadrat","kuadrat.db"])

def SocketAddr.text (addr : SocketAddr) : Text :=
  match addr.ip with
  | .v4 .. => display addr.ip ++ ":" ++ Text.decimal addr.port.toNat
  | .v6 .. => "[" ++ display addr.ip ++ "]:" ++ Text.decimal addr.port.toNat

/-- Start the daemon: guard, recover, then bind. -/
def serve : Boot Unit := do
  Boot.ofExcept (config.validate display)
  Boot.openStore config.paths.2
  let hookSecret ← HookSecret.fromEnv.mapError (Message.context ["loading inbound hook secret"])
  let _ ← (Boot.core (reconcile ⟨config.paths.1,codec⟩)).mapError
    (Message.context ["reconciling crashed deploys at startup"])
  match ← Webhook.fromEnv.result with
  | .ok (some url) => Boot.ring url
  | .ok none => pure ()
  | .error _ => pure ()
  (Boot.bind config.listen).mapError
    (Message.context ["binding ",.text (config.listen.text display)])
  (Boot.serve config.listen hookSecret).mapError (Message.context ["serving"])

end Serve

section Recovered
variable {ctx : Ctx} {k : Desk}

/-- Nothing is left of a crash: no deploy is in progress, and no lock names a deploy. -/
structure Store.AtRest (s : Store) : Prop where
  rows : s.inProgressDeploys = []
  locks : ∀ app d, s.lock app = some d → s.row d = none

/-- The terminal write ends this deploy and no other. -/
theorem inProgress_finish {s : Store} {d d' : ℕ} {status : DeployStatus} {detail : Option Message}
    {e : StoredEvent} (h : (s.call (.finishDeployWithEvent d status detail)).1 = .ok e)
    (hstatus : status ≠ .inProgress)
    (hd' : (s.call (.finishDeployWithEvent d status detail)).2.InProgress d') :
    s.InProgress d' ∧ d' ≠ d := by
  obtain ⟨r,hrow,hr⟩ := hd'
  have hne : d' ≠ d := by
    rintro rfl
    obtain ⟨r',hrow',hr'⟩ := (Store.call_finishDeployWithEvent h).1
    rw [hrow',Option.some.injEq] at hrow
    exact hstatus (hr'.symm.trans (hrow ▸ hr))
  refine ⟨⟨r,?_,hr⟩,hne⟩
  have heq := congrArg Prod.snd (Store.finishDeployWithEvent_eq_ok.mp (Store.commit_eq_ok h)).2
  dsimp only at heq
  rw [← hrow]
  refine Eq.symm ((congrArg (fun t => t.row d') heq).trans ?_)
  rw [Store.row_appendEvent,Store.row_dropLocks,Store.row_setRow,if_neg hne]

/-- A recovered row is in progress no more, and no other one is because of it. -/
theorem reconcileRow_ends (row : DeployRow) : wpOk anyHost (reconcileRow ctx row)
    (fun _ k' => ∀ d, k'.store.InProgress d → k.store.InProgress d ∧ d ≠ row.id) k := by
  refine wpOk_seq (P := fun _ k' => k' = k) ?_ fun previous k₁ h₁ => ?_
  · refine wpOk_seq (P := fun _ k' => k' = k) (wp_desk_call fun _ _ => rfl) fun json k₁ h₁ => ?_
    subst h₁
    split
    · split
      · exact (wpOk_pure ..).mpr rfl
      · exact wpOk_throw _ _ _
    · exact (wpOk_pure ..).mpr rfl
  subst h₁
  refine wpOk_seq (P := fun _ k' => k'.store = k₁.store)
    ((wpOk_result ..).mpr (wp_desk_host compensate_onHost)) fun r k₂ h₂ => ?_
  rw [← h₂]
  -- Both branches end the row, and differ in the outcome alone.
  have hend : ∀ (outcome : DeployOutcome) (status : DeployStatus) (cause : Message),
      status ≠ .inProgress → wpOk anyHost (do
        finished row.id status (some cause)
        Run.store (.releaseLock row.app)
        return outcome) (fun _ k' => ∀ d, k'.store.InProgress d →
          k₂.store.InProgress d ∧ d ≠ row.id) k₂ := by
    intro outcome status cause hstatus
    refine wpOk_seq (P := fun _ k' => ∀ d, k'.store.InProgress d →
      k₂.store.InProgress d ∧ d ≠ row.id) ?_ fun _ k₃ h₃ => ?_
    · exact wpOk_seq (P := fun _ k' => ∀ d, k'.store.InProgress d →
        k₂.store.InProgress d ∧ d ≠ row.id)
        (wp_desk_call fun e he d => inProgress_finish he hstatus)
        fun e k₃ h₃ => wp_desk_emit fun _ _ => h₃
    · exact wpOk_seq (P := fun _ k' => k'.store.row = k₃.store.row) (wp_desk_call fun _ _ => rfl)
        fun _ k₄ h₄ => (wpOk_pure _ _ _).mpr fun d hd => h₃ d (by rwa [Store.InProgress,← h₄])
  cases r with
  | ok _ => exact hend (.rolledBack row.stage _) .rolledBack _ (by decide)
  | error e => exact hend (.failed row.stage _) .failed _ (by decide)

/-- A recovery that succeeds leaves nothing of a crash, whatever the stored specs are. -/
theorem reconcile_rests (k : Desk) :
    wpOk anyHost (reconcile ctx) (fun _ k' => k'.store.AtRest) k := by
  refine wpOk_seq (P := fun rows k' => rows = k.store.inProgressDeploys ∧ k' = k)
    (wp_desk_call fun rows hrows => ⟨(Except.ok.inj hrows).symm,rfl⟩) fun rows k₁ h₁ => ?_
  obtain ⟨rfl,rfl⟩ := h₁
  refine wpOk_seq (P := fun _ k' => k'.store.inProgressDeploys = []) ?_ fun outcomes k₂ h₂ => ?_
  · refine wpOk_foldlM (fun rest _ k' => ∀ d, k'.store.InProgress d → ∃ r ∈ rest, r.id = d)
      (fun d hd => ?_) (fun row rest outcomes k₂ h₂ => ?_) fun outcomes k₂ h₂ => ?_
    · obtain ⟨r,hrow,hstatus⟩ := hd
      have hid := Store.id_of_row hrow
      exact ⟨r,Store.mem_inProgressDeploys.mpr ⟨hid ▸ hrow,hstatus⟩,hid⟩
    · refine wpOk_seq (reconcileRow_ends row) fun outcome k₃ h₃ => (wpOk_pure ..).mpr fun d hd => ?_
      obtain ⟨hbefore,hne⟩ := h₃ d hd
      obtain ⟨r,hr,hid⟩ := h₂ d hbefore
      rcases List.mem_cons.mp hr with rfl | hr
      · exact absurd hid.symm hne
      · exact ⟨r,hr,hid⟩
    · refine List.eq_nil_iff_forall_not_mem.mpr fun r hr => ?_
      obtain ⟨hrow,hstatus⟩ := Store.mem_inProgressDeploys.mp hr
      obtain ⟨_,hnone,-⟩ := h₂ r.id ⟨r,hrow,hstatus⟩
      cases hnone
  · refine wpOk_seq (P := fun _ k' => k'.store = k₂.store.releaseOrphanedLocks.2)
      (wp_desk_call fun _ _ => rfl) fun freed k₃ h₃ => (wpOk_pure ..).mpr ?_
    rw [h₃]
    refine ⟨h₂,fun app d hlock => ?_⟩
    obtain ⟨-,hfree⟩ := Option.filter_eq_some_iff.mp
      ((Store.lock_dropLocks k₂.store.finished app).symm.trans hlock)
    cases hrow : k₂.store.row d with
    | none => exact hrow
    | some r =>
      have hdone : r.status ≠ .inProgress := fun hstatus => by
        have hmem := Store.mem_inProgressDeploys.mpr ⟨Store.id_of_row hrow ▸ hrow,hstatus⟩
        rw [h₂] at hmem
        cases hmem
      simp [Store.finished,hrow,hdone] at hfree

end Recovered

section Guarded
variable {display : IpAddr → Text} {codec : SpecCodec} {config : Config}

/-- The store of the daemon, whether it is open, and where the listener is bound. -/
structure Booting where
  desk : Desk
  opened : Bool := false
  bound : Option SocketAddr := none

/-- What has to hold when the start comes to an operation. -/
def Booting.Ready (s : Booting) : BootEff → Prop
  | .core _ => s.opened = true
  | .bind addr => addr.ip.Loopback ∧ s.opened = true ∧ s.desk.store.AtRest
  | .serve addr _ => s.bound = some addr
  | _ => True

/-- What an operation can come to; the host answers as it likes. -/
inductive Booting.Goes (s : Booting) : (e : BootEff) → e.Resp → Booting → Prop
  | openStore (dbPath : Path) (r : Except Message Unit) :
    Goes s (.openStore dbPath) r { s with opened := r.isOk }
  | var (name : Text) (r : Option Text) : Goes s (.var name) r s
  | readFile (path : Text) (r : Except Message Text) : Goes s (.readFile path) r s
  | core {e : Eff} {r : e.Resp} {k : Desk} (h : anyHost.post s.desk e r k) :
    Goes s (.core e) r { s with desk := k }
  | ring (url : Text) : Goes s (.ring url) () s
  | bound (addr : SocketAddr) : Goes s (.bind addr) (.ok ()) { s with bound := some addr }
  | unbound (addr : SocketAddr) (why : Message) : Goes s (.bind addr) (.error why) s
  | serve (addr : SocketAddr) (hookSecret : Option HookSecret) (r : Except Message Unit) :
    Goes s (.serve addr hookSecret) r s

def booting : Spec BootEff BootEff.Resp Booting := ⟨Booting.Ready,Booting.Goes⟩

variable {s : Booting}

theorem wp_ofExcept {α : Type} (r : Except Message α) {Q : Except Message α → Booting → Prop} :
    wp booting (Boot.ofExcept r).run Q s ↔ Q r s := by
  cases r <;> rfl

theorem wp_var {name : Text} {Q : Except Message (Option Text) → Booting → Prop}
    (h : ∀ value, Q (.ok value) s) : wp booting (Boot.var name).run Q s := by
  refine ⟨trivial,fun r s' hr => ?_⟩
  cases hr
  exact h r

theorem wp_readFile {path : Text} {note : Message} {Q : Except Message Text → Booting → Prop}
    (h : ∀ r, Q r s) :
    wp booting ((Boot.readFile path).mapError (Message.context note)).run Q s := by
  refine (wp_bind ..).mpr ⟨trivial,fun r s' hr => ?_⟩
  cases hr
  exact h _

theorem wp_fromEnv : wp booting HookSecret.fromEnv.run (fun _ s' => s' = s) s := by
  refine wp_run_seq (P := fun _ s' => s' = s) (wp_var fun _ => rfl) (fun value s₁ h₁ => ?_)
    fun _ _ h => h
  subst h₁
  have hnew : ∀ t : Text, wp booting
      (some <$> Boot.ofExcept (HookSecret.new t) : Boot (Option HookSecret)).run
      (fun _ s' => s' = s₁) s₁ := by
    intro t
    cases HookSecret.new t <;> rfl
  split
  · exact hnew _
  · refine wp_run_seq (P := fun _ s' => s' = s₁) (wp_var fun _ => rfl) (fun value s₂ h₂ => ?_)
      fun _ _ h => h
    subst h₂
    split
    · refine wp_run_seq (P := fun _ s' => s' = s₂) (wp_readFile fun _ => rfl)
        (fun contents s₃ h₃ => ?_) fun _ _ h => h
      subst h₃
      exact hnew _
    · rfl

theorem wp_webhookFromEnv : wp booting Webhook.fromEnv.run (fun _ s' => s' = s) s := by
  refine wp_run_seq (P := fun _ s' => s' = s) (wp_var fun _ => rfl) (fun value s₁ h₁ => ?_)
    fun _ _ h => h
  subst h₁
  split
  · rfl
  · refine wp_run_seq (P := fun _ s' => s' = s₁) (wp_var fun _ => rfl) (fun value s₂ h₂ => ?_)
      fun _ _ h => h
    subst h₂
    split
    · exact wp_run_seq (P := fun _ s' => s' = s₂) (wp_readFile fun _ => rfl)
        (fun contents s₃ h₃ => h₃) fun _ _ h => h
    · rfl

/-- A part of the core runs as it does by itself. -/
theorem wp_core {α : Type} {p : Run α} {Q : Except Message α → Desk → Prop} (hopen : s.opened = true)
    (h : wp anyHost p.run Q s.desk) :
    wp booting (Boot.core p).run (fun r s' => ∃ k, s' = { s with desk := k } ∧ Q r k) s := by
  have hcore : ∀ (e : Eff) (k : Desk), anyHost.pre k e → wp booting (.perform (BootEff.core e))
      (fun r s' => ∃ t, s' = { s with desk := t } ∧ anyHost.post k e r t) { s with desk := k } := by
    refine fun e k _ => ⟨hopen,fun r s' hr => ?_⟩
    cases hr with
    | core hpost => exact ⟨_,rfl,hpost⟩
  exact wp_through (fun k => { s with desk := k }) hcore h

/-- The end of the start: bind, then serve. -/
theorem bind_serve (display : IpAddr → Text) (hookSecret : Option HookSecret)
    (hready : s.Ready (.bind config.listen)) : wp booting (do
      (Boot.bind config.listen).mapError
        (Message.context ["binding ",.text (config.listen.text display)])
      (Boot.serve config.listen hookSecret).mapError (Message.context ["serving"]) : Boot Unit).run
      (fun r s' => r = .ok () → s'.bound = some config.listen) s := by
  refine wp_run_seq (P := fun r s' => r = .ok () → s'.bound = some config.listen)
    ((wp_bind ..).mpr ⟨hready,fun r s' hr => ?_⟩) (fun _ s₁ h₁ => ?_) fun e s₁ h₁ => nofun
  · cases hr with
    | bound => exact fun _ => rfl
    | unbound addr why => exact nofun
  · refine (wp_bind ..).mpr ⟨h₁ rfl,fun r s' hr => ?_⟩
    cases hr
    exact fun _ => h₁ rfl

theorem loopback_of_validate {display : IpAddr → Text} {config : Config}
    (h : config.validate display = .ok ()) : config.listen.ip.Loopback := by
  rw [← isLoopback_iff]
  by_contra hip
  rw [Config.validate,reject,if_pos (by simpa using hip)] at h
  cases h

/-- With another address the daemon is an error before it does anything. -/
theorem serve_of_exposed (display : IpAddr → Text) (codec : SpecCodec) {config : Config}
    (h : ¬config.listen.ip.Loopback) :
    ∃ why, (serve display codec config).run = .ret (.error why) := by
  have hvalid : ∃ why, config.validate display = .error why := by
    rw [← isLoopback_iff] at h
    rw [Config.validate,reject,if_pos (by simpa using h)]
    exact ⟨_,rfl⟩
  obtain ⟨why,hwhy⟩ := hvalid
  refine ⟨why,?_⟩
  rw [serve,hwhy]
  rfl

/-- The daemon binds to a loopback address only, with its store open, and when no deploy is left
in progress and no lock is left of one; it serves only where it is bound. With any other address it
is an error at once. -/
theorem bound_after_recovery (display : IpAddr → Text) (codec : SpecCodec) (config : Config)
    (store : Store) : wp booting (serve display codec config).run
      (fun r s' => r = .ok () → s'.bound = some config.listen) ⟨⟨store,[]⟩,false,none⟩ ∧
    (¬config.listen.ip.Loopback → ∃ why, (serve display codec config).run = .ret (.error why)) := by
  refine ⟨?_,serve_of_exposed display codec⟩
  refine wp_run_seq (P := fun r s' => r = config.validate display ∧ s' = ⟨⟨store,[]⟩,false,none⟩)
    ((wp_ofExcept _).mpr ⟨rfl,rfl⟩) (fun _ s₁ h₁ => ?_) fun e s₁ h₁ hr => by cases hr
  · obtain ⟨hok,rfl⟩ := h₁
    have hloop := loopback_of_validate hok.symm
    refine wp_run_seq (P := fun r s' => r = .ok () → s'.opened = true) ⟨trivial,fun r s' hr => ?_⟩
      (fun _ s₂ h₂ => ?_) fun e s₂ h₂ hr => by cases hr
    · cases hr
      rintro rfl
      rfl
    have hopen := h₂ rfl
    refine wp_run_seq (P := fun _ s' => s' = s₂) ((wp_bind ..).mpr wp_fromEnv)
      (fun hookSecret s₃ h₃ => ?_) fun e s₃ h₃ hr => by cases hr
    subst h₃
    refine wp_run_seq (P := fun r s' => ∀ a, r = .ok a → s'.opened = true ∧ s'.desk.store.AtRest)
      ((wp_bind ..).mpr (wp_mono (wp_core hopen (reconcile_rests s₃.desk)) fun r s' h => ?_))
      (fun recovered s₄ h₄ => ?_) fun e s₄ h₄ hr => by cases hr
    · obtain ⟨k,rfl,hrest⟩ := h
      intro a ha
      cases r with
      | ok outcomes => exact ⟨hopen,hrest outcomes rfl⟩
      | error why => cases ha
    obtain ⟨hopen,hrest⟩ := h₄ recovered rfl
    refine wp_result_seq wp_webhookFromEnv fun hook s₅ h₅ => ?_
    subst h₅
    have hready : s₅.Ready (.bind config.listen) := ⟨hloop,hopen,hrest⟩
    rcases hook with why | _ | url
    · exact bind_serve display hookSecret hready
    · exact bind_serve display hookSecret hready
    · refine wp_run_seq (P := fun _ s' => s' = s₅) ⟨trivial,fun r s' hr => ?_⟩ (fun _ s₆ h₆ => ?_)
        fun e s₆ h₆ hr => by cases hr
      · cases hr
        rfl
      · subst h₆
        exact bind_serve display hookSecret hready

end Guarded

end Kuadrat
