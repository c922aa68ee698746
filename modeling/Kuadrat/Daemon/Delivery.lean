import Kuadrat.Codec.Spec
import Kuadrat.Daemon.Handlers
import Kuadrat.Daemon.Hooks
import Kuadrat.Daemon.Wire
import Kuadrat.Effect.Trace
import Kuadrat.Mcp.Serve

/-!
# Deliveries of the forges

The two endpoints of push-to-deploy, from the request to its answer: what a delivery may do, in
which order, and that one without its signature does nothing.
-/
namespace Kuadrat.Hooks

open Effect Utf8

/-- `u8::is_ascii_hexdigit`. -/
def isAsciiHexdigit (b : UInt8) : Bool :=
  (48 ≤ b && b ≤ 57) || (65 ≤ b && b ≤ 70) || (97 ≤ b && b ≤ 102)

section Payload
variable (json : Mcp.SerdeJson)

/-- Read `ref` and `after` out of a push payload; what is not deployable is `none`. -/
def parsePush (body : Bytes) : Option Push := do
  let t ← decode body
  let v ← (json.fromStr t).toOption
  let branch ← stripPrefix "refs/heads/" (← (← v.get "ref").asStr)
  let sha ← (← v.get "after").asStr
  let bs := bytes sha
  if !(bs.length == 40 || bs.length == 64) || !bs.all isAsciiHexdigit || bs.all (· == 48) then none
  else some ⟨branch,sha⟩

end Payload

/-- The headers of a request, by their names in lower case. -/
abbrev HeaderMap := Text → Option Text

structure Delivery where
  app : Text
  headers : HeaderMap
  body : Bytes

inductive Forge
  | github
  | gitlab

def Forge.header : Forge → Text
  | github => "x-hub-signature-256"
  | gitlab => "x-gitlab-token"

section Endpoints
variable (hmac : Bytes → Bytes → Bytes) (json : Mcp.SerdeJson) (codec : SpecCodec)
  (hookSecret : Option HookSecret) (d : Delivery)

def Forge.verify (secret : HookSecret) (body : Bytes) (value : Option Text) : Forge → Bool
  | github => verifyGithub hmac secret body value
  | gitlab => verifyGitlab hmac secret value

/-- Authentication comes before registration, parsing, and host work. -/
def endpoint (forge : Forge) : Api HookReply :=
  match hookSecret with
  | none => throw (.notFound ["not found"])
  | some secret =>
    if forge.verify hmac secret d.body ((d.headers forge.header).bind headerStr) then
      dispatchPush codec d.app (parsePush json d.body)
    else throw (.unauthorized ["unauthorized"])

/-- GitHub's signed push endpoint. -/
def github : Api HookReply := endpoint hmac json codec hookSecret d .github

/-- GitLab's shared-token push endpoint. -/
def gitlab : Api HookReply := endpoint hmac json codec hookSecret d .gitlab

end Endpoints

/-- The name of a commit: a SHA-1 or a SHA-256 in hexadecimal digits, and not the zero one that
stands for a deleted branch. -/
structure IsCommit (sha : Text) : Prop where
  length : sha.length = 40 ∨ sha.length = 64
  digits : ∀ c ∈ sha, ∃ n, Hex.IsDigit n c
  nonzero : ∃ c ∈ sha, c ≠ '0'

section Commit
variable {json : Mcp.SerdeJson} {body : Bytes} {push : Push}

theorem isAsciiHexdigit_iff {c : Char} (hc : c.toNat < 128) :
    isAsciiHexdigit (UInt8.ofNat c.toNat) = true ↔ ∃ n, Hex.IsDigit n c := by
  have hzero : '0'.toNat = 48 := rfl
  have ha : 'a'.toNat = 97 := rfl
  have hA : 'A'.toNat = 65 := rfl
  simp only [isAsciiHexdigit,Bool.or_eq_true,Bool.and_eq_true,decide_eq_true_eq,
    UInt8.le_iff_toNat_le,UInt8.reduceToNat,toNat_ofNat_ascii hc,Hex.IsDigit]
  constructor
  · rintro ((h | h) | h)
    · exact ⟨c.toNat-48,by omega⟩
    · exact ⟨c.toNat-55,by omega⟩
    · exact ⟨c.toNat-87,by omega⟩
  · rintro ⟨n,h⟩
    omega

/-- The bytes of hexadecimal digits are those of the characters, one by one. -/
theorem all_hexdigits_iff {t : Text} : (bytes t).all isAsciiHexdigit = true ↔
    ∀ c ∈ t, ∃ n, Hex.IsDigit n c := by
  induction t with
  | nil => simp
  | cons c t ih =>
    rw [bytes_cons,List.all_append,Bool.and_eq_true,ih,List.forall_mem_cons]
    refine and_congr_left fun _ => ?_
    by_cases hc : c.toNat < 128
    · rw [utf8EncodeChar_ascii hc,List.all_cons,List.all_nil,Bool.and_true,isAsciiHexdigit_iff hc]
    · obtain ⟨b,rest,heq,hb,-⟩ := utf8EncodeChar_wide (Nat.le_of_not_lt hc)
      rw [heq,List.all_cons,Bool.and_eq_true]
      constructor
      · rintro ⟨hdigit,-⟩
        simp only [isAsciiHexdigit,Bool.or_eq_true,Bool.and_eq_true,decide_eq_true_eq,
          UInt8.le_iff_toNat_le,UInt8.reduceToNat] at hdigit
        omega
      · rintro ⟨n,hn⟩
        exact absurd hn.ascii hc

theorem bytes_ascii {t : Text} (h : ∀ c ∈ t, c.toNat < 128) :
    bytes t = t.map fun c => UInt8.ofNat c.toNat := by
  induction t with
  | nil => rfl
  | cons c t ih =>
    obtain ⟨hc,ht⟩ := List.forall_mem_cons.mp h
    rw [bytes_cons,utf8EncodeChar_ascii hc,ih ht]
    rfl

theorem zeros_iff {t : Text} (h : ∀ c ∈ t, c.toNat < 128) :
    (bytes t).all (· == 48) = true ↔ ∀ c ∈ t, c = '0' := by
  rw [bytes_ascii h,List.all_map,List.all_eq_true]
  refine forall₂_congr fun c hc => ?_
  have hzero : '0'.toNat = 48 := rfl
  rw [Function.comp_apply,beq_iff_eq,← UInt8.toNat_inj,toNat_ofNat_ascii (h c hc),
    ← Char.toNat_inj,hzero]
  rfl

/-- The check of `parse_push` is that the text names a commit. -/
theorem isCommit_iff {sha : Text} : IsCommit sha ↔
    (!((bytes sha).length == 40 || (bytes sha).length == 64) || !(bytes sha).all isAsciiHexdigit ||
      (bytes sha).all (· == 48)) = false := by
  rw [Bool.or_eq_false_iff,Bool.or_eq_false_iff,Bool.not_eq_false',Bool.not_eq_false',
    Bool.or_eq_true,beq_iff_eq,beq_iff_eq,all_hexdigits_iff,← Bool.not_eq_true]
  constructor
  · intro h
    have hascii : ∀ c ∈ sha, c.toNat < 128 := fun c hc =>
      have ⟨_,hn⟩ := h.digits c hc
      hn.ascii
    rw [zeros_iff hascii,bytes_ascii hascii,List.length_map]
    refine ⟨⟨h.length,h.digits⟩,fun hall => ?_⟩
    obtain ⟨c,hc,hne⟩ := h.nonzero
    exact hne (hall c hc)
  · rintro ⟨⟨hlen,hdigits⟩,hzero⟩
    have hascii : ∀ c ∈ sha, c.toNat < 128 := fun c hc =>
      have ⟨_,hn⟩ := hdigits c hc
      hn.ascii
    rw [zeros_iff hascii] at hzero
    rw [bytes_ascii hascii,List.length_map] at hlen
    refine ⟨hlen,hdigits,?_⟩
    by_contra hnone
    exact hzero fun c hc => by_contra fun hne => hnone ⟨c,hc,hne⟩

/-- The body says that this branch was pushed, and its last commit. -/
def Says (json : Mcp.SerdeJson) (body : Bytes) (push : Push) : Prop :=
  IsCommit push.sha ∧ ∃ t v, decode body = some t ∧ json.fromStr t = .ok v ∧
    v.get "ref" = some (.str ("refs/heads/" ++ push.branch)) ∧ v.get "after" = some (.str push.sha)

theorem toOption_eq_some {ε α : Type} {r : Except ε α} {a : α} :
    r.toOption = some a ↔ r = .ok a := by
  cases r <;> simp [Except.toOption]

theorem asStr_eq_some {v : Json} {t : Text} : v.asStr = some t ↔ v = .str t := by
  cases v <;> simp [Json.asStr]

/-- What is read out of a body is what it says. -/
theorem parsePush_eq_some : parsePush json body = some push ↔ Says json body push := by
  obtain ⟨branch,sha⟩ := push
  simp only [parsePush,Option.bind_eq_bind,Option.bind_eq_some_iff,asStr_eq_some,
    stripPrefix_eq_some,Says]
  constructor
  · rintro ⟨t,ht,v,hv,_,href,_,rfl,b,rfl,_,hafter,a,rfl,hpush⟩
    obtain ⟨hcommit,heq⟩ := Option.ite_none_left_eq_some.mp hpush
    cases heq
    rw [Bool.not_eq_true] at hcommit
    exact ⟨isCommit_iff.mpr hcommit,t,v,ht,toOption_eq_some.mp hv,href,hafter⟩
  · rintro ⟨hcommit,t,v,ht,hv,href,hafter⟩
    refine ⟨t,ht,v,toOption_eq_some.mpr hv,_,href,_,rfl,branch,rfl,_,hafter,sha,rfl,?_⟩
    rw [isCommit_iff.mp hcommit,if_neg Bool.false_ne_true]

end Commit

/-- What was done so far, with the answers. -/
abbrev History := List (Exchange Eff Eff.Resp)

section Protocol
variable (app : Text) (tr : History)

/-- The trigger lock was taken first, and is still held. -/
def Held : Prop := tr.head? = some ⟨.acquire .trigger,()⟩ ∧ ⟨.release .trigger,()⟩ ∉ tr

/-- A deploy of the app was created here. -/
def Created (d : ℕ) : Prop := ⟨.store (.createDeploy app),.ok d⟩ ∈ tr

/-- A deploy of the app was created here and has its lock. -/
def Reserved (d : ℕ) : Prop := Created app tr d ∧ ⟨.store (.acquireLock app d),.ok true⟩ ∈ tr

/-- The command was carried out in time. -/
def Ran (c : Command) (out : CommandOutput) : Prop :=
  ∃ took, ⟨.timed c,.finished (.ok out) took⟩ ∈ tr ∧ took ≤ gitTimeout ∧ out.success = true

/-- A call of the store that a delivery may make: only deploys that it created are changed. -/
inductive MayCall : StoreOp → Prop
  | appConfig : MayCall (.appConfig app)
  | inProgressDeploys : MayCall .inProgressDeploys
  | createDeploy : MayCall (.createDeploy app)
  | acquireLock {d : ℕ} (h : Created app tr d) : MayCall (.acquireLock app d)
  | finishDeploy {d : ℕ} (h : Created app tr d) (detail : Option Message) :
    MayCall (.finishDeploy d .failed detail)
  | finishDeployWithEvent {d : ℕ} (h : Created app tr d) (detail : Option Message) :
    MayCall (.finishDeployWithEvent d .failed detail)

/-- The deploy `d` of the app is reserved, and nothing else was. -/
structure Underway (config : AppConfig) (d : ℕ) : Prop where
  held : Held tr
  registered : ⟨.store (.appConfig app),.ok (some config)⟩ ∈ tr
  reserved : Reserved app tr d
  only : ∀ a d', ⟨.store (.createDeploy a),.ok d'⟩ ∈ tr → d' = d
  unspawned : ∀ spec repo d', ⟨.spawn spec repo d',()⟩ ∉ tr

/-- The checked-out branch is the pushed one. -/
def OnBranch (config : AppConfig) (push : Push) : Prop :=
  ∃ out, Ran tr (.gitSymbolicRef config.repoPath) out ∧ out.stdout.trim = push.branch

def Fetched (config : AppConfig) : Prop := ∃ out, Ran tr (.gitFetch config.repoPath) out

def Reset (config : AppConfig) (push : Push) : Prop :=
  ∃ out, Ran tr (.gitReset config.repoPath push.sha) out

/-- What may be done after `tr` when the body tells the push. -/
inductive Permitted (pushed : Push → Prop) : Eff → Prop
  | acquire (h : tr = []) : Permitted pushed (.acquire .trigger)
  | release (h : Held tr) : Permitted pushed (.release .trigger)
  | store {o : StoreOp} (h : Held tr) (ho : MayCall app tr o) : Permitted pushed (.store o)
  | emit (h : Held tr) (event : StoredEvent) : Permitted pushed (.emit event)
  | readBranch {config : AppConfig} {p : Push} {d : ℕ} (h : Underway app tr config d)
    (hpush : pushed p) : Permitted pushed (.timed (.gitSymbolicRef config.repoPath))
  | fetch {config : AppConfig} {p : Push} {d : ℕ} (h : Underway app tr config d)
    (hpush : pushed p) (hbranch : OnBranch tr config p) :
    Permitted pushed (.timed (.gitFetch config.repoPath))
  | reset {config : AppConfig} {p : Push} {d : ℕ} (h : Underway app tr config d)
    (hpush : pushed p) (hbranch : OnBranch tr config p) (hfetch : Fetched tr config) :
    Permitted pushed (.timed (.gitReset config.repoPath p.sha))
  | readSpec {config : AppConfig} {p : Push} {d : ℕ} (h : Underway app tr config d)
    (hpush : pushed p) (hreset : Reset tr config p) :
    Permitted pushed (.readToString ((Path.ofText config.repoPath).join "kuadrat.json"))
  | spawn {config : AppConfig} {p : Push} {d : ℕ} {spec : WorkloadSpec}
    (h : Underway app tr config d) (hpush : pushed p) (hbranch : OnBranch tr config p)
    (hreset : Reset tr config p) (hname : spec.name = config.name)
    (hroute : spec.route = config.route) (hvalid : spec.validate = .ok ()) :
    Permitted pushed (.spawn spec (Path.ofText config.repoPath) d)

/-- The end of the deploy was written, or at least tried to be. -/
def FinishTried (d : ℕ) : Prop :=
  ∃ detail reply, ⟨.store (.finishDeployWithEvent d .failed detail),reply⟩ ∈ tr

/-- The deploy was ended here, as far as the store would have it. The one way to leave it in
progress is that the store fails when it is asked for the lock. -/
def Ends (d : ℕ) : Prop :=
  FinishTried tr d ∨ (∃ detail reply, ⟨.store (.finishDeploy d .failed detail),reply⟩ ∈ tr) ∨
    ∃ why, ⟨.store (.acquireLock app d),.error why⟩ ∈ tr

/-- A deploy is handed over exactly when the forge is told so, and every other one that was created
is ended. -/
structure Settled (r : ApiResult HookReply) : Prop where
  accepted : ∀ d, r = .ok (.accepted d) ↔ ∃ spec repo, ⟨.spawn spec repo d,()⟩ ∈ tr
  ended : ∀ d, Created app tr d → r = .ok (.accepted d) ∨ Ends app tr d

end Protocol

section Steps
variable {app : Text} {pushed : Push → Prop} {config : AppConfig} {p : Push} {d : ℕ} {tr : History}

/-- What creates nothing and hands nothing over. -/
def Plain : Eff → Prop
  | .acquire _ | .release _ | .spawn .. => False
  | .store (.createDeploy _) => False
  | _ => True

theorem mem_snoc {x y : Exchange Eff Eff.Resp} (h : x ∈ tr) : x ∈ tr ++ [y] :=
  List.mem_append_left _ h

theorem Held.add (h : Held tr) {e : Eff} (he : e ≠ .release .trigger) (r : e.Resp) :
    Held (tr ++ [⟨e,r⟩]) := by
  refine ⟨?_,fun hmem => ?_⟩
  · rw [List.head?_append,h.1]
    rfl
  · rcases List.mem_append.mp hmem with hmem | hmem
    · exact h.2 hmem
    · cases List.mem_singleton.mp hmem
      exact he rfl

theorem Underway.add (h : Underway app tr config d) {e : Eff} (he : Plain e) (r : e.Resp) :
    Underway app (tr ++ [⟨e,r⟩]) config d where
  held := h.held.add (by rintro rfl; exact he) r
  registered := mem_snoc h.registered
  reserved := ⟨mem_snoc h.reserved.1,mem_snoc h.reserved.2⟩
  only a d' hmem := by
    rcases List.mem_append.mp hmem with hmem | hmem
    · exact h.only a d' hmem
    · cases List.mem_singleton.mp hmem
      exact he.elim
  unspawned spec repo d' hmem := by
    rcases List.mem_append.mp hmem with hmem | hmem
    · exact h.unspawned spec repo d' hmem
    · cases List.mem_singleton.mp hmem
      exact he.elim

/-- What lasts while the lock is held and nothing is started or ended. -/
structure Lasts (I : History → Prop) : Prop where
  held : ∀ {tr}, I tr → Held tr
  add : ∀ {tr} {e : Eff}, I tr → Plain e → ∀ r : e.Resp, I (tr ++ [⟨e,r⟩])

theorem lasts_underway : Lasts (fun tr => Underway app tr config d) := ⟨(·.held),fun h he r => h.add he r⟩

theorem Ran.later {tr' : History} {c : Command} {out : CommandOutput} (h : Ran tr c out)
    (hle : tr <+: tr') : Ran tr' c out := by
  obtain ⟨took,hmem,hrest⟩ := h
  exact ⟨took,hle.subset hmem,hrest⟩

theorem OnBranch.later {tr' : History} (h : OnBranch tr config p) (hle : tr <+: tr') :
    OnBranch tr' config p := by
  obtain ⟨out,hran,hbranch⟩ := h
  exact ⟨out,hran.later hle,hbranch⟩

theorem FinishTried.ends (h : FinishTried tr d) : Ends app tr d := .inl h

theorem Ends.later {tr' : History} (h : Ends app tr d) (hle : tr <+: tr') : Ends app tr' d := by
  rcases h with ⟨detail,reply,hmem⟩ | ⟨detail,reply,hmem⟩ | ⟨why,hmem⟩
  · exact .inl ⟨detail,reply,hle.subset hmem⟩
  · exact .inr (.inl ⟨detail,reply,hle.subset hmem⟩)
  · exact .inr (.inr ⟨why,hle.subset hmem⟩)

/-- Nothing was handed over, and what was created is ended. -/
structure Over (app : Text) (tr : History) : Prop where
  held : Held tr
  unspawned : ∀ spec repo d, ⟨.spawn spec repo d,()⟩ ∉ tr
  ended : ∀ d, Created app tr d → Ends app tr d

theorem Over.settled (h : Over app tr) {r : ApiResult HookReply}
    (hr : ∀ d, r ≠ .ok (.accepted d)) : Settled app tr r where
  accepted d := by
    constructor
    · exact fun heq => absurd heq (hr d)
    · rintro ⟨spec,repo,hmem⟩
      exact absurd hmem (h.unspawned spec repo d)
  ended d hd := .inr (h.ended d hd)

/-- One deploy was created, and it was not handed over. -/
structure Alone (app : Text) (d : ℕ) (tr : History) : Prop where
  held : Held tr
  created : Created app tr d
  only : ∀ a d', ⟨.store (.createDeploy a),.ok d'⟩ ∈ tr → d' = d
  unspawned : ∀ spec repo d', ⟨.spawn spec repo d',()⟩ ∉ tr

theorem Underway.alone (h : Underway app tr config d) : Alone app d tr :=
  ⟨h.held,h.reserved.1,h.only,h.unspawned⟩

theorem Alone.over (h : Alone app d tr) (he : Ends app tr d) : Over app tr where
  held := h.held
  unspawned := h.unspawned
  ended d' hd' := by
    rw [h.only app d' hd']
    exact he

theorem Alone.add (h : Alone app d tr) {e : Eff} (he : Plain e) (r : e.Resp) :
    Alone app d (tr ++ [⟨e,r⟩]) where
  held := h.held.add (by rintro rfl; exact he) r
  created := mem_snoc h.created
  only a d' hmem := by
    rcases List.mem_append.mp hmem with hmem | hmem
    · exact h.only a d' hmem
    · cases List.mem_singleton.mp hmem
      exact he.elim
  unspawned spec repo d' hmem := by
    rcases List.mem_append.mp hmem with hmem | hmem
    · exact h.unspawned spec repo d' hmem
    · cases List.mem_singleton.mp hmem
      exact he.elim

theorem lasts_alone : Lasts (Alone app d) := ⟨(·.held),fun h he r => h.add he r⟩

theorem Over.add (h : Over app tr) {e : Eff} (he : Plain e) (r : e.Resp) :
    Over app (tr ++ [⟨e,r⟩]) where
  held := h.held.add (by rintro rfl; exact he) r
  unspawned spec repo d hmem := by
    rcases List.mem_append.mp hmem with hmem | hmem
    · exact h.unspawned spec repo d hmem
    · cases List.mem_singleton.mp hmem
      exact he.elim
  ended d hd := by
    rcases List.mem_append.mp hd with hmem | hmem
    · exact (h.ended d hmem).later (List.prefix_append _ _)
    · cases List.mem_singleton.mp hmem
      exact he.elim

theorem lasts_over : Lasts (Over app) := ⟨(·.held),fun h he r => h.add he r⟩

/-- The specification of deliveries for `app`. -/
abbrev protocol (app : Text) (pushed : Push → Prop) : Spec Eff Eff.Resp History :=
  guarded fun tr => Permitted app tr pushed

/-- A call of the store whose error is turned into one of the caller's. -/
theorem wp_mapped {ε : Type} {o : StoreOp} {f : Message → ε}
    {Q : Except ε o.Reply → History → Prop} (hG : Permitted app tr pushed (.store o))
    (hQ : ∀ reply : Except Message o.Reply, Q (reply.mapError f) (tr ++ [⟨.store o,reply⟩])) :
    wp (protocol app pushed) ((Run.store o).mapError f).run Q tr := by
  refine (wp_bind ..).mpr ⟨hG,?_⟩
  rintro reply tr' rfl
  exact hQ reply

theorem finishAttempt_permitted {I : History → Prop} (hI : Lasts I) (h : I tr)
    (hd : Created app tr d) (detail : Message) :
    wp (protocol app pushed) (finishAttempt d detail).run
      (fun _ tr' => I tr' ∧ FinishTried tr' d) tr := by
  have hcall : Permitted app tr pushed (.store (.finishDeployWithEvent d .failed (some detail))) :=
    .store (hI.held h) (.finishDeployWithEvent hd _)
  refine wp_run_seq (P := fun _ tr' => I tr' ∧ FinishTried tr' d)
    (wp_mapped hcall fun reply => ⟨hI.add (e := .store (.finishDeployWithEvent ..)) h trivial reply,_,
      reply,List.mem_append_right _ (List.mem_singleton_self _)⟩)
    (fun stored tr₁ h₁ => ?_) fun _ _ h => h
  obtain ⟨hlast,detail',reply,hmem⟩ := h₁
  exact wp_guarded_perform (.emit (hI.held hlast) stored) fun r =>
    ⟨hI.add (e := .emit _) hlast trivial r,detail',reply,mem_snoc hmem⟩

/-- A git command that is permitted; when it succeeds it was carried out in time. -/
theorem runGit_permitted (h : Underway app tr config d) {c : Command} (action : String)
    (hG : Permitted app tr pushed (.timed c)) : wp (protocol app pushed) (runGit app c action).run
      (fun r tr' => Underway app tr' config d ∧ tr <+: tr' ∧ ∀ out, r = .ok out → Ran tr' c out)
      tr := by
  refine wp_run_seq (P := fun r tr' => ∃ timed, r = .ok timed ∧ tr' = tr ++ [⟨.timed c,timed⟩])
    (wp_seq (P := fun timed tr' => tr' = tr ++ [⟨.timed c,timed⟩])
      (wp_guarded_perform hG fun _ => rfl) fun timed tr' h => ⟨timed,rfl,h⟩)
    (fun timed tr₁ h₁ => ?_) fun e tr₁ h₁ => by
      obtain ⟨_,heq,-⟩ := h₁
      cases heq
  obtain ⟨timed,heq,rfl⟩ := h₁
  cases heq
  have hunder := h.add (e := .timed c) trivial timed
  refine wp_mono (Q := fun r tr' => tr' = tr ++ [⟨.timed c,timed⟩] ∧
    ∀ out, r = .ok out → Ran tr' c out) ?_ fun r tr' h' => ?_
  · cases timed with
    | stalled => exact ⟨rfl,nofun⟩
    | finished result took =>
      cases result with
      | error why => exact ⟨rfl,nofun⟩
      | ok out =>
        dsimp only
        by_cases hlate : gitTimeout < took
        · rw [if_pos hlate]
          exact ⟨rfl,nofun⟩
        rw [if_neg hlate]
        by_cases hout : out.success = true
        · rw [if_pos hout]
          refine ⟨rfl,fun out' heq => ?_⟩
          cases heq
          exact ⟨took,by simp,Nat.le_of_not_lt hlate,hout⟩
        · rw [if_neg hout]
          exact ⟨rfl,nofun⟩
  · obtain ⟨rfl,hran⟩ := h'
    exact ⟨hunder,List.prefix_append _ _,hran⟩

/-- A step that may fail; when it does, the attempt is finished. -/
theorem orFinish_permitted {α : Type} {q : Api α} {P : α → History → Prop} {detail : Message}
    (hq : wp (protocol app pushed) q.run
      (fun r tr' => Underway app tr' config d ∧ tr <+: tr' ∧ ∀ a, r = .ok a → P a tr') tr) :
    wp (protocol app pushed) (orFinish d detail q).run (fun r tr' => Underway app tr' config d ∧
      match r with
      | .ok a => tr <+: tr' ∧ P a tr'
      | .error _ => FinishTried tr' d) tr := by
  refine wp_result_seq hq fun r tr₁ h₁ => ?_
  obtain ⟨hunder,hle,hP⟩ := h₁
  cases r with
  | ok a => exact ⟨hunder,hle,hP a rfl⟩
  | error e =>
    exact wp_run_seq (finishAttempt_permitted lasts_underway hunder hunder.reserved.1 detail)
      (fun _ _ h₂ => h₂) fun _ _ h₂ => h₂

/-- The spec of the checkout, once it is the pushed commit. -/
theorem readDeploySpec_permitted (codec : SpecCodec) (h : Underway app tr config d)
    (hpush : pushed p) (hreset : Reset tr config p) :
    wp (protocol app pushed) (readDeploySpec codec config).run (fun r tr' =>
      Underway app tr' config d ∧ tr <+: tr' ∧ ∀ x, r = .ok x → x.1.name = config.name ∧
        x.1.route = config.route ∧ x.1.validate = .ok () ∧ x.2 = Path.ofText config.repoPath) tr := by
  refine wp_seq (P := fun _ tr' => Underway app tr' config d ∧ tr <+: tr')
    (wp_guarded_perform (.readSpec h hpush hreset) fun r =>
      ⟨h.add (e := .readToString _) trivial r,List.prefix_append _ _⟩) fun text tr₁ h₁ => ?_
  refine ⟨h₁.1,h₁.2,?_⟩
  rintro ⟨spec,repo⟩ hspec
  obtain ⟨hfor,hvalid,hrepo⟩ := (deploySpec_eq_ok codec).mp hspec
  unfold specFor at hfor
  cases hread : repoSpec codec config fun _ => text.toOption with
  | error e =>
    rw [hread] at hfor
    cases hfor
  | ok found =>
    rw [hread] at hfor
    cases hfor
    exact ⟨rfl,rfl,hvalid,hrepo⟩

/-- What a delivery leaves behind, with the lock still held. -/
def Left (app : Text) (r : ApiResult HookReply) (tr : History) : Prop :=
  Held tr ∧ Settled app tr r

theorem deployPush_permitted (codec : SpecCodec) (h : Underway app tr config d)
    (hpush : pushed p) :
    wp (protocol app pushed) (deployPush codec app config p d).run (Left app) tr := by
  have hfailed : ∀ {r : ApiResult HookReply} {tr' : History}, (∀ d', r ≠ .ok (.accepted d')) →
      Underway app tr' config d ∧ FinishTried tr' d → Left app r tr' :=
    fun hr hf => ⟨hf.1.held,(hf.1.alone.over hf.2.ends).settled hr⟩
  refine wp_run_seq (orFinish_permitted (P := fun out tr' => Ran tr' (.gitSymbolicRef config.repoPath) out)
    (runGit_permitted h _ (.readBranch h hpush))) (fun out tr₁ h₁ => ?_) fun e tr₁ h₁ => hfailed nofun h₁
  obtain ⟨hunder,-,hran⟩ := h₁
  dsimp only
  split
  · -- the push was to another branch
    refine wp_run_seq (finishAttempt_permitted lasts_underway hunder hunder.reserved.1 _)
      (fun _ tr₂ h₂ => hfailed nofun h₂) fun e tr₂ h₂ => hfailed nofun h₂
  rename_i hbranch
  have hon : OnBranch tr₁ config p := ⟨out,hran,not_not.mp hbranch⟩
  refine wp_run_seq (orFinish_permitted (P := fun out tr' => Ran tr' (.gitFetch config.repoPath) out)
    (runGit_permitted hunder _ (.fetch hunder hpush hon))) (fun out tr₂ h₂ => ?_)
    fun e tr₂ h₂ => hfailed nofun h₂
  obtain ⟨hunder,hle,hfetch⟩ := h₂
  have hon := hon.later hle
  refine wp_run_seq (orFinish_permitted
    (P := fun out tr' => Ran tr' (.gitReset config.repoPath p.sha) out)
    (runGit_permitted hunder _ (.reset hunder hpush hon ⟨out,hfetch⟩))) (fun out tr₃ h₃ => ?_)
    fun e tr₃ h₃ => hfailed nofun h₃
  obtain ⟨hunder,hle,hreset⟩ := h₃
  have hon := hon.later hle
  refine wp_run_seq (orFinish_permitted (readDeploySpec_permitted codec hunder hpush ⟨out,hreset⟩))
    (fun x tr₄ h₄ => ?_) fun e tr₄ h₄ => hfailed nofun h₄
  obtain ⟨spec,repo⟩ := x
  obtain ⟨hunder,hle,hname,hroute,hvalid,rfl⟩ := h₄
  have hspawn : Permitted app tr₄ pushed (.spawn spec (Path.ofText config.repoPath) d) :=
    .spawn hunder hpush (hon.later hle) ⟨out,hreset.later hle⟩ hname hroute hvalid
  refine wp_guarded_perform hspawn fun _ => ⟨hunder.held.add (by simp) _,?_,?_⟩
  · intro d'
    constructor
    · intro heq
      cases heq
      exact ⟨_,_,List.mem_append_right _ (List.mem_singleton_self _)⟩
    · rintro ⟨spec',repo',hmem⟩
      rcases List.mem_append.mp hmem with hmem | hmem
      · exact absurd hmem (hunder.unspawned spec' repo' d')
      · cases List.mem_singleton.mp hmem
        rfl
  · intro d' hcreated
    rcases List.mem_append.mp hcreated with hmem | hmem
    · rw [hunder.only app d' hmem]
      exact .inl rfl
    · cases List.mem_singleton.mp hmem

theorem Over.left (h : Over app tr) {r : ApiResult HookReply} (hr : ∀ d, r ≠ .ok (.accepted d)) :
    Left app r tr := ⟨h.held,h.settled hr⟩

/-- Nothing was created yet, and the registration is known. -/
structure Fresh (app : Text) (config : AppConfig) (tr : History) : Prop where
  held : Held tr
  registered : ⟨.store (.appConfig app),.ok (some config)⟩ ∈ tr
  unspawned : ∀ spec repo d, ⟨.spawn spec repo d,()⟩ ∉ tr
  uncreated : ∀ a d, ⟨.store (.createDeploy a),.ok d⟩ ∉ tr

theorem Fresh.over (h : Fresh app config tr) : Over app tr :=
  ⟨h.held,h.unspawned,fun d hd => absurd hd (h.uncreated app d)⟩

/-- The reply of the store to the creation of a deploy. -/
theorem Fresh.create (h : Fresh app config tr) (reply : Except Message ℕ) :
    match reply with
    | .ok d => Alone app d (tr ++ [⟨.store (.createDeploy app),.ok d⟩])
    | .error why => Over app (tr ++ [⟨.store (.createDeploy app),.error why⟩]) := by
  have hunspawned : ∀ spec repo d,
      ⟨.spawn spec repo d,()⟩ ∉ tr ++ [⟨.store (.createDeploy app),reply⟩] := by
    intro spec repo d hmem
    rcases List.mem_append.mp hmem with hmem | hmem
    · exact h.unspawned spec repo d hmem
    · cases List.mem_singleton.mp hmem
  cases reply with
  | ok d =>
    refine ⟨h.held.add (by simp) _,List.mem_append_right _ (List.mem_singleton_self _),
      fun a d' hmem => ?_,hunspawned⟩
    rcases List.mem_append.mp hmem with hmem | hmem
    · exact absurd hmem (h.uncreated a d')
    · cases List.mem_singleton.mp hmem
      rfl
  | error why =>
    refine ⟨h.held.add (by simp) _,hunspawned,fun d hmem => ?_⟩
    rcases List.mem_append.mp hmem with hmem | hmem
    · exact absurd hmem (h.uncreated app d)
    · cases List.mem_singleton.mp hmem

theorem reserve_permitted (h : Fresh app config tr) : wp (protocol app pushed) (reserve app).run
    (fun r tr' => match r with
      | .ok d => Underway app tr' config d
      | .error (.busy _ d) => Over app tr' ∧ Created app tr' d
      | .error (.internal _) => Over app tr') tr := by
  refine wp_run_seq (P := fun r tr' => match r with
      | .ok d => tr' = tr ++ [⟨.store (.createDeploy app),.ok d⟩] ∧ Alone app d tr'
      | .error (.busy ..) => False
      | .error (.internal _) => Over app tr')
    (wp_mapped (.store h.held .createDeploy) fun reply => ?_)
    (fun d tr₁ h₁ => ?_) fun e tr₁ h₁ => ?_
  · have hcreate := h.create reply
    cases reply with
    | ok d => exact ⟨rfl,hcreate⟩
    | error why => exact hcreate
  · obtain ⟨rfl,halone⟩ := h₁
    refine wp_run_seq (P := fun r tr' => ∃ reply : Except Message Bool,
        r = reply.mapError ReserveError.internal ∧
        tr' = tr ++ [⟨.store (.createDeploy app),.ok d⟩] ++ [⟨.store (.acquireLock app d),reply⟩])
      (wp_mapped (.store halone.held (.acquireLock halone.created)) fun reply => ⟨reply,rfl,rfl⟩)
      (fun granted tr₂ h₂ => ?_) fun e tr₂ h₂ => ?_
    · obtain ⟨reply,hreply,rfl⟩ := h₂
      obtain rfl : reply = .ok granted := by
        cases reply with
        | ok answer => exact congrArg Except.ok (Except.ok.inj hreply).symm
        | error why => cases hreply
      have hasked := halone.add (e := .store (.acquireLock app d)) trivial (.ok granted)
      cases granted with
      | true =>
        exact {
          held := hasked.held
          registered := mem_snoc (mem_snoc h.registered)
          reserved := ⟨hasked.created,List.mem_append_right _ (List.mem_singleton_self _)⟩
          only := hasked.only
          unspawned := hasked.unspawned }
      | false =>
        refine wp_run_seq (P := fun r tr' => Over app tr' ∧ Created app tr' d ∧
            ∀ e, r = .error e → ∃ why, e = .internal why)
          (wp_mapped (.store hasked.held (.finishDeploy hasked.created _)) fun reply => ?_)
          (fun _ tr₃ h₃ => ⟨h₃.1,h₃.2.1⟩) fun e tr₃ h₃ => ?_
        · have hended := hasked.add (e := .store (.finishDeploy ..)) trivial reply
          refine ⟨hended.over (.inr (.inl ⟨_,reply,List.mem_append_right _
            (List.mem_singleton_self _)⟩)),hended.created,fun e he => ?_⟩
          cases reply with
          | ok u => cases he
          | error why =>
            cases he
            exact ⟨why,rfl⟩
        · obtain ⟨why,rfl⟩ := h₃.2.2 e rfl
          exact h₃.1
    · obtain ⟨reply,hreply,rfl⟩ := h₂
      cases reply with
      | ok answer => cases hreply
      | error why =>
        cases hreply
        have hasked := halone.add (e := .store (.acquireLock app d)) trivial (.error why)
        exact hasked.over (.inr (.inr ⟨why,List.mem_append_right _ (List.mem_singleton_self _)⟩))
  · cases e with
    | busy name d => exact h₁.elim
    | internal why => exact h₁

theorem reservePush_permitted (codec : SpecCodec) (h : Fresh app config tr)
    (hpush : pushed p) :
    wp (protocol app pushed) (reservePush codec app config p).run (Left app) tr := by
  refine wp_run_seq (P := fun (r : ApiResult (Except ReserveError ℕ)) tr' => match r with
      | .ok (.ok d) => Underway app tr' config d
      | .ok (.error (.busy _ d)) => Over app tr' ∧ Created app tr' d
      | .ok (.error (.internal _)) => Over app tr'
      | .error _ => False) ?_ (fun r tr₁ h₁ => ?_) fun e tr₁ h₁ => h₁.elim
  · refine (wp_bind ..).mpr (wp_result.mpr (wp_mono (reserve_permitted h) fun r tr' hr => ?_))
    rcases r with (_ | _) | d <;> exact hr
  · rcases r with (⟨name,d⟩ | why) | d
    · exact wp_run_seq (finishAttempt_permitted lasts_over h₁.1 h₁.2 _)
        (fun _ tr₂ h₂ => h₂.1.left nofun) fun e tr₂ h₂ => h₂.1.left nofun
    · exact h₁.left nofun
    · exact deployPush_permitted codec h₁ hpush

/-- A refusal is put on record as a deploy that has ended. -/
theorem recordRefusal_permitted (h : Fresh app config tr) (detail : Message) :
    wp (protocol app pushed) (recordRefusal app detail).run (fun _ tr' => Over app tr') tr := by
  refine wp_run_seq (P := fun r tr' => match r with
      | .ok d => Alone app d tr'
      | .error _ => Over app tr')
    (wp_mapped (.store h.held .createDeploy) fun reply => ?_) (fun d tr₁ h₁ => ?_)
    fun e tr₁ h₁ => h₁
  · have hcreate := h.create reply
    cases reply <;> exact hcreate
  · exact wp_mono (finishAttempt_permitted lasts_alone h₁ h₁.created detail)
      fun _ _ h₂ => h₂.1.over h₂.2.ends

theorem ensureNotBusy_permitted (h : Fresh app config tr) :
    wp (protocol app pushed) (ensureNotBusy app).run (fun _ => Fresh app config) tr := by
  refine wp_run_seq (P := fun _ => Fresh app config)
    (wp_mapped (.store h.held .inProgressDeploys) fun reply => ?_) (fun rows tr₁ h₁ => ?_)
    fun _ _ h₁ => h₁
  · refine ⟨h.held.add (by simp) _,mem_snoc h.registered,fun spec repo d hmem => ?_,
      fun a d hmem => ?_⟩
    · rcases List.mem_append.mp hmem with hmem | hmem
      · exact h.unspawned spec repo d hmem
      · cases List.mem_singleton.mp hmem
    · rcases List.mem_append.mp hmem with hmem | hmem
      · exact h.uncreated a d hmem
      · cases List.mem_singleton.mp hmem
  · split <;> exact h₁

theorem readRegistration_permitted : wp (protocol app pushed) (readRegistration app).run
    (fun r tr => Over app tr ∧ ∀ config, r = .ok config → Fresh app config tr)
    [⟨.acquire .trigger,()⟩] := by
  have hheld : Held [⟨.acquire .trigger,()⟩] := ⟨rfl,by simp⟩
  refine (wp_bind ..).mpr ⟨.store hheld .appConfig,?_⟩
  rintro reply tr' rfl
  have hasked := hheld.add (e := .store (.appConfig app)) (by simp) reply
  refine ⟨⟨hasked,by simp,by simp [Created]⟩,fun config hconfig => ⟨hasked,?_,by simp,by simp⟩⟩
  rcases reply with why | _ | found
  · cases hconfig
  · cases hconfig
  · cases hconfig
    exact List.mem_append_right _ (List.mem_singleton_self _)

theorem Settled.released {r : ApiResult HookReply} (h : Settled app tr r) :
    Settled app (tr ++ [⟨.release .trigger,()⟩]) r where
  accepted d := by
    rw [h.accepted d]
    simp
  ended d hd := by
    have hcreated : Created app tr d := by
      rcases List.mem_append.mp hd with hmem | hmem
      · exact hmem
      · cases List.mem_singleton.mp hmem
    exact (h.ended d hcreated).imp id fun hends => hends.later (List.prefix_append _ _)

/-- The whole of what a delivery leaves behind. -/
structure Delivered (app : Text) (r : ApiResult HookReply) (tr : History) : Prop where
  first : tr.head? = some ⟨.acquire .trigger,()⟩
  last : tr.getLast? = some ⟨.release .trigger,()⟩
  settled : Settled app tr r

/-- What follows the authentication, under the trigger lock. -/
theorem dispatchPush_permitted (codec : SpecCodec) (app : Text) (push : Option Push) :
    wp (protocol app fun p => push = some p) (dispatchPush codec app push).run (Delivered app) [] := by
  refine wp_run_seq (P := fun r tr => r = .ok () ∧ tr = [⟨.acquire .trigger,()⟩])
    (wp_guarded_perform (.acquire rfl) fun _ => ⟨rfl,rfl⟩) (fun _ tr h => ?_)
    fun e tr h => nomatch h.1
  obtain ⟨-,rfl⟩ := h
  refine wp_result_seq (P := Left app) ?_ fun r tr₁ h₁ => ?_
  · refine wp_run_seq readRegistration_permitted (fun config tr₁ h₁ => ?_)
      fun e tr₁ h₁ => h₁.1.left nofun
    have hfresh := h₁.2 config rfl
    cases push with
    | none => exact hfresh.over.left nofun
    | some p =>
      refine wp_result_seq (ensureNotBusy_permitted hfresh) fun busy tr₂ h₂ => ?_
      cases busy with
      | ok u => exact reservePush_permitted codec h₂ rfl
      | error err =>
        dsimp only
        split
        · exact wp_run_seq (recordRefusal_permitted h₂ _) (fun _ tr₃ h₃ => h₃.left nofun)
            fun e tr₃ h₃ => h₃.left nofun
        · exact h₂.over.left nofun
  · refine wp_run_seq (P := fun r' tr => r' = .ok () ∧ Delivered app r tr)
      (wp_guarded_perform (.release h₁.1) fun _ => ⟨rfl,?_,by simp,h₁.2.released⟩)
      (fun _ tr₂ h₂ => ?_) fun e tr₂ h₂ => ?_
    · rw [List.head?_append,h₁.1.1]
      rfl
    · cases r <;> exact h₂.2
    · cases h₂.1

end Steps

section Endpoint
variable {hmac : Bytes → Bytes → Bytes} {json : Mcp.SerdeJson} {codec : SpecCodec}
  {hookSecret : Option HookSecret} {d : Delivery} {forge : Forge}

/-- The delivery has the signature or the token that its forge sends. -/
def Authentic (hmac : Bytes → Bytes → Bytes) (hookSecret : Option HookSecret) (d : Delivery)
    (forge : Forge) : Prop :=
  ∃ secret, hookSecret = some secret ∧
    forge.verify hmac secret d.body ((d.headers forge.header).bind headerStr) = true

/-- Without its signature a delivery does nothing. With it, each thing that is done is allowed by
what was done before: all of it under the trigger lock, to deploys created here, and to the
checkout of the registered app only what brings it to the pushed commit of the branch it is on. -/
theorem delivery_protocol {tr : History} {r : ApiResult HookReply}
    (h : Runs (endpoint hmac json codec hookSecret d forge).run tr r) :
    (¬Authentic hmac hookSecret d forge → tr = [] ∧ ∃ e, r = .error e ∧
      e.code = if hookSecret.isSome then .unauthorized else .notFound) ∧
    (Authentic hmac hookSecret d forge → Delivered d.app r tr ∧
      ∀ earlier e x later, tr = earlier ++ ⟨e,x⟩::later →
        Permitted d.app earlier (Says json d.body) e) := by
  have hsays : (fun p => parsePush json d.body = some p) = Says json d.body :=
    funext fun p => propext parsePush_eq_some
  unfold endpoint at h
  cases hookSecret with
  | none =>
    obtain ⟨rfl,rfl⟩ := runs_ret.mp h
    exact ⟨fun _ => ⟨rfl,_,rfl,rfl⟩,fun ⟨_,hnone,_⟩ => nomatch hnone⟩
  | some secret =>
    dsimp only at h
    by_cases hverify : forge.verify hmac secret d.body ((d.headers forge.header).bind headerStr) = true
    · rw [if_pos hverify] at h
      refine ⟨fun hnot => absurd ⟨secret,rfl,hverify⟩ hnot,fun _ => ?_⟩
      rw [← hsays]
      exact runs_of_wp (dispatchPush_permitted codec d.app (parsePush json d.body)) h
    · rw [if_neg hverify] at h
      obtain ⟨rfl,rfl⟩ := runs_ret.mp h
      refine ⟨fun _ => ⟨rfl,_,rfl,rfl⟩,?_⟩
      rintro ⟨_,⟨⟩,hok⟩
      exact absurd hok hverify

def pushValue : Json := .obj [("after",.str "1111111111111111111111111111111111111111"),
  ("ref",.str "refs/heads/main")]

/-- A reader that knows the body of one push. -/
def pushJson : Mcp.SerdeJson where
  fromStr t := if bytes t = pushBody then .ok pushValue else .error "expected value at line 1 column 1"
  toString := Json.compact
  writes := Json.writes_compact

def pushSecret : HookSecret := ⟨"s3cret",by decide⟩

/-- A push of `main`, with the token of the forge. -/
def mainDelivery : Delivery where
  app := "web"
  headers name := if name = "x-gitlab-token" then some "s3cret" else none
  body := pushBody

/-- The checkout is on another branch, and is left alone. -/
def devHistory : History := [⟨.acquire .trigger,()⟩,
  ⟨.store (.appConfig "web"),.ok (some ⟨"web","/srv/web",none⟩)⟩,
  ⟨.store .inProgressDeploys,.ok []⟩,⟨.store (.createDeploy "web"),.ok 1⟩,
  ⟨.store (.acquireLock "web" 1),.ok true⟩,
  ⟨.timed (.gitSymbolicRef "/srv/web"),.finished (.ok ⟨0,"dev\n",[]⟩) 0⟩,
  ⟨.store (.finishDeployWithEvent 1 .failed
    (some ["hook ignored: ","push to ",.text "main",", deploying ",.text "dev"])),.error ["locked"]⟩,
  ⟨.release .trigger,()⟩]

theorem devHistory_permitted :
    (¬Authentic knownMac (some pushSecret) mainDelivery .gitlab → devHistory = [] ∧
      ∃ e, (.error (.internal (Message.context ["finishing hook attempt"] ["locked"])) :
          ApiResult HookReply) = .error e ∧ e.code = .unauthorized) ∧
    (Authentic knownMac (some pushSecret) mainDelivery .gitlab →
      Delivered "web" (.error (.internal (Message.context ["finishing hook attempt"] ["locked"])))
        devHistory ∧
      ∀ earlier e x later, devHistory = earlier ++ ⟨e,x⟩::later →
        Permitted "web" earlier (Says pushJson pushBody) e) := by
  refine @delivery_protocol knownMac pushJson serde (some pushSecret) mainDelivery .gitlab _ _ ?_
  have hverify : verifyGitlab knownMac pushSecret (some "s3cret") = true :=
    beq_self_eq_true (pushSecret.mac knownMac (bytes "s3cret"))
  have hread : ∀ t, bytes t = pushBody → pushJson.fromStr t = .ok pushValue := fun t ht => by
    simp only [pushJson,if_pos ht]
  have hpush : parsePush pushJson pushBody =
      some ⟨"main","1111111111111111111111111111111111111111"⟩ :=
    parsePush_eq_some.mpr ⟨isCommit_iff.mpr (by decide +kernel),_,pushValue,decode_bytes _,
      hread _ rfl,rfl,rfl⟩
  change Runs (if verifyGitlab knownMac pushSecret (some "s3cret") then
    dispatchPush serde "web" (parsePush pushJson pushBody)
    else throw (.unauthorized ["unauthorized"])).run _ _
  rw [if_pos hverify,hpush]
  exact .op (.op (.op (.op (.op (.op (.op (.op (.ret _))))))))

end Endpoint

end Kuadrat.Hooks
