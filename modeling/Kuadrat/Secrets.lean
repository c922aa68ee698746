import Mathlib.Logic.Function.Basic
import Kuadrat.Deploy.Steps
import Kuadrat.Effect.Trace

/-!
# Secrets

Secrets are kept by podman under their names. A value travels on the standard input of one
command only; what is kept after any number of calls is what the last call on a name left there,
and what anyone can see of the calls does not depend on the values.
-/
namespace Kuadrat.Secrets

open Effect

/-- How podman is run. -/
inductive Podman
  | run (args : List Text)
  | runWithStdin (args : List Text) (stdin : Text)
  deriving DecidableEq

@[reducible] def Podman.Resp : Podman → Type := fun _ => Except Message CommandOutput

abbrev Shell := Proc Podman Podman.Resp Message

def run (args : List Text) : Shell CommandOutput := .mk (.perform (.run args))

def runWithStdin (args : List Text) (stdin : Text) : Shell CommandOutput :=
  .mk (.perform (.runWithStdin args stdin))

/-- Create or replace a secret. -/
def set (name value : Text) : Shell Unit := do
  -- the secret may not exist yet
  let _ ← (run ["secret","rm",name]).result
  let out ← runWithStdin ["secret","create",name,"-"] value
  if out.success then return ()
  else bail ["podman secret create failed for ",.text name,": ",.text out.stderr.trim]

/-- Delete a secret. -/
def remove (name : Text) : Shell Unit := do
  let out ← run ["secret","rm",name]
  if out.success then return ()
  else bail ["podman secret rm failed for ",.text name,": ",.text out.stderr.trim]

/-- A call of `kuadrat secret` that changes something. -/
inductive Op
  | set (name value : Text)
  | remove (name : Text)
  deriving DecidableEq

def Op.prog : Op → Shell Unit
  | .set name value => Secrets.set name value
  | .remove name => Secrets.remove name

/-- One call after the other, each with its result. -/
def session : List Op → Prog Podman Podman.Resp (List (Except Message Unit))
  | [] => .ret []
  | op::ops => do
    let r ← op.prog.run
    let rs ← session ops
    .ret (r::rs)

section Vault

/-- What podman keeps. -/
abbrev Vault := Text → Option Text

/-- What podman makes of a command. When the command could not be run to its end, nothing is known
of it: a removal may have happened, and a secret may be there with a part of its value. -/
inductive Step (v : Vault) : Podman → Except Message CommandOutput → Vault → Prop
  | removed {name : Text} {out : CommandOutput} (h : v name ≠ none) (hout : out.success = true) :
    Step v (.run ["secret","rm",name]) (.ok out) (Function.update v name none)
  | created {name value : Text} {out : CommandOutput} (h : v name = none)
    (hout : out.success = true) :
    Step v (.runWithStdin ["secret","create",name,"-"] value) (.ok out)
      (Function.update v name (some value))
  | refused {e : Podman} {out : CommandOutput} (hout : out.success = false) : Step v e (.ok out) v
  | lost {e : Podman} {why : Message} : Step v e (.error why) v
  | lostRemoval {name : Text} {why : Message} :
    Step v (.run ["secret","rm",name]) (.error why) (Function.update v name none)
  | lostCreation {name value part : Text} {why : Message} (h : v name = none)
    (hpart : part <+: value) :
    Step v (.runWithStdin ["secret","create",name,"-"] value) (.error why)
      (Function.update v name (some part))

/-- What a call leaves under a name. -/
def Leaves (op : Op) (r : Except Message Unit) (name : Text) (old new : Option Text) : Prop :=
  match op,r with
  | .set n value,.ok _ => new = if n = name then some value else old
  | .set n value,.error _ =>
    new = old ∨ n = name ∧ (new = none ∨ ∃ part, part <+: value ∧ new = some part)
  | .remove n,.ok _ => new = if n = name then none else old
  | .remove n,.error _ => new = old ∨ n = name ∧ new = none

variable {v v' : Vault} {name value : Text}

end Vault

section Session

/-- What is known of the content of a name after one call more. -/
def settledBy (name : Text) (known : Option (Option Text)) :
    Op × Except Message Unit → Option (Option Text)
  | (.set n value,.ok _) => if n = name then some (some value) else known
  | (.remove n,.ok _) => if n = name then some none else known
  | (.set n _,.error _) | (.remove n,.error _) => if n = name then none else known

/-- The content of a name after the calls of a log, where it is known: what the last successful
call left there, unless a call on the name has failed since. -/
def settled (name : Text) (old : Option Text) (log : List (Op × Except Message Unit)) :
    Option (Option Text) :=
  log.foldl (settledBy name) (some old)

variable {name : Text} {old new : Option Text} {op : Op} {r : Except Message Unit}

theorem Leaves.settledBy (h : Leaves op r name old new) {known : Option (Option Text)}
    (hknown : ∀ c, known = some c → old = c) :
    ∀ c, Secrets.settledBy name known (op,r) = some c → new = c := by
  intro c hc
  cases op with
  | set n value =>
    cases r with
    | ok u =>
      change new = if n = name then some value else old at h
      change (if n = name then some (some value) else known) = some c at hc
      split at hc <;> rename_i hn
      · rw [h,if_pos hn]
        exact Option.some.inj hc
      · rw [h,if_neg hn]
        exact hknown c hc
    | error why =>
      change (if n = name then none else known) = some c at hc
      split at hc <;> rename_i hn
      · cases hc
      · rcases h with rfl | ⟨heq,-⟩
        · exact hknown c hc
        · exact absurd heq hn
  | remove n =>
    cases r with
    | ok u =>
      change new = if n = name then none else old at h
      change (if n = name then some none else known) = some c at hc
      split at hc <;> rename_i hn
      · rw [h,if_pos hn]
        exact Option.some.inj hc
      · rw [h,if_neg hn]
        exact hknown c hc
    | error why =>
      change (if n = name then none else known) = some c at hc
      split at hc <;> rename_i hn
      · cases hc
      · rcases h with rfl | ⟨heq,-⟩
        · exact hknown c hc
        · exact absurd heq hn

end Session

section Secrecy

/-- What can be seen of a command: its arguments, not what is piped to it. -/
def Podman.visible : Podman → Podman
  | run args => .run args
  | runWithStdin args _ => .runWithStdin args []

/-- A run of a program as others see it: the arguments of each command and its answer, and what
the program makes of the answers. -/
def Sees {α : Type} (p : Prog Podman Podman.Resp α)
    (seen : List (Podman × Except Message CommandOutput)) (a : α) : Prop :=
  ∃ tr, seen = tr.map (fun x => (x.1.visible,x.2)) ∧ Runs p tr a

/-- Two calls that differ in the value at most. -/
inductive Op.Alike : Op → Op → Prop
  | set (name value value' : Text) : Alike (.set name value) (.set name value')
  | remove (name : Text) : Alike (.remove name) (.remove name)

variable {α β : Type} {seen : List (Podman × Except Message CommandOutput)}

theorem sees_op {e : Podman} {k : Except Message CommandOutput → Prog Podman Podman.Resp α} {a : α} :
    Sees (.op e k) seen a ↔ ∃ r rest, seen = (e.visible,r)::rest ∧ Sees (k r) rest a := by
  constructor
  · rintro ⟨tr,rfl,h⟩
    obtain ⟨r,tr',rfl,hk⟩ := runs_op.mp h
    exact ⟨r,_,rfl,tr',rfl,hk⟩
  · rintro ⟨r,rest,rfl,tr,rfl,hk⟩
    exact ⟨⟨e,r⟩::tr,rfl,.op hk⟩

theorem sees_bind {p : Prog Podman Podman.Resp β} {f : β → Prog Podman Podman.Resp α} {a : α} :
    Sees (p >>= f) seen a ↔
      ∃ b before after, seen = before ++ after ∧ Sees p before b ∧ Sees (f b) after a := by
  constructor
  · rintro ⟨tr,rfl,h⟩
    obtain ⟨b,tr₁,tr₂,rfl,hp,hf⟩ := runs_bind.mp h
    exact ⟨b,_,_,List.map_append,⟨tr₁,rfl,hp⟩,tr₂,rfl,hf⟩
  · rintro ⟨b,-,-,rfl,⟨tr₁,rfl,hp⟩,tr₂,rfl,hf⟩
    exact ⟨tr₁ ++ tr₂,List.map_append.symm,runs_bind.mpr ⟨b,tr₁,tr₂,rfl,hp,hf⟩⟩

/-- The value enters the second command of a call only, and there what is piped to it. -/
theorem set_hides (name value value' : Text) (r : Except Message Unit)
    (seen : List (Podman × Except Message CommandOutput)) :
    Sees (set name value).run seen r ↔ Sees (set name value').run seen r := by
  have hset : ∀ value, (set name value).run = .op (.run ["secret","rm",name]) fun _ =>
      .op (.runWithStdin ["secret","create",name,"-"] value) fun answer =>
        Prog.orElse (fun out : CommandOutput => (if out.success then return ()
          else bail ["podman secret create failed for ",.text name,": ",.text out.stderr.trim]
          : Shell Unit).run) answer := by
    intro value
    rfl
  rw [hset,hset]
  simp only [sees_op]
  rfl

theorem prog_hides {op op' : Op} (h : op.Alike op') (r : Except Message Unit)
    (seen : List (Podman × Except Message CommandOutput)) :
    Sees op.prog.run seen r ↔ Sees op'.prog.run seen r := by
  cases h with
  | set name value value' => exact set_hides name value value' r seen
  | remove name => exact Iff.rfl

/-- Nobody who sees the arguments and the answers of every command, and all results and errors,
can tell the values of one session from those of another. -/
theorem session_hides {ops ops' : List Op} (h : List.Forall₂ Op.Alike ops ops')
    (seen : List (Podman × Except Message CommandOutput)) (rs : List (Except Message Unit)) :
    Sees (session ops) seen rs ↔ Sees (session ops') seen rs := by
  induction h generalizing seen rs with
  | nil => exact Iff.rfl
  | cons hop _ ih =>
    rw [session,session,sees_bind,sees_bind]
    refine exists_congr fun r => exists_congr fun before => exists_congr fun after => ?_
    refine and_congr_right fun _ => and_congr (prog_hides hop r before) ?_
    rw [sees_bind,sees_bind]
    refine exists_congr fun rs' => exists_congr fun before => exists_congr fun after => ?_
    exact and_congr_right fun _ => and_congr (ih before rs') Iff.rfl

/-- What is seen of storing one value is what is seen of storing another. -/
theorem values_hidden : Sees (session [.set "db-pw" "guess"])
    [(.run ["secret","rm","db-pw"],.ok ⟨0,[],[]⟩),
      (.runWithStdin ["secret","create","db-pw","-"] [],.ok ⟨0,[],[]⟩)] [.ok ()] := by
  refine (session_hides (.cons (.set "db-pw" "supersecret" "guess") .nil) _ _).mp ?_
  have hrun : Runs (session [.set "db-pw" "supersecret"])
      [⟨.run ["secret","rm","db-pw"],.ok ⟨0,[],[]⟩⟩,
        ⟨.runWithStdin ["secret","create","db-pw","-"] "supersecret",.ok ⟨0,[],[]⟩⟩] [.ok ()] :=
    .op (.op (.ret _))
  exact ⟨_,rfl,hrun⟩

end Secrecy

section Preflight

/-- A name that podman accepts is not empty and has no white space. -/
def IsSecretName (name : Text) : Prop := name ≠ [] ∧ ∀ c ∈ name, isWhitespace c = false

/-- `podman secret ls` lists the names that are kept, one a line, in some order. -/
def Lists (v : Vault) (out : CommandOutput) : Prop :=
  ∃ listed : List Text, out.stdout = listed.flatMap (· ++ ['\n']) ∧ ∀ n, n ∈ listed ↔ v n ≠ none

theorem trim_secretName {name : Text} (h : IsSecretName name) : name.trim = name := by
  have hstart : ∀ t : Text, (∀ c ∈ t, isWhitespace c = false) → t.dropWhile isWhitespace = t := by
    intro t ht
    cases t with
    | nil => rfl
    | cons c t => rw [List.dropWhile_cons_of_neg (by simp [ht c])]
  have hend : (name.reverse.dropWhile isWhitespace).reverse = name := by
    rw [hstart _ fun c hc => h.2 c (List.mem_reverse.mp hc),List.reverse_reverse]
  rw [Text.trim,Text.trimStart,hstart name h.2,Text.trimEnd,hend]

theorem list_of_lists {v : Vault} (hnames : ∀ n, v n ≠ none → IsSecretName n)
    {out : CommandOutput} (h : Lists v out) :
    ∃ listed, ((out.stdout.lines.map Text.trim).filter fun l => !l.isEmpty) = listed ∧
      ∀ n, n ∈ listed ↔ v n ≠ none := by
  obtain ⟨listed,hout,hlisted⟩ := h
  have hname : ∀ n ∈ listed, IsSecretName n := fun n hn => hnames n ((hlisted n).mp hn)
  refine ⟨listed,?_,hlisted⟩
  have hlines : out.stdout.lines = listed := by
    rw [hout]
    refine Text.lines_flatMap_newline fun n hn => ⟨fun hc => ?_,fun hc => ?_⟩
    · exact absurd ((hname n hn).2 _ hc) (by decide)
    · exact absurd ((hname n hn).2 _ hc) (by decide)
  have htrim : listed.map Text.trim = listed := by
    conv_rhs => rw [← List.map_id listed]
    exact List.map_congr_left fun n hn => trim_secretName (hname n hn)
  rw [hlines,htrim,List.filter_eq_self]
  intro n hn
  simpa using (hname n hn).1

/-- The answer of the pre-flight when the names are known. -/
theorem run_ensureAll {names : List Text} {tr : List (Exchange Eff Eff.Resp)} {r : Except Message Unit}
    (h : Runs (ensureAll names).run tr r) :
    ∃ answer, tr = [⟨.run .podmanSecretLs,answer⟩] ∧
      r = answer.bind fun out =>
        if out.success then
          let missing := names.filter fun n =>
            !((out.stdout.lines.map Text.trim).filter fun l => !l.isEmpty).contains n
          if missing.isEmpty then .ok ()
          else .error ["missing secrets: ",.text (Text.join ", " missing)]
        else .error ["podman secret ls failed: ",.text out.stderr.trim] := by
  obtain ⟨answer,tr',rfl,hrest⟩ := runs_op.mp h
  cases answer with
  | error why =>
    obtain ⟨rfl,rfl⟩ := runs_ret.mp hrest
    exact ⟨_,rfl,rfl⟩
  | ok out =>
    refine ⟨.ok out,?_⟩
    change Runs (Prog.bind (if out.success = true then _ else _) (ExceptT.bindCont _)) tr' r at hrest
    change _ ∧ r = if out.success then _ else _
    by_cases hout : out.success = true
    · rw [if_pos hout] at hrest ⊢
      change Runs (if List.isEmpty _ = true then _ else _) tr' r at hrest
      split at hrest
      · rename_i hempty
        obtain ⟨rfl,rfl⟩ := runs_ret.mp hrest
        exact ⟨rfl,(if_pos hempty).symm⟩
      · rename_i hmissing
        obtain ⟨rfl,rfl⟩ := runs_ret.mp hrest
        exact ⟨rfl,(if_neg hmissing).symm⟩
    · rw [if_neg hout] at hrest ⊢
      obtain ⟨rfl,rfl⟩ := runs_ret.mp hrest
      exact ⟨rfl,rfl⟩

/-- What the pre-flight says of the names, by what podman answered. -/
structure Checked (v : Vault) (names : List Text) (answer : Except Message CommandOutput)
    (r : Except Message Unit) : Prop where
  listed : ∀ out, answer = .ok out → out.success = true → Lists v out →
    r = if names.all fun n => (v n).isSome then .ok ()
      else .error ["missing secrets: ",.text (Text.join ", " (names.filter fun n => (v n).isNone))]
  unlisted : (∀ out, answer = .ok out → out.success = false) → ∃ why, r = .error why

/-- The pre-flight asks podman once and passes exactly when podman has every secret of the spec;
otherwise it names the missing ones, in the order of the spec. -/
theorem ensureAll_exact {v : Vault} (hnames : ∀ n, v n ≠ none → IsSecretName n) {names : List Text}
    {tr : List (Exchange Eff Eff.Resp)} {r : Except Message Unit}
    (h : Runs (ensureAll names).run tr r) :
    ∃ answer, tr = [⟨.run .podmanSecretLs,answer⟩] ∧ Checked v names answer r := by
  obtain ⟨answer,htr,hr⟩ := run_ensureAll h
  refine ⟨answer,htr,?_,?_⟩
  · rintro out rfl hout hlists
    obtain ⟨listed,hlisted,hmem⟩ := list_of_lists hnames hlists
    have hcontains : ∀ n, (!listed.contains n) = (v n).isNone := by
      intro n
      have hn := hmem n
      cases hv : v n <;> simp_all
    rw [hr]
    change (if out.success then _ else _) = _
    rw [if_pos hout,hlisted]
    simp only [hcontains]
    have hempty : (names.filter fun n => (v n).isNone).isEmpty = names.all fun n => (v n).isSome := by
      rw [Bool.eq_iff_iff,List.isEmpty_iff,List.filter_eq_nil_iff,List.all_eq_true]
      simp [Option.isSome_iff_ne_none]
    rw [hempty]
  · intro hno
    cases answer with
    | error why => exact ⟨why,hr⟩
    | ok out =>
      rw [hr]
      change ∃ why, (if out.success then _ else _) = _
      rw [if_neg (by rw [hno out rfl]; decide)]
      exact ⟨_,rfl⟩

/-- A vault with one secret. -/
def oneSecret : Vault := fun n => if n = "db-pw" then some "x" else none

/-- The other secret of the spec is missing. -/
theorem missing_secret_named : ∃ answer,
    [(⟨.run .podmanSecretLs,.ok ⟨0,"db-pw\n",[]⟩⟩ : Exchange Eff Eff.Resp)] =
      [⟨.run .podmanSecretLs,answer⟩] ∧
    Checked oneSecret ["db-pw","api-key"] answer (.error ["missing secrets: ",.text "api-key"]) := by
  refine ensureAll_exact (fun n hn => ?_) (.op (.ret _))
  unfold oneSecret at hn
  split at hn
  · rename_i heq
    subst heq
    have hplain : ("db-pw" : Text).any isWhitespace = false := by decide
    exact ⟨by decide,by simpa only [List.any_eq_false,Bool.not_eq_true] using hplain⟩
  · exact absurd rfl hn

end Preflight

end Kuadrat.Secrets
