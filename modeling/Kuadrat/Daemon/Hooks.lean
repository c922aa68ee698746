import Kuadrat.Codec.Hex
import Kuadrat.Text

/-!
# Authentication of push hooks

A delivery is signed with the hook secret, or carries it. HMAC-SHA256 is known by the length
of its output, and by what it tells apart.
-/
namespace Kuadrat.Hooks

open Utf8

abbrev Bytes := List UInt8

/-- The shared secret of the hooks, never empty. -/
structure HookSecret where
  value : Text
  ne_nil : value ≠ []

def HookSecret.new (secret : Text) : Except Message HookSecret :=
  if h : secret.trim ≠ [] then .ok ⟨secret.trim,h⟩
  else .error ["hook secret must not be empty"]

theorem HookSecret.new_eq_ok {raw : Text} {secret : HookSecret} :
    HookSecret.new raw = .ok secret ↔ secret.value = raw.trim := by
  unfold HookSecret.new
  split
  · rw [Except.ok.injEq]
    constructor
    · rintro rfl
      rfl
    · intro h
      cases secret
      cases h
      rfl
  · rename_i hempty
    have hnil : raw.trim = [] := not_not.mp hempty
    simp only [reduceCtorEq,false_iff,hnil]
    exact secret.ne_nil

def digit (b : UInt8) : Option UInt8 :=
  if 48 ≤ b ∧ b ≤ 57 then some (b-48)
  else if 97 ≤ b ∧ b ≤ 102 then some (b-97+10)
  else if 65 ≤ b ∧ b ≤ 70 then some (b-65+10)
  else none

/-- `chunks(2)` of an even number of bytes, each pair as one byte. -/
def fromPairs : Bytes → Option Bytes
  | [] => some []
  | [_] => none
  | h::l::rest => do
    let hi ← digit h
    let lo ← digit l
    let bs ← fromPairs rest
    return (hi <<< 4 ||| lo)::bs

/-- Hex-decode without a new crate: `none` on odd length or a non-hex digit. -/
def fromHex (s : Text) : Option Bytes :=
  if (bytes s).length % 2 ≠ 0 ∨ bytes s = [] then none else fromPairs (bytes s)

/-- `str::strip_prefix`. -/
def stripPrefix (start t : Text) : Option Text :=
  if start <+: t then some (t.drop start.length) else none

/-- What stands before the digits in `X-Hub-Signature-256`. -/
def signaturePrefix : Text := "sha256="

section Verify
variable (hmac : Bytes → Bytes → Bytes)

def HookSecret.mac (secret : HookSecret) (data : Bytes) : Bytes := hmac (bytes secret.value) data

/-- GitHub: the header must be the HMAC-SHA256 of the raw request body. -/
def verifyGithub (secret : HookSecret) (body : Bytes) (header : Option Text) : Bool :=
  match header.bind (stripPrefix signaturePrefix) with
  | none => false
  | some hex =>
    match fromHex hex with
    | none => false
    | some claimed => secret.mac hmac claimed == secret.mac hmac (secret.mac hmac body)

/-- GitLab: the token must equal the shared secret. -/
def verifyGitlab (secret : HookSecret) (token : Option Text) : Bool :=
  match token with
  | none => false
  | some token => secret.mac hmac (bytes token) == secret.mac hmac (bytes secret.value)

end Verify

/-- A byte is read as the digit that its character is. -/
theorem toNat_digit {b : UInt8} {c : Char} (hb : b.toNat = c.toNat) :
    (digit b).map UInt8.toNat = Hex.value c := by
  have hten : (10 : UInt8).toNat = 10 := rfl
  unfold digit Hex.value
  simp only [UInt8.le_iff_toNat_le,UInt8.reduceToNat,← hb]
  split
  · rename_i hrange
    exact congrArg some (UInt8.toNat_sub_of_le _ _ (UInt8.le_iff_toNat_le.mpr hrange.1))
  split
  · rename_i hrange
    have hsub : (b-97).toNat = b.toNat-97 :=
      UInt8.toNat_sub_of_le _ _ (UInt8.le_iff_toNat_le.mpr hrange.1)
    rw [Option.map_some,UInt8.toNat_add,hsub,hten,Option.some.injEq]
    omega
  split
  · rename_i hrange
    have hsub : (b-65).toNat = b.toNat-65 :=
      UInt8.toNat_sub_of_le _ _ (UInt8.le_iff_toNat_le.mpr hrange.1)
    rw [Option.map_some,UInt8.toNat_add,hsub,hten,Option.some.injEq]
    omega
  · rfl

theorem digit_eq_some {b x : UInt8} {c : Char} (hb : b.toNat = c.toNat) :
    digit b = some x ↔ Hex.IsDigit x.toNat c := by
  rw [← Hex.value_eq_some,← toNat_digit hb,Option.map_eq_some_iff]
  constructor
  · exact fun h => ⟨x,h,rfl⟩
  · rintro ⟨y,hy,hxy⟩
    rw [hy,UInt8.toNat_inj.mp hxy]

theorem digit_wide {b : UInt8} (h : 128 ≤ b.toNat) : digit b = none := by
  unfold digit
  simp only [UInt8.le_iff_toNat_le,UInt8.reduceToNat]
  rw [if_neg (by omega),if_neg (by omega),if_neg (by omega)]

theorem toNat_nibbles {hi lo : UInt8} (hhi : hi.toNat < 16) (hlo : lo.toNat < 16) :
    (hi <<< 4 ||| lo).toNat = 16*hi.toNat+lo.toNat := by
  rw [UInt8.toNat_or,UInt8.toNat_shiftLeft,show (4 : UInt8).toNat % 8 = 4 from rfl,
    Nat.mod_eq_of_lt (by rw [Nat.shiftLeft_eq]; omega),← Nat.shiftLeft_add_eq_or_of_lt hlo,
    Nat.shiftLeft_eq]
  omega

/-- Two digits are decoded to the byte that they are the digits of. -/
theorem nibbles_eq {hi lo b : UInt8} (hhi : hi.toNat < 16) (hlo : lo.toNat < 16) :
    hi <<< 4 ||| lo = b ↔ hi.toNat = b.toNat/16 ∧ lo.toNat = b.toNat%16 := by
  rw [← UInt8.toNat_inj,toNat_nibbles hhi hlo]
  omega

theorem fromPairs_cons_cons {h l : UInt8} {rest bs : Bytes} :
    fromPairs (h::l::rest) = some bs ↔ ∃ hi lo bs', digit h = some hi ∧ digit l = some lo ∧
      fromPairs rest = some bs' ∧ bs = (hi <<< 4 ||| lo)::bs' := by
  simp only [fromPairs,Option.bind_eq_bind,Option.bind_eq_some_iff,Option.pure_def,
    Option.some.injEq]
  constructor
  · rintro ⟨hi,hhi,lo,hlo,bs',hrest,rfl⟩
    exact ⟨hi,lo,bs',hhi,hlo,hrest,rfl⟩
  · rintro ⟨hi,lo,bs',hhi,hlo,hrest,rfl⟩
    exact ⟨hi,hhi,lo,hlo,bs',hrest,rfl⟩

/-- A byte that is no digit ends the decoding. -/
theorem fromPairs_none {h : UInt8} (rest : Bytes) (hh : digit h = none) :
    fromPairs (h::rest) = none := by
  cases rest with
  | nil => rfl
  | cons l rest => rw [fromPairs,hh]; rfl

theorem fromPairs_wide {c : Char} (t : Text) (hc : 128 ≤ c.toNat) :
    fromPairs (bytes (c::t)) = none := by
  obtain ⟨b,rest,he,hb,-⟩ := utf8EncodeChar_wide hc
  rw [bytes_cons,he,List.cons_append]
  exact fromPairs_none _ (digit_wide (by omega))

/-- A character beyond ASCII is no digit, at either place of a pair. -/
theorem ascii_of_fromPairs {c d : Char} {t : Text} {bs : Bytes}
    (h : fromPairs (bytes (c::d::t)) = some bs) : c.toNat < 128 ∧ d.toNat < 128 := by
  have hc : c.toNat < 128 := by
    by_contra hc
    rw [fromPairs_wide _ (Nat.le_of_not_lt hc)] at h
    cases h
  refine ⟨hc,?_⟩
  by_contra hd
  obtain ⟨b,rest,he,hb,-⟩ := utf8EncodeChar_wide (Nat.le_of_not_lt hd)
  rw [bytes_cons,utf8EncodeChar_ascii hc,List.singleton_append,bytes_cons,he,List.cons_append] at h
  obtain ⟨-,lo,-,-,hlo,-⟩ := fromPairs_cons_cons.mp h
  rw [digit_wide (by omega)] at hlo
  cases hlo

theorem fromPairs_ascii {c d : Char} {t : Text} (hc : c.toNat < 128) (hd : d.toNat < 128) :
    fromPairs (bytes (c::d::t)) =
      fromPairs (UInt8.ofNat c.toNat::UInt8.ofNat d.toNat::bytes t) := by
  rw [bytes_cons,utf8EncodeChar_ascii hc,bytes_cons,utf8EncodeChar_ascii hd]
  rfl

theorem digit_ofNat {n : ℕ} {c : Char} (h : Hex.IsDigit n c) :
    digit (UInt8.ofNat c.toNat) = some (UInt8.ofNat n) := by
  have hn : (UInt8.ofNat n).toNat = n := by
    have := h.lt
    rw [UInt8.toNat_ofNat']
    omega
  rw [digit_eq_some (toNat_ofNat_ascii h.ascii),hn]
  exact h

theorem nibbles_ofNat (b : UInt8) :
    UInt8.ofNat (b.toNat/16) <<< 4 ||| UInt8.ofNat (b.toNat%16) = b := by
  have hb := b.toNat_lt
  have hhi : (UInt8.ofNat (b.toNat/16)).toNat = b.toNat/16 := by
    rw [UInt8.toNat_ofNat']
    omega
  have hlo : (UInt8.ofNat (b.toNat%16)).toNat = b.toNat%16 := by
    rw [UInt8.toNat_ofNat']
    omega
  exact (nibbles_eq (by omega) (by omega)).mpr ⟨hhi,hlo⟩

/-- Two characters are decoded to the byte that they spell. -/
theorem fromPairs_pair {c d : Char} {t : Text} {bs : Bytes} :
    fromPairs (bytes (c::d::t)) = some bs ↔ ∃ b bs', Hex.IsDigit (b.toNat/16) c ∧
      Hex.IsDigit (b.toNat%16) d ∧ fromPairs (bytes t) = some bs' ∧ bs = b::bs' := by
  constructor
  · intro h
    obtain ⟨hc,hd⟩ := ascii_of_fromPairs h
    rw [fromPairs_ascii hc hd] at h
    obtain ⟨hi,lo,bs',hhi,hlo,hrest,rfl⟩ := fromPairs_cons_cons.mp h
    have hhi' := (digit_eq_some (toNat_ofNat_ascii hc)).mp hhi
    have hlo' := (digit_eq_some (toNat_ofNat_ascii hd)).mp hlo
    obtain ⟨hhigh,hlow⟩ := (nibbles_eq hhi'.lt hlo'.lt).mp rfl
    exact ⟨_,bs',hhigh ▸ hhi',hlow ▸ hlo',hrest,rfl⟩
  · rintro ⟨b,bs',hhi,hlo,hrest,rfl⟩
    rw [fromPairs_ascii hhi.ascii hlo.ascii,fromPairs_cons_cons]
    refine ⟨_,_,bs',digit_ofNat hhi,digit_ofNat hlo,hrest,?_⟩
    rw [nibbles_ofNat]

theorem fromPairs_single (c : Char) : fromPairs (bytes [c]) = none := by
  by_cases hc : c.toNat < 128
  · rw [bytes_cons,utf8EncodeChar_ascii hc]
    rfl
  · exact fromPairs_wide [] (Nat.le_of_not_lt hc)

/-- What is decoded is spelled by its text. -/
theorem fromPairs_eq_some : ∀ {t : Text} {bs : Bytes},
    fromPairs (bytes t) = some bs ↔ Hex.Spells t bs
  | [], bs => by
    constructor
    · intro h
      cases h
      exact .nil
    · intro h
      cases h
      rfl
  | [c], bs => by
    rw [fromPairs_single]
    constructor
    · intro h
      cases h
    · intro h
      cases h
  | c::d::t, bs => by
    rw [fromPairs_pair]
    constructor
    · rintro ⟨b,bs',hhi,hlo,hrest,rfl⟩
      exact .cons hhi hlo (fromPairs_eq_some.mp hrest)
    · intro h
      cases h with
      | cons hhi hlo hrest => exact ⟨_,_,hhi,hlo,fromPairs_eq_some.mpr hrest,rfl⟩

theorem fromHex_eq_some {t : Text} {bs : Bytes} :
    fromHex t = some bs ↔ bs ≠ [] ∧ Hex.Spells t bs := by
  unfold fromHex
  constructor
  · intro h
    split at h
    · cases h
    · rename_i hcond
      have hspells := fromPairs_eq_some.mp h
      refine ⟨?_,hspells⟩
      rintro rfl
      cases hspells
      exact hcond (.inr rfl)
  · rintro ⟨hne,hspells⟩
    have hlen := hspells.length_bytes
    have hpos := List.length_pos_iff.mpr hne
    rw [if_neg ?_]
    · exact fromPairs_eq_some.mpr hspells
    · rintro (hodd | hnil)
      · omega
      · rw [hnil,List.length_nil] at hlen
        omega

theorem stripPrefix_eq_some {start t rest : Text} :
    stripPrefix start t = some rest ↔ t = start ++ rest := by
  unfold stripPrefix
  constructor
  · intro h
    split at h
    · rename_i hp
      obtain ⟨u,rfl⟩ := hp
      rw [List.drop_left,Option.some.injEq] at h
      rw [h]
    · cases h
  · rintro rfl
    rw [if_pos (List.prefix_append _ _),List.drop_left]

/-- Nothing else has the image of `m`. -/
def OnlyOne (f : Bytes → Bytes) (m : Bytes) : Prop := ∀ x, f x = f m → x = m

section Authentic
variable {hmac : Bytes → Bytes → Bytes} {secret : HookSecret}

theorem verifyGithub_iff {body : Bytes} {header : Option Text}
    (honly : OnlyOne (secret.mac hmac) (secret.mac hmac body))
    (hlen : (secret.mac hmac body).length = 32) :
    verifyGithub hmac secret body header = true ↔ ∃ hex, header = some (signaturePrefix ++ hex) ∧
      hex.length = 64 ∧ Hex.Spells hex (secret.mac hmac body) := by
  unfold verifyGithub
  constructor
  · intro h
    split at h
    · cases h
    rename_i hex hprefix
    obtain ⟨text,rfl,htext⟩ := Option.bind_eq_some_iff.mp hprefix
    split at h
    · cases h
    rename_i claimed hclaimed
    obtain ⟨-,hspells⟩ := fromHex_eq_some.mp hclaimed
    -- equal MACs of the claimed and the expected MAC make them equal
    obtain rfl := honly claimed (beq_iff_eq.mp h)
    refine ⟨hex,congrArg some (stripPrefix_eq_some.mp htext),?_,hspells⟩
    rw [hspells.length,hlen]
  · rintro ⟨hex,rfl,-,hspells⟩
    have hne : secret.mac hmac body ≠ [] := by
      intro hnil
      rw [hnil] at hlen
      cases hlen
    rw [Option.bind_some,stripPrefix_eq_some.mpr rfl]
    simp only [fromHex_eq_some.mpr ⟨hne,hspells⟩,beq_self_eq_true]

theorem verifyGitlab_iff {token : Option Text}
    (honly : OnlyOne (secret.mac hmac) (bytes secret.value)) :
    verifyGitlab hmac secret token = true ↔ token = some secret.value := by
  cases token with
  | none => simp [verifyGitlab]
  | some token =>
    rw [verifyGitlab,beq_iff_eq,Option.some.injEq]
    exact ⟨fun h => bytes_injective (honly _ h),fun h => by rw [h]⟩

end Authentic

/-- A delivery is accepted exactly when its header spells the MAC of its body, or is the secret.
No function with outputs of 32 bytes is injective; what is asked of HMAC is that the messages
whose MACs are compared are the only ones that have them. -/
theorem accepted_iff_authentic (hmac : Bytes → Bytes → Bytes) (raw : Text) (secret : HookSecret)
    (hnew : HookSecret.new raw = .ok secret) (body : Bytes) (header token : Option Text)
    (hlen : ∀ data, (hmac (bytes raw.trim) data).length = 32)
    (hbody : OnlyOne (hmac (bytes raw.trim)) (hmac (bytes raw.trim) body))
    (hsecret : OnlyOne (hmac (bytes raw.trim)) (bytes raw.trim)) :
    (verifyGithub hmac secret body header = true ↔ ∃ hex, header = some (signaturePrefix ++ hex) ∧
      hex.length = 64 ∧ Hex.Spells hex (hmac (bytes raw.trim) body)) ∧
    (verifyGitlab hmac secret token = true ↔ token = some raw.trim) := by
  rw [← HookSecret.new_eq_ok.mp hnew] at hlen hbody hsecret ⊢
  exact ⟨verifyGithub_iff hbody (hlen body),verifyGitlab_iff hsecret⟩

section Example

def pushBody : Bytes := bytes ("\x7b\"ref\":\"refs/heads/main\"," ++
  "\"after\":\"1111111111111111111111111111111111111111\"\x7d" : String)

/-- The HMAC-SHA256 of `pushBody` under the key `s3cret`. -/
def pushMac : Bytes := [0xa3,0x45,0x04,0x00,0x31,0x5a,0x03,0x37,0x5f,0x96,0xc5,0xed,0x76,0xf5,0x90,0x82,
    0xb5,0xf4,0xf3,0x9c,0xcf,0xd1,0xad,0x04,0xf1,0xdf,0x07,0xec,0xba,0x18,0xf8,0x09]

/-- Of `pushMac` and of the key itself, under the same key. -/
def pushMacMac : Bytes := [0x8c,0xc4,0x24,0x58,0xbe,0xe0,0x6a,0x68,0x59,0x7f,0x30,0xb6,0xe8,0x36,0x2d,0xb8,
    0x98,0x3c,0x09,0x4a,0x2b,0x34,0xa4,0x0f,0xf3,0x78,0x03,0xdf,0xb9,0xe0,0xcc,0x94]
def keyMac : Bytes := [0x81,0x25,0x12,0x0e,0x53,0x4c,0x4f,0x05,0xb9,0x5a,0x6a,0x1e,0xfd,0xfe,0xb1,0x63,
    0xdb,0x06,0xad,0xab,0xbe,0x2c,0x3a,0x50,0x21,0x18,0x15,0xe1,0x4c,0xa7,0xbc,0x0a]

/-- HMAC-SHA256 under `s3cret`, for the three messages that are authenticated below. -/
def knownMac (_ data : Bytes) : Bytes :=
  if data = pushBody then pushMac
  else if data = pushMac then pushMacMac
  else if data = bytes "s3cret" then keyMac
  else List.replicate 32 0

theorem knownMac_cases (key data : Bytes) :
    (data = pushBody ∧ knownMac key data = pushMac) ∨
    (data = pushMac ∧ knownMac key data = pushMacMac) ∨
    (data = bytes "s3cret" ∧ knownMac key data = keyMac) ∨
    knownMac key data = List.replicate 32 0 := by
  unfold knownMac
  split
  · exact .inl ⟨‹_›,rfl⟩
  split
  · exact .inr (.inl ⟨‹_›,rfl⟩)
  split
  · exact .inr (.inr (.inl ⟨‹_›,rfl⟩))
  · exact .inr (.inr (.inr rfl))

theorem knownMac_onlyOne (key : Bytes) : OnlyOne (knownMac key) (knownMac key pushBody) ∧
    OnlyOne (knownMac key) (bytes "s3cret") := by
  have hmac : knownMac key pushMac = pushMacMac := rfl
  have hkey : knownMac key (bytes "s3cret") = keyMac := rfl
  constructor
  · intro x hx
    change knownMac key x = knownMac key pushMac at hx
    rw [hmac] at hx
    rcases knownMac_cases key x with ⟨rfl,h⟩ | ⟨rfl,h⟩ | ⟨rfl,h⟩ | h
    · exact absurd (h.symm.trans hx) (by decide)
    · rfl
    · exact absurd (h.symm.trans hx) (by decide)
    · exact absurd (h.symm.trans hx) (by decide)
  · intro x hx
    rw [hkey] at hx
    rcases knownMac_cases key x with ⟨rfl,h⟩ | ⟨rfl,h⟩ | ⟨rfl,h⟩ | h
    · exact absurd (h.symm.trans hx) (by decide)
    · exact absurd (h.symm.trans hx) (by decide)
    · rfl
    · exact absurd (h.symm.trans hx) (by decide)

theorem length_knownMac (key data : Bytes) : (knownMac key data).length = 32 := by
  rcases knownMac_cases key data with h | h | h | h
  · rw [h.2]; rfl
  · rw [h.2]; rfl
  · rw [h.2]; rfl
  · rw [h]; rfl

/-- The digits of `pushMac`, some of them in upper case. -/
def pushDigits : Text := "a3450400315a03375f96c5ed76f59082b5f4f39cCFD1AD04F1DF07ECBA18F809"

theorem signed_push_accepted : ∃ secret, HookSecret.new " s3cret\n" = .ok secret ∧
    verifyGithub knownMac secret pushBody (some (signaturePrefix ++ pushDigits)) = true ∧
    verifyGitlab knownMac secret (some "s3cret ") = false := by
  have htrim : Text.trim " s3cret\n" = "s3cret" := by decide
  have hnew : HookSecret.new " s3cret\n" = .ok ⟨Text.trim " s3cret\n",by decide⟩ :=
    dif_pos (by decide)
  have hspells : Hex.Spells pushDigits pushMac :=
    (fromHex_eq_some.mp (by decide +kernel : fromHex pushDigits = some pushMac)).2
  have hiff := fun token => accepted_iff_authentic knownMac " s3cret\n" _ hnew pushBody
    (some (signaturePrefix ++ pushDigits)) token (length_knownMac _) (knownMac_onlyOne _).1
    (htrim ▸ (knownMac_onlyOne _).2)
  refine ⟨_,hnew,(hiff none).1.mpr ⟨_,rfl,rfl,hspells⟩,?_⟩
  rw [Bool.eq_false_iff]
  intro h
  exact absurd ((hiff (some "s3cret ")).2.mp h) (by decide)

end Example
end Kuadrat.Hooks
