import Mathlib.Data.List.TakeDrop

/-!
# Self-delimiting text codecs

A codec reads back what it has written, whatever text follows. Sequences, lists
and options of codecs are codecs; strings are written with JSON's escapes.
-/
namespace Kuadrat

structure Codec (α : Type) where
  enc : α → List Char
  dec : List Char → Option (α × List Char)
  dec_enc : ∀ a rest, dec (enc a ++ rest) = some (a,rest)

namespace Codec
variable {α β : Type}

/-- A fixed text that carries no value. -/
def lit (t : List Char) : Codec Unit where
  enc _ := t
  dec input := if t <+: input then some ((),input.drop t.length) else none
  dec_enc _ rest := by simp

def seq (c : Codec α) (c' : Codec β) : Codec (α × β) where
  enc p := c.enc p.1 ++ c'.enc p.2
  dec input := (c.dec input).bind fun r => (c'.dec r.2).map fun r' => ((r.1,r'.1),r'.2)
  dec_enc p rest := by simp [c.dec_enc,c'.dec_enc]

/-- A codec of a type whose values are carried by another one. -/
def imap (c : Codec α) (f : α → β) (g : β → α) (h : ∀ b, f (g b) = b) : Codec β where
  enc b := c.enc (g b)
  dec input := (c.dec input).map fun r => (f r.1,r.2)
  dec_enc b rest := by simp [c.dec_enc,h]

/-- The value between two fixed texts. -/
def between (before : List Char) (c : Codec α) (after : List Char) : Codec α :=
  ((lit before).seq (c.seq (lit after))).imap (fun p => p.2.1) (fun a => ((),a,())) fun _ => rfl

/-- `null`, or the value itself; no value may be written like `null`. -/
def option (c : Codec α) (hc : ∀ a, ∃ x t, c.enc a = x::t ∧ x ≠ 'n') : Codec (Option α) where
  enc
    | none => ['n','u','l','l']
    | some a => c.enc a
  dec
    | 'n' :: 'u' :: 'l' :: 'l' :: rest => some (none,rest)
    | input => (c.dec input).map fun r => (some r.1,r.2)
  dec_enc o rest := by
    cases o with
    | none => rfl
    | some a =>
      obtain ⟨x,t,he,hx⟩ := hc a
      have hdec := c.dec_enc a rest
      rw [he,List.cons_append] at hdec
      simp only [he,List.cons_append]
      split
      · rename_i heq
        rw [List.cons.injEq] at heq
        exact absurd heq.1 hx
      · rw [hdec]
        rfl

section List
variable (c : Codec α)

def encItems : List α → List Char
  | [] => [']']
  | [a] => c.enc a ++ [']']
  | a::b::l => c.enc a ++ ',' :: encItems (b::l)

/-- The items after an opening bracket; the fuel bounds how many there are. -/
def decItems : ℕ → List Char → Option (List α × List Char)
  | 0, _ => none
  | _+1, ']' :: rest => some ([],rest)
  | fuel+1, input => (c.dec input).bind fun r => match r.2 with
    | ']' :: rest => some ([r.1],rest)
    | ',' :: rest => (decItems fuel rest).map fun r' => (r.1::r'.1,r'.2)
    | _ => none

variable (hc : ∀ a, ∃ x t, c.enc a = x::t ∧ x ≠ ']')
include hc

theorem decItems_cons {fuel : ℕ} {a : α} {rest : List Char} :
    decItems c (fuel+1) (c.enc a ++ rest) = match rest with
      | ']' :: rest => some ([a],rest)
      | ',' :: rest => (decItems c fuel rest).map fun r' => (a::r'.1,r'.2)
      | _ => none := by
  obtain ⟨x,t,he,hx⟩ := hc a
  have hdec := c.dec_enc a rest
  rw [he,List.cons_append] at hdec ⊢
  rw [decItems]
  · rw [hdec]
    rfl
  · rintro rest' heq
    rw [List.cons.injEq] at heq
    exact hx heq.1

theorem decItems_encItems (l : List α) (fuel : ℕ) (hf : l.length < fuel) (rest : List Char) :
    decItems c fuel (encItems c l ++ rest) = some (l,rest) := by
  induction l generalizing fuel with
  | nil =>
    cases fuel with
    | zero => omega
    | succ fuel => rfl
  | cons a l ih =>
    cases fuel with
    | zero => omega
    | succ fuel =>
      cases l with
      | nil =>
        rw [encItems,List.append_assoc,decItems_cons c hc]
        rfl
      | cons b l =>
        rw [encItems,List.append_assoc,decItems_cons c hc,List.cons_append]
        have hf' : (b::l).length < fuel := by simpa using hf
        simp only [ih fuel hf',Option.map_some]

theorem length_lt_encItems (l : List α) : l.length < (encItems c l).length := by
  induction l with
  | nil => simp [encItems]
  | cons a l ih =>
    obtain ⟨x,t,he,-⟩ := hc a
    cases l with
    | nil => simp [encItems,he]
    | cons b l =>
      rw [encItems,he]
      simp only [List.length_append,List.length_cons] at ih ⊢
      omega

/-- `[a,b,..]`; no item may start like the closing bracket. -/
def list : Codec (List α) where
  enc l := '[' :: encItems c l
  dec
    | '[' :: rest => decItems c (rest.length+1) rest
    | _ => none
  dec_enc l rest := by
    refine decItems_encItems c hc l ((encItems c l ++ rest).length+1) ?_ rest
    have := length_lt_encItems c hc l
    rw [List.length_append]
    omega

end List

section String

def hexDigit (n : ℕ) : Char := if n < 10 then Char.ofNat (48+n) else Char.ofNat (87+n)

def hexValue (c : Char) : Option ℕ :=
  if '0' ≤ c ∧ c ≤ '9' then some (c.toNat-48)
  else if 'a' ≤ c ∧ c ≤ 'f' then some (c.toNat-87) else none

/-- One character inside a JSON string, as `serde_json` writes it. -/
def escape (c : Char) : List Char :=
  if c = '"' then ['\\','"'] else if c = '\\' then ['\\','\\']
  else if c.toNat = 8 then ['\\','b'] else if c = '\t' then ['\\','t']
  else if c = '\n' then ['\\','n'] else if c.toNat = 12 then ['\\','f']
  else if c = '\r' then ['\\','r']
  else if c.toNat < 32 then ['\\','u','0','0',hexDigit (c.toNat/16),hexDigit (c.toNat%16)]
  else [c]

def unescape : List Char → Option (List Char × List Char)
  | [] => none
  | '"' :: rest => some ([],rest)
  | '\\' :: '"' :: rest => (unescape rest).map fun r => ('"' :: r.1,r.2)
  | '\\' :: '\\' :: rest => (unescape rest).map fun r => ('\\' :: r.1,r.2)
  | '\\' :: 'b' :: rest => (unescape rest).map fun r => (Char.ofNat 8::r.1,r.2)
  | '\\' :: 't' :: rest => (unescape rest).map fun r => ('\t' :: r.1,r.2)
  | '\\' :: 'n' :: rest => (unescape rest).map fun r => ('\n' :: r.1,r.2)
  | '\\' :: 'f' :: rest => (unescape rest).map fun r => (Char.ofNat 12::r.1,r.2)
  | '\\' :: 'r' :: rest => (unescape rest).map fun r => ('\r' :: r.1,r.2)
  | '\\' :: 'u' :: '0' :: '0' :: a::b::rest =>
    (hexValue a).bind fun x => (hexValue b).bind fun y =>
      (unescape rest).map fun r => (Char.ofNat (16*x+y)::r.1,r.2)
  | '\\' :: _ => none
  | c::rest => (unescape rest).map fun r => (c::r.1,r.2)

theorem hexValue_hexDigit : ∀ n < 16, hexValue (hexDigit n) = some n := by decide

theorem char_eq_of_toNat {c : Char} {n : ℕ} (h : c.toNat = n) : c = Char.ofNat n := by
  rw [← h,Char.ofNat_toNat]

theorem unescape_escape (c : Char) (t : List Char) :
    unescape (escape c ++ t) = (unescape t).map fun r => (c::r.1,r.2) := by
  unfold escape
  split
  · subst c; rfl
  split
  · subst c; rfl
  split
  · rename_i h
    rw [char_eq_of_toNat h]
    rfl
  split
  · subst c; rfl
  split
  · subst c; rfl
  split
  · rename_i h
    rw [char_eq_of_toNat h]
    rfl
  split
  · subst c; rfl
  split
  · rename_i h
    have hx := hexValue_hexDigit (c.toNat/16) (by omega)
    have hy := hexValue_hexDigit (c.toNat%16) (by omega)
    have hc : Char.ofNat (16*(c.toNat/16)+c.toNat%16) = c := by
      rw [Nat.div_add_mod,Char.ofNat_toNat]
    simp only [List.cons_append,List.nil_append,unescape,hx,hy,Option.bind_some,hc]
  · rename_i hq hb _ _ _ _ _ _
    rw [List.singleton_append,unescape]
    all_goals simp_all

/-- A JSON string. -/
def str : Codec (List Char) where
  enc t := '"' :: (t.flatMap escape ++ ['"'])
  dec
    | '"' :: rest => unescape rest
    | _ => none
  dec_enc t rest := by
    change unescape (t.flatMap escape ++ ['"'] ++ rest) = some (t,rest)
    induction t with
    | nil => rfl
    | cons c t ih =>
      rw [List.flatMap_cons,List.append_assoc,List.append_assoc,unescape_escape,
        ← List.append_assoc,ih]
      rfl

end String

/-- A number followed by a character that is no digit. -/
def natThen (stop : Char) (hs : stop.isDigit = false) : Codec ℕ where
  enc n := Nat.toDigits 10 n ++ [stop]
  dec input := match input.dropWhile Char.isDigit with
    | c::rest => if c = stop then some (Nat.ofDigitChars 10 (input.takeWhile Char.isDigit) 0,rest)
      else none
    | [] => none
  dec_enc n rest := by
    have hall : ∀ c ∈ Nat.toDigits 10 n, c.isDigit = true := fun c hc =>
      Nat.isDigit_of_mem_toDigits (by decide) (by decide) hc
    rw [List.append_assoc,List.dropWhile_append_of_pos hall,List.takeWhile_append_of_pos hall]
    simp [hs,Nat.ofDigitChars_ten_toDigits]

end Codec
end Kuadrat
