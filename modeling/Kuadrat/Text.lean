import Mathlib.Data.List.TakeDrop

/-!
# Texts and messages

Rust strings are lists of Unicode scalar values. An error or a recorded cause is
a `Message`: its pieces in order, with the values that the source prints through
`{:?}` kept apart, so that nothing depends on the tables of the debug format.
-/
namespace Kuadrat

abbrev Text := List Char

instance : Coe String Text := ⟨String.toList⟩

/-- `char::is_whitespace`: the Unicode property `White_Space`. -/
def isWhitespace (c : Char) : Bool :=
  (9 ≤ c.toNat && c.toNat ≤ 13) || c.toNat == 0x20 || c.toNat == 0x85 || c.toNat == 0xA0 ||
    c.toNat == 0x1680 || (0x2000 ≤ c.toNat && c.toNat ≤ 0x200A) || c.toNat == 0x2028 ||
    c.toNat == 0x2029 || c.toNat == 0x202F || c.toNat == 0x205F || c.toNat == 0x3000

namespace Text

def trimStart (t : Text) : Text := t.dropWhile isWhitespace
def trimEnd (t : Text) : Text := (t.reverse.dropWhile isWhitespace).reverse
/-- `str::trim`. -/
def trim (t : Text) : Text := trimEnd (trimStart t)

/-- `str::rsplit_once` on one character: what stands before and after its last occurrence. -/
def rsplitOnce (c : Char) (t : Text) : Option (Text × Text) :=
  let after := t.reverse.takeWhile (· != c)
  match t.reverse.dropWhile (· != c) with
  | [] => none
  | _::before => some (before.reverse,after.reverse)

theorem rsplitOnce_append (c : Char) (a b : Text) (hb : c ∉ b) :
    rsplitOnce c (a ++ c::b) = some (a,b) := by
  have hall : ∀ x ∈ b.reverse, (x != c) = true := by
    intro x hx
    simpa using fun h : x = c => hb (h ▸ List.mem_reverse.mp hx)
  have htake := @List.takeWhile_append_of_pos _ (· != c) _ (c::a.reverse) hall
  have hdrop := @List.dropWhile_append_of_pos _ (· != c) _ (c::a.reverse) hall
  simp only [rsplitOnce,List.reverse_append,List.reverse_cons,List.append_assoc,
    List.singleton_append,htake,hdrop]
  simp

/-- `[T]::join`: the words with a separator between any two neighbours. -/
def join (sep : Text) (words : List Text) : Text := List.intercalate sep words

/-- A number as `{}` prints it. -/
def decimal (n : ℕ) : Text := Nat.toDigits 10 n

end Text

theorem digit_of_mem_decimal {n : ℕ} {c : Char} (h : c ∈ Text.decimal n) : c.isDigit = true :=
  Nat.isDigit_of_mem_toDigits (by decide) (by decide) h

theorem notMem_decimal {c : Char} (h : c.isDigit = false) (n : ℕ) : c ∉ Text.decimal n := by
  intro hmem
  rw [digit_of_mem_decimal hmem] at h
  cases h

/-- One piece of a formatted message: its fixed text, a value printed by `{}`, or a value
printed by `{:?}`. -/
inductive Piece
  | lit (s : String)
  | text (t : Text)
  | debug (t : Text)
  deriving DecidableEq

instance : Coe String Piece := ⟨.lit⟩

/-- The `{:#}` rendering of an error: `anyhow` prints the context before the cause. -/
abbrev Message := List Piece

def msg (pieces : List Piece) : Message := pieces

/-- `anyhow::bail!`. -/
@[reducible] def bail {m : Type → Type} [MonadExceptOf Message m] {α : Type} (why : Message) : m α :=
  throw why

/-- `if bad { bail!(..) }`. -/
def reject (bad : Bool) (why : Message) : Except Message Unit := if bad then .error why else .ok ()

@[simp] theorem reject_eq_ok {bad : Bool} {why : Message} :
    reject bad why = .ok () ↔ bad = false := by
  cases bad <;> simp [reject]

/-- A sequence of checks passes when each of them does. -/
theorem seq_eq_ok {ε α : Type} {p : Except ε Unit} {q : Except ε α} {a : α} :
    (do p; q) = .ok a ↔ p = .ok () ∧ q = .ok a := by
  cases p with
  | error e => simp [bind,Except.bind]
  | ok u => simp [bind,Except.bind]

def Message.context (note cause : Message) : Message := note ++ msg [": "] ++ cause

/-- The text of a message, with the debug format given for the values it shows. -/
def Message.toText (debug : Text → Text) (m : Message) : Text := m.flatMap fun
  | .lit s => s.toList
  | .text t => t
  | .debug t => debug t

end Kuadrat
