import Kuadrat.Codec.Utf8

/-!
# Hexadecimal texts

Two digits for each byte, the high one first; the letters stand in either case.
-/
namespace Kuadrat.Hex

/-- `c` is the hexadecimal digit of `n`. -/
def IsDigit (n : ℕ) (c : Char) : Prop :=
  n < 10 ∧ c.toNat = '0'.toNat+n ∨
    10 ≤ n ∧ n < 16 ∧ (c.toNat = 'a'.toNat+(n-10) ∨ c.toNat = 'A'.toNat+(n-10))

instance (n : ℕ) (c : Char) : Decidable (IsDigit n c) := inferInstanceAs (Decidable (_ ∨ _))

/-- The digits of some bytes. -/
inductive Spells : List Char → List UInt8 → Prop
  | nil : Spells [] []
  | cons {hi lo : Char} {b : UInt8} {t : List Char} {bs : List UInt8} :
      IsDigit (b.toNat/16) hi → IsDigit (b.toNat%16) lo → Spells t bs → Spells (hi::lo::t) (b::bs)

theorem Spells.length {t : List Char} {bs : List UInt8} (h : Spells t bs) :
    t.length = 2*bs.length := by
  induction h with
  | nil => rfl
  | cons _ _ _ ih =>
    rw [List.length_cons,List.length_cons,List.length_cons,ih]
    omega

theorem IsDigit.ascii {n : ℕ} {c : Char} (h : IsDigit n c) : c.toNat < 128 := by
  have hzero : '0'.toNat = 48 := rfl
  have ha : 'a'.toNat = 97 := rfl
  have hA : 'A'.toNat = 65 := rfl
  unfold IsDigit at h
  omega

theorem IsDigit.lt {n : ℕ} {c : Char} (h : IsDigit n c) : n < 16 := by
  unfold IsDigit at h
  omega

/-- A digit takes one byte, so that the spelling has as many bytes as characters. -/
theorem Spells.length_bytes {t : List Char} {bs : List UInt8} (h : Spells t bs) :
    (Utf8.bytes t).length = 2*bs.length := by
  induction h with
  | nil => rfl
  | cons hhi hlo _ ih =>
    rw [Utf8.bytes_cons,Utf8.utf8EncodeChar_ascii hhi.ascii,Utf8.bytes_cons,
      Utf8.utf8EncodeChar_ascii hlo.ascii]
    simp only [List.singleton_append,List.length_cons,ih]
    omega

/-- The number that a digit stands for. -/
def value (c : Char) : Option ℕ :=
  if 48 ≤ c.toNat ∧ c.toNat ≤ 57 then some (c.toNat-48)
  else if 97 ≤ c.toNat ∧ c.toNat ≤ 102 then some (c.toNat-87)
  else if 65 ≤ c.toNat ∧ c.toNat ≤ 70 then some (c.toNat-55)
  else none

theorem value_eq_some {n : ℕ} {c : Char} : value c = some n ↔ IsDigit n c := by
  have hzero : '0'.toNat = 48 := rfl
  have ha : 'a'.toNat = 97 := rfl
  have hA : 'A'.toNat = 65 := rfl
  unfold value IsDigit
  split
  · rw [Option.some.injEq]
    omega
  split
  · rw [Option.some.injEq]
    omega
  split
  · rw [Option.some.injEq]
    omega
  · simp only [reduceCtorEq,false_iff]
    omega

end Kuadrat.Hex
