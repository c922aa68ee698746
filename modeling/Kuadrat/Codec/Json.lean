import Kuadrat.Codec.Text

/-!
# JSON values and the texts that say them

`Writes v t` is the grammar without insignificant whitespace: `t` is a JSON text whose
value is `v`. A number is told by its parts, so that none is without a literal. A text of
the grammar has no line break in it.
-/
namespace Kuadrat

/-- A JSON number by its parts: a sign, the whole part, the digits after the point, and an
exponent with its sign. -/
structure JsonNumber where
  negative : Bool := false
  whole : ℕ
  fraction : List (Fin 10) := []
  exponent : Option (Bool × ℕ) := none
  deriving DecidableEq

namespace JsonNumber

def sign (negative : Bool) : List Char := if negative then ['-'] else []

def digits (n : ℕ) : List Char := Nat.toDigits 10 n

def literal (n : JsonNumber) : List Char :=
  sign n.negative ++ digits n.whole ++
  (if n.fraction.isEmpty then [] else '.' :: n.fraction.flatMap fun d : Fin 10 => digits d.val) ++
  match n.exponent with
  | none => []
  | some (negative,e) => 'e' :: sign negative ++ digits e

theorem isDigit_of_mem_digits {n : ℕ} {c : Char} (h : c ∈ digits n) : c.isDigit = true :=
  Nat.isDigit_of_mem_toDigits (by decide) (by decide) h

/-- The number is one of the 64-bit integers that need no sign. -/
def asU64 (n : JsonNumber) : Option ℕ :=
  if !n.negative && n.fraction.isEmpty && n.exponent.isNone && n.whole < 18446744073709551616 then
    some n.whole
  else none

end JsonNumber

/-- The members of an object stand in the order of their keys. -/
inductive Json
  | null
  | bool (b : Bool)
  | num (n : JsonNumber)
  | str (s : List Char)
  | arr (items : List Json)
  | obj (members : List (List Char × Json))

namespace Json

/-- `Value::get` by a key. -/
def get (key : List Char) : Json → Option Json
  | obj members => members.lookup key
  | _ => none

/-- `Value::as_str`. -/
def asStr : Json → Option (List Char)
  | str s => some s
  | _ => none

/-- `Value::as_u64`. -/
def asU64 : Json → Option ℕ
  | num n => n.asU64
  | _ => none

def isNull : Json → Bool
  | null => true
  | _ => false

/-- The escapes of one letter. -/
def shortEscapes : List (Char × Char) :=
  [('"','"'),('\\','\\'),('/','/'),('b',Char.ofNat 8),('f',Char.ofNat 12),('n','\n'),('r','\r'),
    ('t','\t')]

/-- How one character stands inside a string literal. -/
inductive Escapes : Char → List Char → Prop
  | plain {c : Char} : 0x20 ≤ c.toNat → c ≠ '"' → c ≠ '\\' → Escapes c [c]
  | short {letter c : Char} : (letter,c) ∈ shortEscapes → Escapes c ['\\',letter]
  | unicode {c : Char} {w x y z : Fin 16} :
    c.toNat = ((w.val*16+x.val)*16+y.val)*16+z.val →
    Escapes c ('\\' :: 'u' :: [w,x,y,z].map fun d : Fin 16 => Codec.hexDigit d.val)

inductive EscapesAll : List Char → List Char → Prop
  | nil : EscapesAll [] []
  | cons {c : Char} {s t u : List Char} : Escapes c t → EscapesAll s u → EscapesAll (c::s) (t++u)

mutual

inductive Writes : Json → List Char → Prop
  | null : Writes .null ['n','u','l','l']
  | true : Writes (.bool true) ['t','r','u','e']
  | false : Writes (.bool false) ['f','a','l','s','e']
  | num (n : JsonNumber) : Writes (.num n) n.literal
  | str {s t : List Char} : EscapesAll s t → Writes (.str s) ('"' :: t ++ ['"'])
  | arr {items : List Json} {t : List Char} : WritesItems items t →
    Writes (.arr items) ('[' :: t ++ [']'])
  | obj {members : List (List Char × Json)} {t : List Char} : WritesMembers members t →
    Writes (.obj members) ('\x7b' :: t ++ ['\x7d'])

inductive WritesItems : List Json → List Char → Prop
  | nil : WritesItems [] []
  | last {v : Json} {t : List Char} : Writes v t → WritesItems [v] t
  | cons {v w : Json} {rest : List Json} {t u : List Char} : Writes v t →
    WritesItems (w::rest) u → WritesItems (v::w::rest) (t ++ ',' :: u)

inductive WritesMembers : List (List Char × Json) → List Char → Prop
  | nil : WritesMembers [] []
  | last {key k : List Char} {v : Json} {t : List Char} : EscapesAll key k → Writes v t →
    WritesMembers [(key,v)] ('"' :: k ++ '"' :: ':' :: t)
  | cons {key k : List Char} {v : Json} {m : List Char × Json} {rest : List (List Char × Json)}
    {t u : List Char} : EscapesAll key k → Writes v t → WritesMembers (m::rest) u →
    WritesMembers ((key,v)::m::rest) ('"' :: k ++ '"' :: ':' :: t ++ ',' :: u)

end

section Printable

/-- No control character stands in the text. -/
def Printable (t : List Char) : Prop := ∀ c ∈ t, 0x20 ≤ c.toNat

theorem printable_append {t u : List Char} : Printable (t ++ u) ↔ Printable t ∧ Printable u :=
  List.forall_mem_append

theorem printable_cons {c : Char} {t : List Char} :
    Printable (c::t) ↔ 0x20 ≤ c.toNat ∧ Printable t := List.forall_mem_cons

theorem printable_nil : Printable [] := List.forall_mem_nil _

theorem printable_of_all {t : List Char} (h : t.all (fun c => 0x20 ≤ c.toNat) = true) :
    Printable t := fun c hc => of_decide_eq_true (List.all_eq_true.mp h c hc)

theorem hexDigit_printable (d : Fin 16) : 0x20 ≤ (Codec.hexDigit d.val).toNat := by
  revert d
  decide

theorem Escapes.printable {c : Char} {t : List Char} (h : Escapes c t) : Printable t := by
  cases h with
  | plain hc _ _ => exact printable_cons.mpr ⟨hc,printable_nil⟩
  | @short letter c hmem =>
    have hletters : ∀ p ∈ shortEscapes, 0x20 ≤ p.1.toNat := by decide
    exact printable_cons.mpr ⟨by decide,printable_cons.mpr ⟨hletters _ hmem,printable_nil⟩⟩
  | unicode hc =>
    refine printable_cons.mpr ⟨by decide,printable_cons.mpr ⟨by decide,?_⟩⟩
    intro c hmem
    obtain ⟨d,-,rfl⟩ := List.mem_map.mp hmem
    exact hexDigit_printable d

theorem EscapesAll.printable {s t : List Char} (h : EscapesAll s t) : Printable t := by
  induction h with
  | nil => exact printable_nil
  | cons hc _ ih => exact printable_append.mpr ⟨hc.printable,ih⟩

theorem digits_printable (n : ℕ) : Printable (JsonNumber.digits n) := by
  intro c hc
  have hdigit := JsonNumber.isDigit_of_mem_digits hc
  simp only [Char.isDigit,Bool.and_eq_true,decide_eq_true_eq,ge_iff_le,UInt32.le_iff_toNat_le] at hdigit
  exact Nat.le_trans (by decide) hdigit.1

theorem sign_printable (b : Bool) : Printable (JsonNumber.sign b) := by
  cases b <;> exact printable_of_all (by decide)

theorem literal_printable (n : JsonNumber) : Printable n.literal := by
  unfold JsonNumber.literal
  rw [printable_append,printable_append,printable_append]
  refine ⟨⟨⟨sign_printable _,digits_printable _⟩,?_⟩,?_⟩
  · split
    · exact printable_nil
    · refine printable_cons.mpr ⟨by decide,fun c hc => ?_⟩
      obtain ⟨d,-,hd⟩ := List.mem_flatMap.mp hc
      exact digits_printable _ c hd
  · split
    · exact printable_nil
    · exact printable_cons.mpr ⟨by decide,
        printable_append.mpr ⟨sign_printable _,digits_printable _⟩⟩

mutual

/-- A text of the grammar has no control character. -/
theorem Writes.printable {v : Json} {t : List Char} : Writes v t → Printable t
  | .null | .true | .false => printable_of_all (by decide)
  | .num n => literal_printable n
  | .str h => printable_append.mpr ⟨printable_cons.mpr ⟨by decide,h.printable⟩,
      printable_cons.mpr ⟨by decide,printable_nil⟩⟩
  | .arr h => printable_append.mpr ⟨printable_cons.mpr ⟨by decide,h.printable⟩,
      printable_cons.mpr ⟨by decide,printable_nil⟩⟩
  | .obj h => printable_append.mpr ⟨printable_cons.mpr ⟨by decide,h.printable⟩,
      printable_cons.mpr ⟨by decide,printable_nil⟩⟩

theorem WritesItems.printable {items : List Json} {t : List Char} :
    WritesItems items t → Printable t
  | .nil => printable_nil
  | .last h => h.printable
  | .cons h hrest => printable_append.mpr ⟨h.printable,
      printable_cons.mpr ⟨by decide,hrest.printable⟩⟩

theorem WritesMembers.printable {members : List (List Char × Json)} {t : List Char} :
    WritesMembers members t → Printable t
  | .nil => printable_nil
  | .last hk h => printable_append.mpr ⟨printable_cons.mpr ⟨by decide,hk.printable⟩,
      printable_cons.mpr ⟨by decide,printable_cons.mpr ⟨by decide,h.printable⟩⟩⟩
  | .cons hk h hrest => by
    simp only [printable_append,printable_cons,List.cons_append]
    exact ⟨by decide,⟨hk.printable,by decide,by decide,h.printable⟩,by decide,hrest.printable⟩

end

theorem Printable.notMem {c : Char} {t : List Char} (h : Printable t) (hc : c.toNat < 0x20) :
    c ∉ t := fun hmem => absurd (h c hmem) (Nat.not_le_of_lt hc)

/-- A text of the grammar is one line. -/
theorem Writes.oneLine {v : Json} {t : List Char} (h : Writes v t) : '\n' ∉ t :=
  h.printable.notMem (by decide)

end Printable

section Compact

def quote (s : List Char) : List Char := '"' :: s.flatMap Codec.escape ++ ['"']

mutual

/-- The compact text of a value. -/
def compact : Json → List Char
  | null => ['n','u','l','l']
  | bool true => ['t','r','u','e']
  | bool false => ['f','a','l','s','e']
  | num n => n.literal
  | str s => quote s
  | arr items => '[' :: compactItems items ++ [']']
  | obj members => '\x7b' :: compactMembers members ++ ['\x7d']

def compactItems : List Json → List Char
  | [] => []
  | [v] => compact v
  | v::w::rest => compact v ++ ',' :: compactItems (w::rest)

def compactMembers : List (List Char × Json) → List Char
  | [] => []
  | [(key,v)] => quote key ++ ':' :: compact v
  | (key,v)::m::rest => quote key ++ ':' :: compact v ++ ',' :: compactMembers (m::rest)

end

/-- A control character is written with two hexadecimal digits behind two zeros. -/
theorem escapes_escape (c : Char) : Escapes c (Codec.escape c) := by
  unfold Codec.escape
  split
  · subst c
    exact .short (by decide)
  split
  · subst c
    exact .short (by decide)
  split
  · rename_i h
    rw [Codec.char_eq_of_toNat h]
    exact .short (by decide)
  split
  · subst c
    exact .short (by decide)
  split
  · subst c
    exact .short (by decide)
  split
  · rename_i h
    rw [Codec.char_eq_of_toNat h]
    exact .short (by decide)
  split
  · subst c
    exact .short (by decide)
  split
  · refine .unicode (w := 0) (x := 0) (y := ⟨c.toNat/16,by omega⟩) (z := ⟨c.toNat%16,by omega⟩) ?_
    simp only [Fin.val_zero]
    omega
  · rename_i hquote hslash _ _ _ _ _ hplain
    exact .plain (by omega) hquote hslash

theorem escapesAll_flatMap (s : List Char) : EscapesAll s (s.flatMap Codec.escape) := by
  induction s with
  | nil => exact .nil
  | cons c s ih => exact .cons (escapes_escape c) ih

mutual

/-- The compact text says the value. -/
theorem writes_compact : ∀ v : Json, Writes v v.compact
  | null => .null
  | bool true => .true
  | bool false => .false
  | num n => .num n
  | str s => .str (escapesAll_flatMap s)
  | arr items => .arr (writes_compactItems items)
  | obj members => .obj (writes_compactMembers members)

theorem writes_compactItems : ∀ items : List Json, WritesItems items (compactItems items)
  | [] => .nil
  | [v] => .last (writes_compact v)
  | v::w::rest => .cons (writes_compact v) (writes_compactItems (w::rest))

theorem writes_compactMembers : ∀ members : List (List Char × Json),
    WritesMembers members (compactMembers members)
  | [] => .nil
  | [(key,v)] => by
    rw [compactMembers,quote]
    simpa using WritesMembers.last (escapesAll_flatMap key) (writes_compact v)
  | (key,v)::m::rest => by
    rw [compactMembers,quote]
    simpa using WritesMembers.cons (escapesAll_flatMap key) (writes_compact v)
      (writes_compactMembers (m::rest))

end

end Compact

end Json
end Kuadrat
