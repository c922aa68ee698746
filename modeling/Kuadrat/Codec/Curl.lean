import Mathlib.Data.List.TakeDrop

/-!
# Configuration documents of curl

One option stands on each line: its name, a separator, and a value that may be quoted. A
quoted value ends at the first quote without a backslash before it, and a backslash before a
character that it gives no meaning to is dropped.
-/
namespace Kuadrat.Curl

section Reading

def isSpace (c : Char) : Bool := c == ' ' || (9 ≤ c.toNat && c.toNat ≤ 13)

/-- What may stand between a name and its value. -/
def isSeparator (c : Char) : Bool := isSpace c || c == '=' || c == ':'

def unescaped (c : Char) : Char :=
  if c = 't' then '\t' else if c = 'n' then '\n' else if c = 'r' then '\r'
  else if c = 'v' then Char.ofNat 11 else c

/-- A quoted value, from behind its opening quote. -/
def unquote : List Char → List Char
  | '\\'::c::l => unescaped c::unquote l
  | ['\\'] => []
  | '"'::_ => []
  | c::l => c::unquote l
  | [] => []

def value : List Char → Option (List Char)
  | [] => none
  | '"'::quoted => some (unquote quoted)
  | bare => some (bare.takeWhile fun c => !isSpace c)

/-- The option on a line and its value; a blank line or a comment has none. -/
def option (line : List Char) : Option (List Char × Option (List Char)) :=
  match line.dropWhile isSpace with
  | [] => none
  | '#'::_ => none
  | l => some (l.takeWhile fun c => !isSeparator c,
      value ((l.dropWhile fun c => !isSeparator c).dropWhile isSeparator))

def options (doc : List Char) : List (List Char × Option (List Char)) :=
  (doc.splitOn '\n').filterMap option

end Reading

section Writing
variable {t u a b : List Char}

theorem unquote_cons {c : Char} (hescape : c ≠ '\\') (hquote : c ≠ '"') (l : List Char) :
    unquote (c::l) = c::unquote l := by
  conv_lhs => unfold unquote
  split
  · next heq => exact absurd (List.cons.inj heq).1 hescape
  · next heq => exact absurd (List.cons.inj heq).1 hescape
  · next heq => exact absurd (List.cons.inj heq).1 hquote
  · next heq => rw [(List.cons.inj heq).1,(List.cons.inj heq).2]
  · next heq => cases heq

/-- Within quotes the text `t` is read as `a`, whatever stands behind it. -/
def Reads (t a : List Char) : Prop := ∀ rest, unquote (t ++ rest) = a ++ unquote rest

theorem Reads.nil : Reads [] [] := fun _ => rfl

theorem Reads.append (h : Reads t a) (h' : Reads u b) : Reads (t ++ u) (a ++ b) := by
  intro rest
  rw [List.append_assoc,h,h',List.append_assoc]

theorem reads_plain {c : Char} (hescape : c ≠ '\\') (hquote : c ≠ '"') : Reads [c] [c] :=
  unquote_cons hescape hquote

theorem reads_escape (c : Char) : Reads ['\\',c] [unescaped c] := fun _ => rfl

/-- The character stands for itself within quotes. -/
def isBare (c : Char) : Bool := c != '\\' && c != '"'

theorem reads_bare (h : t.all isBare = true) : Reads t t := by
  induction t with
  | nil => exact .nil
  | cons c t ih =>
    simp only [List.all_cons,Bool.and_eq_true,isBare,bne_iff_ne] at h
    exact (reads_plain h.1.1 h.1.2).append (ih h.2)

/-- A writer that writes each character so that it is read as intended. -/
theorem reads_flatMap {f : Char → List Char} {g : Char → Char} (h : ∀ c, Reads (f c) [g c])
    (s : List Char) : Reads (s.flatMap f) (s.map g) := by
  induction s with
  | nil => exact .nil
  | cons c s ih => exact (h c).append ih

/-- A name that is neither a comment nor ended before its last character. -/
structure Named (name : List Char) : Prop where
  nonempty : name ≠ []
  plain : (name.all fun c => !isSeparator c && c != '#') = true

/-- One option with a quoted value. -/
def setting (name t : List Char) : List Char := name ++ [' ','=',' ','"'] ++ t ++ ['"']

theorem option_setting {name : List Char} (hname : Named name) (h : Reads t a) :
    option (setting name t) = some (name,some a) := by
  obtain ⟨c,rest,rfl⟩ := List.exists_cons_of_ne_nil hname.nonempty
  have hplain : ∀ d ∈ c::rest, isSeparator d = false ∧ d ≠ '#' := by
    simpa using hname.plain
  have hc := hplain c List.mem_cons_self
  have hspace : isSpace c = false := by
    have hsep := hc.1
    simp only [isSeparator,Bool.or_eq_false_iff] at hsep
    exact hsep.1.1
  have hpass : ∀ d ∈ c::rest, (!isSeparator d) = true := by
    intro d hd
    rw [(hplain d hd).1]
    rfl
  have hline : setting (c::rest) t = (c::rest) ++ (' ':: '=':: ' ':: '"'::(t ++ ['"'])) := by
    simp [setting]
  have hstart : (setting (c::rest) t).dropWhile isSpace = setting (c::rest) t := by
    rw [hline,List.cons_append,List.dropWhile_cons_of_neg (by simp [hspace])]
  have htake : (setting (c::rest) t).takeWhile (fun d => !isSeparator d) = c::rest := by
    rw [hline,List.takeWhile_append_of_pos hpass]
    simp [isSeparator,isSpace]
  have hdrop : ((setting (c::rest) t).dropWhile fun d => !isSeparator d).dropWhile isSeparator =
      '"'::(t ++ ['"']) := by
    rw [hline,List.dropWhile_append_of_pos hpass]
    simp [isSeparator,isSpace]
  have hvalue : unquote (t ++ ['"']) = a := by
    rw [h]
    exact List.append_nil a
  unfold option
  rw [hstart]
  split
  · next hnil => simp [hline] at hnil
  · next hcomment =>
    rw [hline] at hcomment
    exact absurd (List.cons.inj hcomment).1 hc.2
  · rw [htake,hdrop,value,hvalue]

/-- The options of a document are those of its lines. -/
theorem options_lines {ls : List (List Char)} (h : ∀ l ∈ ls, '\n' ∉ l) :
    options (ls.flatMap (· ++ ['\n'])) = ls.filterMap option := by
  unfold options
  induction ls with
  | nil => rfl
  | cons l ls ih =>
    have hl : ∀ c ∈ l, (c == '\n') = false := by
      intro c hc
      have hne : c ≠ '\n' := fun heq => h l List.mem_cons_self (heq ▸ hc)
      simpa using hne
    have hsplit : (l ++ '\n'::ls.flatMap (· ++ ['\n'])).splitOn '\n' =
        l::(ls.flatMap (· ++ ['\n'])).splitOn '\n' :=
      List.splitOnP_append_cons_of_forall_mem hl '\n' (by rfl) _
    rw [List.flatMap_cons,List.append_assoc,List.singleton_append,hsplit,List.filterMap_cons,
      List.filterMap_cons,ih fun l hl => h l (List.mem_cons_of_mem _ hl)]

end Writing
end Kuadrat.Curl
