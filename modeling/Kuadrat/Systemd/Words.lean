import Kuadrat.Systemd.UnitFile

/-!
# Words as systemd splits them

A value is split at unquoted separators. Inside double quotes a backslash escapes a quote
or a backslash. A writer that leaves the reader at the end of the word it wrote, whatever
comes next, can be used for each word of a list.
-/
namespace Kuadrat.Systemd

section Splitting

def isSeparator (c : Char) : Bool := c == ' ' || c == '\t' || c == '\n'

/-- Where the reader stands: between words, in the word `w`, possibly within a quote, or
behind a backslash in it. -/
inductive Reading
  | between
  | word (quote : Option Char) (w : List Char)
  | escape (quote : Option Char) (w : List Char)
  deriving DecidableEq

/-- One character of a word outside quotes. -/
def Reading.outside (w : List Char) (c : Char) : Reading :=
  if c = '"' ∨ c = '\'' then .word (some c) w
  else if c = '\\' then .escape none w
  else .word none (w ++ [c])

/-- The words of a value, or nothing when a quote stays open. -/
def split : Reading → List Char → Option (List (List Char))
  | .between,[] => some []
  | .word none w,[] => some [w]
  | .word (some _) _,[] => none
  | .escape _ _,[] => none
  | .between,c::l => if isSeparator c then split .between l else split (.outside [] c) l
  | .word none w,c::l =>
    if isSeparator c then (split .between l).map (w::·) else split (.outside w c) l
  | .word (some q) w,c::l =>
    if c = q then split (.word none w) l
    else if c = '\\' then split (.escape (some q) w) l
    else split (.word (some q) (w ++ [c])) l
  | .escape q w,c::l => split (.word q (if c = '\\' ∨ c = '"' then w ++ [c] else w ++ ['\\',c])) l

/-- `%%` stands for `%`. -/
def unescapePercent : List Char → List Char
  | '%':: '%'::l => '%'::unescapePercent l
  | c::l => c::unescapePercent l
  | [] => []

def decode (value : List Char) : Option (List (List Char)) :=
  (split .between value).map (·.map unescapePercent)

end Splitting

section Writing
variable {a w : List Char}

/-- The text `t` of a word leaves the reader at the end of the word `a`. -/
def Spells (t a : List Char) : Prop := ∀ rest, split .between (t ++ rest) = split (.word none a) rest

/-- A character that stands for itself outside quotes. -/
def isBare (c : Char) : Bool := !isSeparator c && c != '"' && c != '\'' && c != '\\'

def quoted (a : List Char) : List Char :=
  ['"'] ++ (a.flatMap fun c =>
    if c = '\\' then ['\\','\\'] else if c = '"' then ['\\','"'] else [c]) ++ ['"']

theorem outside_bare {c : Char} (h : isBare c = true) (w : List Char) :
    Reading.outside w c = .word none (w ++ [c]) := by
  simp only [isBare,Bool.and_eq_true,bne_iff_ne] at h
  obtain ⟨⟨⟨-,hd⟩,hs⟩,hb⟩ := h
  rw [Reading.outside,if_neg (by simp [hd,hs]),if_neg hb]

theorem not_separator_of_bare {c : Char} (h : isBare c = true) : isSeparator c = false := by
  simp only [isBare,Bool.and_eq_true,Bool.not_eq_true'] at h
  exact h.1.1.1

theorem split_bare (h : ∀ c ∈ a, isBare c = true) (w rest : List Char) :
    split (.word none w) (a ++ rest) = split (.word none (w ++ a)) rest := by
  induction a generalizing w with
  | nil => simp
  | cons c l ih =>
    have hc := h c List.mem_cons_self
    rw [List.cons_append,split,if_neg (by simp [not_separator_of_bare hc]),outside_bare hc,
      ih (fun x hx => h x (List.mem_cons_of_mem _ hx)),List.append_assoc,List.singleton_append]

/-- A word of bare characters spells itself. -/
theorem spells_bare (h : ∀ c ∈ a, isBare c = true) (hne : a ≠ []) : Spells a a := by
  intro rest
  cases a with
  | nil => exact absurd rfl hne
  | cons c l =>
    have hc := h c List.mem_cons_self
    rw [List.cons_append,split,if_neg (by simp [not_separator_of_bare hc]),outside_bare hc,
      split_bare (fun x hx => h x (List.mem_cons_of_mem _ hx))]
    rfl

theorem split_escaped (a w rest : List Char) :
    split (.word (some '"') w) ((a.flatMap fun c =>
      if c = '\\' then ['\\','\\'] else if c = '"' then ['\\','"'] else [c]) ++ '"'::rest) =
      split (.word none (w ++ a)) rest := by
  induction a generalizing w with
  | nil => simp [split]
  | cons c l ih =>
    rw [List.flatMap_cons,List.append_assoc]
    have hnext : split (.word (some '"') (w ++ [c])) _ = _ := ih (w ++ [c])
    rw [List.append_assoc,List.singleton_append] at hnext
    rw [← hnext]
    by_cases hb : c = '\\'
    · simp [hb,split]
    · by_cases hq : c = '"'
      · simp [hq,split]
      · simp [hb,hq,split]

/-- A quoted word spells what was quoted, empty or not. -/
theorem spells_quoted (a : List Char) : Spells (quoted a) a := by
  intro rest
  rw [quoted,List.append_assoc,List.append_assoc,List.singleton_append,List.singleton_append]
  exact split_escaped a [] rest

/-- Words with one space between any two split into these words. -/
theorem split_words {texts words : List (List Char)} (h : List.Forall₂ Spells texts words) :
    split .between (List.intercalate [' '] texts) = some words := by
  induction h with
  | nil => rfl
  | @cons t a ts ws ht hrest ih =>
    cases hrest with
    | nil => simpa [List.intercalate,split] using ht []
    | @cons t' a' ts ws ht' hrest =>
      have hsplit : List.intercalate [' '] (t::t'::ts) =
          t ++ ' '::List.intercalate [' '] (t'::ts) := by simp [List.intercalate]
      rw [hsplit,ht,split,if_pos (by rfl),ih]
      rfl

end Writing

section Values
variable {key : List Char} {ss : List Section}

/-- What stands behind `key=` on the physical lines of that key. -/
def rawValues (key text : List Char) : List (List Char) :=
  (physical text).filterMap fun l => (key ++ ['=']).isPrefixOf? l

def valueFor (key : List Char) (e : List Char × List Char) : Option (List Char) :=
  if e.1 = key then some e.2 else none

theorem isPrefixOf_entry {key' : List Char} (hk : '=' ∉ key) (hk' : '=' ∉ key') (v : List Char) :
    (key ++ ['=']).isPrefixOf? (key' ++ '='::v) = valueFor key (key',v) := by
  induction key generalizing key' with
  | nil =>
    cases key' with
    | nil => simp [List.isPrefixOf?,valueFor]
    | cons c t =>
      have hc : ¬ '=' = c := fun h => hk' (h ▸ List.mem_cons_self)
      simp [List.isPrefixOf?,valueFor,hc]
  | cons c t ih =>
    have hc : ¬c = '=' := fun h => hk (h ▸ List.mem_cons_self)
    have ht : '=' ∉ t := fun h => hk (List.mem_cons_of_mem _ h)
    cases key' with
    | nil => simp [List.isPrefixOf?,valueFor,hc]
    | cons c' t' =>
      have ht' : '=' ∉ t' := fun h => hk' (List.mem_cons_of_mem _ h)
      have hrest := ih ht ht'
      simp only [List.cons_append,List.isPrefixOf?,hrest,valueFor,List.cons.injEq]
      by_cases h : c = c'
      · simp [h]
      · simp [h,Ne.symm h]

/-- The lines of a key are the entries of that key, wherever they stand. -/
theorem rawValues_fileText {comment : List Char} (hkey : Plain key) (hunbroken : Unbroken comment)
    (hcomment : (key ++ ['=']).isPrefixOf? comment = none) (h : ∀ s ∈ ss, s.WellFormed)
    (hne : ss ≠ []) : rawValues key (fileText comment ss) =
      (ss.flatMap Section.entries).filterMap (valueFor key) := by
  have heq : '=' ∉ key := hkey.not_mem (by decide)
  rw [rawValues,fileText,physical_line hunbroken,physical_sections h hne,
    List.filterMap_cons_none hcomment]
  clear hne
  induction ss with
  | nil => rfl
  | cons s rest ih =>
    have hs := h s List.mem_cons_self
    have hblank : (key ++ ['=']).isPrefixOf? ([] : List Char) = none := by
      cases key <;> rfl
    have hheader : (key ++ ['=']).isPrefixOf? ('['::s.name ++ [']']) = none := by
      obtain ⟨c,t,rfl,hc⟩ := hkey.cons
      simp [List.isPrefixOf?,ne_of_alphanum hc (d := '[') (by decide)]
    have hentries : (s.entries.map entryLine).filterMap ((key ++ ['=']).isPrefixOf? ·) =
        s.entries.filterMap (valueFor key) := by
      rw [List.filterMap_map]
      refine List.filterMap_congr fun e he => ?_
      exact isPrefixOf_entry heq ((hs.single_lines e he).1.not_mem (by decide)) e.2
    rw [List.flatMap_cons,List.flatMap_cons,List.filterMap_append,List.filterMap_append,
      ih fun x hx => h x (List.mem_cons_of_mem _ hx),List.filterMap_append,Section.lines,
      List.filterMap_cons_none hheader,hentries,List.filterMap_cons_none hblank,
      List.filterMap_nil,List.append_nil]

end Values

end Kuadrat.Systemd
