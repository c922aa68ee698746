import Mathlib.Data.List.TakeDrop
import Mathlib.Data.List.Sublists

/-!
# Unit files as systemd reads them

A unit file is read in three passes: its physical lines, the logical lines that a
backslash at a line's end joins them to, and the assignments under their section headers.
A file written as one `Key=value` line for each of its entries reads back with its
keys in order when no value joins the line after it, and only then.
-/
namespace Kuadrat.Systemd

section Reader

def isBreak (c : Char) : Bool := c == '\n' || c == '\r'

def isBlank (c : Char) : Bool := c == ' ' || c == '\t' || isBreak c

def stripEnd (l : List Char) : List Char := (l.reverse.dropWhile isBlank).reverse

def strip (l : List Char) : List Char := stripEnd (l.dropWhile isBlank)

def isComment (l : List Char) : Bool :=
  match l.dropWhile isBlank with
  | [] => false
  | c::_ => c == '#' || c == ';'

/-- A line ending in a backslash goes on in the next one. -/
def joins (l : List Char) : Bool := l.getLast? == some '\\'

def physical (text : List Char) : List (List Char) := text.splitOnP isBreak

/-- The logical lines, where `held` is what the lines before have left to be continued. The
backslash of a joined line becomes a space; comments may stand between the two. -/
def logical (held : List Char) : List (List Char) → List (List Char)
  | [] => [held]
  | l::rest =>
    if isComment l then logical held rest
    else if joins (held ++ l) then logical ((held ++ l).dropLast ++ [' ']) rest
    else (held ++ l)::logical [] rest

inductive Item
  | skip
  | header (name : List Char)
  | assign (key value : List Char)
  deriving DecidableEq

/-- What one logical line says. A line that is neither a header nor an assignment is ignored. -/
def item (l : List Char) : Item :=
  match strip l with
  | [] => .skip
  | '['::name => if name.getLast? = some ']' then .header name.dropLast else .skip
  | c::l =>
    if '=' ∈ c::l then
      .assign (strip ((c::l).takeWhile (· != '='))) (strip ((c::l).dropWhile (· != '=')).tail)
    else .skip

/-- The assignments in order, each with its section; one outside any section is ignored. -/
def assignments : Option (List Char) → List (List Char) → List (List Char × List Char × List Char)
  | _,[] => []
  | s,l::rest =>
    match item l with
    | .skip => assignments s rest
    | .header name => assignments (some name) rest
    | .assign key value =>
      match s with
      | none => assignments none rest
      | some name => (name,key,value)::assignments (some name) rest

/-- The (section, key) pairs of a unit file. -/
def keys (text : List Char) : List (List Char × List Char) :=
  (assignments none (logical [] (physical text))).map fun a => (a.1,a.2.1)

end Reader

section OnlyAtEnd
variable {α β : Type} {p : α → Bool} {last : Prop} {l l' : List α}

/-- An element with `p` ends the list, and then `last` holds. -/
def OnlyAtEnd (p : α → Bool) (last : Prop) : List α → Prop
  | [] => True
  | a::rest => (p a = true → rest = [] ∧ last) ∧ OnlyAtEnd p last rest

@[simp] theorem onlyAtEnd_nil : OnlyAtEnd p last [] := trivial

theorem onlyAtEnd_singleton {a : α} : OnlyAtEnd p last [a] ↔ (p a = true → last) := by
  simp [OnlyAtEnd]

theorem onlyAtEnd_append :
    OnlyAtEnd p last (l ++ l') ↔ OnlyAtEnd p (l' = [] ∧ last) l ∧ OnlyAtEnd p last l' := by
  induction l with
  | nil => simp
  | cons a rest ih =>
    simp only [List.cons_append,OnlyAtEnd,List.append_eq_nil_iff,ih,and_assoc]

theorem onlyAtEnd_map {f : β → α} {l : List β} :
    OnlyAtEnd p last (l.map f) ↔ OnlyAtEnd (fun b => p (f b)) last l := by
  induction l with
  | nil => simp
  | cons b rest ih => simp only [List.map_cons,OnlyAtEnd,List.map_eq_nil_iff,ih]

theorem OnlyAtEnd.mono {last' : Prop} (h : OnlyAtEnd p last l) (hlast : last → last') :
    OnlyAtEnd p last' l := by
  induction l with
  | nil => exact trivial
  | cons a rest ih => exact ⟨fun hp => ⟨(h.1 hp).1,hlast (h.1 hp).2⟩,ih h.2⟩

/-- Without elements that have `p` there is nothing to ask for. -/
theorem onlyAtEnd_of_none (h : ∀ a ∈ l, p a = false) : OnlyAtEnd p last l := by
  induction l with
  | nil => exact trivial
  | cons a rest ih =>
    have ha := h a List.mem_cons_self
    exact ⟨fun hp => absurd hp (by simp [ha]),ih fun x hx => h x (List.mem_cons_of_mem _ hx)⟩

theorem onlyAtEnd_false (hlast : ¬last) : OnlyAtEnd p last l ↔ ∀ a ∈ l, p a = false := by
  refine ⟨fun h => ?_,onlyAtEnd_of_none⟩
  induction l with
  | nil => exact fun _ ha => nomatch ha
  | cons a rest ih =>
    rw [List.forall_mem_cons,← Bool.not_eq_true]
    exact ⟨fun hp => hlast (h.1 hp).2,ih h.2⟩

end OnlyAtEnd

section Writer

structure Section where
  name : List Char
  entries : List (List Char × List Char)

def entryLine (e : List Char × List Char) : List Char := e.1 ++ '='::e.2

namespace Section

def lines (s : Section) : List (List Char) :=
  ('['::s.name ++ [']'])::s.entries.map entryLine

def text (s : Section) : List Char := s.lines.flatMap (· ++ ['\n'])

def keys (s : Section) : List (List Char × List Char) := s.entries.map fun e => (s.name,e.1)

/-- Only the last value of a section may end in a backslash: an empty line follows it. -/
def Unjoined (s : Section) : Prop := OnlyAtEnd (fun e => joins e.2) True s.entries

end Section

/-- A file of sections with an empty line between any two, under a line of comment. -/
def fileText (comment : List Char) (sections : List Section) : List Char :=
  comment ++ '\n'::List.intercalate ['\n'] (sections.map Section.text)

/-- A name that reads as itself: the keys and section names of unit files are such. -/
def Plain (k : List Char) : Prop := k ≠ [] ∧ ∀ c ∈ k, c.isAlphanum = true

instance (k : List Char) : Decidable (Plain k) :=
  @instDecidableAnd _ _ inferInstance (List.decidableBAll (fun c => c.isAlphanum = true) k)

def Unbroken (l : List Char) : Prop := ∀ c ∈ l, isBreak c = false

instance (l : List Char) : Decidable (Unbroken l) :=
  List.decidableBAll (fun c => isBreak c = false) l

def SingleLine (e : List Char × List Char) : Prop := Plain e.1 ∧ Unbroken e.2

structure Section.WellFormed (s : Section) : Prop where
  plain_name : Plain s.name
  single_lines : ∀ e ∈ s.entries, SingleLine e

end Writer

section Chars
variable {c : Char} {k l w : List Char}

theorem blank_of_break (h : isBreak c = true) : isBlank c = true := by simp [isBlank,h]

theorem ne_of_alphanum {d : Char} (h : c.isAlphanum = true) (hd : d.isAlphanum = false) :
    c ≠ d := by
  rintro rfl
  exact absurd h (by simp [hd])

theorem not_blank_of_alphanum (h : c.isAlphanum = true) : isBlank c = false := by
  have hs := ne_of_alphanum h (d := ' ') (by decide)
  have ht := ne_of_alphanum h (d := '\t') (by decide)
  have hn := ne_of_alphanum h (d := '\n') (by decide)
  have hr := ne_of_alphanum h (d := '\r') (by decide)
  simp [isBlank,isBreak,hs,ht,hn,hr]

theorem not_break_of_not_blank (h : isBlank c = false) : isBreak c = false := by
  cases hb : isBreak c with
  | false => rfl
  | true => simp [blank_of_break hb] at h

theorem Plain.cons (h : Plain k) : ∃ c t, k = c::t ∧ c.isAlphanum = true := by
  cases k with
  | nil => exact absurd rfl h.1
  | cons c t => exact ⟨c,t,rfl,h.2 c List.mem_cons_self⟩

theorem Plain.not_mem {d : Char} (h : Plain k) (hd : d.isAlphanum = false) : d ∉ k :=
  fun hm => absurd (h.2 d hm) (by simp [hd])

theorem Plain.unbroken (h : Plain k) : Unbroken k :=
  fun c hc => not_break_of_not_blank (not_blank_of_alphanum (h.2 c hc))

/-- Stripping the end of a line leaves what stands before a character that is not blank. -/
theorem stripEnd_append (hc : isBlank c = false) (k w : List Char) :
    ∃ w', stripEnd (k ++ c::w) = k ++ c::w' := by
  refine ⟨stripEnd w,?_⟩
  unfold stripEnd
  have hrev : (k ++ c::w).reverse = w.reverse ++ (c::k.reverse) := by simp
  rw [hrev,List.dropWhile_append]
  split
  · next hempty =>
    rw [List.isEmpty_iff] at hempty
    simp [hempty,hc]
  · simp

theorem strip_entry (hk : Plain k) (w : List Char) :
    ∃ w', strip (k ++ '='::w) = k ++ '='::w' := by
  obtain ⟨c,t,rfl,hc⟩ := hk.cons
  obtain ⟨w',hw⟩ := @stripEnd_append '=' (by decide) (c::t) w
  refine ⟨w',?_⟩
  simpa [strip,not_blank_of_alphanum hc] using hw

theorem strip_plain (hk : Plain k) : strip k = k := by
  have hall : ∀ c ∈ k, isBlank c = false := fun c hc => not_blank_of_alphanum (hk.2 c hc)
  have hdrop : ∀ l : List Char, (∀ c ∈ l, isBlank c = false) → l.dropWhile isBlank = l := by
    intro l hl
    cases l with
    | nil => rfl
    | cons c t => simp [hl c List.mem_cons_self]
  rw [strip,stripEnd,hdrop k hall,hdrop k.reverse (by simpa using hall),List.reverse_reverse]

theorem item_entry (hk : Plain k) (w : List Char) :
    ∃ v, item (k ++ '='::w) = .assign k v := by
  obtain ⟨w',hw⟩ := strip_entry hk w
  have heq : '=' ∉ k := hk.not_mem (by decide)
  have htake : (k ++ '='::w').takeWhile (· != '=') = k := by
    rw [List.takeWhile_append_of_pos]
    · simp
    · intro c hc
      simpa using fun h : c = '=' => heq (h ▸ hc)
  refine ⟨strip ((k ++ '='::w').dropWhile (· != '=')).tail,?_⟩
  obtain ⟨c,t,hct,hc⟩ := hk.cons
  have hb := ne_of_alphanum hc (d := '[') (by decide)
  have hmem : '=' ∈ k ++ '='::w' := by simp
  unfold item
  rw [hw]
  subst hct
  rw [List.cons_append] at htake hmem ⊢
  split
  · next hnil => exact nomatch hnil
  · next hhead => exact absurd (List.cons.inj hhead).1 hb
  · next hcons =>
    obtain ⟨rfl,rfl⟩ := List.cons.inj hcons
    rw [if_pos hmem,htake,strip_plain hk]

theorem item_header (k : List Char) : item ('['::k ++ [']']) = .header k := by
  have hstrip : strip ('['::k ++ [']']) = '['::k ++ [']'] := by
    simp [strip,stripEnd,isBlank,isBreak]
  rw [item,hstrip]
  simp

theorem not_comment_of_plain (hk : Plain k) (w : List Char) : isComment (k ++ w) = false := by
  obtain ⟨c,t,rfl,hc⟩ := hk.cons
  have hh := ne_of_alphanum hc (d := '#') (by decide)
  have hs := ne_of_alphanum hc (d := ';') (by decide)
  simp [isComment,not_blank_of_alphanum hc,hh,hs]

theorem joins_append (k : List Char) (hl : l ≠ []) : joins (k ++ l) = joins l := by
  cases l with
  | nil => exact absurd rfl hl
  | cons c t => simp [joins,List.getLast?_append]

theorem joins_entry (k v : List Char) : joins (k ++ '='::v) = joins v := by
  rw [joins_append k (List.cons_ne_nil _ _)]
  cases v with
  | nil => rfl
  | cons c t => simp [joins]

theorem joins_held (k w : List Char) : joins (k ++ '='::(w ++ [' '])) = false := by
  rw [joins_entry,joins_append w (List.cons_ne_nil _ _)]
  rfl

end Chars

section Joining

/-- The keys that are left when every value that joins the line after it swallows that line;
`joined` says whether the line before has done so. -/
def kept (joined : Bool) : List (List Char × List Char) → List (List Char)
  | [] => []
  | e::rest => if joined then kept (joins e.2) rest else e.1::kept (joins e.2) rest

variable {joined : Bool} {es : List (List Char × List Char)}

theorem kept_sublist : (kept joined es).Sublist (es.map Prod.fst) := by
  induction es generalizing joined with
  | nil => exact List.Sublist.refl _
  | cons e rest ih =>
    cases joined with
    | true => exact List.Sublist.cons _ ih
    | false => exact List.Sublist.cons_cons _ ih

theorem kept_joined_length (e : List Char × List Char) (rest : List (List Char × List Char)) :
    (kept true (e::rest)).length < (e::rest).length := by
  have h := (@kept_sublist (joins e.2) rest).length_le
  simp only [kept,if_true,List.length_map,List.length_cons] at h ⊢
  omega

/-- Nothing is swallowed exactly when no value but the last joins the line after it. -/
theorem kept_eq_iff :
    kept false es = es.map Prod.fst ↔ OnlyAtEnd (fun e => joins e.2) True es := by
  induction es with
  | nil => simp [kept]
  | cons e rest ih =>
    rw [OnlyAtEnd,← ih]
    cases hj : joins e.2 with
    | false => simp [kept,hj]
    | true =>
      cases rest with
      | nil => simp [kept]
      | cons e' rest =>
        have hlt := kept_joined_length e' rest
        constructor
        · intro h
          have htail : kept true (e'::rest) = (e'::rest).map Prod.fst := by
            simpa [kept,hj] using h
          rw [htail,List.length_map] at hlt
          omega
        · rintro ⟨h,-⟩
          exact absurd (h rfl).1 (List.cons_ne_nil _ _)

end Joining

section Reading
variable {s : Section} {ss : List Section} {es : List (List Char × List Char)}

def pairs (s : Option (List Char)) (ls : List (List Char)) : List (List Char × List Char) :=
  (assignments s ls).map fun a => (a.1,a.2.1)

theorem pairs_skip {l : List Char} (h : item l = .skip) (s : Option (List Char))
    (ls : List (List Char)) : pairs s (l::ls) = pairs s ls := by simp [pairs,assignments,h]

theorem pairs_header {l name : List Char} (h : item l = .header name)
    (s : Option (List Char)) (ls : List (List Char)) :
    pairs s (l::ls) = pairs (some name) ls := by simp [pairs,assignments,h]

theorem pairs_entry {k : List Char} (hk : Plain k) (w name : List Char)
    (ls : List (List Char)) :
    pairs (some name) ((k ++ '='::w)::ls) = (name,k)::pairs (some name) ls := by
  obtain ⟨v,hv⟩ := item_entry hk w
  simp [pairs,assignments,hv]

theorem logical_comment {l : List Char} (h : isComment l = true) (held : List Char)
    (ls : List (List Char)) : logical held (l::ls) = logical held ls := by simp [logical,h]

theorem logical_line {held l : List Char} (hc : isComment l = false)
    (hj : joins (held ++ l) = false) (ls : List (List Char)) :
    logical held (l::ls) = (held ++ l)::logical [] ls := by simp [logical,hc,hj]

theorem logical_join {held l : List Char} (hc : isComment l = false)
    (hj : joins (held ++ l) = true) (ls : List (List Char)) :
    logical held (l::ls) = logical ((held ++ l).dropLast ++ [' ']) ls := by
  simp [logical,hc,hj]

/-- What stays held of an entry that joins is the entry still, with another value. -/
theorem held_entry (k : List Char) {w : List Char} (h : joins (k ++ '='::w) = true) :
    ∃ w', (k ++ '='::w).dropLast ++ [' '] = k ++ '='::(w' ++ [' ']) := by
  cases w with
  | nil => simp [joins] at h
  | cons c t => exact ⟨(c::t).dropLast,by simp⟩

/-- The entries of a section read as the keys that are kept, from an empty start or with
an earlier entry held, and the empty line after them ends what is held. -/
theorem pairs_entries (hkey : ∀ e ∈ es, Plain e.1) (name : List Char)
    (rest : List (List Char)) :
    pairs (some name) (logical [] (es.map entryLine ++ []::rest)) =
        (kept false es).map (name,·) ++ pairs (some name) (logical [] rest) ∧
      ∀ k w, Plain k →
        pairs (some name) (logical (k ++ '='::(w ++ [' '])) (es.map entryLine ++ []::rest)) =
          (name,k)::(kept true es).map (name,·) ++ pairs (some name) (logical [] rest) := by
  induction es with
  | nil =>
    constructor
    · rw [List.map_nil,List.nil_append,logical_line (by rfl) (by rfl),pairs_skip (by rfl)]
      rfl
    · intro k w hk
      have hj : joins (k ++ '='::(w ++ [' ']) ++ []) = false := by
        rw [List.append_nil]
        exact joins_held k w
      rw [List.map_nil,List.nil_append,logical_line (by rfl) hj,List.append_nil,pairs_entry hk]
      rfl
  | cons e es ih =>
    have hk := hkey e List.mem_cons_self
    obtain ⟨hfree,hheld⟩ := ih fun x hx => hkey x (List.mem_cons_of_mem _ hx)
    have hc : isComment (entryLine e) = false := not_comment_of_plain hk _
    have hje : joins (entryLine e) = joins e.2 := joins_entry e.1 e.2
    have hne : entryLine e ≠ [] := by simp [entryLine]
    rw [List.map_cons,List.cons_append]
    cases hj : joins e.2 with
    | false =>
      rw [hj] at hje
      constructor
      · rw [logical_line hc hje,List.nil_append,entryLine,pairs_entry hk,hfree]
        simp [kept,hj]
      · intro k w hk'
        rw [logical_line hc (by rw [joins_append _ hne,hje]),List.append_assoc,List.cons_append,
          pairs_entry hk',hfree]
        simp [kept,hj]
    | true =>
      rw [hj] at hje
      constructor
      · obtain ⟨w',hw'⟩ := held_entry e.1 (hje : joins (e.1 ++ '='::e.2) = true)
        rw [logical_join hc hje,List.nil_append,entryLine,hw',hheld e.1 w' hk]
        simp [kept,hj]
      · intro k w hk'
        have hall : joins (k ++ '='::(w ++ [' '] ++ entryLine e)) = true := by
          rw [joins_entry,joins_append _ hne,hje]
        obtain ⟨w',hw'⟩ := held_entry k hall
        rw [logical_join hc (by rw [joins_append _ hne,hje]),List.append_assoc,List.cons_append,
          hw',hheld k w' hk']
        simp [kept,hj]

theorem physical_line {l : List Char} (h : Unbroken l) (t : List Char) :
    physical (l ++ '\n'::t) = l::physical t :=
  List.splitOnP_append_cons_of_forall_mem h '\n' (by rfl) t

theorem physical_lines {ls : List (List Char)} (h : ∀ l ∈ ls, Unbroken l) (t : List Char) :
    physical (ls.flatMap (· ++ ['\n']) ++ t) = ls ++ physical t := by
  induction ls with
  | nil => rfl
  | cons l rest ih =>
    have hrest := ih fun x hx => h x (List.mem_cons_of_mem _ hx)
    rw [List.flatMap_cons,List.append_assoc,List.append_assoc,List.singleton_append,
      physical_line (h l List.mem_cons_self),hrest,List.cons_append]

theorem Unbroken.append {a b : List Char} (ha : Unbroken a) (hb : Unbroken b) :
    Unbroken (a ++ b) := by
  intro c hc
  rcases List.mem_append.mp hc with h | h
  · exact ha c h
  · exact hb c h

theorem Section.WellFormed.unbroken_lines (h : s.WellFormed) : ∀ l ∈ s.lines, Unbroken l := by
  intro l hl
  rcases List.mem_cons.mp hl with rfl | hl
  · exact .append (a := ['[']) (by decide) (h.plain_name.unbroken.append (by decide))
  · obtain ⟨e,he,rfl⟩ := List.mem_map.mp hl
    have hline := h.single_lines e he
    exact hline.1.unbroken.append (.append (a := ['=']) (by decide) hline.2)

/-- The physical lines of a file of sections: an empty line ends each of them. -/
theorem physical_sections (h : ∀ s ∈ ss, s.WellFormed) (hne : ss ≠ []) :
    physical (List.intercalate ['\n'] (ss.map Section.text)) =
      ss.flatMap fun s => s.lines ++ [[]] := by
  induction ss with
  | nil => exact absurd rfl hne
  | cons s rest ih =>
    have hs := (h s List.mem_cons_self).unbroken_lines
    cases rest with
    | nil =>
      have hp := physical_lines hs []
      simpa [Section.text,List.intercalate,physical] using hp
    | cons s' rest =>
      have hrest := ih (fun x hx => h x (List.mem_cons_of_mem _ hx)) (List.cons_ne_nil _ _)
      have hsep : List.intercalate ['\n'] ((s::s'::rest).map Section.text) =
          s.text ++ '\n'::List.intercalate ['\n'] ((s'::rest).map Section.text) := by
        simp [List.intercalate]
      rw [hsep,Section.text,physical_lines hs,← List.nil_append ('\n'::_),
        physical_line (by decide),hrest]
      simp

/-- One section reads as the keys it keeps. -/
theorem pairs_section (h : s.WellFormed) (before : Option (List Char))
    (rest : List (List Char)) :
    pairs before (logical [] (s.lines ++ []::rest)) =
      (kept false s.entries).map (s.name,·) ++ pairs (some s.name) (logical [] rest) := by
  have hc : isComment ('['::s.name ++ [']']) = false := by rfl
  have hj : joins ([] ++ ('['::s.name ++ [']'])) = false :=
    joins_append ('['::s.name) (List.cons_ne_nil _ _)
  rw [Section.lines,List.cons_append,logical_line hc hj,List.nil_append,
    pairs_header (item_header s.name)]
  exact (pairs_entries (fun e he => (h.single_lines e he).1) s.name rest).1

theorem keys_fileText {comment : List Char} (hcomment : isComment comment = true)
    (hunbroken : Unbroken comment) (h : ∀ s ∈ ss, s.WellFormed) (hne : ss ≠ []) :
    keys (fileText comment ss) =
      ss.flatMap fun s => (kept false s.entries).map (s.name,·) := by
  have hread : ∀ before, pairs before (logical [] (ss.flatMap fun s => s.lines ++ [[]])) =
      ss.flatMap fun s => (kept false s.entries).map (s.name,·) := by
    clear hne
    induction ss with
    | nil =>
      intro before
      exact pairs_skip rfl before []
    | cons s rest ih =>
      intro before
      have hs := h s List.mem_cons_self
      rw [List.flatMap_cons,List.append_assoc,List.singleton_append,pairs_section hs,
        ih (fun x hx => h x (List.mem_cons_of_mem _ hx)),List.flatMap_cons]
  rw [keys,fileText,physical_line hunbroken,physical_sections h hne,logical_comment hcomment]
  exact hread none

/-- Parts of two lists that make up the whole are the whole of each. -/
theorem append_eq_iff_of_sublist {α : Type} {a a' b b' : List α} (ha : a.Sublist a')
    (hb : b.Sublist b') : a ++ b = a' ++ b' ↔ a = a' ∧ b = b' := by
  constructor
  · intro h
    have hlen := congrArg List.length h
    have hla := ha.length_le
    have hlb := hb.length_le
    simp only [List.length_append] at hlen
    exact ⟨ha.eq_of_length (by omega),hb.eq_of_length (by omega)⟩
  · rintro ⟨rfl,rfl⟩
    rfl

theorem kept_keys_sublist (s : Section) :
    ((kept false s.entries).map (s.name,·)).Sublist s.keys := by
  have h := (@kept_sublist false s.entries).map (s.name,·)
  rwa [List.map_map] at h

theorem kept_keys_eq_iff (s : Section) :
    (kept false s.entries).map (s.name,·) = s.keys ↔ s.Unjoined := by
  have hkeys : s.keys = (s.entries.map Prod.fst).map (s.name,·) := (List.map_map ..).symm
  rw [hkeys,(List.map_injective_iff.mpr fun _ _ h => (Prod.mk.inj h).2).eq_iff,kept_eq_iff]
  rfl

theorem flatMap_sublist (ss : List Section) :
    (ss.flatMap fun s => (kept false s.entries).map (s.name,·)).Sublist
      (ss.flatMap Section.keys) := by
  induction ss with
  | nil => exact List.Sublist.refl _
  | cons s rest ih => exact (kept_keys_sublist s).append ih

/-- A file of sections reads back with the keys of its entries exactly when no value but
the last of a section joins the line after it. -/
theorem keys_fileText_iff {comment : List Char} (hcomment : isComment comment = true)
    (hunbroken : Unbroken comment) (h : ∀ s ∈ ss, s.WellFormed) (hne : ss ≠ []) :
    keys (fileText comment ss) = ss.flatMap Section.keys ↔ ∀ s ∈ ss, s.Unjoined := by
  rw [keys_fileText hcomment hunbroken h hne]
  clear hne h
  induction ss with
  | nil => simp
  | cons s rest ih =>
    rw [List.flatMap_cons,List.flatMap_cons,List.forall_mem_cons,← ih,← kept_keys_eq_iff]
    exact append_eq_iff_of_sublist (kept_keys_sublist s) (flatMap_sublist rest)

end Reading

end Kuadrat.Systemd
