import Mathlib.Data.List.Basic
import Mathlib.Data.List.TakeDrop

/-!
# Markup and its text

Markup is a list of tags and texts, written with every text escaped, and read again by a
reader of the part of HTML that such markup is written in: whatever stands in a text or in
the value of an attribute, the reader finds the same tags with the same texts between them.
-/
namespace Kuadrat.Html

/-- A start tag; an attribute may have no value. -/
structure Tag where
  name : List Char
  attrs : List (List Char × Option (List Char)) := []
  deriving DecidableEq

inductive Token
  | text (t : List Char)
  | start (tag : Tag)
  | stop (name : List Char)
  | doctype
  deriving DecidableEq

abbrev Markup := List Token

def escapeChar (c : Char) : List Char :=
  if c = '&' then "&amp;".toList
  else if c = '<' then "&lt;".toList
  else if c = '>' then "&gt;".toList
  else if c = '"' then "&quot;".toList
  else [c]

def escape (t : List Char) : List Char := t.flatMap escapeChar

def doctypeText : List Char := "DOCTYPE html".toList

def writeAttr : List Char × Option (List Char) → List Char
  | (name,none) => ' '::name
  | (name,some value) => ' '::(name ++ '=':: '"'::(escape value ++ ['"']))

def write : Token → List Char
  | .text t => escape t
  | .start tag => '<'::(tag.name ++ (tag.attrs.flatMap writeAttr ++ ['>']))
  | .stop name => '<':: '/'::(name ++ ['>'])
  | .doctype => '<':: '!'::(doctypeText ++ ['>'])

def render (m : Markup) : List Char := m.flatMap write

/-- Where the reader stands: in a text, in a character reference inside a text or a value, or
in one of the places of a tag. -/
inductive State
  | data (t : List Char)
  | dataRef (t name : List Char)
  | tagOpen (t : List Char)
  | stopName (name : List Char)
  | startName (name : List Char)
  | afterAttr (tag : Tag)
  | attrName (tag : Tag) (name : List Char)
  | beforeValue (tag : Tag) (name : List Char)
  | value (tag : Tag) (name v : List Char)
  | valueRef (tag : Tag) (name v ref : List Char)
  | declaration (d : List Char)
  deriving DecidableEq

/-- What stands in the names of tags and attributes. -/
def isNameChar (c : Char) : Bool := c.isAlphanum || c == '-'

/-- The character that a reference names. -/
def reference (name : List Char) : Option Char :=
  [("amp".toList,'&'),("lt".toList,'<'),("gt".toList,'>'),("quot".toList,'"')].lookup name

/-- A text that has ended, if there is any. -/
def flush (t : List Char) : List Token := if t = [] then [] else [.text t]

def Tag.add (tag : Tag) (name : List Char) (v : Option (List Char)) : Tag :=
  { tag with attrs := tag.attrs ++ [(name,v)] }

/-- The reader takes one character; it refuses what markup is not written with. -/
def step : State → Char → Option (State × List Token)
  | .data t, c =>
    if c = '<' then some (.tagOpen t,[])
    else if c = '&' then some (.dataRef t [],[])
    else some (.data (t ++ [c]),[])
  | .dataRef t name, c =>
    if c = ';' then (reference name).map fun r => (.data (t ++ [r]),[])
    else some (.dataRef t (name ++ [c]),[])
  | .tagOpen t, c =>
    if c = '/' then some (.stopName [],flush t)
    else if c = '!' then some (.declaration [],flush t)
    else if isNameChar c then some (.startName [c],flush t)
    else none
  | .stopName name, c =>
    if c = '>' then some (.data [],[.stop name])
    else if isNameChar c then some (.stopName (name ++ [c]),[])
    else none
  | .startName name, c =>
    if c = '>' then some (.data [],[.start { name := name }])
    else if c = ' ' then some (.attrName { name := name } [],[])
    else if isNameChar c then some (.startName (name ++ [c]),[])
    else none
  | .afterAttr tag, c =>
    if c = '>' then some (.data [],[.start tag])
    else if c = ' ' then some (.attrName tag [],[])
    else none
  | .attrName tag name, c =>
    if c = '=' then some (.beforeValue tag name,[])
    else if c = '>' then some (.data [],[.start (tag.add name none)])
    else if c = ' ' then some (.attrName (tag.add name none) [],[])
    else if isNameChar c then some (.attrName tag (name ++ [c]),[])
    else none
  | .beforeValue tag name, c => if c = '"' then some (.value tag name [],[]) else none
  | .value tag name v, c =>
    if c = '"' then some (.afterAttr (tag.add name (some v)),[])
    else if c = '&' then some (.valueRef tag name v [],[])
    else some (.value tag name (v ++ [c]),[])
  | .valueRef tag name v ref, c =>
    if c = ';' then (reference ref).map fun r => (.value tag name (v ++ [r]),[])
    else some (.valueRef tag name v (ref ++ [c]),[])
  | .declaration d, c =>
    if c = '>' then if d = doctypeText then some (.data [],[.doctype]) else none
    else some (.declaration (d ++ [c]),[])

/-- The tokens that a text is read as, from a state on. -/
def readFrom : State → List Char → Option (List Token)
  | .data t, [] => some (flush t)
  | _, [] => none
  | q, c::cs => (step q c).bind fun next => (readFrom next.1 cs).map (next.2 ++ ·)

/-- The tokens of a text. Its characters are taken as they stand: what HTML does to the input
stream before (`CR` and `CRLF` read as `LF`, `NUL` replaced in a value) is left out. -/
def read (t : List Char) : Option (List Token) := readFrom (.data []) t

/-- Markup with the texts that stand side by side put together; `t` stands before it. -/
def merge (t : List Char) : Markup → List Token
  | [] => flush t
  | .text u::m => merge (t ++ u) m
  | k::m => flush t ++ k::merge [] m

/-- From `q`, the text `u` is read as `out`, whatever follows it, and the reader is in `q'`. -/
def Reads (q : State) (u : List Char) (q' : State) (out : List Token) : Prop :=
  ∀ rest, readFrom q (u ++ rest) = (readFrom q' rest).map (out ++ ·)

section Reads
variable {q q' q'' : State} {u v : List Char} {out out' : List Token}

theorem reads_nil (q : State) : Reads q [] q [] := by
  intro rest
  cases h : readFrom q rest <;> simp [h]

theorem Reads.append (h : Reads q u q' out) (h' : Reads q' v q'' out') :
    Reads q (u ++ v) q'' (out ++ out') := by
  intro rest
  rw [List.append_assoc,h,h']
  cases readFrom q'' rest <;> simp

theorem reads_step {c : Char} (h : step q c = some (q',out)) : Reads q [c] q' out := by
  intro rest
  have hread : readFrom q (c::rest) =
      (step q c).bind fun next => (readFrom next.1 rest).map (next.2 ++ ·) := by
    cases q <;> rfl
  rw [List.singleton_append,hread,h]
  rfl

theorem Reads.cons {c : Char} (h : step q c = some (q',[])) (h' : Reads q' u q'' out) :
    Reads q (c::u) q'' out := by
  have hc := (reads_step h).append h'
  simpa using hc

end Reads

section Escapes
variable {t ref name v : List Char} {tag : Tag} {c r : Char}

theorem reads_dataRef (h : ';' ∉ ref) (name : List Char) :
    Reads (.dataRef t name) ref (.dataRef t (name ++ ref)) [] := by
  induction ref generalizing name with
  | nil =>
    rw [List.append_nil]
    exact reads_nil _
  | cons c ref ih =>
    obtain ⟨hc,href⟩ := not_or.mp (List.mem_cons.not.mp h)
    have hrest := ih href (name ++ [c])
    rw [List.append_assoc,List.singleton_append] at hrest
    exact .cons (by rw [step,if_neg (Ne.symm hc)]) hrest

theorem reads_valueRef (h : ';' ∉ ref) (read : List Char) :
    Reads (.valueRef tag name v read) ref (.valueRef tag name v (read ++ ref)) [] := by
  induction ref generalizing read with
  | nil =>
    rw [List.append_nil]
    exact reads_nil _
  | cons c ref ih =>
    obtain ⟨hc,href⟩ := not_or.mp (List.mem_cons.not.mp h)
    have hrest := ih href (read ++ [c])
    rw [List.append_assoc,List.singleton_append] at hrest
    exact .cons (by rw [step,if_neg (Ne.symm hc)]) hrest

/-- A reference is read as its character. -/
theorem reads_reference (ref : List Char) (hsemi : ';' ∉ ref) (href : reference ref = some r) :
    Reads (.data t) ('&'::(ref ++ [';'])) (.data (t ++ [r])) [] ∧
    Reads (.value tag name v) ('&'::(ref ++ [';'])) (.value tag name (v ++ [r])) [] := by
  constructor
  · have hend : step (.dataRef t ([] ++ ref)) ';' = some (.data (t ++ [r]),[]) := by
      rw [List.nil_append,step,if_pos rfl,href]
      rfl
    exact .cons (by rfl) ((reads_dataRef hsemi []).append (reads_step hend))
  · have hend : step (.valueRef tag name v ([] ++ ref)) ';' =
        some (.value tag name (v ++ [r]),[]) := by
      rw [List.nil_append,step,if_pos rfl,href]
      rfl
    exact .cons (by rfl) ((reads_valueRef hsemi []).append (reads_step hend))

/-- A character is read back as it is, in a text and in a value. -/
theorem reads_escapeChar (c : Char) (t : List Char) (tag : Tag) (name v : List Char) :
    Reads (.data t) (escapeChar c) (.data (t ++ [c])) [] ∧
    Reads (.value tag name v) (escapeChar c) (.value tag name (v ++ [c])) [] := by
  by_cases hamp : c = '&'
  · subst hamp
    exact reads_reference ['a','m','p'] (by decide) rfl
  by_cases hlt : c = '<'
  · subst hlt
    exact reads_reference ['l','t'] (by decide) rfl
  by_cases hgt : c = '>'
  · subst hgt
    exact reads_reference ['g','t'] (by decide) rfl
  by_cases hquot : c = '"'
  · subst hquot
    exact reads_reference ['q','u','o','t'] (by decide) rfl
  rw [escapeChar,if_neg hamp,if_neg hlt,if_neg hgt,if_neg hquot]
  constructor
  · exact reads_step (by rw [step,if_neg hlt,if_neg hamp])
  · exact reads_step (by rw [step,if_neg hquot,if_neg hamp])

theorem reads_escape (u t : List Char) : Reads (.data t) (escape u) (.data (t ++ u)) [] := by
  induction u generalizing t with
  | nil =>
    rw [List.append_nil]
    exact reads_nil _
  | cons c u ih =>
    have hrest := (reads_escapeChar c t {name := []} [] []).1.append (ih (t ++ [c]))
    rw [List.append_assoc,List.singleton_append] at hrest
    exact hrest

theorem reads_escape_value (u : List Char) (tag : Tag) (name v : List Char) :
    Reads (.value tag name v) (escape u) (.value tag name (v ++ u)) [] := by
  induction u generalizing v with
  | nil =>
    rw [List.append_nil]
    exact reads_nil _
  | cons c u ih =>
    have hrest := (reads_escapeChar c [] tag name v).2.append (ih (v ++ [c]))
    rw [List.append_assoc,List.singleton_append] at hrest
    exact hrest

end Escapes

/-- A name that can be written. -/
def IsName (name : List Char) : Prop := name ≠ [] ∧ name.all isNameChar = true

instance (name : List Char) : Decidable (IsName name) := inferInstanceAs (Decidable (_ ∧ _))

/-- The names of a token can be written. -/
def Token.Named : Token → Prop
  | text _ | doctype => True
  | start tag => IsName tag.name ∧ ∀ a ∈ tag.attrs, IsName a.1
  | stop name => IsName name

section Names
variable {name : List Char} {c : Char} {tag : Tag}

theorem isNameChar_ne (h : isNameChar c = true) : c ≠ '>' ∧ c ≠ ' ' ∧ c ≠ '=' ∧ c ≠ '/' ∧ c ≠ '!' := by
  refine ⟨?_,?_,?_,?_,?_⟩
  all_goals
    rintro rfl
    exact absurd h (by decide)

/-- A name is read, character by character, in each of the places where one stands. -/
theorem reads_name (tag : Tag) (h : name.all isNameChar = true) (before : List Char) :
    Reads (.stopName before) name (.stopName (before ++ name)) [] ∧
    Reads (.startName before) name (.startName (before ++ name)) [] ∧
    Reads (.attrName tag before) name (.attrName tag (before ++ name)) [] := by
  induction name generalizing before with
  | nil =>
    rw [List.append_nil]
    exact ⟨reads_nil _,reads_nil _,reads_nil _⟩
  | cons c name ih =>
    rw [List.all_cons,Bool.and_eq_true] at h
    obtain ⟨hc,hname⟩ := h
    obtain ⟨hgt,hspace,heq,-,-⟩ := isNameChar_ne hc
    obtain ⟨hstop,hstart,hattr⟩ := ih hname (before ++ [c])
    rw [List.append_assoc,List.singleton_append] at hstop hstart hattr
    refine ⟨.cons ?_ hstop,.cons ?_ hstart,.cons ?_ hattr⟩
    · rw [step,if_neg hgt,if_pos hc]
    · rw [step,if_neg hgt,if_neg hspace,if_pos hc]
    · rw [step,if_neg heq,if_neg hgt,if_neg hspace,if_pos hc]

end Names

section Tags
variable {q : State} {tag : Tag} {t name : List Char}

/-- The reader can go on to another attribute of the tag, or end it. -/
def Ready (q : State) (tag : Tag) : Prop :=
  step q ' ' = some (.attrName tag [],[]) ∧ step q '>' = some (.data [],[.start tag])

theorem reads_attr {a : List Char × Option (List Char)} (h : Ready q tag) (ha : IsName a.1) :
    ∃ q', Reads q (writeAttr a) q' [] ∧ Ready q' (tag.add a.1 a.2) := by
  obtain ⟨name,value⟩ := a
  have hname : Reads (.attrName tag []) name (.attrName tag name) [] := (reads_name tag ha.2 []).2.2
  cases value with
  | none => exact ⟨_,.cons h.1 hname,rfl,rfl⟩
  | some v =>
    have hvalue : Reads (.attrName tag name) ('=':: '"'::(escape v ++ ['"']))
        (.afterAttr (tag.add name (some v))) [] := by
      refine .cons rfl (.cons rfl ?_)
      have hquote : step (.value tag name ([] ++ v)) '"' =
          some (.afterAttr (tag.add name (some v)),[]) := rfl
      exact (reads_escape_value v tag name []).append (reads_step hquote)
    exact ⟨_,.cons h.1 (hname.append hvalue),rfl,rfl⟩

theorem reads_attrs {attrs : List (List Char × Option (List Char))} (h : Ready q tag)
    (hattrs : ∀ a ∈ attrs, IsName a.1) :
    ∃ q', Reads q (attrs.flatMap writeAttr) q' [] ∧
      Ready q' { tag with attrs := tag.attrs ++ attrs } := by
  induction attrs generalizing q tag with
  | nil =>
    rw [List.append_nil]
    exact ⟨q,reads_nil q,h⟩
  | cons a attrs ih =>
    obtain ⟨ha,hattrs⟩ := List.forall_mem_cons.mp hattrs
    obtain ⟨q₁,hread,h₁⟩ := reads_attr h ha
    obtain ⟨q₂,hread₂,h₂⟩ := ih h₁ hattrs
    refine ⟨q₂,?_,?_⟩
    · exact hread.append hread₂
    · have hadd : { tag.add a.1 a.2 with attrs := (tag.add a.1 a.2).attrs ++ attrs } =
          { tag with attrs := tag.attrs ++ a::attrs } := by
        simp [Tag.add]
      rwa [hadd] at h₂

/-- The first character of a name takes the reader into the tag. -/
theorem reads_startName (h : IsName name) (t : List Char) :
    Reads (.data t) ('<'::name) (.startName name) (flush t) := by
  obtain ⟨hne,hall⟩ := h
  obtain ⟨c,cs,rfl⟩ := List.exists_cons_of_ne_nil hne
  rw [List.all_cons,Bool.and_eq_true] at hall
  obtain ⟨-,-,-,hslash,hbang⟩ := isNameChar_ne hall.1
  have hopen : step (.tagOpen t) c = some (.startName [c],flush t) := by
    rw [step,if_neg hslash,if_neg hbang,if_pos hall.1]
  have hrest := (reads_step hopen).append (reads_name ⟨[],[]⟩ hall.2 [c]).2.1
  rw [List.append_nil] at hrest
  exact .cons rfl hrest

theorem reads_declaration {u : List Char} (h : '>' ∉ u) (d : List Char) :
    Reads (.declaration d) u (.declaration (d ++ u)) [] := by
  induction u generalizing d with
  | nil =>
    rw [List.append_nil]
    exact reads_nil _
  | cons c u ih =>
    obtain ⟨hc,hu⟩ := not_or.mp (List.mem_cons.not.mp h)
    have hrest := ih hu (d ++ [c])
    rw [List.append_assoc,List.singleton_append] at hrest
    exact .cons (by rw [step,if_neg (Ne.symm hc)]) hrest

/-- Every token with good names is read back; the text before it ends. -/
theorem reads_write (k : Token) (hk : k.Named) (htext : ∀ u, k ≠ .text u) (t : List Char) :
    Reads (.data t) (write k) (.data []) (flush t ++ [k]) := by
  cases k with
  | text u => exact absurd rfl (htext u)
  | start tag =>
    obtain ⟨hname,hattrs⟩ := hk
    have hready : Ready (.startName tag.name) { name := tag.name } := ⟨rfl,rfl⟩
    obtain ⟨q,hread,-,hend⟩ := reads_attrs hready hattrs
    have hall := (reads_startName hname t).append (hread.append (reads_step hend))
    exact hall
  | stop name =>
    have hname := (reads_name ⟨[],[]⟩ hk.2 []).1
    have hend : step (.stopName ([] ++ name)) '>' = some (.data [],[.stop name]) := rfl
    have hslash : step (.tagOpen t) '/' = some (.stopName [],flush t) := rfl
    exact .cons rfl ((reads_step hslash).append (hname.append (reads_step hend)))
  | doctype =>
    have hbang : step (.tagOpen t) '!' = some (.declaration [],flush t) := rfl
    have hend : step (.declaration ([] ++ doctypeText)) '>' = some (.data [],[.doctype]) := by
      rw [List.nil_append,step,if_pos rfl,if_pos rfl]
    have hword := (reads_declaration (by decide : '>' ∉ doctypeText) []).append (reads_step hend)
    exact .cons rfl ((reads_step hbang).append hword)

/-- Markup is read back as it was written. -/
theorem readFrom_render {m : Markup} (h : ∀ k ∈ m, k.Named) (t : List Char) :
    readFrom (.data t) (render m) = some (merge t m) := by
  induction m generalizing t with
  | nil => rfl
  | cons k m ih =>
    obtain ⟨hk,hm⟩ := List.forall_mem_cons.mp h
    have hcons : render (k::m) = write k ++ render m := List.flatMap_cons
    rw [hcons]
    cases k with
    | text u => rw [write,reads_escape u t,ih hm,Option.map_some,List.nil_append,merge]
    | start tag =>
      rw [reads_write (.start tag) hk (by simp) t,ih hm,Option.map_some,List.append_assoc]
      rfl
    | stop name =>
      rw [reads_write (.stop name) hk (by simp) t,ih hm,Option.map_some,List.append_assoc]
      rfl
    | doctype =>
      rw [reads_write .doctype hk (by simp) t,ih hm,Option.map_some,List.append_assoc]
      rfl

theorem read_render {m : Markup} (h : ∀ k ∈ m, k.Named) : read (render m) = some (merge [] m) :=
  readFrom_render h []

end Tags

/-- The elements and attributes that markup is written with. -/
structure Vocabulary where
  Element : Type
  Attr : Type
  element : Element → List Char
  attr : Attr → List Char
  isName_element : ∀ e, IsName (element e)
  isName_attr : ∀ a, IsName (attr a)

inductive Node (V : Vocabulary)
  | text (t : List Char)
  | doctype
  | element (e : V.Element) (attrs : List (V.Attr × Option (List Char))) (children : List (Node V))

/-- The elements that have no content and no stop tag. -/
def voids : List (List Char) :=
  ["area","base","br","col","embed","hr","img","input","link","meta","source","track","wbr"].map
    String.toList

section Nodes
variable {V : Vocabulary}

def startTag (e : V.Element) (attrs : List (V.Attr × Option (List Char))) : Tag :=
  { name := V.element e,attrs := attrs.map fun a => (V.attr a.1,a.2) }

mutual
def Node.tokens : Node V → Markup
  | .text t => [.text t]
  | .doctype => [.doctype]
  | .element e attrs children =>
    .start (startTag e attrs)::
      (if V.element e ∈ voids then [] else tokens children ++ [.stop (V.element e)])

def tokens : List (Node V) → Markup
  | [] => []
  | n::ns => n.tokens ++ tokens ns
end

/-- The elements that are open after some tokens; nothing when a stop tag stands wrong. -/
def nest : List (List Char) → List Token → Option (List (List Char))
  | opened, [] => some opened
  | opened, .text _::m => nest opened m
  | opened, .doctype::m => nest opened m
  | opened, .start tag::m =>
    if tag.name ∈ voids then nest opened m else nest (tag.name::opened) m
  | [], .stop _::_ => none
  | e::opened, .stop name::m => if name = e then nest opened m else none

mutual
theorem named_node : (n : Node V) → ∀ k ∈ n.tokens, k.Named
  | .text _ => by simp [Node.tokens,Token.Named]
  | .doctype => by simp [Node.tokens,Token.Named]
  | .element e attrs children => by
    have hstart : (Token.start (startTag e attrs)).Named := by
      refine ⟨V.isName_element e,?_⟩
      intro a ha
      obtain ⟨b,-,rfl⟩ := List.mem_map.mp ha
      exact V.isName_attr b.1
    intro k hk
    rw [Node.tokens] at hk
    rcases List.mem_cons.mp hk with rfl | hk
    · exact hstart
    split at hk
    · cases hk
    rcases List.mem_append.mp hk with hk | hk
    · exact named_tokens children k hk
    · obtain rfl := List.mem_singleton.mp hk
      exact V.isName_element e

/-- What is written of some nodes has good names. -/
theorem named_tokens : (ns : List (Node V)) → ∀ k ∈ tokens ns, k.Named
  | [] => by simp [tokens]
  | n::ns => by
    intro k hk
    rw [tokens] at hk
    rcases List.mem_append.mp hk with hk | hk
    · exact named_node n k hk
    · exact named_tokens ns k hk
end

mutual
theorem nest_node : (n : Node V) → ∀ opened m, nest opened (n.tokens ++ m) = nest opened m
  | .text _ => fun _ _ => rfl
  | .doctype => fun _ _ => rfl
  | .element e attrs children => by
    intro opened m
    rw [Node.tokens,List.cons_append,nest]
    have hname : (startTag e attrs).name = V.element e := rfl
    rw [hname]
    by_cases hvoid : V.element e ∈ voids
    · rw [if_pos hvoid,if_pos hvoid,List.nil_append]
    · rw [if_neg hvoid,if_neg hvoid,List.append_assoc,nest_tokens children,List.singleton_append,
        nest,if_pos rfl]

/-- What some nodes open they also close. -/
theorem nest_tokens : (ns : List (Node V)) → ∀ opened m,
    nest opened (tokens ns ++ m) = nest opened m
  | [] => fun _ _ => rfl
  | n::ns => by
    intro opened m
    rw [tokens,List.append_assoc,nest_node n,nest_tokens ns]
end

/-- Nodes are read back as they were written. -/
theorem read_tokens (ns : List (Node V)) : read (render (tokens ns)) = some (merge [] (tokens ns)) :=
  read_render (named_tokens ns)

end Nodes

section Shape

/-- A token without its text and without the values of its attributes. -/
def Token.outline : Token → Option Token
  | text _ => none
  | start tag => some (.start { tag with attrs := tag.attrs.map fun a => (a.1,a.2.map fun _ => []) })
  | stop name => some (.stop name)
  | doctype => some .doctype

/-- The tags of some tokens. -/
def shape (m : List Token) : List Token := m.filterMap Token.outline

@[simp] theorem shape_nil : shape [] = [] := rfl

@[simp] theorem shape_append (m m' : List Token) : shape (m ++ m') = shape m ++ shape m' :=
  List.filterMap_append

theorem shape_flush (t : List Char) : shape (flush t) = [] := by
  rw [flush]
  split <;> rfl

/-- Texts that are put together change no tag. -/
theorem shape_merge (m : List Token) (t : List Char) : shape (merge t m) = shape m := by
  induction m generalizing t with
  | nil => exact shape_flush t
  | cons k m ih =>
    cases k with
    | text u => exact ih (t ++ u)
    | start _ | stop _ | doctype =>
      rw [merge,shape_append,shape_flush,List.nil_append,shape,List.filterMap_cons]
      · exact congrArg _ (ih [])
      · rintro u ⟨⟩

theorem nest_flush (opened : List (List Char)) (t : List Char) (m : List Token) :
    nest opened (flush t ++ m) = nest opened m := by
  rw [flush]
  split <;> rfl

theorem nest_merge (m : List Token) (opened : List (List Char)) (t : List Char) :
    nest opened (merge t m) = nest opened m := by
  induction m generalizing opened t with
  | nil =>
    have hflush := nest_flush opened t []
    rwa [List.append_nil] at hflush
  | cons k m ih =>
    cases k with
    | text u => exact ih opened (t ++ u)
    | start tag =>
      rw [merge,nest_flush,nest,nest,ih,ih]
      rintro u ⟨⟩
    | stop name =>
      rw [merge,nest_flush]
      · cases opened with
        | nil => rfl
        | cons e opened => rw [nest,nest,ih]
      · rintro u ⟨⟩
    | doctype =>
      rw [merge,nest_flush,nest,nest,ih]
      rintro u ⟨⟩

end Shape

section Strip
variable {V : Vocabulary}

mutual
/-- A node without its texts and without the values of its attributes. -/
def Node.strip : Node V → Node V
  | .text _ => .text []
  | .doctype => .doctype
  | .element e attrs children =>
    .element e (attrs.map fun a => (a.1,a.2.map fun _ => [])) (strip children)

def strip : List (Node V) → List (Node V)
  | [] => []
  | n::ns => n.strip::strip ns
end

theorem strip_map {α : Type} (l : List α) (f : α → Node V) :
    strip (l.map f) = l.map fun a => (f a).strip := by
  induction l with
  | nil => rfl
  | cons a l ih => rw [List.map_cons,List.map_cons,strip,ih]

mutual
theorem shape_strip_node : (n : Node V) → shape n.strip.tokens = shape n.tokens
  | .text _ => rfl
  | .doctype => rfl
  | .element e attrs children => by
    have hstart : (Token.start (startTag e (attrs.map fun a => (a.1,a.2.map fun _ => [])))).outline =
        (Token.start (startTag e attrs)).outline := by
      simp [Token.outline,startTag,Function.comp_def]
    rw [Node.strip,Node.tokens,Node.tokens,shape,shape,List.filterMap_cons,List.filterMap_cons,hstart]
    by_cases hvoid : V.element e ∈ voids
    · rw [if_pos hvoid,if_pos hvoid]
    · rw [if_neg hvoid,if_neg hvoid]
      have hchildren : shape (tokens (strip children) ++ [.stop (V.element e)]) =
          shape (tokens children ++ [.stop (V.element e)]) := by
        rw [shape_append,shape_append,shape_strip children]
      exact congrArg _ hchildren

/-- The tags of some nodes do not depend on their texts and values. -/
theorem shape_strip : (ns : List (Node V)) → shape (tokens (strip ns)) = shape (tokens ns)
  | [] => rfl
  | n::ns => by
    rw [strip,tokens,tokens,shape_append,shape_append,shape_strip_node n,shape_strip ns]
end

end Strip

section Change
variable {f : Char → Char}

/-- The characters that are never written as they are. -/
def isSpecial (c : Char) : Bool := c == '&' || c == '<' || c == '>' || c == '"'

/-- The characters that tags and references are written with. -/
def isWritten (c : Char) : Bool :=
  isNameChar c || isSpecial c || c == ' ' || c == '/' || c == '=' || c == '!' || c == ';'

/-- A change of characters that leaves alone what markup is written with. -/
def Mild (f : Char → Char) : Prop :=
  ∀ c, f c = c ∨ (isWritten c = false ∧ isSpecial (f c) = false)

def Token.change (f : Char → Char) : Token → Token
  | text t => .text (t.map f)
  | start tag => .start { tag with attrs := tag.attrs.map fun a => (a.1,a.2.map (List.map f)) }
  | stop name => .stop name
  | doctype => .doctype

theorem Mild.fixed {c : Char} (h : Mild f) (hc : isWritten c = true) : f c = c := by
  rcases h c with h | ⟨h,-⟩
  · exact h
  · rw [hc] at h
    cases h

theorem Mild.map_written {t : List Char} (h : Mild f) (ht : t.all isWritten = true) :
    t.map f = t := by
  rw [List.all_eq_true] at ht
  conv_rhs => rw [← List.map_id t]
  exact List.map_congr_left fun c hc => h.fixed (ht c hc)

theorem Mild.map_name {name : List Char} (h : Mild f) (hname : IsName name) :
    name.map f = name := by
  have hall := List.all_eq_true.mp hname.2
  refine h.map_written (List.all_eq_true.mpr ?_)
  intro c hc
  simp [isWritten,hall c hc]

theorem escapeChar_plain {c : Char} (h : isSpecial c = false) : escapeChar c = [c] := by
  simp only [isSpecial,Bool.or_eq_false_iff,beq_eq_false_iff_ne] at h
  obtain ⟨⟨⟨hamp,hlt⟩,hgt⟩,hquot⟩ := h
  rw [escapeChar,if_neg hamp,if_neg hlt,if_neg hgt,if_neg hquot]

theorem escapeChar_written {c : Char} (h : isSpecial c = true) :
    (escapeChar c).all isWritten = true := by
  simp only [isSpecial,Bool.or_eq_true,beq_iff_eq] at h
  rcases h with ((rfl | rfl) | rfl) | rfl <;> decide

theorem Mild.map_escapeChar (h : Mild f) (c : Char) : (escapeChar c).map f = escapeChar (f c) := by
  by_cases hc : isSpecial c = true
  · have hwritten : isWritten c = true := by simp [isWritten,hc]
    rw [h.fixed hwritten,h.map_written (escapeChar_written hc)]
  · rw [Bool.not_eq_true] at hc
    have hfc : isSpecial (f c) = false := by
      rcases h c with heq | ⟨-,hfc⟩
      · rwa [heq]
      · exact hfc
    rw [escapeChar_plain hc,escapeChar_plain hfc]
    rfl

theorem Mild.map_escape (h : Mild f) (t : List Char) : (escape t).map f = escape (t.map f) := by
  rw [escape,escape,List.map_flatMap,List.flatMap_map]
  exact List.flatMap_congr fun c _ => h.map_escapeChar c

theorem Mild.map_writeAttr {a : List Char × Option (List Char)} (h : Mild f) (ha : IsName a.1) :
    (writeAttr a).map f = writeAttr (a.1,a.2.map (List.map f)) := by
  obtain ⟨name,value⟩ := a
  have hspace : f ' ' = ' ' := h.fixed rfl
  have heq : f '=' = '=' := h.fixed rfl
  have hquot : f '"' = '"' := h.fixed rfl
  cases value with
  | none => rw [writeAttr,List.map_cons,hspace,h.map_name ha]; rfl
  | some v =>
    simp only [writeAttr,List.map_cons,List.map_append,List.map_nil,hspace,heq,hquot,
      h.map_name ha,h.map_escape,Option.map_some]

theorem Mild.map_write {k : Token} (h : Mild f) (hk : k.Named) :
    (write k).map f = write (k.change f) := by
  have hlt : f '<' = '<' := h.fixed rfl
  have hgt : f '>' = '>' := h.fixed rfl
  cases k with
  | text t => exact h.map_escape t
  | start tag =>
    have hattrs : (tag.attrs.flatMap writeAttr).map f =
        (tag.attrs.map fun a => (a.1,a.2.map (List.map f))).flatMap writeAttr := by
      rw [List.map_flatMap,List.flatMap_map]
      exact List.flatMap_congr fun a ha => h.map_writeAttr (hk.2 a ha)
    simp only [write,Token.change,List.map_cons,List.map_append,List.map_nil,hlt,hgt,
      h.map_name hk.1,hattrs]
  | stop name =>
    have hslash : f '/' = '/' := h.fixed rfl
    simp only [write,Token.change,List.map_cons,List.map_append,List.map_nil,hlt,hgt,hslash,
      h.map_name hk]
  | doctype => exact h.map_written (by decide)

/-- A mild change of what is written is a change of the texts and values in it. -/
theorem Mild.map_render {m : Markup} (h : Mild f) (hm : ∀ k ∈ m, k.Named) :
    (render m).map f = render (m.map (Token.change f)) := by
  rw [render,render,List.map_flatMap,List.flatMap_map]
  exact List.flatMap_congr fun k hk => h.map_write (hm k hk)

theorem named_change {k : Token} (h : k.Named) : (k.change f).Named := by
  cases k with
  | start tag =>
    refine ⟨h.1,?_⟩
    intro a ha
    obtain ⟨b,hb,rfl⟩ := List.mem_map.mp ha
    exact h.2 b hb
  | text _ | stop _ | doctype => exact h

/-- Nodes are read back, changed where the change touches a text or a value. -/
theorem Mild.read_tokens {V : Vocabulary} (h : Mild f) (ns : List (Node V)) :
    read ((render (tokens ns)).map f) = some (merge [] ((tokens ns).map (Token.change f))) := by
  rw [h.map_render (named_tokens ns)]
  refine read_render ?_
  intro k hk
  obtain ⟨k',hk',rfl⟩ := List.mem_map.mp hk
  exact named_change (named_tokens ns k' hk')

theorem outline_change (k : Token) : (k.change f).outline = k.outline := by
  cases k with
  | start tag =>
    simp [Token.change,Token.outline,Function.comp_def]
  | text _ | stop _ | doctype => rfl

theorem shape_change (m : List Token) : shape (m.map (Token.change f)) = shape m := by
  rw [shape,List.filterMap_map]
  exact List.filterMap_congr fun k _ => outline_change k

theorem nest_change (m : List Token) (opened : List (List Char)) :
    nest opened (m.map (Token.change f)) = nest opened m := by
  induction m generalizing opened with
  | nil => rfl
  | cons k m ih =>
    cases k with
    | text u => exact ih opened
    | start tag => simp only [List.map_cons,Token.change,nest,ih]
    | stop name =>
      cases opened with
      | nil => rfl
      | cons e opened => simp only [List.map_cons,Token.change,nest,ih]
    | doctype => exact ih opened

theorem change_id (k : Token) : k.change id = k := by
  cases k <;> simp [Token.change]

end Change

end Kuadrat.Html
