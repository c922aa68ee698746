import Mathlib.Data.List.TakeDrop

/-!
# Event streams

A reader of `text/event-stream`: lines of fields, an event at each blank line. A stream is
written in frames, each of which ends with the only blank line in it. A stream that is cut
anywhere yields the events of its complete frames.
-/
namespace Kuadrat.EventStream

/-- An event as the reader hands it over. -/
structure Event where
  lastEventId : List Char
  type : List Char
  data : List Char
  deriving DecidableEq

/-- A reader between two lines: its three buffers, the id it would send to reconnect, and
the events so far. -/
structure Reader where
  id : List Char := []
  type : List Char := []
  data : List Char := []
  lastEventId : List Char := []
  events : List Event := []
  deriving DecidableEq

/-- The lines that have ended, by a line feed, a carriage return, or both; `line` is what
stands before the text on its first one. -/
def lines (line : List Char) : List Char → List (List Char)
  | [] => []
  | '\r':: '\n'::t => line::lines [] t
  | c::t => if c = '\r' ∨ c = '\n' then line::lines [] t else lines (line ++ [c]) t

namespace Reader

def field (r : Reader) (name value : List Char) : Reader :=
  if name = "event".toList then { r with type := value }
  else if name = "data".toList then { r with data := r.data ++ value ++ ['\n'] }
  else if name = "id".toList then if '\x00' ∈ value then r else { r with id := value }
  else r

def dispatch (r : Reader) : Reader :=
  if r.data = [] then { r with lastEventId := r.id, type := [] }
  else { r with
    lastEventId := r.id
    type := []
    data := []
    events := r.events ++ [⟨r.id,if r.type = [] then "message".toList else r.type,r.data.dropLast⟩] }

/-- A value stands after the colon of its field and one space, if there is one. -/
def unspaced : List Char → List Char
  | ' '::value => value
  | value => value

def line (r : Reader) (l : List Char) : Reader :=
  if l = [] then r.dispatch
  else
    let name := l.takeWhile (· != ':')
    match l.dropWhile (· != ':') with
    | [] => r.field name []
    | _::value => if name = [] then r else r.field name (unspaced value)

def feed (r : Reader) (t : List Char) : Reader := (lines [] t).foldl line r

/-- A new connection: what was pending on the old one is discarded. -/
def reconnect (r : Reader) : Reader := { r with id := r.lastEventId, type := [], data := [] }

/-- Nothing is pending. -/
structure Rested (r : Reader) : Prop where
  id : r.id = r.lastEventId
  type : r.type = []
  data : r.data = []

theorem rested_reconnect (r : Reader) : r.reconnect.Rested := ⟨rfl,rfl,rfl⟩

end Reader

section Lines
variable {l t u : List Char} {line : List Char}

theorem lines_append_line (hr : '\r' ∉ l) (hn : '\n' ∉ l) (t : List Char) :
    lines line (l ++ '\n'::t) = (line ++ l)::lines [] t := by
  induction l generalizing line with
  | nil => simp [lines]
  | cons c l ih =>
    rw [List.mem_cons,not_or] at hr hn
    have hc : ¬(c = '\r' ∨ c = '\n') := by
      rintro (rfl | rfl)
      · exact hr.1 rfl
      · exact hn.1 rfl
    rw [List.cons_append,lines,if_neg hc,ih hr.2 hn.2,List.append_assoc,List.singleton_append]
    rintro _ rfl
    exact absurd rfl hr.1

/-- What has ended stays as it is when more arrives. -/
theorem lines_prefix (line t u : List Char) : lines line t <+: lines line (t ++ u) := by
  fun_induction lines line t with
  | case1 line => exact List.nil_prefix
  | case2 line t ih =>
    rw [List.cons_append,List.cons_append,lines]
    exact List.cons_prefix_cons.mpr ⟨rfl,ih⟩
  | case3 line c t hpair hend ih =>
    rw [List.cons_append]
    by_cases hcrlf : ∃ v, c = '\r' ∧ t ++ u = '\n'::v
    · -- the line feed of the pair has not arrived yet
      obtain ⟨v,rfl,hv⟩ := hcrlf
      have hnil : t = [] := by
        cases t with
        | nil => rfl
        | cons d t =>
          rw [List.cons_append,List.cons.injEq] at hv
          exact absurd (congrArg (·::t) hv.1) (hpair t rfl)
      subst hnil
      rw [hv,lines,lines]
      exact List.cons_prefix_cons.mpr ⟨rfl,List.nil_prefix⟩
    · rw [lines,if_pos hend]
      · exact List.cons_prefix_cons.mpr ⟨rfl,ih⟩
      · exact fun v hc hv => hcrlf ⟨v,hc,hv⟩
  | case4 line c t hpair hend ih =>
    rw [List.cons_append,lines,if_neg hend]
    · exact ih
    · exact fun v hc _ => hend (.inl hc)

/-- Lines without a line break, each ended by a line feed, are read as they are. -/
theorem lines_flatMap {ls : List (List Char)} (h : ∀ l ∈ ls, '\r' ∉ l ∧ '\n' ∉ l) :
    lines [] (ls.flatMap (· ++ ['\n'])) = ls := by
  induction ls with
  | nil => rfl
  | cons l ls ih =>
    obtain ⟨hl,hls⟩ := List.forall_mem_cons.mp h
    rw [List.flatMap_cons,List.append_assoc,List.singleton_append,lines_append_line hl.1 hl.2,
      List.nil_append,ih hls]

end Lines

/-- A frame on the wire: its lines, and a blank one. -/
def frame (ls : List (List Char)) : List Char := (ls ++ [[]]).flatMap (· ++ ['\n'])

/-- Lines that can stand in a frame. -/
def Framed (ls : List (List Char)) : Prop := ∀ l ∈ ls, l ≠ [] ∧ '\r' ∉ l ∧ '\n' ∉ l

def Reader.readFrame (r : Reader) (ls : List (List Char)) : Reader := (ls.foldl line r).dispatch

section Frames
variable {r : Reader} {frames : List (List (List Char))} {p : List Char}

theorem flatMap_frame (frames : List (List (List Char))) :
    frames.flatMap frame = (frames.flatMap (· ++ [[]])).flatMap (· ++ ['\n']) := by
  rw [List.flatMap_assoc]
  rfl

theorem lines_frames (h : ∀ f ∈ frames, Framed f) :
    lines [] (frames.flatMap frame) = frames.flatMap (· ++ [[]]) := by
  rw [flatMap_frame]
  apply lines_flatMap
  intro l hl
  obtain ⟨f,hf,hl⟩ := List.mem_flatMap.mp hl
  rcases List.mem_append.mp hl with hl | hl
  · exact (h f hf l hl).2
  · rw [List.mem_singleton.mp hl]
    simp

theorem foldl_frames (r : Reader) (frames : List (List (List Char))) :
    (frames.flatMap (· ++ [[]])).foldl Reader.line r = frames.foldl Reader.readFrame r := by
  induction frames generalizing r with
  | nil => rfl
  | cons f frames ih =>
    rw [List.flatMap_cons,List.foldl_append,ih,List.foldl_append,List.foldl_cons]
    rfl

/-- A stream is read frame by frame. -/
theorem feed_frames (h : ∀ f ∈ frames, Framed f) :
    r.feed (frames.flatMap frame) = frames.foldl Reader.readFrame r := by
  rw [Reader.feed,lines_frames h,foldl_frames]

/-- Lines cut anywhere are whole frames, and some of the lines of the next one. -/
theorem cut_frames (h : ∀ f ∈ frames, Framed f) {ls : List (List Char)}
    (hls : ls <+: frames.flatMap (· ++ [[]])) : ∃ j ≤ frames.length, ∃ rest,
      ls = (frames.take j).flatMap (· ++ [[]]) ++ rest ∧ ∀ l ∈ rest, l ≠ [] := by
  induction frames generalizing ls with
  | nil => exact ⟨0,Nat.le_refl 0,ls,rfl,by simp [List.prefix_nil.mp hls]⟩
  | cons f frames ih =>
    obtain ⟨hf,hframes⟩ := List.forall_mem_cons.mp h
    rw [List.flatMap_cons] at hls
    rcases List.prefix_or_prefix_of_prefix hls (List.prefix_append _ _) with hpart | ⟨later,rfl⟩
    · rcases List.prefix_concat_iff.mp hpart with rfl | hpart
      · exact ⟨1,by simp,[],by simp,by simp⟩
      · exact ⟨0,by simp,ls,by simp,fun l hl => (hf l (hpart.subset hl)).1⟩
    · have hlater := (List.prefix_append_right_inj _).mp hls
      obtain ⟨j,hj,rest,rfl,hrest⟩ := ih hframes hlater
      exact ⟨j+1,by simpa using hj,rest,by simp,hrest⟩

theorem line_keeps {l : List Char} (hl : l ≠ []) :
    (r.line l).events = r.events ∧ (r.line l).lastEventId = r.lastEventId := by
  have hfield : ∀ name value, (r.field name value).events = r.events ∧
      (r.field name value).lastEventId = r.lastEventId := by
    intro name value
    unfold Reader.field
    repeat' split
    all_goals exact ⟨rfl,rfl⟩
  rw [Reader.line,if_neg hl]
  dsimp only
  split
  · exact hfield _ _
  · split
    · exact ⟨rfl,rfl⟩
    · exact hfield _ _

theorem foldl_keeps {ls : List (List Char)} (h : ∀ l ∈ ls, l ≠ []) (r : Reader) :
    (ls.foldl Reader.line r).events = r.events ∧
      (ls.foldl Reader.line r).lastEventId = r.lastEventId := by
  induction ls generalizing r with
  | nil => exact ⟨rfl,rfl⟩
  | cons l ls ih =>
    obtain ⟨hl,hls⟩ := List.forall_mem_cons.mp h
    have hline := @line_keeps r l hl
    have hrest := ih hls (r.line l)
    exact ⟨hrest.1.trans hline.1,hrest.2.trans hline.2⟩

/-- A stream that is cut anywhere has handed over what its complete frames hold. -/
theorem feed_cut (h : ∀ f ∈ frames, Framed f) (hp : p <+: frames.flatMap frame) (r : Reader) :
    ∃ j ≤ frames.length, (r.feed p).events = ((frames.take j).foldl Reader.readFrame r).events ∧
      (r.feed p).lastEventId = ((frames.take j).foldl Reader.readFrame r).lastEventId := by
  obtain ⟨u,hu⟩ := hp
  have hlines : lines [] p <+: frames.flatMap (· ++ [[]]) := by
    rw [← lines_frames h,← hu]
    exact lines_prefix [] p u
  obtain ⟨j,hj,rest,hcut,hrest⟩ := cut_frames h hlines
  refine ⟨j,hj,?_⟩
  rw [Reader.feed,hcut,List.foldl_append,foldl_frames]
  exact foldl_keeps hrest _

end Frames

/-- A field on its line, with the space after its colon or without. -/
inductive FieldLine (name value : List Char) : List Char → Prop
  | spaced : FieldLine name value (name ++ ':':: ' '::value)
  | bare (h : value.head? ≠ some ' ') : FieldLine name value (name ++ ':'::value)

/-- The lines of one event: its id, if it has one, and its data. -/
inductive MessageLines (data : List (List Char)) : Option (List Char) → List (List Char) → Prop
  | anonymous {ls : List (List Char)} (hdata : List.Forall₂ (FieldLine "data".toList) data ls) :
    MessageLines data none ls
  | identified {id l : List Char} {ls : List (List Char)} (hid : FieldLine "id".toList id l)
    (hdata : List.Forall₂ (FieldLine "data".toList) data ls) :
    MessageLines data (some id) (l::ls)

section Messages
variable {r : Reader} {name value l : List Char} {data ls : List (List Char)}
  {id : Option (List Char)}

theorem FieldLine.unspaced (h : FieldLine name value l) :
    ∃ v, l = name ++ ':'::v ∧ Reader.unspaced v = value := by
  cases h with
  | spaced => exact ⟨' '::value,rfl,rfl⟩
  | bare h =>
    refine ⟨value,rfl,?_⟩
    unfold Reader.unspaced
    split
    · simp at h
    · rfl

theorem FieldLine.ne_nil (h : FieldLine name value l) : l ≠ [] := by
  obtain ⟨v,rfl,-⟩ := h.unspaced
  simp

theorem FieldLine.notMem {c : Char} (h : FieldLine name value l) (hc : c ≠ ':' ∧ c ≠ ' ')
    (hname : c ∉ name) (hvalue : c ∉ value) : c ∉ l := by
  cases h <;> simp [hname,hvalue,hc.1,hc.2]

/-- A field is read as the value that it was given. -/
theorem line_field (h : FieldLine name value l) (hne : name ≠ []) (hname : ':' ∉ name) :
    r.line l = r.field name value := by
  have hl := h.ne_nil
  obtain ⟨v,rfl,hv⟩ := h.unspaced
  have hall : ∀ x ∈ name, (x != ':') = true := by
    intro x hx
    simpa using fun hc : x = ':' => hname (hc ▸ hx)
  rw [Reader.line,if_neg hl]
  simp only [List.takeWhile_append_of_pos hall,List.dropWhile_append_of_pos hall,
    List.takeWhile_cons,List.dropWhile_cons,bne_self_eq_false,Bool.false_eq_true,if_false,
    List.append_nil]
  rw [if_neg hne,hv]

theorem foldl_data (h : List.Forall₂ (FieldLine "data".toList) data ls) (r : Reader) :
    ls.foldl Reader.line r = { r with data := r.data ++ data.flatMap (· ++ ['\n']) } := by
  induction h generalizing r with
  | nil => simp
  | cons hl hls ih =>
    rw [List.foldl_cons,line_field hl (by decide) (by decide),ih]
    simp [Reader.field]

/-- One event is handed over with its own id, or with the last one before it. -/
theorem readFrame_message (h : MessageLines data id ls) (hid : ∀ i ∈ id, '\x00' ∉ i)
    (hdata : data ≠ []) (hr : r.Rested) : r.readFrame ls = { r with
      id := id.getD r.id
      lastEventId := id.getD r.id
      events := r.events ++
        [⟨id.getD r.id,"message".toList,(data.flatMap (· ++ ['\n'])).dropLast⟩] } := by
  have hbuffer : data.flatMap (· ++ ['\n']) ≠ [] := by
    obtain ⟨d,rest,rfl⟩ := List.exists_cons_of_ne_nil hdata
    simp
  cases h with
  | anonymous hls =>
    rw [Reader.readFrame,foldl_data hls]
    simp [Reader.dispatch,hr.data,hr.type,hbuffer]
  | @identified i l ls hline hls =>
    have hread : r.line l = { r with id := i } := by
      rw [line_field hline (by decide) (by decide)]
      simp [Reader.field,hid i rfl]
    rw [Reader.readFrame,List.foldl_cons,hread,foldl_data hls]
    simp [Reader.dispatch,hr.data,hr.type,hbuffer]

theorem rested_message (h : MessageLines data id ls) (hid : ∀ i ∈ id, '\x00' ∉ i)
    (hdata : data ≠ []) (hr : r.Rested) : (r.readFrame ls).Rested := by
  rw [readFrame_message h hid hdata hr]
  exact ⟨rfl,hr.type,hr.data⟩

/-- A comment is read as nothing. -/
theorem readFrame_comment (comment : List Char) (hr : r.Rested) :
    r.readFrame [':'::comment] = r := by
  obtain ⟨hid,htype,hdata⟩ := hr
  cases r
  simp_all [Reader.readFrame,Reader.line,Reader.dispatch]

/-- The lines of an event can stand in a frame. -/
theorem MessageLines.framed (h : MessageLines data id ls)
    (hid : ∀ i ∈ id, '\r' ∉ i ∧ '\n' ∉ i) (hdata : ∀ d ∈ data, '\r' ∉ d ∧ '\n' ∉ d) :
    Framed ls := by
  have hlines : ∀ {data ls : List (List Char)}, (∀ d ∈ data, '\r' ∉ d ∧ '\n' ∉ d) →
      List.Forall₂ (FieldLine "data".toList) data ls → Framed ls := by
    intro data ls hdata h
    induction h with
    | nil => exact nofun
    | cons hl _ ih =>
      obtain ⟨hd,hrest⟩ := List.forall_mem_cons.mp hdata
      exact List.forall_mem_cons.mpr ⟨⟨hl.ne_nil,hl.notMem (by decide) (by decide) hd.1,
        hl.notMem (by decide) (by decide) hd.2⟩,ih hrest⟩
  cases h with
  | anonymous hls => exact hlines hdata hls
  | @identified i l ls hline hls =>
    have hi := hid i rfl
    exact List.forall_mem_cons.mpr ⟨⟨hline.ne_nil,hline.notMem (by decide) (by decide) hi.1,
      hline.notMem (by decide) (by decide) hi.2⟩,hlines hdata hls⟩

end Messages
end Kuadrat.EventStream
