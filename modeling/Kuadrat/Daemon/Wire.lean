import Kuadrat.Codec.EventStream
import Kuadrat.Daemon.Stream
import Kuadrat.Slug
import Mathlib.Algebra.Group.Nat.Defs

/-!
# Streams on the wire

What the two streaming engines write, what a browser makes of it, and the resume point that
a browser sends when it connects again. Events carry their ids from the store; what a
renderer makes of them is one line, whatever is in it.
-/
namespace Kuadrat

/-- Strip the characters that a `data` field refuses to carry. -/
def sanitize (data : Text) : Text := data.map fun c => if c = '\r' ∨ c = '\n' then ' ' else c

/-- A text that stands in an `id` field. -/
def IdText (t : Text) : Prop := '\r' ∉ t ∧ '\n' ∉ t ∧ '\x00' ∉ t

/-- The web server's writer of events, as it is documented; it may panic, with `none`. -/
structure SseWriter where
  event : Option Text → Text → Option Text
  keepAlive : Text
  event_eq : ∀ id data, (∀ i ∈ id, IdText i) → '\r' ∉ data → '\n' ∉ data →
    ∃ ls, EventStream.MessageLines [data] id ls ∧ event id data = some (EventStream.frame ls)
  keepAlive_eq : ∃ comment, ('\r' ∉ comment ∧ '\n' ∉ comment) ∧
    keepAlive = EventStream.frame [':'::comment]

/-- What a stream has to write: an event or a line with its data, or a sign of life. -/
abbrev Sent := Option (Option Text × Text)

def toSseEvent (id : ℕ) (data : Text) : Sent := some (some (Text.decimal id),data)

/-- A log line has no identity for a client to resume from. -/
def toLineEvent (data : Text) : Sent := some (none,data)

namespace SseWriter
variable (w : SseWriter)

def chunk : Sent → Option Text
  | none => some w.keepAlive
  | some (id,data) => w.event id (sanitize data)

def wire (sent : List Sent) : Text := sent.flatMap fun s => (w.chunk s).getD []

end SseWriter

/-- The number that some digits spell, if they are digits. -/
def spelled (ds : Text) : Option ℕ :=
  if ds ≠ [] ∧ ds.all Char.isDigit = true then some (Nat.ofDigitChars 10 ds 0) else none

/-- `str::parse::<i64>`. -/
def parseI64 : Text → Option ℤ
  | '-'::ds => (spelled ds).bind fun n => if n ≤ 2^63 then some (-(n : ℤ)) else none
  | '+'::ds => (spelled ds).bind fun n => if n < 2^63 then some (n : ℤ) else none
  | ds => (spelled ds).bind fun n => if n < 2^63 then some (n : ℤ) else none

/-- `HeaderValue::to_str`. -/
def headerStr (t : Text) : Option Text :=
  if t.all fun c => 32 ≤ c.toNat && c.toNat < 127 || c == '\t' then some t else none

/-- The id a reconnecting browser last saw; a header that is no number is as good as none. -/
def resumeFrom (lastEventId : Option Text) : Option ℤ :=
  (lastEventId.bind headerStr).bind fun s => parseI64 s.trim

section Sanitize

theorem notMem_sanitize (data : Text) : '\r' ∉ sanitize data ∧ '\n' ∉ sanitize data := by
  unfold sanitize
  constructor
  · intro h
    obtain ⟨c,-,hc⟩ := List.mem_map.mp h
    split at hc
    · cases hc
    · rename_i hne
      exact hne (.inl hc)
  · intro h
    obtain ⟨c,-,hc⟩ := List.mem_map.mp h
    split at hc
    · cases hc
    · rename_i hne
      exact hne (.inr hc)

theorem idText_decimal (n : ℕ) : IdText (Text.decimal n) :=
  ⟨notMem_decimal rfl n,notMem_decimal rfl n,notMem_decimal rfl n⟩

end Sanitize

section Resume

/-- The bytes of the digits. -/
theorem toNat_of_isDigit {c : Char} (h : c.isDigit = true) : 48 ≤ c.toNat ∧ c.toNat ≤ 57 := by
  have h' : 48 ≤ c.val.toNat ∧ c.val.toNat ≤ 57 := by
    simpa [Char.isDigit,UInt32.le_iff_toNat_le] using h
  exact h'

theorem spelled_decimal (n : ℕ) : spelled (Text.decimal n) = some n := by
  have hall : (Text.decimal n).all Char.isDigit = true :=
    List.all_eq_true.mpr fun d hd => digit_of_mem_decimal hd
  have hnumber : Nat.ofDigitChars 10 (Text.decimal n) 0 = n := Nat.ofDigitChars_ten_toDigits
  rw [spelled,if_pos ⟨Nat.toDigits_ne_nil,hall⟩,hnumber]

theorem parseI64_decimal {n : ℕ} (h : n < 2^63) : parseI64 (Text.decimal n) = some (n : ℤ) := by
  obtain ⟨c,cs,hcs⟩ := List.exists_cons_of_ne_nil
    (show Text.decimal n ≠ [] from Nat.toDigits_ne_nil)
  have hminus : c ≠ '-' := fun hc => notMem_decimal (c := '-') rfl n (by rw [hcs,hc]; simp)
  have hplus : c ≠ '+' := fun hc => notMem_decimal (c := '+') rfl n (by rw [hcs,hc]; simp)
  have hspelled := spelled_decimal n
  rw [hcs] at hspelled ⊢
  unfold parseI64
  split
  · next hc => exact absurd (List.cons.inj hc).1 hminus
  · next hc => exact absurd (List.cons.inj hc).1 hplus
  · rw [hspelled,Option.bind_some,if_pos h]

/-- The id of an event is understood when it comes back. -/
theorem resumeFrom_decimal {n : ℕ} (h : n < 2^63) :
    resumeFrom (some (Text.decimal n)) = some (n : ℤ) := by
  have hdigit : ∀ c ∈ Text.decimal n, c.isAlphanum = true := by
    intro c hc
    change (c.isAlpha || c.isDigit) = true
    rw [digit_of_mem_decimal hc,Bool.or_true]
  have hheader : headerStr (Text.decimal n) = some (Text.decimal n) := by
    apply if_pos
    rw [List.all_eq_true]
    intro c hc
    have := toNat_of_isDigit (digit_of_mem_decimal hc)
    simp only [Bool.or_eq_true,Bool.and_eq_true,decide_eq_true_eq]
    omega
  rw [resumeFrom,Option.bind_some,hheader,Option.bind_some,
    trim_of_chars fun c hc => not_isWhitespace_of_alphanum (hdigit c hc),parseI64_decimal h]

end Resume

open EventStream (Reader)

/-- Whatever the writer is given by an engine stands in an `id` field. -/
def Sent.Numbered (s : Sent) : Prop := ∀ m ∈ s, ∀ i ∈ m.1, IdText i

/-- What a reader makes of one thing written. -/
def hear (r : Reader) : Sent → Reader
  | none => r
  | some (id,data) => { r with
      id := id.getD r.id
      lastEventId := id.getD r.id
      events := r.events ++ [⟨id.getD r.id,"message".toList,sanitize data⟩] }

section Frames
variable {w : SseWriter} {sent : List Sent} {r : Reader}

/-- The writer never panics, and what it writes is a frame that is read as it was meant. -/
theorem chunk_frame {s : Sent} (hs : s.Numbered) : ∃ ls, w.chunk s = some (EventStream.frame ls) ∧
    EventStream.Framed ls ∧ ∀ r : Reader, r.Rested →
      r.readFrame ls = hear r s ∧ (hear r s).Rested := by
  cases s with
  | none =>
    obtain ⟨comment,⟨hcr,hlf⟩,heq⟩ := w.keepAlive_eq
    refine ⟨[':'::comment],congrArg some heq,?_,fun r hr =>
      ⟨EventStream.readFrame_comment comment hr,hr⟩⟩
    intro l hl
    rw [List.mem_singleton.mp hl]
    exact ⟨List.cons_ne_nil _ _,by simp [hcr],by simp [hlf]⟩
  | some m =>
    obtain ⟨id,data⟩ := m
    have hid : ∀ i ∈ id, IdText i := hs _ rfl
    have hclean := notMem_sanitize data
    obtain ⟨ls,hls,heq⟩ := w.event_eq id _ hid hclean.1 hclean.2
    have hnul : ∀ i ∈ id, '\x00' ∉ i := fun i hi => (hid i hi).2.2
    have hframed := hls.framed (fun i hi => ⟨(hid i hi).1,(hid i hi).2.1⟩)
      (by simpa using hclean)
    refine ⟨ls,heq,hframed,fun r hr => ?_⟩
    have hread := EventStream.readFrame_message hls hnul (by simp) hr
    have hhear : r.readFrame ls = hear r (some (id,data)) := by
      rw [hread]
      simp [hear]
    exact ⟨hhear,hhear ▸ EventStream.rested_message hls hnul (by simp) hr⟩

/-- The whole stream is a list of frames, one for each thing written. -/
theorem wire_frames (w : SseWriter) (h : ∀ s ∈ sent, s.Numbered) :
    ∃ frames : List (List Text), w.wire sent = frames.flatMap EventStream.frame ∧
      frames.length = sent.length ∧
      (∀ f ∈ frames, EventStream.Framed f) ∧ ∀ j (r : Reader), r.Rested →
        (frames.take j).foldl Reader.readFrame r = (sent.take j).foldl hear r := by
  induction sent with
  | nil => exact ⟨[],rfl,rfl,nofun,fun _ _ _ => by simp⟩
  | cons s sent ih =>
    obtain ⟨hs,hsent⟩ := List.forall_mem_cons.mp h
    obtain ⟨frames,hwire,hlength,hframed,hread⟩ := ih hsent
    obtain ⟨ls,hchunk,hls,hhear⟩ := chunk_frame (w := w) hs
    refine ⟨ls::frames,?_,by simp [hlength],List.forall_mem_cons.mpr ⟨hls,hframed⟩,?_⟩
    · rw [SseWriter.wire,List.flatMap_cons,hchunk,List.flatMap_cons,← hwire]
      rfl
    · intro j r hr
      cases j with
      | zero => rfl
      | succ j =>
        rw [List.take_succ_cons,List.take_succ_cons,List.foldl_cons,List.foldl_cons,(hhear r hr).1]
        exact hread j _ (hhear r hr).2

/-- A stream read to its end. -/
theorem feed_wire (h : ∀ s ∈ sent, s.Numbered) (hr : r.Rested) :
    r.feed (w.wire sent) = sent.foldl hear r := by
  obtain ⟨frames,hwire,hlength,hframed,hread⟩ := wire_frames w h
  rw [hwire,EventStream.feed_frames hframed]
  have hall := hread sent.length r hr
  rwa [List.take_length,← hlength,List.take_length] at hall

/-- A stream that was cut off anywhere: the reader has what was written up to some point. -/
theorem feed_cut_wire {cut : Text} (h : ∀ s ∈ sent, s.Numbered) (hr : r.Rested)
    (hcut : cut <+: w.wire sent) : ∃ j ≤ sent.length,
      (r.feed cut).events = ((sent.take j).foldl hear r).events ∧
      (r.feed cut).lastEventId = ((sent.take j).foldl hear r).lastEventId := by
  obtain ⟨frames,hwire,hlength,hframed,hread⟩ := wire_frames w h
  rw [hwire] at hcut
  obtain ⟨j,hj,hevents,hid⟩ := EventStream.feed_cut hframed hcut r
  rw [hread j r hr] at hevents hid
  exact ⟨j,hlength ▸ hj,hevents,hid⟩

end Frames

/-- What `EventSource` sends when it connects again. -/
def lastEventIdHeader (r : Reader) : Option Text :=
  if r.lastEventId = [] then none else some r.lastEventId

section Engines
variable (render : StoredEvent → Text)

/-- What `events_sse` writes: events of the store, with signs of life between them. -/
def eventsSent (items : List (Option StoredEvent)) : List Sent :=
  items.map fun item => item.bind fun e => toSseEvent e.id (render e)

/-- What `lines_sse` writes. -/
def linesSent (renderLine : Text → Text) (items : List (Option Text)) : List Sent :=
  items.map fun item => item.bind fun l => toLineEvent (renderLine l)

/-- An event of the store, as a browser is handed it. -/
def shown (e : StoredEvent) : EventStream.Event :=
  ⟨Text.decimal e.id,"message".toList,sanitize (render e)⟩

variable {render} {r : Reader} {w : SseWriter}

theorem numbered_eventsSent (items : List (Option StoredEvent)) :
    ∀ s ∈ eventsSent render items, s.Numbered := by
  intro s hs
  obtain ⟨item,-,rfl⟩ := List.mem_map.mp hs
  cases item with
  | none => exact nofun
  | some e =>
    intro m hm i hi
    cases hm
    cases hi
    exact idText_decimal e.id

theorem numbered_linesSent {renderLine : Text → Text} (items : List (Option Text)) :
    ∀ s ∈ linesSent renderLine items, s.Numbered := by
  intro s hs
  obtain ⟨item,-,rfl⟩ := List.mem_map.mp hs
  cases item with
  | none => exact nofun
  | some l =>
    intro m hm i hi
    cases hm
    cases hi

/-- A reader hears the events in order, and remembers the id of the last one. -/
theorem foldl_eventsSent (items : List (Option StoredEvent)) (r : Reader) :
    ((eventsSent render items).foldl hear r).events =
      r.events ++ (items.filterMap id).map (shown render) ∧
    ((eventsSent render items).foldl hear r).lastEventId =
      (items.filterMap id).getLast?.elim r.lastEventId fun e => Text.decimal e.id := by
  induction items generalizing r with
  | nil => simp [eventsSent]
  | cons item items ih =>
    rw [eventsSent,List.map_cons,List.foldl_cons,← eventsSent]
    obtain ⟨hevents,hid⟩ := ih (hear r (item.bind fun e => toSseEvent e.id (render e)))
    rw [hevents,hid]
    cases item with
    | none => exact ⟨rfl,rfl⟩
    | some e =>
      refine ⟨by simp [hear,toSseEvent,shown],?_⟩
      have hsome : (some e::items).filterMap id = e::items.filterMap id := rfl
      rw [hsome,List.getLast?_cons]
      cases (items.filterMap id).getLast? <;> rfl

theorem foldl_linesSent {renderLine : Text → Text} (items : List (Option Text)) {r : Reader}
    (hr : r.id = []) : ((linesSent renderLine items).foldl hear r).events =
      r.events ++ (items.filterMap id).map fun l =>
        ⟨[],"message".toList,sanitize (renderLine l)⟩ := by
  induction items generalizing r with
  | nil => simp [linesSent]
  | cons item items ih =>
    rw [linesSent,List.map_cons,List.foldl_cons,← linesSent,ih]
    · cases item with
      | none => rfl
      | some l => simp [hear,toLineEvent,hr]
    · cases item with
      | none => exact hr
      | some l => exact hr

/-- A browser on a stream that breaks anywhere has the first of its events, and the id of the last
one that it has. -/
theorem feed_events {items : List (Option StoredEvent)} {cut : Text} (hr : r.Rested)
    (hcut : cut <+: w.wire (eventsSent render items)) : ∃ es, es <+: items.filterMap id ∧
      (r.feed cut).events = r.events ++ es.map (shown render) ∧
      (r.feed cut).lastEventId = es.getLast?.elim r.lastEventId fun e => Text.decimal e.id := by
  obtain ⟨j,-,hevents,hid⟩ := feed_cut_wire (numbered_eventsSent items) hr hcut
  have htake : (eventsSent render items).take j = eventsSent render (items.take j) :=
    List.map_take.symm
  rw [htake] at hevents hid
  obtain ⟨hheard,hlast⟩ := foldl_eventsSent (items.take j) r
  exact ⟨_,(List.take_prefix j items).filterMap id,hevents.trans hheard,hid.trans hlast⟩

theorem feed_wire_lines {renderLine : Text → Text} {items : List (Option Text)} (hr : r.Rested)
    (hid : r.id = []) : (r.feed (w.wire (linesSent renderLine items))).events =
      r.events ++ (items.filterMap id).map fun l =>
        ⟨[],"message".toList,sanitize (renderLine l)⟩ := by
  rw [feed_wire (numbered_linesSent items) hr,foldl_linesSent _ hid]

theorem feed_lines {renderLine : Text → Text} {items : List (Option Text)} {cut : Text}
    (hr : r.Rested) (hid : r.id = []) (hcut : cut <+: w.wire (linesSent renderLine items)) :
    ∃ ls, ls <+: items.filterMap id ∧ (r.feed cut).events =
      r.events ++ ls.map fun l => ⟨[],"message".toList,sanitize (renderLine l)⟩ := by
  obtain ⟨j,-,hevents,-⟩ := feed_cut_wire (numbered_linesSent items) hr hcut
  have htake : (linesSent renderLine items).take j = linesSent renderLine (items.take j) :=
    List.map_take.symm
  rw [htake,foldl_linesSent _ hid] at hevents
  exact ⟨_,(List.take_prefix j items).filterMap id,hevents⟩

theorem isSome_chunk {s : Sent} (hs : s.Numbered) : (w.chunk s).isSome := by
  obtain ⟨ls,heq,-⟩ := chunk_frame (w := w) hs
  rw [heq]
  rfl

/-- The id that a browser sends is understood as that of the last event it has. -/
theorem resumeFrom_header {es : List StoredEvent} (hes : ∀ e ∈ es, e.id < 2^63)
    (hid : r.lastEventId = es.getLast?.elim [] fun e => Text.decimal e.id) :
    resumeFrom (lastEventIdHeader r) = es.getLast?.map StoredEvent.key := by
  cases hlast : es.getLast? with
  | none =>
    have hnil : r.lastEventId = [] := by
      rw [hid,hlast]
      rfl
    rw [lastEventIdHeader,if_pos hnil]
    rfl
  | some e =>
    rw [hlast] at hid
    have hne : r.lastEventId ≠ [] := by
      rw [hid]
      exact Nat.toDigits_ne_nil
    rw [lastEventIdHeader,if_neg hne,hid]
    exact resumeFrom_decimal (hes e (List.mem_of_getLast? hlast))

end Engines

/-- Fields with a space after their colons, and an empty comment. -/
def SseWriter.plain : SseWriter where
  event id data := some (EventStream.frame
    ((id.toList.map fun i => "id".toList ++ ':':: ' '::i) ++ ["data".toList ++ ':':: ' '::data]))
  keepAlive := EventStream.frame [[':']]
  event_eq id data _ _ _ := by
    refine ⟨_,?_,rfl⟩
    cases id with
    | none => exact .anonymous (.cons .spaced .nil)
    | some i => exact .identified .spaced (.cons .spaced .nil)
  keepAlive_eq := ⟨[],by simp,rfl⟩

/-- Whatever a renderer makes of an event or a line, and wherever the connection breaks: nothing
panics, a browser is handed one message for each event or line, in order and an event under its
own id, and what it sends to connect again is understood as the id of the last event it has. -/
theorem stream_on_the_wire (w : SseWriter) (render : StoredEvent → Text)
    (renderLine : Text → Text) (items : List (Option StoredEvent)) (lines : List (Option Text)) :
    (∀ s ∈ eventsSent render items ++ linesSent renderLine lines, (w.chunk s).isSome) ∧
    (Reader.feed {} (w.wire (eventsSent render items))).events =
      (items.filterMap id).map (shown render) ∧
    (Reader.feed {} (w.wire (linesSent renderLine lines))).events =
      (lines.filterMap id).map (fun l => ⟨[],"message".toList,sanitize (renderLine l)⟩) ∧
    (∀ cut, cut <+: w.wire (eventsSent render items) → ∃ es, es <+: items.filterMap id ∧
      (Reader.feed {} cut).events = es.map (shown render) ∧
      ((∀ e ∈ es, e.id < 2^63) → resumeFrom (lastEventIdHeader (Reader.feed {} cut)) =
        es.getLast?.map StoredEvent.key)) ∧
    (∀ cut, cut <+: w.wire (linesSent renderLine lines) → ∃ ls, ls <+: lines.filterMap id ∧
      (Reader.feed {} cut).events =
        ls.map fun l => ⟨[],"message".toList,sanitize (renderLine l)⟩) := by
  have hrested : Reader.Rested {} := ⟨rfl,rfl,rfl⟩
  refine ⟨fun s hs => ?_,?_,?_,fun cut hcut => ?_,fun cut hcut => ?_⟩
  · rcases List.mem_append.mp hs with hs | hs
    · exact isSome_chunk (numbered_eventsSent items s hs)
    · exact isSome_chunk (numbered_linesSent lines s hs)
  · rw [feed_wire (numbered_eventsSent items) hrested,(foldl_eventsSent items _).1]
    rfl
  · rw [feed_wire (numbered_linesSent lines) hrested,foldl_linesSent lines rfl]
    rfl
  · obtain ⟨es,hes,hevents,hid⟩ := feed_events hrested hcut
    exact ⟨es,hes,hevents,fun hbound => resumeFrom_header hbound hid⟩
  · exact feed_lines hrested rfl hcut

end Kuadrat
