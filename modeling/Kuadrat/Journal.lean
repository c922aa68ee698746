import Kuadrat.Daemon.Wire
import Kuadrat.Effect.Trace
import Kuadrat.Logs
import Mathlib.Data.List.DropRight

/-!
# Reading the journal

The journal of a workload, read once or followed. What is shown for an app are the last of its own
entries, a tail with the oldest first and a search with the newest first, and an app is only told to
be quiet when its journal could be read.
-/
namespace Kuadrat.Logs

open Effect

/-- How `journalctl` is run. -/
inductive Journalctl
  | run (args : List Text)
  | runStreaming (args : List Text)

/-- What a stream yields in its life. -/
abbrev LineStream := List (Except Message Text)

@[reducible] def Journalctl.Resp : Journalctl → Type
  | run _ => Except Message CommandOutput
  | runStreaming _ => Except Message LineStream

/-- A reading of the journal; the readings below have the result `none` when they panic. -/
abbrev Reading := Proc Journalctl Journalctl.Resp Message

def maxLines : ℕ := 1000

/-- `lines.clamp(1, MAX_LINES)`. -/
def clamped (lines : ℕ) : ℕ := max 1 (min lines maxLines)

def rejectEmptySlug (name : Text) : Except Message Unit :=
  reject (slug name).isEmpty ["workload name ",.debug name,
    " yields an empty identifier; it needs at least one letter or digit"]

def baseArgs (name : Text) (lines : ℕ) : List Text :=
  ["-u",unitName name,"-n",Text.decimal (clamped lines),"--no-pager","--output=short-iso"]

/-- `str::contains`. -/
def contains (part t : Text) : Bool := t.tails.any part.isPrefixOf

/-- journald's hint that only a part of the journal was seen. -/
def journalUnreadable (stderr : Text) : Bool :=
  contains "not seeing messages" stderr || contains "systemd-journal" stderr ||
    contains "Users in groups" stderr

def cannotRead (name : Text) : Message :=
  ["cannot read the system journal for ",.text name,
    ": run as root, or add the user to the systemd-journal group"]

/-- What a reading makes of the output of `journalctl`. -/
def linesOf (name : Text) : Except Message CommandOutput → Except Message (Option (List Text))
  | .error why => .error (Message.context ["reading logs for ",.text name] why)
  | .ok out =>
    if !out.success then
      .error ["journalctl failed for ",.text name,": ",.text out.stderr.trim]
    else match parseLines out.stdout with
      | none => .ok none
      | some lines =>
        if lines.isEmpty && journalUnreadable out.stderr then .error (cannotRead name)
        else .ok (some lines)

def runJournalctl (args : List Text) (name : Text) : Reading (Option (List Text)) :=
  .mk (.perform (.run args) >>= fun out => .ret (linesOf name out))

/-- The last entries of a workload, oldest first. -/
def tail (name : Text) (lines : ℕ) : Reading (Option (List Text)) := do
  .mk (.ret (rejectEmptySlug name))
  runJournalctl (baseArgs name lines) name

def rejectEmptyPattern (pattern : Text) : Except Message Unit :=
  reject pattern.isEmpty
    ["search pattern must not be empty; use tail to read without filtering"]

/-- The last entries of a workload that match a pattern. -/
def search (name pattern : Text) (lines : ℕ) : Reading (Option (List Text)) := do
  .mk (.ret (rejectEmptySlug name))
  .mk (.ret (rejectEmptyPattern pattern))
  runJournalctl (baseArgs name lines ++ ["--grep".toList,pattern]) name

/-- The last entries, then all that come. -/
def follow (name : Text) (lines : ℕ) : Reading (Option LineStream) := do
  let some _ ← tail name lines | return none
  let stream ← .mk (.perform (Journalctl.runStreaming (baseArgs name lines ++ ["-f".toList])))
  return some stream

section Journal

/-- An entry of the journal: the unit that `-u` has for it, the boot it is from, and its lines as
they are printed, the first of them with the time. -/
structure Entry where
  unit : Text
  boot : Text
  first : Text
  more : List Text := []
  whole : ∀ l ∈ boot::first::more, '\n' ∉ l ∧ '\r' ∉ l
  stamped : isEntry first = true

def Entry.lines (e : Entry) : List Text := e.first::e.more

def bootMark (boot : Text) : Text := "-- Boot " ++ boot ++ " --"

/-- Entries as they are printed behind one of the boot `last`. Without `-q`, a line of its own says
that the next entry is from another boot. -/
def printedLines (last : Option Text) : List Entry → List Text
  | [] => []
  | e::es => (if last.all (· == e.boot) then [] else [bootMark e.boot]) ++ e.lines ++
      printedLines (some e.boot) es

/-- What `journalctl` is asked for; without a number it prints all. -/
structure Query where
  units : List Text := []
  number : Option ℕ := none
  pager : Bool := true
  output : Text := "short"
  grep : Option Text := none
  follow : Bool := false

/-- `journalctl` reads its arguments; options that are not used here are left out. -/
def Query.read (q : Query) : List Text → Option Query
  | [] => some q
  | o::rest =>
    if o = "--no-pager" then { q with pager := false }.read rest
    else if o = "--output=short-iso" then { q with output := "short-iso" }.read rest
    else if o = "-f" then { q with follow := true }.read rest
    else match rest with
      | [] => none
      | v::rest =>
        if o = "-u" then { q with units := q.units ++ [v] }.read rest
        else if o = "-n" then (spelled v).bind fun n => { q with number := some n }.read rest
        else if o = "--grep" then { q with grep := some v }.read rest
        else none

variable (matching : Text → Entry → Bool) (journal : List Entry)

def Query.selects (q : Query) (e : Entry) : Bool :=
  (q.units.isEmpty || q.units.contains e.unit) && q.grep.all fun pattern => matching pattern e

/-- `--grep` together with a number implies `--reverse`. -/
def Query.reversed (q : Query) : Bool := q.grep.isSome && q.number.isSome

/-- The entries in the order in which they are printed. -/
def Query.entries (q : Query) : List Entry :=
  let es := journal.filter (q.selects matching)
  let last := q.number.elim es es.rtake
  if q.reversed then last.reverse else last

/-- All that is printed of the entries. -/
def printed (es : List Entry) : Text :=
  (if es.isEmpty then [noEntries] else printedLines none es).flatMap (· ++ ['\n'])

/-- What `journalctl` comes to. Where the journal may not be read nothing is found in it, and the
hint says so; the hint may also be there when something is found. -/
inductive Answers (args : List Text) : Except Message CommandOutput → Prop
  | unspawned (why : Message) : Answers args (.error why)
  | failed {out : CommandOutput} (h : out.success = false) : Answers args (.ok out)
  | read {q : Query} (h : Query.read {} args = some q) (stderr : Text) :
    Answers args (.ok ⟨0,printed (q.entries matching journal),stderr⟩)
  | forbidden {stderr : Text} (h : journalUnreadable stderr = true) :
    Answers args (.ok ⟨0,printed [],stderr⟩)

/-- The last entries of the unit of an app, of those that match a pattern. -/
def lastEntries (name : Text) (pattern : Option Text) (lines : ℕ) : List Entry :=
  (journal.filter fun e =>
    e.unit == unitName name && pattern.all fun p => matching p e).rtake (clamped lines)

/-- The last entries in the order of a reading: a search has the newest first. -/
def shownEntries (name : Text) (pattern : Option Text) (lines : ℕ) : List Entry :=
  match pattern with
  | none => lastEntries matching journal name none lines
  | some p => (lastEntries matching journal name (some p) lines).reverse

end Journal

section Asked
variable {matching : Text → Entry → Bool} {journal : List Entry} {name : Text} {lines : ℕ}

theorem clamped_le (lines : ℕ) : clamped lines ≤ maxLines :=
  max_le (by decide) (Nat.min_le_right _ _)

/-- What every reading asks for, with what it asks for besides. -/
def asked (name : Text) (lines : ℕ) : Query where
  units := [unitName name]
  number := some (clamped lines)
  pager := false
  output := "short-iso"

theorem read_flags (q : Query) (more : List Text) :
    q.read ("--no-pager".toList::"--output=short-iso".toList::more) =
      { q with pager := false, output := "short-iso" }.read more := by
  rw [Query.read.eq_def]
  dsimp only
  rw [if_pos rfl,Query.read.eq_def]
  dsimp only
  rw [if_neg (by decide),if_pos rfl]

/-- Whatever the name is, its unit and the number are read as such. -/
theorem read_baseArgs (name : Text) (lines : ℕ) (more : List Text) :
    Query.read {} (baseArgs name lines ++ more) = (asked name lines).read more := by
  have hread : Query.read {} (baseArgs name lines ++ more) =
      (spelled (Text.decimal (clamped lines))).bind fun n =>
        Query.read { units := [unitName name], number := some n }
          ("--no-pager".toList::"--output=short-iso".toList::more) := rfl
  rw [hread,spelled_decimal,Option.bind_some,read_flags]
  rfl

theorem read_bareArgs (name : Text) (lines : ℕ) :
    Query.read {} (baseArgs name lines) = some (asked name lines) := by
  rw [← List.append_nil (baseArgs name lines),read_baseArgs]
  rfl

theorem entries_asked (pattern : Option Text) (following : Bool) :
    { asked name lines with grep := pattern, follow := following }.entries matching journal =
      shownEntries matching journal name pattern lines := by
  have hselects : Query.selects matching
      { asked name lines with grep := pattern, follow := following } = fun e =>
        e.unit == unitName name && pattern.all fun p => matching p e := by
    funext e
    simp [Query.selects,asked,beq_eq_decide]
  rw [Query.entries,hselects]
  cases pattern <;> rfl

theorem mem_shownEntries {pattern : Option Text} {e : Entry} :
    e ∈ shownEntries matching journal name pattern lines ↔
      e ∈ lastEntries matching journal name pattern lines := by
  cases pattern with
  | none => rfl
  | some p => exact List.mem_reverse

theorem unit_shownEntries {pattern : Option Text} {e : Entry}
    (h : e ∈ shownEntries matching journal name pattern lines) : e.unit = unitName name := by
  have hmem := List.mem_of_mem_drop (mem_shownEntries.mp h)
  rw [List.mem_filter,Bool.and_eq_true,beq_iff_eq] at hmem
  exact hmem.2.1

theorem length_shownEntries (pattern : Option Text) :
    (shownEntries matching journal name pattern lines).length ≤ maxLines := by
  have hlast : (lastEntries matching journal name pattern lines).length ≤ maxLines := by
    refine Nat.le_trans ?_ (clamped_le lines)
    rw [lastEntries,List.rtake,List.length_drop]
    omega
  cases pattern with
  | none => exact hlast
  | some p => rwa [shownEntries,List.length_reverse]

end Asked

section Printed
variable {es : List Entry}

theorem mapM_truncateLine (ls : List Text) : ∃ shown, ls.mapM truncateLine = some shown ∧
    List.Forall₂ Shown ls shown := by
  induction ls with
  | nil => exact ⟨[],rfl,.nil⟩
  | cons l ls ih =>
    obtain ⟨t,ht,hshown⟩ := truncateLine_shown l
    obtain ⟨ts,hts,hall⟩ := ih
    refine ⟨t::ts,?_,.cons hshown hall⟩
    rw [List.mapM_cons,ht,hts]
    rfl

theorem notMem_bootMark {c : Char} {boot : Text} (hbefore : c ∉ ("-- Boot " : Text))
    (hafter : c ∉ (" --" : Text)) (hboot : c ∉ boot) : c ∉ bootMark boot := by
  intro h
  rcases List.mem_append.mp h with h | h
  · rcases List.mem_append.mp h with h | h
    · exact hbefore h
    · exact hboot h
  · exact hafter h

theorem whole_printedLines {last : Option Text} {l : Text} (h : l ∈ printedLines last es) :
    '\n' ∉ l ∧ '\r' ∉ l := by
  induction es generalizing last with
  | nil => cases h
  | cons e es ih =>
    rcases List.mem_append.mp h with h | h
    · rcases List.mem_append.mp h with h | h
      · have hmark : l = bootMark e.boot := by
          split at h
          · exact absurd h List.not_mem_nil
          · exact List.mem_singleton.mp h
        obtain ⟨hn,hr⟩ := e.whole e.boot List.mem_cons_self
        rw [hmark]
        exact ⟨notMem_bootMark (by decide) (by decide) hn,
          notMem_bootMark (by decide) (by decide) hr⟩
      · exact e.whole l (List.mem_cons_of_mem _ h)
    · exact ih h

theorem lines_printed (es : List Entry) : Text.lines (printed es) =
    if es.isEmpty then [noEntries] else printedLines none es := by
  refine Text.lines_flatMap_newline fun l hl => ?_
  split at hl
  · obtain rfl := List.mem_singleton.mp hl
    decide
  · exact whole_printedLines hl

/-- What a reading shows of the entries. -/
def entryLines (es : List Entry) : List Text := (printedLines none es).filter isEntry

theorem filter_printed (es : List Entry) : (printed es).lines.filter isEntry = entryLines es := by
  rw [lines_printed,entryLines]
  cases es with
  | nil => rfl
  | cons e es => rfl

theorem entryLines_eq_nil : entryLines es = [] ↔ es = [] := by
  cases es with
  | nil => exact iff_of_true rfl rfl
  | cons e es =>
    refine iff_of_false (List.ne_nil_of_mem (a := e.first) ?_) (List.cons_ne_nil e es)
    have hfirst : e.first ∈ printedLines none (e::es) :=
      List.mem_append_left _ (List.mem_append_right _ List.mem_cons_self)
    exact List.mem_filter.mpr ⟨hfirst,e.stamped⟩

theorem printed_eq_nil : printed es = printed [] ↔ es = [] := by
  refine ⟨fun h => entryLines_eq_nil.mp ?_,fun h => h ▸ rfl⟩
  rw [← filter_printed,h,filter_printed]
  rfl

end Printed

section Told
variable {matching : Text → Entry → Bool} {journal es : List Entry} {name : Text} {lines : ℕ}

/-- `journalctl` has read the journal: it did not just give the hint. -/
def Readable (answer : Except Message CommandOutput) : Prop := ∃ out, answer = .ok out ∧
  out.success = true ∧ (journalUnreadable out.stderr = true → out.stdout ≠ printed [])

/-- What a reading of some entries comes to: their lines, or an error. -/
structure Told (es : List Entry) (answer : Except Message CommandOutput)
    (r : Except Message (Option (List Text))) : Prop where
  shown : ∀ x, r = .ok x → ∃ ls, x = some ls ∧ List.Forall₂ Shown (entryLines es) ls
  answered : (∃ x, r = .ok x) ↔ Readable answer
  quiet : r = .ok (some []) → es = [] ∧ ∀ out, answer = .ok out →
    journalUnreadable out.stderr = false

theorem linesOf_printed (name : Text) (es : List Entry) (stderr : Text) :
    ∃ ls, List.Forall₂ Shown (entryLines es) ls ∧ linesOf name (.ok ⟨0,printed es,stderr⟩) =
      if es.isEmpty && journalUnreadable stderr then .error (cannotRead name)
      else .ok (some ls) := by
  obtain ⟨ls,hls,hshown⟩ := mapM_truncateLine (entryLines es)
  refine ⟨ls,hshown,?_⟩
  have hparse : parseLines (printed es) = some ls := by rw [parseLines,filter_printed,hls]
  have hempty : ls.isEmpty = es.isEmpty := by
    rw [Bool.eq_iff_iff,List.isEmpty_iff,List.isEmpty_iff,← entryLines_eq_nil,
      ← List.length_eq_zero_iff,← List.length_eq_zero_iff,hshown.length_eq]
  have hlines : linesOf name (.ok ⟨0,printed es,stderr⟩) =
      match parseLines (printed es) with
      | none => .ok none
      | some lines =>
        if lines.isEmpty && journalUnreadable stderr then .error (cannotRead name)
        else .ok (some lines) := rfl
  rw [hlines,hparse]
  dsimp only
  rw [hempty]

/-- An output of these entries. -/
theorem told_printed (name : Text) (es : List Entry) (stderr : Text) :
    Told es (.ok ⟨0,printed es,stderr⟩) (linesOf name (.ok ⟨0,printed es,stderr⟩)) := by
  obtain ⟨ls,hshown,hr⟩ := linesOf_printed name es stderr
  rw [hr]
  by_cases hquiet : (es.isEmpty && journalUnreadable stderr) = true
  · rw [if_pos hquiet]
    rw [Bool.and_eq_true,List.isEmpty_iff] at hquiet
    refine ⟨nofun,iff_of_false nofun ?_,nofun⟩
    rintro ⟨out,hout,-,hhint⟩
    cases hout
    exact hhint hquiet.2 (hquiet.1 ▸ rfl)
  · rw [if_neg hquiet]
    rw [Bool.and_eq_true,List.isEmpty_iff,not_and,Bool.not_eq_true] at hquiet
    refine ⟨?_,iff_of_true ⟨_,rfl⟩ ⟨_,rfl,rfl,fun hhint hnone => ?_⟩,fun hnil => ?_⟩
    · rintro x ⟨⟩
      exact ⟨ls,rfl,hshown⟩
    · rw [hquiet (printed_eq_nil.mp hnone)] at hhint
      cases hhint
    · cases hnil
      have hes : es = [] := entryLines_eq_nil.mp (List.forall₂_nil_right_iff.mp hshown)
      refine ⟨hes,fun out hout => ?_⟩
      cases hout
      exact hquiet hes

theorem linesOf_told {args : List Text} {answer : Except Message CommandOutput}
    (h : Answers matching journal args answer)
    (hes : ∀ q, Query.read {} args = some q → q.entries matching journal = es) :
    Told es answer (linesOf name answer) := by
  cases h with
  | unspawned why => exact ⟨nofun,iff_of_false nofun nofun,nofun⟩
  | @failed out h =>
    have hr : linesOf name (.ok out) =
        .error ["journalctl failed for ",.text name,": ",.text out.stderr.trim] :=
      if_pos (by rw [h]; rfl)
    rw [hr]
    refine ⟨nofun,iff_of_false nofun ?_,nofun⟩
    rintro ⟨out',hout,hsuccess,-⟩
    cases hout
    rw [h] at hsuccess
    cases hsuccess
  | read h stderr =>
    rw [hes _ h]
    exact told_printed name es stderr
  | @forbidden stderr h =>
    have hr : linesOf name (.ok ⟨0,printed [],stderr⟩) = .error (cannotRead name) := by
      obtain ⟨ls,-,hr⟩ := linesOf_printed name [] stderr
      rw [hr,if_pos (by rw [h]; rfl)]
    rw [hr]
    refine ⟨nofun,iff_of_false nofun ?_,nofun⟩
    rintro ⟨out,hout,-,hhint⟩
    cases hout
    exact hhint h rfl

end Told

section Runs
variable {matching : Text → Entry → Bool} {journal : List Entry} {name : Text} {lines : ℕ}
  {pattern : Option Text} {tr : List (Exchange Journalctl Journalctl.Resp)}

theorem run_journalctl {args : List Text} {r : Except Message (Option (List Text))} :
    Runs (runJournalctl args name).run tr r ↔
      ∃ answer, tr = [⟨.run args,answer⟩] ∧ r = linesOf name answer := by
  change Runs (.perform (.run args) >>= fun out => .ret (linesOf name out)) tr r ↔ _
  rw [runs_perform_bind]
  constructor
  · rintro ⟨answer,tr',rfl,h⟩
    obtain ⟨rfl,rfl⟩ := runs_ret.mp h
    exact ⟨answer,rfl,rfl⟩
  · rintro ⟨answer,rfl,rfl⟩
    exact ⟨answer,[],rfl,.ret _⟩

/-- A check that comes before a program. -/
theorem runs_check {α : Type} {check : Except Message Unit} {p : Reading α} {r : Except Message α} :
    Runs (do .mk (.ret check); p : Reading α).run tr r ↔
      (check = .ok () ∧ Runs p.run tr r) ∨ ∃ why, check = .error why ∧ tr = [] ∧ r = .error why := by
  rw [Prog.run_bind]
  cases check with
  | ok u => exact ⟨fun h => .inl ⟨rfl,h⟩,fun h => h.elim (·.2) (by rintro ⟨_,⟨⟩,_⟩)⟩
  | error why =>
    constructor
    · intro h
      obtain ⟨rfl,rfl⟩ := runs_ret.mp h
      exact .inr ⟨why,rfl,rfl,rfl⟩
    · rintro (⟨⟨⟩,-⟩ | ⟨_,⟨⟩,rfl,rfl⟩)
      exact .ret _

theorem rejectEmptySlug_eq_ok : rejectEmptySlug name = .ok () ↔ slug name ≠ [] := by
  rw [rejectEmptySlug,reject_eq_ok,← Bool.not_eq_true,List.isEmpty_iff]

theorem rejectEmptySlug_eq_error {why : Message} (h : rejectEmptySlug name = .error why) :
    slug name = [] := by
  by_contra hne
  rw [rejectEmptySlug_eq_ok.mpr hne] at h
  cases h

theorem run_tail {r : Except Message (Option (List Text))} :
    Runs (tail name lines).run tr r →
      (slug name = [] ∧ tr = [] ∧ ∃ why, r = .error why) ∨
      slug name ≠ [] ∧ ∃ answer, tr = [⟨.run (baseArgs name lines),answer⟩] ∧
        r = linesOf name answer := by
  intro h
  rcases runs_check.mp h with ⟨hslug,h⟩ | ⟨why,hslug,rfl,rfl⟩
  · exact .inr ⟨rejectEmptySlug_eq_ok.mp hslug,run_journalctl.mp h⟩
  · exact .inl ⟨rejectEmptySlug_eq_error hslug,rfl,why,rfl⟩

/-- The journal is followed only when it could be read. -/
theorem run_follow {r : Except Message (Option LineStream)}
    (h : Runs (follow name lines).run tr r) : ∃ tr₁ r₁, Runs (tail name lines).run tr₁ r₁ ∧
      ((∃ shown answer, r₁ = .ok (some shown) ∧ r = answer.map some ∧
          tr = tr₁ ++ [⟨.runStreaming (baseArgs name lines ++ ["-f".toList]),answer⟩]) ∨
        (r₁ = .ok none ∧ tr = tr₁ ∧ r = .ok none) ∨
        ∃ why, r₁ = .error why ∧ tr = tr₁ ∧ r = .error why) := by
  rcases runs_run_bind.mp h with ⟨x,tr₁,tr₂,rfl,htail,hrest⟩ | ⟨why,rfl,htail⟩
  · cases x with
    | none =>
      obtain ⟨rfl,rfl⟩ := runs_ret.mp hrest
      exact ⟨tr₁,_,htail,.inr (.inl ⟨rfl,List.append_nil tr₁,rfl⟩)⟩
    | some shown =>
      obtain ⟨answer,tr₃,rfl,hret⟩ := runs_op.mp hrest
      refine ⟨tr₁,_,htail,.inl ⟨shown,answer,rfl,?_⟩⟩
      cases answer with
      | ok stream =>
        obtain ⟨rfl,rfl⟩ := runs_ret.mp hret
        exact ⟨rfl,rfl⟩
      | error why =>
        obtain ⟨rfl,rfl⟩ := runs_ret.mp hret
        exact ⟨rfl,rfl⟩
  · exact ⟨tr,_,htail,.inr (.inr ⟨why,rfl,rfl,rfl⟩)⟩

/-- A bounded reading, of all entries or of those that match. -/
def bounded (name : Text) (lines : ℕ) : Option Text → Reading (Option (List Text))
  | none => tail name lines
  | some pattern => search name pattern lines

def boundedArgs (name : Text) (lines : ℕ) : Option Text → List Text
  | none => baseArgs name lines
  | some pattern => baseArgs name lines ++ ["--grep".toList,pattern]

theorem run_bounded {r : Except Message (Option (List Text))}
    (h : Runs (bounded name lines pattern).run tr r) :
    ((slug name = [] ∨ pattern = some []) ∧ tr = [] ∧ ∃ why, r = .error why) ∨
    (slug name ≠ [] ∧ pattern ≠ some []) ∧
      ∃ answer, tr = [⟨.run (boundedArgs name lines pattern),answer⟩] ∧ r = linesOf name answer := by
  cases pattern with
  | none =>
    rcases run_tail h with ⟨hslug,htr,hr⟩ | ⟨hslug,hanswer⟩
    · exact .inl ⟨.inl hslug,htr,hr⟩
    · exact .inr ⟨⟨hslug,nofun⟩,hanswer⟩
  | some pattern =>
    rcases runs_check.mp h with ⟨hslug,h⟩ | ⟨why,hslug,rfl,rfl⟩
    · rcases runs_check.mp h with ⟨hpattern,h⟩ | ⟨why,hpattern,rfl,rfl⟩
      · rw [rejectEmptyPattern,reject_eq_ok,← Bool.not_eq_true,List.isEmpty_iff] at hpattern
        refine .inr ⟨⟨rejectEmptySlug_eq_ok.mp hslug,?_⟩,run_journalctl.mp h⟩
        exact fun heq => hpattern (Option.some.inj heq)
      · refine .inl ⟨.inr ?_,rfl,why,rfl⟩
        rw [rejectEmptyPattern,reject] at hpattern
        split at hpattern
        · rename_i hempty
          rw [List.isEmpty_iff.mp hempty]
        · cases hpattern
    · exact .inl ⟨.inl (rejectEmptySlug_eq_error hslug),rfl,why,rfl⟩

/-- The arguments of a bounded reading ask for the last entries of the app. -/
theorem read_boundedArgs {q : Query} (h : Query.read {} (boundedArgs name lines pattern) = some q) :
    q.entries matching journal = shownEntries matching journal name pattern lines := by
  cases pattern with
  | none =>
    rw [boundedArgs,read_bareArgs] at h
    cases h
    exact entries_asked none false
  | some pattern =>
    rw [boundedArgs,read_baseArgs] at h
    cases h
    exact entries_asked (some pattern) false

theorem unitName_injective_slug {other : Text} (h : unitName name = unitName other) :
    slug name = slug other := List.append_cancel_left h

/-- A bounded reading runs `journalctl` once, or not at all for a name or a pattern that it rejects.
It shows the last entries of the app's own unit, a thousand at the most, and no entry of an app with
another slug: a tail with the oldest first, a search with the newest first. It fails exactly when
`journalctl` did or had nothing but a hint to show; and only an app without such entries, whose
journal could be read, is shown as quiet. -/
theorem reading_faithful {r : Except Message (Option (List Text))}
    (h : Runs (bounded name lines pattern).run tr r) :
    (slug name = [] ∨ pattern = some [] → tr = [] ∧ ∃ why, r = .error why) ∧
    (slug name ≠ [] → pattern ≠ some [] →
      ∃ answer, tr = [⟨.run (boundedArgs name lines pattern),answer⟩] ∧
        (Answers matching journal (boundedArgs name lines pattern) answer →
          Told (shownEntries matching journal name pattern lines) answer r)) ∧
    (shownEntries matching journal name pattern lines).length ≤ maxLines ∧
    ∀ other, slug other ≠ slug name → ∀ e ∈ shownEntries matching journal name pattern lines,
      e.unit ≠ unitName other := by
  refine ⟨fun hbad => ?_,fun hslug hpattern => ?_,length_shownEntries pattern,?_⟩
  · rcases run_bounded h with ⟨-,htr,hr⟩ | ⟨⟨hslug,hpattern⟩,-⟩
    · exact ⟨htr,hr⟩
    · exact absurd hbad (not_or.mpr ⟨hslug,hpattern⟩)
  · rcases run_bounded h with ⟨hbad,-⟩ | ⟨-,answer,htr,rfl⟩
    · exact absurd hbad (not_or.mpr ⟨hslug,hpattern⟩)
    · exact ⟨answer,htr,fun hanswer => linesOf_told hanswer fun q hq => read_boundedArgs hq⟩
  · intro other hother e he heq
    exact hother (unitName_injective_slug ((heq.symm.trans (unit_shownEntries he))))

/-- Entries of the app `web`: it came up, and came up again after the host was booted. -/
def webUp : Entry where
  unit := "kuadrat-web"
  boot := "b8e0"
  first := "2026-08-11T10:00:00+0000 host web[1]: up"
  whole := by decide
  stamped := by decide

def webReady : Entry where
  unit := "kuadrat-web"
  boot := "b8e0"
  first := "2026-08-11T10:00:02+0000 host web[1]: ready"
  whole := by decide
  stamped := by decide

def webUpAgain : Entry where
  unit := "kuadrat-web"
  boot := "c4d1"
  first := "2026-08-12T09:00:00+0000 host web[1]: up"
  more := ["    on the second boot"]
  whole := by decide
  stamped := by decide

/-- A search for `up` shows the two entries that match, the later one first. -/
theorem search_newest_first : entryLines [webUpAgain,webUp] =
      [webUpAgain.first,"    on the second boot",bootMark "b8e0",webUp.first] ∧
    Told [webUpAgain,webUp] (.ok ⟨0,printed [webUpAgain,webUp],[]⟩)
      (linesOf "web" (.ok ⟨0,printed [webUpAgain,webUp],[]⟩)) := by
  have hrun : Runs (bounded "web" 10 (some "up")).run
      [⟨.run (boundedArgs "web" 10 (some "up")),.ok ⟨0,printed [webUpAgain,webUp],[]⟩⟩]
      (linesOf "web" (.ok ⟨0,printed [webUpAgain,webUp],[]⟩)) := .op (.ret _)
  obtain ⟨-,hread,-⟩ := @reading_faithful (fun p e => contains p e.first)
    [webUp,webReady,webUpAgain] "web" 10 (some "up") _ _ hrun
  obtain ⟨answer,htr,htold⟩ := hread (by decide) (by decide)
  cases htr
  refine ⟨by decide +kernel,htold (.read (q := { asked "web" 10 with grep := some "up" }) ?_ [])⟩
  rw [boundedArgs,read_baseArgs]
  rfl

end Runs

end Kuadrat.Logs
