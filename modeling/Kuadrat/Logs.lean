import Kuadrat.Codec.Utf8
import Kuadrat.Deploy.Steps

/-!
# Journal lines

What `journalctl` printed, as the entries shown for an app. A line that is too long is cut
between two characters and marked.
-/
namespace Kuadrat.Logs

open Utf8

def maxLineBytes : ℕ := 8*1024

/-- The loop of `truncate_line`: back to a character boundary, `none` when it would go below
zero. -/
def cutAt (line : List UInt8) : ℕ → Option ℕ
  | 0 => if isCharBoundary line 0 then some 0 else none
  | e+1 => if isCharBoundary line (e+1) then some (e+1) else cutAt line e

/-- What is put behind a line that was cut. -/
def truncationMarker : Text := " …[truncated]"

/-- The line, or its beginning and the marker; `none` is a panic. -/
def truncateLine (line : Text) : Option Text :=
  if (bytes line).length ≤ maxLineBytes then some line
  else do
    let e ← cutAt (bytes line) maxLineBytes
    let kept ← sliceTo (bytes line) e
    return kept ++ truncationMarker

/-- What journald prints for an empty result. -/
def noEntries : Text := "-- No entries --"

def isEntry (line : Text) : Bool := line.trim != noEntries

def parseLines (stdout : Text) : Option (List Text) :=
  (stdout.lines.filter isEntry).mapM truncateLine

/-- The loop stops at the last boundary that is not beyond its start. -/
theorem cutAt_eq {line : List UInt8} {i n : ℕ} (hb : isCharBoundary line i = true) (hle : i ≤ n)
    (hno : ∀ j, i < j → j ≤ n → isCharBoundary line j = false) : cutAt line n = some i := by
  induction n with
  | zero =>
    obtain rfl := Nat.le_zero.mp hle
    rw [cutAt,if_pos hb]
  | succ n ih =>
    rcases Nat.lt_or_eq_of_le hle with hlt | rfl
    · rw [cutAt,hno (n+1) hlt (Nat.le_refl _),if_neg (by simp)]
      exact ih (Nat.le_of_lt_succ hlt) fun j hij hj => hno j hij (by omega)
    · rw [cutAt,if_pos hb]

theorem cutAt_longest {limit : ℕ} {line kept : Text} (h : LongestWithin limit line kept) :
    cutAt (bytes line) limit = some (bytes kept).length := by
  refine cutAt_eq ((isCharBoundary_iff line _).mpr ⟨kept,h.isPrefix,rfl⟩) h.length_le ?_
  intro j hlt hj
  rw [Bool.eq_false_iff]
  intro hb
  obtain ⟨p,hp,rfl⟩ := (isCharBoundary_iff line j).mp hb
  obtain ⟨s,rfl⟩ := h.longest p hp hj
  rw [bytes_append,List.length_append] at hlt
  omega

/-- What a line is shown as. -/
inductive Shown (line : Text) : Text → Prop
  | whole : (bytes line).length ≤ maxLineBytes → Shown line line
  | cut {kept : Text} : maxLineBytes < (bytes line).length →
      LongestWithin maxLineBytes line kept → maxLineBytes ≤ (bytes kept).length+3 →
      Shown line (kept ++ truncationMarker)

theorem Shown.length_le {line entry : Text} (h : Shown line entry) :
    (bytes entry).length ≤ maxLineBytes+(bytes truncationMarker).length := by
  cases h with
  | whole hlen => omega
  | cut hlen hkept hnear =>
    have := hkept.length_le
    rw [bytes_append,List.length_append]
    omega

theorem truncateLine_shown (line : Text) : ∃ entry, truncateLine line = some entry ∧
    Shown line entry := by
  by_cases hlen : (bytes line).length ≤ maxLineBytes
  · exact ⟨line,if_pos hlen,.whole hlen⟩
  · obtain ⟨kept,hkept,hnear⟩ := exists_longestWithin (Nat.le_of_not_le hlen)
    refine ⟨kept ++ truncationMarker,?_,.cut (Nat.lt_of_not_le hlen) hkept hnear⟩
    rw [truncateLine,if_neg hlen,cutAt_longest hkept]
    simp only [Option.bind_eq_bind,Option.bind_some,sliceTo_bytes hkept.isPrefix,Option.pure_def]

/-- The lines but the marker of an empty result, each shown whole or as its longest beginning
within the limit; nothing panics. -/
theorem parseLines_shown (stdout : Text) : ∃ entries, parseLines stdout = some entries ∧
    List.Forall₂ Shown (stdout.lines.filter isEntry) entries ∧
    ∀ entry ∈ entries, (bytes entry).length ≤ maxLineBytes+(bytes truncationMarker).length := by
  rw [parseLines]
  induction stdout.lines.filter isEntry with
  | nil => exact ⟨[],rfl,.nil,by simp⟩
  | cons line l ih =>
    obtain ⟨entry,hentry,hshown⟩ := truncateLine_shown line
    obtain ⟨entries,hrun,hall,hlen⟩ := ih
    refine ⟨entry::entries,?_,.cons hshown hall,List.forall_mem_cons.mpr ⟨hshown.length_le,hlen⟩⟩
    simp [List.mapM_cons,hentry,hrun]

end Kuadrat.Logs
