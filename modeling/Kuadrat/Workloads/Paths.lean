import Kuadrat.Spec

/-!
# Filesystem locations

A path is the list of its components, with an empty first one for the root. The
names of every artefact kuadrat writes are built from slugs behind one prefix.
-/
namespace Kuadrat

abbrev Path := List Text

namespace Path

def join (dir : Path) (name : Text) : Path := dir ++ [name]

/-- The text of a path, with one separator between two components. Of a path that was given with
more of them it is another text, for the same file. -/
def display (p : Path) : Text := Text.join "/" p

/-- `Path::new`: repeated separators count as one. -/
def ofText (t : Text) : Path :=
  match t.splitOn '/' with
  | [] => []
  | first::rest => first::rest.filter (· ≠ [])

theorem notMem_of_mem_splitOn {c : Char} {t part : Text} (h : part ∈ t.splitOn c) : c ∉ part := by
  induction t generalizing part with
  | nil =>
    rw [List.mem_singleton.mp h]
    exact List.not_mem_nil
  | cons x t ih =>
    rw [List.splitOn_cons_eq_if_modifyHead] at h
    obtain ⟨first,rest,hsplit⟩ := List.exists_cons_of_ne_nil (List.splitOn_ne_nil c t)
    rw [hsplit] at h ih
    split at h
    · rcases List.mem_cons.mp h with rfl | h
      · exact List.not_mem_nil
      · exact ih h
    · rename_i hne
      rcases List.mem_cons.mp h with rfl | h
      · rw [List.mem_cons,not_or]
        exact ⟨fun heq => hne (by simp [heq]),ih List.mem_cons_self⟩
      · exact ih (List.mem_cons_of_mem _ h)

/-- A path that is printed and read again is the same. -/
theorem ofText_display (t : Text) : ofText (ofText t).display = ofText t := by
  obtain ⟨first,rest,hsplit⟩ := List.exists_cons_of_ne_nil (List.splitOn_ne_nil '/' t)
  have hpath : ofText t = first::rest.filter (· ≠ []) := by rw [ofText,hsplit]
  have hparts : (ofText t).display.splitOn '/' = ofText t := by
    rw [hpath]
    refine List.splitOn_intercalate '/' (fun part h => ?_) (List.cons_ne_nil _ _)
    refine notMem_of_mem_splitOn (t := t) ?_
    rw [hsplit]
    rcases List.mem_cons.mp h with rfl | h
    · exact List.mem_cons_self
    · exact List.mem_cons_of_mem _ (List.mem_filter.mp h).1
  rw [ofText,hparts,hpath]
  simp only [List.filter_filter,Bool.and_self]

/-- `std`'s split of a file name at its last dot, with the dot of a hidden file kept. -/
def splitAtDot (name : Text) : Text × Option Text :=
  if name = ['.','.'] then (name,none)
  else match Text.rsplitOnce '.' name with
    | none => (name,none)
    | some ([],_) => (name,none)
    | some (before,after) => (before,some after)

def fileName (p : Path) : Option Text :=
  p.getLast?.filter fun name => name ≠ [] ∧ name ≠ ['.'] ∧ name ≠ ['.','.']

def fileStem (p : Path) : Option Text := p.fileName.map fun name => (splitAtDot name).1
def extension (p : Path) : Option Text := p.fileName.bind fun name => (splitAtDot name).2

/-- `p` stands directly inside `dir`. -/
def Inside (dir p : Path) : Prop := p ≠ [] ∧ p.dropLast = dir

instance (dir p : Path) : Decidable (Inside dir p) := inferInstanceAs (Decidable (_ ∧ _))

theorem inside_iff {dir p : Path} : Inside dir p ↔ ∃ name, p = dir.join name := by
  constructor
  · rintro ⟨hne,rfl⟩
    exact ⟨p.getLast hne,(List.dropLast_concat_getLast hne).symm⟩
  · rintro ⟨name,rfl⟩
    exact ⟨by simp [join],by simp [join]⟩

@[simp] theorem inside_join (dir dir' : Path) (name : Text) :
    Inside dir (dir'.join name) ↔ dir' = dir := by simp [Inside,join]

theorem join_inj {dir dir' : Path} {name name' : Text} :
    dir.join name = dir'.join name' ↔ dir = dir' ∧ name = name' := by simp [join]

section Dotted
variable (dir : Path) {stem ext : Text} (hs : stem ≠ []) (hx : ext ≠ []) (he : '.' ∉ ext)
include hs hx he

omit he in
theorem dotted_ne_dots : stem ++ '.'::ext ≠ ['.','.'] := by
  intro h
  have hlen := congrArg List.length h
  have hpos := List.length_pos_iff.mpr hs
  have hpos' := List.length_pos_iff.mpr hx
  simp only [List.length_append,List.length_cons,List.length_nil] at hlen
  omega

theorem splitAtDot_dotted : splitAtDot (stem ++ '.'::ext) = (stem,some ext) := by
  simp only [splitAtDot,if_neg (dotted_ne_dots hs hx),Text.rsplitOnce_append '.' stem ext he]

omit he in
private theorem fileName_dotted :
    (dir.join (stem ++ '.'::ext)).fileName = some (stem ++ '.'::ext) := by
  have hdot : stem ++ '.'::ext ≠ ['.'] := by
    cases stem with
    | nil => exact absurd rfl hs
    | cons c rest => simp
  simp [fileName,join,hdot,dotted_ne_dots hs hx]

/-- The stem of a dotted file name is what stands before its last dot. -/
theorem fileStem_dotted : (dir.join (stem ++ '.'::ext)).fileStem = some stem := by
  simp [fileStem,fileName_dotted dir hs hx,splitAtDot_dotted hs hx he]

theorem extension_dotted : (dir.join (stem ++ '.'::ext)).extension = some ext := by
  simp [extension,fileName_dotted dir hs hx,splitAtDot_dotted hs hx he]

end Dotted
end Path

/-- Namespace prefix on every artefact kuadrat creates. -/
def unitPrefix : Text := "kuadrat-"

/-- Filesystem locations kuadrat writes to. The three directories are kept apart: systemd
never reads a `.timer` out of the Quadlet directory, and neither unit directory is inside the
other. -/
structure Paths where
  quadletDir : Path
  caddyDir : Path
  systemdDir : Path
  quadlet_ne_systemd : quadletDir ≠ systemdDir
  quadlet_ne_caddy : quadletDir ≠ caddyDir
  systemd_ne_caddy : systemdDir ≠ caddyDir
  quadlet_above : ¬quadletDir <+: systemdDir
  systemd_above : ¬systemdDir <+: quadletDir

namespace Paths

def default : Paths where
  quadletDir := ["","etc","containers","systemd"]
  caddyDir := ["","etc","caddy","kuadrat.d"]
  systemdDir := ["","etc","systemd","system"]
  quadlet_ne_systemd := by decide
  quadlet_ne_caddy := by decide
  systemd_ne_caddy := by decide
  quadlet_above := by decide
  systemd_above := by decide

/-- All paths relative to `root`. -/
def rooted (root : Path) : Paths where
  quadletDir := (root.join "containers").join "systemd"
  caddyDir := (root.join "caddy").join "kuadrat.d"
  systemdDir := (root.join "systemd").join "system"
  quadlet_ne_systemd h := absurd (Path.join_inj.mp h).2 (by decide)
  quadlet_ne_caddy h := absurd (Path.join_inj.mp h).2 (by decide)
  systemd_ne_caddy h := absurd (Path.join_inj.mp h).2 (by decide)
  quadlet_above h := by
    rw [Path.join,Path.join,Path.join,Path.join,List.append_assoc,List.append_assoc,
      List.prefix_append_right_inj] at h
    revert h
    decide
  systemd_above h := by
    rw [Path.join,Path.join,Path.join,Path.join,List.append_assoc,List.append_assoc,
      List.prefix_append_right_inj] at h
    revert h
    decide

end Paths

/-- Name of the generated unit, without extension: also the systemd service name. -/
def unitName (specName : Text) : Text := unitPrefix ++ slug specName

def unitPath (paths : Paths) (specName : Text) : Path :=
  paths.quadletDir.join (unitName specName ++ ".container")

/-- Unit name (no extension) for one scheduled task: `kuadrat-<app>-task-<task>`. -/
def taskUnitName (specName taskName : Text) : Text :=
  unitPrefix ++ slug specName ++ "-task-" ++ slug taskName

def taskContainerPath (paths : Paths) (specName taskName : Text) : Path :=
  paths.quadletDir.join (taskUnitName specName taskName ++ ".container")

/-- The `.timer` for one task, in the directory where systemd will read it. -/
def taskTimerPath (paths : Paths) (specName taskName : Text) : Path :=
  paths.systemdDir.join (taskUnitName specName taskName ++ ".timer")

/-- The filename-stem prefix every one of an app's task units shares. -/
def taskStemPrefix (specName : Text) : Text := unitPrefix ++ slug specName ++ "-task-"

end Kuadrat
