import Kuadrat.Workloads.Render
import Mathlib.Data.List.AList
import Mathlib.Data.List.Infix

/-!
# The host's files

A tree is its files by path together with its directories. A file's parent is
always one of the directories, and no file is a directory.
-/
namespace Kuadrat

structure FileTree where
  files : AList fun _ : Path => Text
  dirs : List Path
  parent_dir : ∀ p ∈ files, p.dropLast ∈ dirs
  file_not_dir : ∀ p ∈ files, p ∉ dirs

instance (p : Path) (dirs : List Path) : Decidable (p ∈ dirs) :=
  List.instDecidableMemOfLawfulBEq p dirs

namespace FileTree

def empty : FileTree where
  files := ∅
  dirs := []
  parent_dir p h := absurd h (AList.notMem_empty p)
  file_not_dir p h := absurd h (AList.notMem_empty p)

/-- A tree of one file. -/
def single (dir : Path) (name text : Text) : FileTree where
  files := AList.singleton (dir.join name) text
  dirs := dir.inits
  parent_dir p h := by
    rw [← AList.insert_empty,AList.mem_insert] at h
    obtain rfl := h.resolve_right (AList.notMem_empty p)
    exact (List.mem_inits _ _).mpr (by simp [Path.join])
  file_not_dir p h hd := by
    rw [← AList.insert_empty,AList.mem_insert] at h
    obtain rfl := h.resolve_right (AList.notMem_empty p)
    have hle := ((List.mem_inits _ _).mp hd).length_le
    simp only [Path.join,List.length_append,List.length_singleton] at hle
    omega

def contents (t : FileTree) (p : Path) : Option Text := t.files.lookup p

/-- `stat` finds a file or a directory. -/
def present (t : FileTree) (p : Path) : Bool := (t.contents p).isSome || t.dirs.contains p

/-- Every file and directory directly inside `dir`. -/
def entries (t : FileTree) (dir : Path) : List Path :=
  (t.files.keys ++ t.dirs).filter fun p => Path.Inside dir p

/-- Writing needs the parent directory, and refuses a path that is a directory. -/
def write (t : FileTree) (p : Path) (text : Text) : Option FileTree :=
  if h : p.dropLast ∈ t.dirs ∧ p ∉ t.dirs then
    some { t with
      files := t.files.insert p text
      parent_dir := fun q hq => by
        rcases AList.mem_insert t.files |>.mp hq with rfl | hq
        · exact h.1
        · exact t.parent_dir q hq
      file_not_dir := fun q hq => by
        rcases AList.mem_insert t.files |>.mp hq with rfl | hq
        · exact h.2
        · exact t.file_not_dir q hq }
  else none

/-- A directory and all its ancestors; fails where one of them is a file. -/
def createDirAll (t : FileTree) (p : Path) : Option FileTree :=
  if h : ∀ d ∈ p.inits, (t.contents d).isNone then
    some { t with
      dirs := p.inits ++ t.dirs
      parent_dir := fun q hq => List.mem_append_right _ (t.parent_dir q hq)
      file_not_dir := fun q hq hd => by
        rcases List.mem_append.mp hd with hd | hd
        · have hnone := h q hd
          rw [Option.isNone_iff_eq_none,contents,AList.lookup_eq_none] at hnone
          exact hnone hq
        · exact t.file_not_dir q hq hd }
  else none

def removeFile (t : FileTree) (p : Path) : Option FileTree :=
  if p ∈ t.files then
    some { t with
      files := t.files.erase p
      parent_dir := fun q hq => t.parent_dir q (AList.mem_erase.mp hq).2
      file_not_dir := fun q hq => t.file_not_dir q (AList.mem_erase.mp hq).2 }
  else none

theorem mem_files {t : FileTree} {p : Path} : p ∈ t.files ↔ (t.contents p).isSome :=
  AList.lookup_isSome.symm

theorem contents_of_write {t t' : FileTree} {p : Path} {text : Text}
    (h : t.write p text = some t') : t'.contents = Function.update t.contents p (some text) := by
  unfold write at h
  split at h
  · cases h
    funext q
    by_cases hq : q = p
    · subst hq
      simp [contents]
    · simp [contents,AList.lookup_insert_ne hq,Function.update_of_ne hq]
  · cases h

theorem contents_of_createDirAll {t t' : FileTree} {p : Path}
    (h : t.createDirAll p = some t') : t'.contents = t.contents := by
  unfold createDirAll at h
  split at h <;> cases h
  rfl

theorem contents_of_removeFile {t t' : FileTree} {p : Path}
    (h : t.removeFile p = some t') : t'.contents = Function.update t.contents p none := by
  unfold removeFile at h
  split at h
  · cases h
    funext q
    by_cases hq : q = p
    · subst hq
      simp [contents]
    · simp [contents,AList.lookup_erase_ne hq,Function.update_of_ne hq]
  · cases h

theorem contents_single (dir : Path) (name text : Text) (p : Path) :
    (single dir name text).contents p = if p = dir.join name then some text else none := by
  by_cases h : p = dir.join name
  · subst h
    simp [contents,single,← AList.insert_empty]
  · simp [contents,single,← AList.insert_empty,AList.lookup_insert_ne h,h]

theorem dirs_of_removeFile {t t' : FileTree} {p : Path} (h : t.removeFile p = some t') :
    t'.dirs = t.dirs := by
  unfold removeFile at h
  split at h <;> cases h
  rfl

theorem dirs_of_write {t t' : FileTree} {p : Path} {text : Text}
    (h : t.write p text = some t') : t'.dirs = t.dirs := by
  unfold write at h
  split at h <;> cases h
  rfl

/-- Where a directory was made, no file stood in the way. -/
theorem createDirAll_eq_some {t t' : FileTree} {p : Path} (h : t.createDirAll p = some t') :
    (∀ d ∈ p.inits, t.contents d = none) ∧ t'.dirs = p.inits ++ t.dirs := by
  unfold createDirAll at h
  split at h
  · rename_i hfree
    cases h
    exact ⟨fun d hd => by simpa using hfree d hd,rfl⟩
  · cases h

theorem exists_createDirAll {t : FileTree} {p : Path} (h : ∀ d ∈ p.inits, t.contents d = none) :
    ∃ t', t.createDirAll p = some t' := by
  unfold createDirAll
  rw [dif_pos fun d hd => by rw [h d hd]; rfl]
  exact ⟨_,rfl⟩

theorem exists_write {t : FileTree} {p : Path} (text : Text) (hparent : p.dropLast ∈ t.dirs)
    (hp : p ∉ t.dirs) : ∃ t', t.write p text = some t' := by
  unfold write
  rw [dif_pos ⟨hparent,hp⟩]
  exact ⟨_,rfl⟩

section Single
variable {dir : Path} {name text : Text}

theorem mem_dirs_single {p : Path} : p ∈ (single dir name text).dirs ↔ p <+: dir :=
  List.mem_inits _ _

theorem entries_single : (single dir name text).entries dir = [dir.join name] := by
  have hkeys : (single dir name text).files.keys = [dir.join name] := rfl
  have hdirs : (single dir name text).dirs.filter (fun p => Path.Inside dir p) = [] := by
    refine List.filter_eq_nil_iff.mpr fun p hp => ?_
    have hle := (mem_dirs_single.mp hp).length_le
    simp only [decide_eq_true_eq]
    rintro ⟨hne,rfl⟩
    rw [List.length_dropLast] at hle
    have hpos := List.length_pos_iff.mpr hne
    omega
  rw [entries,hkeys,List.filter_append,hdirs,List.append_nil]
  exact List.filter_eq_self.mpr (by simp)

/-- Neither a file next to the only one nor anything outside its directory is there. -/
theorem present_single {p : Path} (hp : p ≠ dir.join name) (hd : ¬p <+: dir) :
    (single dir name text).present p = false := by
  have hmem : p ∉ (single dir name text).dirs := fun h => hd (mem_dirs_single.mp h)
  simp [present,contents_single,hp,hmem]

end Single

/-- A file directly inside a directory is one of its entries. -/
theorem mem_entries_of_contents {t : FileTree} {dir p : Path} (hp : Path.Inside dir p)
    (hc : (t.contents p).isSome) : p ∈ t.entries dir := by
  have hkey : p ∈ t.files.keys := AList.mem_keys.mp (mem_files.mpr hc)
  simp [entries,hp,hkey]

theorem inside_of_mem_entries {t : FileTree} {dir p : Path} (h : p ∈ t.entries dir) :
    Path.Inside dir p := by
  simpa using (List.mem_filter.mp h).2

/-- What is no entry of its directory is not there at all. -/
theorem absent_of_not_entry {t : FileTree} {dir p : Path} (hp : Path.Inside dir p)
    (h : p ∉ t.entries dir) : t.contents p = none ∧ p ∉ t.dirs := by
  have hkeys : p ∉ t.files.keys ∧ p ∉ t.dirs := by simpa [entries,hp] using h
  refine ⟨?_,hkeys.2⟩
  by_contra hne
  exact hkeys.1 (AList.mem_keys.mp (mem_files.mpr (Option.isSome_iff_ne_none.mpr hne)))

/-- A directory that is absent has no files inside. -/
theorem contents_eq_none_of_absent {t : FileTree} {dir p : Path} (hp : Path.Inside dir p)
    (h : t.present dir = false) : t.contents p = none := by
  by_contra hne
  have hfile : p ∈ t.files := mem_files.mpr (Option.isSome_iff_ne_none.mpr hne)
  have hdir := t.parent_dir p hfile
  rw [hp.2] at hdir
  simp [present,hdir] at h

end FileTree
end Kuadrat
