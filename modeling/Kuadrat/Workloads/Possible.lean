import Kuadrat.Workloads.Outcome

/-!
# Calls that can succeed

Where the last module says what holds after a call, this one says that the host may
let a call succeed: the answers are chosen here, one operation at a time.
-/
namespace Kuadrat

open Effect Machine

variable {paths : Paths} {w : World}

theorem present_can (p : Path) : (World.machine paths).canOk (Run.present p)
    (fun b w' => b = w.fs.present p ∧ w'.fs = w.fs) w :=
  ⟨.done,_,_,rfl,_,rfl,rfl,rfl⟩

theorem removeFile_can {p : Path} (h : (w.fs.contents p).isSome) :
    (World.machine paths).canOk (Run.removeFile p) (fun _ w' => w.fs.removeFile p = some w'.fs) w := by
  have hfs : ∃ fs, w.fs.removeFile p = some fs := by
    unfold FileTree.removeFile
    rw [if_pos (FileTree.mem_files.mpr h)]
    exact ⟨_,rfl⟩
  obtain ⟨fs,hfs⟩ := hfs
  refine ⟨.done,.ok (),{ w with fs := fs }.record (.removeFile p),?_,(),rfl,hfs⟩
  simp [World.machine,World.answer,hfs]

theorem exec_can (c : Command) : (World.machine paths).canOk (Run.exec c)
    (fun out w' => out.success = true ∧ w'.fs = w.fs) w :=
  ⟨.output ⟨0,"",""⟩,_,_,rfl,_,rfl,rfl,rfl⟩

theorem systemctl_can (c : Command) :
    (World.machine paths).canOk (systemctl c) (fun _ w' => w'.fs = w.fs) w := by
  refine canOk_seq (exec_can c) fun out w' h => ?_
  rw [if_pos h.1]
  exact canOk_pure h.2

theorem when_can {c : Bool} {p : Run Unit} {Q : Unit → World → Prop}
    (h : (World.machine paths).canOk p Q w) (h' : Q () w) :
    (World.machine paths).canOk (Run.when c p) Q w := by
  unfold Run.when
  cases c with
  | true => exact h
  | false => exact canOk_pure h'

theorem readToString_can {p : Path} {t : Text} (h : w.fs.contents p = some t) :
    (World.machine paths).canOk (Run.readToString p)
      (fun text w' => text = t ∧ w' = w.record (.readToString p)) w :=
  ⟨.done,.ok t,w.record (.readToString p),by simp [World.machine,World.answer,h],t,rfl,rfl,rfl⟩

/-- A marked file is found to be kuadrat's. -/
theorem ensureOwned_can {p : Path} {t marker : Text} (action : String)
    (h : w.fs.contents p = some t) (hm : marker <+: t) :
    (World.machine paths).canOk (ensureOwned p marker action)
      (fun owned w' => owned = true ∧ w'.fs = w.fs) w := by
  refine canOk_seq (present_can p) fun b w₁ h₁ => ?_
  have hpresent : b = true := by simp [h₁.1,FileTree.present,h]
  rw [if_pos hpresent]
  refine canOk_seq (readToString_can (h₁.2 ▸ h)) fun text w₂ h₂ => ?_
  rw [h₂.1,if_pos (List.isPrefixOf_iff_prefix.mpr hm)]
  refine canOk_pure ⟨rfl,?_⟩
  rw [h₂.2,World.record_fs,h₁.2]

theorem ensureOwned_absent_can {p : Path} {marker : Text} (action : String)
    (h : w.fs.present p = false) : (World.machine paths).canOk (ensureOwned p marker action)
      (fun owned w' => owned = false ∧ w'.fs = w.fs) w := by
  refine canOk_seq (present_can p) fun b w₁ h₁ => ?_
  rw [h₁.1,h]
  exact canOk_pure ⟨rfl,h₁.2⟩

/-- A directory may be listed in any order. -/
theorem readDir_can {dir : Path} {l : List Path} (h : dir ∈ w.fs.dirs)
    (hl : l.Perm (w.fs.entries dir)) : (World.machine paths).canOk (Run.readDir dir)
      (fun entries w' => entries = l ∧ w'.fs = w.fs) w := by
  have hnames : ∃ names : List Text, names.map dir.join = l := by
    refine ⟨l.map fun p => p.getLast?.getD [],?_⟩
    rw [List.map_map]
    conv_rhs => rw [← List.map_id l]
    refine List.map_congr_left fun p hp => ?_
    obtain ⟨n,rfl⟩ := Path.inside_iff.mp (FileTree.inside_of_mem_entries (hl.mem_iff.mp hp))
    simp [Path.join]
  obtain ⟨names,hn⟩ := hnames
  have hlist : (World.machine paths).canOk (.mk (.perform (Eff.readDir dir)) : Run (List Text))
      (fun l w' => l = names ∧ w'.fs = w.fs) w := by
    refine ⟨.entries names,.ok names,w.record (.readDir dir),?_,names,rfl,rfl,rfl⟩
    have hcond : dir ∈ w.fs.dirs ∧ (names.map dir.join).Perm (w.fs.entries dir) := ⟨h,hn ▸ hl⟩
    simp only [World.machine,World.answer,if_pos hcond]
    rfl
  refine canOk_seq hlist fun l w' h' => canOk_pure ⟨?_,h'.2⟩
  rw [h'.1,hn]

section Lone
variable {name file : Text} {keep : List Text}

/-- One entry that is the app's marked task file can be deleted. -/
theorem pruneEntry_can {p : Path} {t : Text} (removed : Bool) (h : w.fs.contents p = some t)
    (hm : Marked t) (hstale : StaleStem name keep p) : (World.machine paths).canOk
      (pruneEntry name keep removed p)
      (fun removed w' => removed = true ∧ w.fs.removeFile p = some w'.fs) w := by
  obtain ⟨stem,-,heq⟩ := pruneEntry_of_stale removed hstale
  rw [heq]
  refine canOk_seq (ensureOwned_can "remove" h hm) fun owned w₁ h₁ => ?_
  rw [if_pos h₁.1]
  have htimer : (World.machine paths).canOk
      (Run.when (p.extension = some ("timer" : Text)) (systemctl (.disableNow (stem ++ ".timer"))))
      (fun _ w' => w'.fs = w₁.fs) w₁ := when_can (systemctl_can _) rfl
  refine canOk_seq htimer fun _ w₂ h₂ => ?_
  have hfs : w₂.fs = w.fs := h₂.trans h₁.2
  refine canOk_seq (removeFile_can (p := p) (by rw [hfs,h]; rfl)) fun _ w₃ h₃ => ?_
  exact canOk_pure ⟨rfl,hfs ▸ h₃⟩

theorem pruneEntry_skip_can {p : Path} (removed : Bool) (hstale : ¬StaleStem name keep p) :
    (World.machine paths).canOk (pruneEntry name keep removed p)
      (fun r w' => r = removed ∧ w'.fs = w.fs) w := by
  rw [pruneEntry_of_not_stale removed hstale]
  exact canOk_pure ⟨rfl,rfl⟩

theorem pruneDir_absent_can {dir : Path} (removed : Bool) (h : w.fs.present dir = false) :
    (World.machine paths).canOk (pruneDir name keep removed dir)
      (fun r w' => r = removed ∧ w'.fs = w.fs) w := by
  refine canOk_seq (present_can dir) fun b w₁ h₁ => ?_
  rw [h₁.1,h]
  exact canOk_pure ⟨rfl,h₁.2⟩

/-- With a single marked file in the Quadlet directory and none of systemd's, pruning can
succeed: it then deletes the file if it looks like a task of the app. -/
theorem pruneTasks_can {t : Text} (hm : Marked t) (hw : w.fs = .single paths.quadletDir file t) :
    (World.machine paths).canOk (pruneTasks paths name []) (fun _ w' =>
      (w'.fs = w.fs ∧ ¬StaleStem name [] (paths.quadletDir.join file)) ∨
      w.fs.removeFile (paths.quadletDir.join file) = some w'.fs) w := by
  have hentries : w.fs.entries paths.quadletDir = [paths.quadletDir.join file] := by
    rw [hw,FileTree.entries_single]
  have hdir : paths.quadletDir ∈ w.fs.dirs := by
    rw [hw]
    exact FileTree.mem_dirs_single.mpr (List.prefix_refl _)
  have hcontents : w.fs.contents (paths.quadletDir.join file) = some t := by
    rw [hw,FileTree.contents_single,if_pos rfl]
  have hsystemd : w.fs.present paths.systemdDir = false := by
    rw [hw]
    refine FileTree.present_single (fun h => paths.quadlet_above ?_) paths.systemd_above
    rw [h]
    exact List.prefix_append _ _
  unfold pruneTasks
  rw [List.foldlM_cons]
  refine canOk_seq (P := fun _ w' =>
    (w'.fs = w.fs ∧ ¬StaleStem name [] (paths.quadletDir.join file)) ∨
    w.fs.removeFile (paths.quadletDir.join file) = some w'.fs) ?_ fun removed w₁ h₁ => ?_
  · refine canOk_seq (present_can _) fun b w₁ h₁ => ?_
    have hpresent : b = true := by simp [h₁.1,FileTree.present,hdir]
    rw [if_pos hpresent]
    refine canOk_seq (readDir_can (h₁.2 ▸ hdir) (.refl _)) fun entries w₂ h₂ => ?_
    rw [h₂.1,h₁.2,hentries,List.foldlM_cons]
    have hfs : w₂.fs = w.fs := h₂.2.trans h₁.2
    by_cases hstale : StaleStem name [] (paths.quadletDir.join file)
    · refine canOk_seq (pruneEntry_can false (hfs ▸ hcontents) hm hstale) fun _ w₃ h₃ => ?_
      exact canOk_pure (.inr (hfs ▸ h₃.2))
    · refine canOk_seq (pruneEntry_skip_can false hstale) fun _ w₃ h₃ => ?_
      exact canOk_pure (.inl ⟨h₃.2.trans hfs,hstale⟩)
  · have hgone : w₁.fs.present paths.systemdDir = false := by
      rcases h₁ with h₁ | h₁
      · rw [h₁.1,hsystemd]
      · have hc := FileTree.contents_of_removeFile h₁
        simp only [FileTree.present,Bool.or_eq_false_iff] at hsystemd ⊢
        rw [FileTree.dirs_of_removeFile h₁,hc,Function.update_apply]
        refine ⟨?_,hsystemd.2⟩
        split
        · rfl
        · exact hsystemd.1
    rw [List.foldlM_cons]
    refine canOk_seq (pruneDir_absent_can removed hgone) fun _ w₂ h₂ => ?_
    rw [List.foldlM_nil]
    exact canOk_pure (h₂.2 ▸ h₁)

/-- Removing an app can succeed when the only file is one that its paths claim. -/
theorem remove_can {t : Text} (hm : Marked t) (hw : w.fs = .single paths.quadletDir file t)
    (hp : paths.quadletDir.join file = unitPath paths name ∨
      OwnTask paths name (paths.quadletDir.join file)) :
    (World.machine paths).canOk (remove paths name) (fun _ _ => True) w := by
  refine canOk_seq (pruneTasks_can hm hw) fun pruned w₁ h₁ => ?_
  rcases h₁ with ⟨hfs,hstale⟩ | h₁
  · have hunit : paths.quadletDir.join file = unitPath paths name := by
      refine hp.resolve_right fun ho => hstale ?_
      obtain ⟨-,stem,hs,hpre⟩ := ho
      exact ⟨stem,hs,hpre,List.not_mem_nil⟩
    have hcontents : w₁.fs.contents (unitPath paths name) = some t := by
      rw [hfs,hw,FileTree.contents_single,if_pos hunit.symm]
    refine canOk_seq (ensureOwned_can "remove" hcontents hm) fun owned w₂ h₂ => ?_
    rw [if_pos h₂.1]
    refine canOk_seq (systemctl_can _) fun _ w₃ h₃ => ?_
    refine canOk_seq (removeFile_can (by rw [h₃,h₂.2,hcontents]; rfl)) fun _ w₄ _ => ?_
    exact canOk_mono (systemctl_can _) fun _ _ _ => trivial
  · have habsent : w₁.fs.present (unitPath paths name) = false := by
      have hlong : ¬unitPath paths name <+: paths.quadletDir := by
        intro h
        have hle := h.length_le
        simp only [unitPath,Path.join,List.length_append,List.length_singleton] at hle
        omega
      simp only [FileTree.present,Bool.or_eq_false_iff]
      rw [FileTree.contents_of_removeFile h₁,FileTree.dirs_of_removeFile h₁,hw,Function.update_apply,
        FileTree.contents_single]
      constructor
      · split <;> rfl
      · simpa using fun h => hlong (FileTree.mem_dirs_single.mp h)
    refine canOk_seq (ensureOwned_absent_can "remove" habsent) fun owned w₂ h₂ => ?_
    rw [h₂.1]
    exact when_can (canOk_mono (systemctl_can _) fun _ _ _ => trivial) trivial

end Lone
end Kuadrat
