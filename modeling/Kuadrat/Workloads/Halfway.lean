import Kuadrat.Workloads.Refusal
import Kuadrat.Workloads.Possible

/-!
# Refused halfway

Exactly when a refused call can leave a changed host behind. A route is checked before
anything is done. Applying writes its own files before it scans for stale ones, and both
scans delete owned files until they meet a foreign one.
-/
namespace Kuadrat

open Effect Machine

section Conditions
variable (paths : Paths)

/-- Pruning meets a foreign file after something was done: `before` it, or by deleting an owned
file on the way. `pass` says that the Quadlet directory can be scanned to its end. -/
def MeetsForeign (name : Text) (keep : List Text) (before pass : Prop) (fs : FileTree) : Prop :=
  (HasForeign name keep fs paths.quadletDir ∧ (before ∨ HasOwned name keep fs paths.quadletDir)) ∨
  pass ∧ HasForeign name keep fs paths.systemdDir ∧
    (before ∨ HasOwned name keep fs paths.quadletDir ∨ HasOwned name keep fs paths.systemdDir)

/-- Removing deletes an owned task file, and is then refused for another one or for the unit. -/
def RemovesFirst (name : Text) (fs : FileTree) : Prop :=
  MeetsForeign paths name [] False (Passes name [] fs paths.quadletDir) fs ∨
  Passes name [] fs paths.quadletDir ∧ Passes name [] fs paths.systemdDir ∧
    ¬Clean fs.contents (unitPath paths name) ∧
    (HasOwned name [] fs paths.quadletDir ∨ HasOwned name [] fs paths.systemdDir)

/-- No file stands where the directory or one of its ancestors is to be. -/
def Creatable (fs : FileTree) (dir : Path) : Prop := ∀ d ∈ dir.inits, fs.contents d = none

/-- Everything that applying asks for before its first write is in order, and its writes are
possible. -/
structure Writable (spec : WorkloadSpec) (fs : FileTree) : Prop where
  valid : spec.validate = .ok ()
  quadlet : Creatable fs paths.quadletDir
  systemd : spec.tasks ≠ [] → Creatable fs paths.systemdDir
  free : ∀ p t, (p,t) ∈ unitFiles paths spec → p ∉ fs.dirs ∧ Clean fs.contents p

/-- A file of the spec is missing or different. -/
def Outdated (spec : WorkloadSpec) (fs : FileTree) : Prop :=
  ∃ p t, (p,t) ∈ unitFiles paths spec ∧ fs.contents p ≠ some t

/-- Applying writes the spec's files, and is then refused for a stale task file. -/
def WritesFirst (spec : WorkloadSpec) (fs : FileTree) : Prop :=
  Writable paths spec fs ∧ MeetsForeign paths spec.name (keepOf spec) (Outdated paths spec fs)
    (AllClear spec.name (keepOf spec) fs paths.quadletDir) fs

/-- The call can be refused after it has changed something. -/
def FileCall.Halfway (fs : FileTree) : FileCall → Prop
  | .apply spec => WritesFirst paths spec fs
  | .remove name => RemovesFirst paths name fs
  | .applyRoute _ _ | .removeRoute _ => False

/-- However the host answers, a refused call leaves it still. -/
def LeavesHost {α : Type} (p : Run α) (w : World) : Prop :=
  ∀ answers r w', (World.machine paths).finish answers p.run w = some (r,w') →
    Refused r w' → Still w w'

end Conditions

section Forward
variable {paths : Paths} {w : World} {spec : WorkloadSpec} {name slug : Text} {route : Route}

/-- A refused route has changed nothing. -/
theorem applyRoute_refusal : wp (host paths fun _ _ => True) (applyRoute paths slug route).run
    (fun r w' => Refused r w' → Still w w') w := by
  have hrest : Unrefusing paths (do
      Run.createDirAll paths.caddyDir
      Run.write (fragmentPath paths slug) (renderFragment route)
      reloadCaddy) :=
    unrefusing_seq (unrefusing_createDirAll _) fun _ => unrefusing_seq (unrefusing_write _ _) fun _ =>
      unrefusing_reloadCaddy
  refine wp_run_seq (ensureOwned_refusal _ _) (fun _ w₁ _ => ?_) fun e w₁ h₁ _ => h₁.1.2
  exact wp_mono (hrest w₁) fun r w' h hr => absurd hr (not_refused h)

theorem removeRoute_refusal : wp (host paths fun _ _ => True) (removeRoute paths slug).run
    (fun r w' => Refused r w' → Still w w') w := by
  have hrest : Unrefusing paths (do
      Run.removeFile (fragmentPath paths slug)
      reloadCaddy) :=
    unrefusing_seq (unrefusing_removeFile _) fun _ => unrefusing_reloadCaddy
  refine wp_run_seq (ensureOwned_refusal _ _) (fun owned w₁ _ => ?_) fun e w₁ h₁ _ => h₁.1.2
  split
  · exact wp_mono (hrest w₁) fun r w' h hr => absurd hr (not_refused h)
  · exact fun hr => absurd hr not_refused_ok

/-- A refused removal has changed nothing, or deleted an owned task file first. -/
theorem remove_refusal : wp (host paths fun _ _ => True) (remove paths name).run
    (fun r w' => Refused r w' → Still w w' ∨ RemovesFirst paths name w.fs) w := by
  have hrest : ∀ pruned owned, Unrefusing paths (if owned = true then do
        systemctl (.stop (unitName name))
        Run.removeFile (unitPath paths name)
        systemctl .daemonReload
      else Run.when pruned (systemctl .daemonReload)) := by
    intro pruned owned
    split
    · exact unrefusing_seq (unrefusing_systemctl _) fun _ =>
        unrefusing_seq (unrefusing_removeFile _) fun _ => unrefusing_systemctl _
    · exact unrefusing_when (unrefusing_systemctl _)
  refine wp_run_seq pruneTasks_refusal (fun pruned w₁ h₁ => ?_) fun e w₁ h₁ hr => ?_
  · obtain ⟨hswept,hstill,hok,-⟩ := h₁
    obtain ⟨hquadlet,hsystemd⟩ := hok pruned rfl
    refine wp_run_seq (ensureOwned_refusal _ _) (fun owned w₂ _ => ?_) fun e w₂ h₂ hr => ?_
    · exact wp_mono (hrest pruned owned w₂) fun r w' h hr => absurd hr (not_refused h)
    · have hunit : ¬Clean w.fs.contents (unitPath paths name) :=
        fun hc => h₂.2.2 hr.error (hswept.clean.mpr hc)
      exact hstill.imp (fun h => h.trans h₂.1.2) fun howned =>
        .inr ⟨hquadlet,hsystemd,hunit,howned⟩
  · obtain ⟨-,hstill,-,href⟩ := h₁
    rcases href hr.error with ⟨hforeign,hstill'⟩ | ⟨hpass,hforeign⟩
    · exact hstill'.imp_right fun howned => .inl (.inl ⟨hforeign,.inr howned⟩)
    · exact hstill.imp_right fun howned => .inl (.inr ⟨hpass,hforeign,.inr howned⟩)

/-- All the files of a spec pass the check, or the first that does not is refused. -/
theorem checkOwned_refusal : wp (host paths fun _ _ => True)
    (checkOwned (unitPath paths spec.name) (spec.tasks.map (TaskFiles.of paths spec))).run
    (fun r w' => (w'.fs = w.fs ∧ Still w w') ∧ ∀ u, r = .ok u →
      ∀ p t, (p,t) ∈ unitFiles paths spec → p ∉ w.fs.dirs ∧ Clean w.fs.contents p) w := by
  refine wp_and (wp_looks (all_checkOwned ⟨fun _ => trivial,fun _ => trivial⟩ _ _)) ?_
  unfold checkOwned
  refine wp_run_seq (ensureOwned_refusal _ _) (fun _ w₁ h₁ => ?_) fun _ _ _ => nofun
  have hunit := (h₁.2.1 _ rfl)
  rw [List.forM_map]
  -- The tasks still to come are not checked yet.
  refine wp_forM (fun (rest : List ScheduledTask) w' => w'.fs = w.fs ∧ ∀ p t,
    (p,t) ∈ unitFiles paths spec → (p ∉ w.fs.dirs ∧ Clean w.fs.contents p) ∨ ∃ task ∈ rest,
      p = taskContainerPath paths spec.name task.name ∨
      p = taskTimerPath paths spec.name task.name) ?_ (fun task rest w₂ h₂ => ?_) fun w₂ h₂ => ?_
  · refine ⟨h₁.1.1,fun p t hp => ?_⟩
    rcases mem_unitFiles.mp hp with ⟨rfl,-⟩ | ⟨task,ht,⟨rfl,-⟩ | ⟨rfl,-⟩⟩
    · exact .inl ⟨hunit.1,hunit.2.1⟩
    · exact .inr ⟨task,ht,.inl rfl⟩
    · exact .inr ⟨task,ht,.inr rfl⟩
  · refine wp_run_seq (ensureOwned_refusal _ _) (fun _ w₃ h₃ => ?_) fun _ _ _ => nofun
    refine wp_run_seq (ensureOwned_refusal _ _) (fun _ w₄ h₄ => ?_) fun _ _ _ => nofun
    have hcontainer := h₃.2.1 _ rfl
    have htimer := h₄.2.1 _ rfl
    rw [h₂.1] at hcontainer
    rw [h₃.1.1,h₂.1] at htimer
    refine ⟨h₄.1.1.trans (h₃.1.1.trans h₂.1),fun p t hp => ?_⟩
    rcases h₂.2 p t hp with hclear | ⟨task',ht',hp'⟩
    · exact .inl hclear
    rcases List.mem_cons.mp ht' with rfl | ht'
    · rcases hp' with rfl | rfl
      · exact .inl ⟨hcontainer.1,hcontainer.2.1⟩
      · exact .inl ⟨htimer.1,htimer.2.1⟩
    · exact .inr ⟨task',ht',hp'⟩
  · exact fun _ _ p t hp => (h₂.2 p t hp).resolve_right (by simp)

/-- The directories after the writes. -/
def Extended (paths : Paths) (spec : WorkloadSpec) (fs fs' : FileTree) : Prop :=
  ∀ p, p ∈ fs'.dirs ↔ p ∈ fs.dirs ∨ p <+: paths.quadletDir ∨
    spec.tasks ≠ [] ∧ p <+: paths.systemdDir

theorem wpOk_write_dirs (p : Path) (t : Text) : wpOk (host paths fun _ _ => True) (Run.write p t)
    (fun _ w' => w'.fs.dirs = w.fs.dirs) w :=
  wp_write trivial (fun _ _ h _ _ => FileTree.dirs_of_write h) fun _ _ b hb => by cases hb

theorem wpOk_createDirAll (p : Path) : wpOk (host paths fun _ _ => True) (Run.createDirAll p)
    (fun _ w' => Creatable w.fs p ∧ w'.fs.contents = w.fs.contents ∧
      w'.fs.dirs = p.inits ++ w.fs.dirs) w := by
  refine wp_createDirAll trivial (fun fs _ h _ _ => ?_) fun _ _ b hb => by cases hb
  obtain ⟨hfree,hdirs⟩ := FileTree.createDirAll_eq_some h
  exact ⟨hfree,FileTree.contents_of_createDirAll h,hdirs⟩

theorem writeUnits_extended : wpOk (host paths fun _ _ => True)
    (writeUnits paths (unitPath paths spec.name) (unitText spec)
      (spec.tasks.map (TaskFiles.of paths spec)))
    (fun _ w' => Creatable w.fs paths.quadletDir ∧
      (spec.tasks ≠ [] → Creatable w.fs paths.systemdDir) ∧ Extended paths spec w.fs w'.fs) w := by
  refine wpOk_seq (wpOk_createDirAll _) fun _ w₁ h₁ => ?_
  have hdir : wpOk (host paths fun _ _ => True)
      (Run.when (!(spec.tasks.map (TaskFiles.of paths spec)).isEmpty)
        (Run.createDirAll paths.systemdDir)) (fun _ w' =>
          (spec.tasks ≠ [] → Creatable w₁.fs paths.systemdDir) ∧
          ∀ p, p ∈ w'.fs.dirs ↔ p ∈ w₁.fs.dirs ∨ spec.tasks ≠ [] ∧ p <+: paths.systemdDir) w₁ := by
    refine when_ok (fun h => ?_) fun h => ?_
    · have hne : spec.tasks ≠ [] := by simpa using h
      refine wpOk_mono (wpOk_createDirAll _) fun _ w₂ h₂ => ⟨fun _ => h₂.1,fun p => ?_⟩
      rw [h₂.2.2,List.mem_append,List.mem_inits]
      tauto
    · have heq : spec.tasks = [] := by simpa using h
      simp [heq]
  refine wpOk_seq hdir fun _ w₂ h₂ => wpOk_seq (wpOk_write_dirs _ _) fun _ w₃ h₃ => ?_
  refine wpOk_mono (wpOk_forM (Q := fun _ w' => w'.fs.dirs = w₃.fs.dirs)
    (fun _ w' => w'.fs.dirs = w₃.fs.dirs) rfl (fun tf rest w₄ h₄ => ?_) fun _ h => h)
    fun _ w₄ h₄ => ?_
  · refine wpOk_seq (wpOk_write_dirs _ _) fun _ w₅ h₅ => ?_
    refine wpOk_mono (wpOk_write_dirs _ _) fun _ w₆ h₆ => ?_
    exact h₆.trans (h₅.trans h₄)
  · refine ⟨h₁.1,fun hne => ?_,fun p => ?_⟩
    · have h := h₂.1 hne
      unfold Creatable at h ⊢
      rwa [h₁.2.1] at h
    · rw [h₄,h₃,h₂.2,h₁.2.2,List.mem_append,List.mem_inits]
      tauto

theorem inside_unit {p dir : Path} (hdir : dir = paths.quadletDir ∨ dir = paths.systemdDir)
    (hin : Path.Inside dir p) : Path.Inside paths.quadletDir p ∨ Path.Inside paths.systemdDir p := by
  rcases hdir with rfl | rfl
  · exact .inl hin
  · exact .inr hin

/-- What stands inside a unit directory is above neither of the two. -/
theorem not_prefix_of_inside {p : Path} (hin : Path.Inside paths.quadletDir p ∨
    Path.Inside paths.systemdDir p) : ¬p <+: paths.quadletDir ∧ ¬p <+: paths.systemdDir := by
  have hself : ∀ dir, Path.Inside dir p → ¬p <+: dir := by
    intro dir h hp
    have hle := hp.length_le
    rw [← h.2,List.length_dropLast] at hle
    have hpos := List.length_pos_iff.mpr h.1
    omega
  have habove : ∀ dir, Path.Inside dir p → dir <+: p := fun dir h => h.2 ▸ List.dropLast_prefix p
  rcases hin with h | h
  · exact ⟨hself _ h,fun hp => paths.quadlet_above ((habove _ h).trans hp)⟩
  · exact ⟨fun hp => paths.systemd_above ((habove _ h).trans hp),hself _ h⟩

/-- What the writes leave of the conditions on the stale files. -/
structure WrittenOut (paths : Paths) (spec : WorkloadSpec) (fs fs' : FileTree) : Prop where
  files : Overlaid (unitFiles paths spec) fs.contents fs'.contents
  dirs : Extended paths spec fs fs'

namespace WrittenOut
variable {fs fs' : FileTree} {p dir : Path}

theorem stale (h : WrittenOut paths spec fs fs') (hin : Path.Inside paths.quadletDir p ∨
    Path.Inside paths.systemdDir p) (hs : StaleStem spec.name (keepOf spec) p) :
    fs'.contents p = fs.contents p :=
  h.files.kept p fun _ ht => not_stale_of_mem ht ⟨hin,hs⟩

theorem hasForeign (h : WrittenOut paths spec fs fs')
    (hdir : dir = paths.quadletDir ∨ dir = paths.systemdDir) :
    HasForeign spec.name (keepOf spec) fs' dir ↔ HasForeign spec.name (keepOf spec) fs dir := by
  have hsame : ∀ p, Path.Inside dir p → StaleStem spec.name (keepOf spec) p →
      (Clean fs'.contents p ↔ Clean fs.contents p) := by
    intro p hin hs
    unfold Clean
    rw [h.stale (inside_unit hdir hin) hs]
  constructor
  · rintro ⟨p,hin,hs,hclean⟩
    exact ⟨p,hin,hs,fun hc => hclean ((hsame p hin hs).mpr hc)⟩
  · rintro ⟨p,hin,hs,hclean⟩
    exact ⟨p,hin,hs,fun hc => hclean ((hsame p hin hs).mp hc)⟩

theorem hasOwned (h : WrittenOut paths spec fs fs')
    (hdir : dir = paths.quadletDir ∨ dir = paths.systemdDir) :
    HasOwned spec.name (keepOf spec) fs' dir ↔ HasOwned spec.name (keepOf spec) fs dir := by
  have hsame : ∀ p, Path.Inside dir p → StaleStem spec.name (keepOf spec) p →
      fs'.contents p = fs.contents p :=
    fun p hin hs => h.stale (inside_unit hdir hin) hs
  constructor
  · rintro ⟨p,t,hin,hs,ht,hm⟩
    exact ⟨p,t,hin,hs,hsame p hin hs ▸ ht,hm⟩
  · rintro ⟨p,t,hin,hs,ht,hm⟩
    exact ⟨p,t,hin,hs,(hsame p hin hs).trans ht,hm⟩

/-- The Quadlet directory is there now; what is stale inside it is as clear as before. -/
theorem passes (h : WrittenOut paths spec fs fs') :
    Passes spec.name (keepOf spec) fs' paths.quadletDir ↔
      AllClear spec.name (keepOf spec) fs paths.quadletDir := by
  have hmade : paths.quadletDir ∈ fs'.dirs := (h.dirs _).mpr (.inr (.inl (List.prefix_refl _)))
  have hclear : AllClear spec.name (keepOf spec) fs' paths.quadletDir ↔
      AllClear spec.name (keepOf spec) fs paths.quadletDir := by
    refine forall_congr' fun p => imp_congr_right fun hin => imp_congr_right fun hs => ?_
    have hlong := not_prefix_of_inside (.inl hin)
    have hdir : p ∈ fs'.dirs ↔ p ∈ fs.dirs := by
      rw [h.dirs p]
      tauto
    unfold Clean
    rw [hdir,h.stale (.inl hin) hs]
  constructor
  · rintro (habsent | ⟨-,hc⟩)
    · simp [FileTree.present,hmade] at habsent
    · exact hclear.mp hc
  · exact fun hc => .inr ⟨hmade,hclear.mpr hc⟩

/-- A spec whose files are all there is written without a change. -/
theorem same (h : WrittenOut paths spec fs fs') (hcurrent : ¬Outdated paths spec fs) :
    fs'.contents = fs.contents := by
  funext p
  by_cases hp : ∃ t, (p,t) ∈ unitFiles paths spec
  · obtain ⟨t,ht⟩ := hp
    rw [h.files.written p t ht]
    by_contra hne
    exact hcurrent ⟨p,t,ht,fun h => hne h.symm⟩
  · exact h.files.kept p fun t ht => hp ⟨t,ht⟩

end WrittenOut

theorem mute_createDirAll {p : Path} : (Eff.createDirAll p).Mute := by
  intro c hc
  cases hc

theorem mute_write {p : Path} {t : Text} : (Eff.write p t).Mute := by
  intro c hc
  cases hc

/-- A refused spec has changed nothing, or was written first. -/
theorem apply_refusal : wp (host paths fun _ _ => True) (apply paths spec).run
    (fun r w' => Refused r w' → Still w w' ∨ WritesFirst paths spec w.fs) w := by
  by_cases hv : spec.validate = .ok ()
  · rw [apply_of_valid hv]
    refine wp_run_seq (wp_looks (all_forM fun task _ => all_preflight (fun _ => rfl) task))
      (fun _ w₁ h₁ => ?_) fun _ _ h₁ _ => .inl h₁.2
    refine wp_run_seq checkOwned_refusal (fun _ w₂ h₂ => ?_) fun _ _ h₂ _ =>
      .inl (h₁.2.trans h₂.1.2)
    refine wp_run_seq (wp_looks (all_readPrevious ⟨fun _ => trivial,fun _ => trivial⟩ _))
      (fun previous w₃ h₃ => ?_) fun _ _ h₃ _ => .inl (h₁.2.trans (h₂.1.2.trans h₃.2))
    have hfs : w₃.fs = w.fs := h₃.1.trans (h₂.1.1.trans h₁.1)
    have hstill : Still w w₃ := h₁.2.trans (h₂.1.2.trans h₃.2)
    have hfree := h₂.2 _ rfl
    rw [h₁.1] at hfree
    have hmute : All Eff.Mute (writeUnits paths (unitPath paths spec.name) (unitText spec)
        (spec.tasks.map (TaskFiles.of paths spec))).run :=
      all_run_bind (all_perform mute_createDirAll) fun _ =>
        all_run_bind (all_when (all_perform mute_createDirAll)) fun _ =>
          all_run_bind (all_perform mute_write) fun _ => all_forM fun _ _ =>
            all_run_bind (all_perform mute_write) fun _ => all_perform mute_write
    refine wp_run_seq (wp_and (unrefusing_writeUnits _ _ _ w₃) (wp_and (wp_mute hmute hstill.commands)
      (wp_and (writeUnits_ok hv) writeUnits_extended))) (fun _ w₄ h₄ => ?_)
      fun e _ h₄ hr => absurd hr.error (not_refused h₄.1)
    obtain ⟨-,hcommands,hover,hext⟩ := h₄
    obtain ⟨hquadlet,hsystemd,hdirs⟩ := hext _ rfl
    have hplaced : WrittenOut paths spec w.fs w₄.fs := hfs ▸ ⟨hover _ rfl,hdirs⟩
    have hwritable : Writable paths spec w.fs := ⟨hv,hfs ▸ hquadlet,hfs ▸ hsystemd,hfree⟩
    refine wp_run_seq (@pruneTasks_refusal paths w₄ spec.name (keepOf spec)) (fun _ w₅ _ => ?_)
      fun e w₅ h₅ hr => ?_
    · exact wp_mono (unrefusing_activate _ _ _ _ w₅) fun r w' h hr => absurd hr (not_refused h)
    · obtain ⟨-,hstill₅,-,href⟩ := h₅
      have href := href hr.error
      rw [hplaced.hasForeign (.inl rfl),hplaced.hasForeign (.inr rfl),hplaced.hasOwned (.inl rfl),
        hplaced.passes] at href
      rw [hplaced.hasOwned (.inl rfl),hplaced.hasOwned (.inr rfl)] at hstill₅
      by_cases hout : Outdated paths spec w.fs
      · refine .inr ⟨hwritable,?_⟩
        exact href.imp (fun h => ⟨h.1,.inl hout⟩) fun h => ⟨h.1,h.2,.inl hout⟩
      · have hstill₄ : Still w w₄ := ⟨hplaced.same hout,hcommands⟩
        rcases href with ⟨hforeign,hs⟩ | ⟨hpass,hforeign⟩
        · exact hs.imp hstill₄.trans fun h => ⟨hwritable,.inl ⟨hforeign,.inr h⟩⟩
        · exact hstill₅.imp hstill₄.trans fun h => ⟨hwritable,.inr ⟨hpass,hforeign,.inr h⟩⟩
  · obtain ⟨e,heq⟩ := apply_of_not_valid hv
    rw [heq]
    exact fun _ => .inl (.refl w)

end Forward

section Backward
variable {paths : Paths} {w : World} {spec : WorkloadSpec} {name : Text} {keep : List Text}

/-- The host can answer so that the program is refused and ends in `Q`. -/
def canRefuse (paths : Paths) {α : Type} (p : Run α) (Q : World → Prop) (w : World) : Prop :=
  (World.machine paths).can p.run (fun r w' => Refused r w' ∧ Q w') w

theorem canRefuse_seq {α β : Type} {p : Run α} {f : α → Run β} {P : α → World → Prop}
    {Q : World → Prop} (h : (World.machine paths).canOk p P w)
    (hf : ∀ a w', P a w' → canRefuse paths (f a) Q w') : canRefuse paths (p >>= f) Q w :=
  can_run_seq h hf

/-- A refusal is passed on. -/
theorem canRefuse_first {α β : Type} {p : Run α} {f : α → Run β} {Q : World → Prop}
    (h : canRefuse paths p Q w) : canRefuse paths (p >>= f) Q w := by
  unfold canRefuse
  rw [Prog.run_bind]
  refine can_bind (can_mono h fun r w' hr => ?_)
  cases r with
  | ok a => exact absurd hr.1 not_refused_ok
  | error e => exact ⟨hr.1.error,hr.2⟩

theorem canRefuse_mono {α : Type} {p : Run α} {Q Q' : World → Prop} (h : canRefuse paths p Q w)
    (hq : ∀ w', Q w' → Q' w') : canRefuse paths p Q' w :=
  can_mono h fun _ _ hr => ⟨hr.1,hq _ hr.2⟩

/-- What every run ends in, the refused one ends in. -/
theorem canRefuse_and {α : Type} {p : Run α} {Q Q' : World → Prop} (h : canRefuse paths p Q w)
    (hq : wp (host paths fun _ _ => True) p.run (fun _ w' => Q' w') w) :
    canRefuse paths p (fun w' => Q w' ∧ Q' w') w :=
  can_mono (can_and_wp h hq) fun _ _ hr => ⟨hr.1.1,hr.1.2,hr.2⟩

theorem ensureOwned_refuse {p : Path} (action : String) (h : ¬Clean w.fs.contents p) :
    canRefuse paths (ensureOwned p managedMarker action) (fun w' => w'.fs = w.fs) w := by
  have hfile : ∃ t, w.fs.contents p = some t ∧ ¬Marked t := by
    by_contra hnone
    refine h fun t ht => ?_
    by_contra hm
    exact hnone ⟨t,ht,hm⟩
  obtain ⟨t,ht,hm⟩ := hfile
  refine canRefuse_seq (present_can p) fun b w₁ h₁ => ?_
  have hpresent : b = true := by simp [h₁.1,FileTree.present,ht]
  rw [if_pos hpresent]
  refine canRefuse_seq (readToString_can (h₁.2 ▸ ht)) fun text w₂ h₂ => ?_
  have hfs : w₂.fs = w.fs := by rw [h₂.2,World.record_fs,h₁.2]
  rw [h₂.1,if_neg fun hp => hm (List.isPrefixOf_iff_prefix.mp hp)]
  exact ⟨⟨action,p,rfl,by simp [h₂.2],hfs ▸ h⟩,hfs⟩

theorem ensureOwned_clear_can {p : Path} (action : String)
    (h : p ∉ w.fs.dirs ∧ Clean w.fs.contents p) : (World.machine paths).canOk
      (ensureOwned p managedMarker action) (fun owned w' => owned = (w.fs.contents p).isSome ∧
        w'.fs = w.fs) w := by
  cases ht : w.fs.contents p with
  | none => exact ensureOwned_absent_can action (by simp [FileTree.present,ht,h.1])
  | some t => exact ensureOwned_can action ht (h.2 t ht)

/-- An entry that is in the way of nothing is passed. -/
theorem pruneEntry_pass_can (removed : Bool) {entry : Path}
    (h : StaleStem name keep entry → entry ∉ w.fs.dirs ∧ Clean w.fs.contents entry) :
    (World.machine paths).canOk (pruneEntry name keep removed entry) (fun _ _ => True) w := by
  by_cases hs : StaleStem name keep entry
  · cases ht : w.fs.contents entry with
    | some t => exact canOk_mono (pruneEntry_can removed ht ((h hs).2 t ht) hs) fun _ _ _ => trivial
    | none =>
      obtain ⟨stem,-,heq⟩ := pruneEntry_of_stale removed hs
      rw [heq]
      have hdir := (h hs).1
      refine canOk_seq (ensureOwned_absent_can "remove" (by simp [FileTree.present,ht,hdir]))
        fun owned w₁ h₁ => ?_
      rw [h₁.1]
      exact canOk_pure trivial
  · exact canOk_mono (pruneEntry_skip_can removed hs) fun _ _ _ => trivial

theorem pruneEntry_refuse (removed : Bool) {entry : Path} (hs : StaleStem name keep entry)
    (hclean : ¬Clean w.fs.contents entry) :
    canRefuse paths (pruneEntry name keep removed entry) (fun w' => w'.fs = w.fs) w := by
  obtain ⟨stem,-,heq⟩ := pruneEntry_of_stale removed hs
  rw [heq]
  exact canRefuse_first (ensureOwned_refuse "remove" hclean)

theorem pruneEntries_pass_can (removed : Bool) {dir : Path} {entries : List Path}
    (hin : ∀ p ∈ entries, Path.Inside dir p) (hclear : AllClear name keep w.fs dir) :
    (World.machine paths).canOk (entries.foldlM (pruneEntry name keep) removed)
      (fun _ _ => True) w := by
  induction entries generalizing removed w with
  | nil => exact canOk_pure trivial
  | cons entry rest ih =>
    rw [List.foldlM_cons]
    have hpass := @pruneEntry_pass_can paths _ _ _ removed _
      (hclear entry (hin entry List.mem_cons_self))
    refine canOk_seq (canOk_and hpass (pruneEntry_swept removed entry)) fun b w₁ h₁ => ?_
    exact ih b (fun p hp => hin p (List.mem_cons_of_mem _ hp)) (h₁.2.allClear.mpr hclear)

/-- A clear directory is scanned to its end. -/
theorem pruneDir_pass_can (removed : Bool) {dir : Path} (h : Passes name keep w.fs dir) :
    (World.machine paths).canOk (pruneDir name keep removed dir) (fun _ _ => True) w := by
  rcases h with habsent | ⟨hdir,hclear⟩
  · exact canOk_mono (pruneDir_absent_can removed habsent) fun _ _ _ => trivial
  refine canOk_seq (present_can dir) fun b w₁ h₁ => ?_
  have hpresent : b = true := by simp [h₁.1,FileTree.present,hdir]
  rw [if_pos hpresent]
  refine canOk_seq (readDir_can (h₁.2 ▸ hdir) (.refl _)) fun entries w₂ h₂ => ?_
  rw [← h₁.2,← h₂.2] at hclear
  exact pruneEntries_pass_can removed (fun p hp => FileTree.inside_of_mem_entries (h₂.1 ▸ hp)) hclear

/-- Since `w` a stale task file of the app was deleted. -/
def Lost (paths : Paths) (name : Text) (keep : List Text) (w w' : World) : Prop :=
  ∃ p, StaleTask paths name keep p ∧ w.fs.contents p ≠ none ∧ w'.fs.contents p = none

/-- A scan can be refused for any foreign file of the directory, and delete any owned file
before it: the listing may name the two first. -/
theorem pruneDir_refuse (removed : Bool) {dir : Path}
    (hdir : dir = paths.quadletDir ∨ dir = paths.systemdDir)
    (h : HasForeign name keep w.fs dir) : canRefuse paths (pruneDir name keep removed dir)
      (fun w' => HasOwned name keep w.fs dir → Lost paths name keep w w') w := by
  obtain ⟨p,hin,hs,hclean⟩ := h
  have hfile : (w.fs.contents p).isSome := by
    by_contra hnone
    rw [Option.not_isSome_iff_eq_none] at hnone
    exact hclean fun t ht => by simp [hnone] at ht
  have hmem : p ∈ w.fs.entries dir := FileTree.mem_entries_of_contents hin hfile
  have hparent : dir ∈ w.fs.dirs := by
    have h := w.fs.parent_dir p (FileTree.mem_files.mpr hfile)
    rwa [hin.2] at h
  refine canRefuse_seq (present_can dir) fun b w₁ h₁ => ?_
  have hpresent : b = true := by simp [h₁.1,FileTree.present,hparent]
  rw [if_pos hpresent]
  by_cases howned : HasOwned name keep w.fs dir
  · obtain ⟨o,t,hino,hso,ht,hm⟩ := howned
    have hne : p ≠ o := by
      rintro rfl
      exact hclean fun t' ht' => by rw [ht,Option.some.injEq] at ht'; exact ht' ▸ hm
    have hmemo : o ∈ w.fs.entries dir := FileTree.mem_entries_of_contents hino (by rw [ht]; rfl)
    have hlist : (o::p::((w.fs.entries dir).erase o).erase p).Perm (w.fs.entries dir) :=
      ((List.perm_cons_erase ((List.mem_erase_of_ne hne).mpr hmem)).symm.cons o).trans
        (List.perm_cons_erase hmemo).symm
    refine canRefuse_seq (readDir_can (h₁.2 ▸ hparent) (h₁.2 ▸ hlist)) fun entries w₂ h₂ => ?_
    have hfs : w₂.fs = w.fs := h₂.2.trans h₁.2
    rw [h₂.1,List.foldlM_cons]
    refine canRefuse_seq (pruneEntry_can removed (hfs ▸ ht) hm hso) fun b w₃ h₃ => ?_
    rw [List.foldlM_cons]
    have hswept := swept_removeFile hso (hfs ▸ ht) hm h₃.2
    have hclean₃ : ¬Clean w₃.fs.contents p := by
      rw [hswept.clean,hfs]
      exact hclean
    refine canRefuse_first (canRefuse_mono (pruneEntry_refuse b hs hclean₃) fun w' h' _ => ?_)
    refine ⟨o,⟨inside_unit hdir hino,hso⟩,by simp [ht],?_⟩
    rw [h',FileTree.contents_of_removeFile h₃.2,Function.update_self]
  · have hlist : (p::(w.fs.entries dir).erase p).Perm (w.fs.entries dir) :=
      (List.perm_cons_erase hmem).symm
    refine canRefuse_seq (readDir_can (h₁.2 ▸ hparent) (h₁.2 ▸ hlist)) fun entries w₂ h₂ => ?_
    rw [h₂.1,List.foldlM_cons]
    have hclean₂ : ¬Clean w₂.fs.contents p := by
      rw [h₂.2,h₁.2]
      exact hclean
    exact canRefuse_first (canRefuse_mono (pruneEntry_refuse removed hs hclean₂)
      fun w' _ h => absurd h howned)

theorem pruneTasks_refuse_quadlet (h : HasForeign name keep w.fs paths.quadletDir) :
    canRefuse paths (pruneTasks paths name keep)
      (fun w' => HasOwned name keep w.fs paths.quadletDir → Lost paths name keep w w') w := by
  unfold pruneTasks
  rw [List.foldlM_cons]
  exact canRefuse_first (pruneDir_refuse false (.inl rfl) h)

theorem pruneTasks_refuse_systemd (hpass : Passes name keep w.fs paths.quadletDir)
    (h : HasForeign name keep w.fs paths.systemdDir) :
    canRefuse paths (pruneTasks paths name keep) (fun w' =>
      HasOwned name keep w.fs paths.quadletDir ∨ HasOwned name keep w.fs paths.systemdDir →
        Lost paths name keep w w') w := by
  unfold pruneTasks
  rw [List.foldlM_cons]
  refine canRefuse_seq (canOk_and (canOk_and (pruneDir_pass_can false hpass)
    (pruneDir_ok false paths.quadletDir)) (wpOk_of_wp (pruneDir_swept false paths.quadletDir)))
    fun b w₁ h₁ => ?_
  obtain ⟨⟨-,hok⟩,hswept⟩ := h₁
  have hforeign : HasForeign name keep w₁.fs paths.systemdDir := by
    obtain ⟨p,hin,hs,hclean⟩ := h
    exact ⟨p,hin,hs,fun hc => hclean (hswept.clean.mp hc)⟩
  rw [List.foldlM_cons]
  refine canRefuse_first (canRefuse_mono (canRefuse_and (pruneDir_refuse b (.inr rfl) hforeign)
    (pruneDir_swept b paths.systemdDir)) fun w' h' howned => ?_)
  obtain ⟨hlost,hswept'⟩ := h'
  have hback : ∀ p, w₁.fs.contents p ≠ none → w.fs.contents p ≠ none := by
    intro p hp
    rcases hswept.files p with hsame | ⟨hnone,-⟩
    · rwa [← hsame]
    · exact absurd hnone hp
  rcases howned with ⟨o,t,hin,hs,ht,-⟩ | ⟨o,t,hin,hs,ht,hm⟩
  · refine ⟨o,⟨.inl hin,hs⟩,by simp [ht],?_⟩
    have hgone := (hok o).1 ⟨hin,hs⟩
    rcases hswept'.files o with hsame | ⟨hnone,-⟩
    · exact hsame.trans hgone
    · exact hnone
  · have hkept := (hok o).2 fun h => paths.quadlet_ne_systemd (h.1.2.symm.trans hin.2)
    obtain ⟨p,hs,hp,hp'⟩ := hlost ⟨o,t,hin,hs,hkept.trans ht,hm⟩
    exact ⟨p,hs,hback p hp,hp'⟩

/-- Pruning can meet its foreign file after an owned one. -/
theorem pruneTasks_refuse {before : Prop}
    (h : MeetsForeign paths name keep before (Passes name keep w.fs paths.quadletDir) w.fs) :
    canRefuse paths (pruneTasks paths name keep)
      (fun w' => before ∨ Lost paths name keep w w') w := by
  rcases h with ⟨hforeign,hor⟩ | ⟨hpass,hforeign,hor⟩
  · exact canRefuse_mono (pruneTasks_refuse_quadlet hforeign) fun w' h => hor.imp_right h
  · exact canRefuse_mono (pruneTasks_refuse_systemd hpass hforeign) fun w' h => hor.imp_right h

theorem pruneTasks_pass_can (hquadlet : Passes name keep w.fs paths.quadletDir)
    (hsystemd : Passes name keep w.fs paths.systemdDir) :
    (World.machine paths).canOk (pruneTasks paths name keep) (fun _ _ => True) w := by
  unfold pruneTasks
  rw [List.foldlM_cons]
  refine canOk_seq (canOk_and (pruneDir_pass_can false hquadlet)
    (wpOk_of_wp (pruneDir_swept false paths.quadletDir))) fun b w₁ h₁ => ?_
  rw [List.foldlM_cons]
  refine canOk_seq (pruneDir_pass_can b ((h₁.2.passes not_inside_systemd).mpr hsystemd))
    fun b' w₂ _ => ?_
  rw [List.foldlM_nil]
  exact canOk_pure trivial

/-- Removing can delete owned task files and be refused then. -/
theorem remove_refuse (h : RemovesFirst paths name w.fs) :
    canRefuse paths (remove paths name) (fun w' => ¬Still w w') w := by
  have hmoved : ∀ {w' : World}, Lost paths name [] w w' → ¬Still w w' := by
    intro w' hlost hstill
    obtain ⟨p,-,hp,hp'⟩ := hlost
    rw [hstill.files] at hp'
    exact hp hp'
  rcases h with h | ⟨hquadlet,hsystemd,hclean,howned⟩
  · exact canRefuse_first (canRefuse_mono (pruneTasks_refuse h) fun w' h => hmoved (h.resolve_left id))
  · have hstale : ∃ p t, StaleTask paths name [] p ∧ w.fs.contents p = some t := by
      rcases howned with ⟨o,t,hin,hs,ht,-⟩ | ⟨o,t,hin,hs,ht,-⟩
      · exact ⟨o,t,⟨.inl hin,hs⟩,ht⟩
      · exact ⟨o,t,⟨.inr hin,hs⟩,ht⟩
    obtain ⟨o,t,ho,ht⟩ := hstale
    refine canRefuse_seq (canOk_and (pruneTasks_pass_can hquadlet hsystemd) pruneTasks_ok)
      fun pruned w₁ h₁ => ?_
    have hunit : ¬Clean w₁.fs.contents (unitPath paths name) := by
      unfold Clean
      rw [(h₁.2 _).2 fun hs => not_ownTask_unitPath name hs.own]
      exact hclean
    refine canRefuse_first (canRefuse_mono (ensureOwned_refuse "remove" hunit) fun w' h' => ?_)
    exact hmoved ⟨o,ho,by simp [ht],by rw [h']; exact (h₁.2 o).1 ho⟩

theorem preflight_can (task : ScheduledTask) : (World.machine paths).canOk (preflight task)
    (fun _ w' => w'.fs = w.fs) w := by
  refine canOk_seq (exec_can _) fun out w' h => ?_
  rw [if_pos h.1]
  exact canOk_pure h.2

theorem checkOwned_can (h : ∀ p t, (p,t) ∈ unitFiles paths spec →
    p ∉ w.fs.dirs ∧ Clean w.fs.contents p) : (World.machine paths).canOk
      (checkOwned (unitPath paths spec.name) (spec.tasks.map (TaskFiles.of paths spec)))
      (fun _ w' => w'.fs = w.fs) w := by
  refine canOk_seq (ensureOwned_clear_can "overwrite"
    (h _ _ (mem_unitFiles.mpr (.inl ⟨rfl,rfl⟩)))) fun _ w₁ h₁ => ?_
  refine canOk_forM (fun w' : World => w'.fs = w.fs) h₁.2 fun tf htf w₂ h₂ => ?_
  obtain ⟨task,htask,rfl⟩ := List.mem_map.mp htf
  rw [← h₂] at h
  refine canOk_seq (ensureOwned_clear_can "overwrite"
    (h _ _ (mem_unitFiles.mpr (.inr ⟨task,htask,.inl ⟨rfl,rfl⟩⟩)))) fun _ w₃ h₃ => ?_
  rw [← h₃.2] at h
  refine canOk_seq (ensureOwned_clear_can "overwrite"
    (h _ _ (mem_unitFiles.mpr (.inr ⟨task,htask,.inr ⟨rfl,rfl⟩⟩)))) fun _ w₄ h₄ => ?_
  exact canOk_pure (h₄.2.trans (h₃.2.trans h₂))

theorem readPrevious_can {p : Path} (h : p ∉ w.fs.dirs) :
    (World.machine paths).canOk (readPrevious p) (fun _ w' => w'.fs = w.fs) w := by
  refine canOk_seq (present_can p) fun b w₁ h₁ => ?_
  split
  · rename_i hb
    have hfile : ∃ t, w.fs.contents p = some t := by
      rw [h₁.1] at hb
      simpa [FileTree.present,h,Option.isSome_iff_exists] using hb
    obtain ⟨t,ht⟩ := hfile
    refine canOk_seq (readToString_can (h₁.2 ▸ ht)) fun _ w₂ h₂ => canOk_pure ?_
    rw [h₂.2,World.record_fs,h₁.2]
  · exact canOk_pure h₁.2

theorem createDirAll_can {p : Path} (h : Creatable w.fs p) :
    (World.machine paths).canOk (Run.createDirAll p)
      (fun _ w' => w'.fs.contents = w.fs.contents ∧ w'.fs.dirs = p.inits ++ w.fs.dirs) w := by
  obtain ⟨fs,hfs⟩ := FileTree.exists_createDirAll h
  refine ⟨.done,.ok (),{ w with fs := fs }.record (.createDirAll p),?_,(),rfl,?_⟩
  · simp [World.machine,World.answer,hfs]
  · exact ⟨FileTree.contents_of_createDirAll hfs,(FileTree.createDirAll_eq_some hfs).2⟩

theorem write_can {p : Path} (t : Text) (hparent : p.dropLast ∈ w.fs.dirs) (hp : p ∉ w.fs.dirs) :
    (World.machine paths).canOk (Run.write p t) (fun _ w' => w'.fs.dirs = w.fs.dirs) w := by
  obtain ⟨fs,hfs⟩ := FileTree.exists_write t hparent hp
  refine ⟨.done,.ok (),{ w with fs := fs }.record (.write p t),?_,(),rfl,?_⟩
  · simp [World.machine,World.answer,hfs]
  · exact FileTree.dirs_of_write hfs

/-- The files of a spec stand in the unit directories; only tasks have any in systemd's. -/
theorem parent_of_mem_unitFiles {p : Path} {t : Text} (h : (p,t) ∈ unitFiles paths spec) :
    p.dropLast = paths.quadletDir ∨ spec.tasks ≠ [] ∧ p.dropLast = paths.systemdDir := by
  rcases mem_unitFiles.mp h with ⟨rfl,-⟩ | ⟨task,ht,⟨rfl,-⟩ | ⟨rfl,-⟩⟩
  · exact .inl (by simp [unitPath,Path.join])
  · exact .inl (by simp [taskContainerPath,Path.join])
  · exact .inr ⟨List.ne_nil_of_mem ht,by simp [taskTimerPath,Path.join]⟩

theorem not_prefix_of_mem_unitFiles {p : Path} {t : Text} (h : (p,t) ∈ unitFiles paths spec) :
    ¬p <+: paths.quadletDir ∧ ¬p <+: paths.systemdDir := by
  have hparent := parent_of_mem_unitFiles h
  have hne : p ≠ [] := by
    rintro rfl
    rcases hparent with h | ⟨-,h⟩
    · exact paths.quadlet_above (h ▸ List.nil_prefix)
    · exact paths.systemd_above (h ▸ List.nil_prefix)
  exact not_prefix_of_inside (hparent.imp (fun h => ⟨hne,h⟩) fun h => ⟨hne,h.2⟩)

/-- The directories of a spec's files can be made; no other becomes one. -/
theorem createDirs_can (h : Writable paths spec w.fs) : (World.machine paths).canOk
    (do
      Run.createDirAll paths.quadletDir
      Run.when (!(spec.tasks.map (TaskFiles.of paths spec)).isEmpty)
        (Run.createDirAll paths.systemdDir)) (fun _ w' => ∀ p, p ∈ w'.fs.dirs ↔ p ∈ w.fs.dirs ∨
          p <+: paths.quadletDir ∨ spec.tasks ≠ [] ∧ p <+: paths.systemdDir) w := by
  refine canOk_seq (createDirAll_can h.quadlet) fun _ w₁ h₁ => ?_
  unfold Run.when
  split
  · rename_i hcond
    have hne : spec.tasks ≠ [] := by simpa using hcond
    have hfree : Creatable w₁.fs paths.systemdDir := by
      have h := h.systemd hne
      unfold Creatable at h ⊢
      rwa [h₁.1]
    refine canOk_mono (createDirAll_can hfree) fun _ w₂ h₂ p => ?_
    rw [h₂.2,h₁.2,List.mem_append,List.mem_append,List.mem_inits,List.mem_inits]
    tauto
  · rename_i hcond
    have heq : spec.tasks = [] := by simpa using hcond
    refine canOk_pure fun p => ?_
    rw [h₁.2,List.mem_append,List.mem_inits]
    simp [heq,or_comm]

theorem writeUnits_can (h : Writable paths spec w.fs) : (World.machine paths).canOk
    (writeUnits paths (unitPath paths spec.name) (unitText spec)
      (spec.tasks.map (TaskFiles.of paths spec))) (fun _ _ => True) w := by
  unfold writeUnits
  rw [← bind_assoc]
  refine canOk_seq (createDirs_can h) fun _ w₂ h₂ => ?_
  -- The parents of the files are there, and none of the files is a directory.
  have hplace : ∀ p t, (p,t) ∈ unitFiles paths spec → p.dropLast ∈ w₂.fs.dirs ∧ p ∉ w₂.fs.dirs := by
    intro p t hp
    have hlong := not_prefix_of_mem_unitFiles hp
    refine ⟨(h₂ _).mpr (.inr ?_),fun hmem => ?_⟩
    · rcases parent_of_mem_unitFiles hp with h | ⟨hne,h⟩
      · exact .inl (h ▸ List.prefix_refl _)
      · exact .inr ⟨hne,h ▸ List.prefix_refl _⟩
    · rcases (h₂ p).mp hmem with hmem | hmem | hmem
      · exact (h.free p t hp).1 hmem
      · exact hlong.1 hmem
      · exact hlong.2 hmem.2
  obtain ⟨hparent,hfree⟩ := hplace _ _ (mem_unitFiles.mpr (.inl ⟨rfl,rfl⟩))
  refine canOk_seq (write_can _ hparent hfree) fun _ w₃ h₃ => ?_
  refine canOk_mono (canOk_forM (fun w' : World => w'.fs.dirs = w₂.fs.dirs) h₃
    fun tf htf w₄ h₄ => ?_) fun _ _ _ => trivial
  obtain ⟨task,htask,rfl⟩ := List.mem_map.mp htf
  obtain ⟨hparent,hfree⟩ := hplace _ _ (mem_unitFiles.mpr (.inr ⟨task,htask,.inl ⟨rfl,rfl⟩⟩))
  refine canOk_seq (write_can _ (h₄ ▸ hparent) (h₄ ▸ hfree)) fun _ w₅ h₅ => ?_
  obtain ⟨hparent,hfree⟩ := hplace _ _ (mem_unitFiles.mpr (.inr ⟨task,htask,.inr ⟨rfl,rfl⟩⟩))
  have hdirs := h₅.trans h₄
  exact canOk_mono (write_can _ (hdirs ▸ hparent) (hdirs ▸ hfree)) fun _ _ h => h.trans hdirs

/-- Applying can write its files and be refused then. -/
theorem apply_refuse (h : WritesFirst paths spec w.fs) :
    canRefuse paths (apply paths spec) (fun w' => ¬Still w w') w := by
  obtain ⟨hw,hmeets⟩ := h
  rw [apply_of_valid hw.valid]
  refine canRefuse_seq (canOk_forM (fun w' : World => w'.fs = w.fs) rfl fun task _ w' h =>
    canOk_mono (preflight_can task) fun _ _ h' => h'.trans h) fun _ w₁ h₁ => ?_
  refine canRefuse_seq (checkOwned_can (h₁ ▸ hw.free)) fun _ w₂ h₂ => ?_
  have hunit := (hw.free _ _ (mem_unitFiles.mpr (.inl ⟨rfl,rfl⟩))).1
  refine canRefuse_seq (readPrevious_can ((h₂.trans h₁) ▸ hunit)) fun previous w₃ h₃ => ?_
  have hfs : w₃.fs = w.fs := h₃.trans (h₂.trans h₁)
  refine canRefuse_seq (canOk_and (canOk_and (writeUnits_can (hfs ▸ hw)) (writeUnits_ok hw.valid))
    writeUnits_extended) fun _ w₄ h₄ => ?_
  have hplaced : WrittenOut paths spec w.fs w₄.fs := hfs ▸ ⟨h₄.1.2,h₄.2.2.2⟩
  have hmeets₄ : MeetsForeign paths spec.name (keepOf spec) (Outdated paths spec w.fs)
      (Passes spec.name (keepOf spec) w₄.fs paths.quadletDir) w₄.fs := by
    unfold MeetsForeign at hmeets ⊢
    rwa [hplaced.hasForeign (.inl rfl),hplaced.hasForeign (.inr rfl),hplaced.hasOwned (.inl rfl),
      hplaced.hasOwned (.inr rfl),hplaced.passes]
  refine canRefuse_first (canRefuse_mono (canRefuse_and (pruneTasks_refuse hmeets₄)
    (wp_mono pruneTasks_refusal fun _ _ h => h.1)) fun w' h' hstill => ?_)
  obtain ⟨hchanged,hswept⟩ := h'
  rcases hchanged with ⟨p,t,hp,hne⟩ | ⟨p,hs,hp,hp'⟩
  · -- The file that was out of date is not stale, so it is still as it was written.
    refine hne ?_
    rw [← hstill.files,hswept.kept (not_stale_of_mem hp),hplaced.files.written p t hp]
  · rw [hplaced.stale hs.1 hs.2,← hstill.files] at hp
    exact hp hp'

/-- A refused call always leaves the host as it was exactly when it cannot be refused halfway. -/
theorem leavesHost_iff (paths : Paths) (call : FileCall) (w : World) :
    LeavesHost paths (call.program paths) w ↔ ¬call.Halfway paths w.fs := by
  have hforward : ∀ {p : Run Unit} {H : Prop}, wp (host paths fun _ _ => True) p.run
      (fun r w' => Refused r w' → Still w w' ∨ H) w → ¬H → LeavesHost paths p w := by
    intro p H h hH answers r w' hrun hr
    have hq := Machine.wp_complete _ h (Machine.allowed_of_forall _ (fun _ _ _ => trivial) _ _)
      ((Machine.finish_eq_some _).mp hrun) hr
    exact hq.resolve_right hH
  have hbackward : ∀ {p : Run Unit}, canRefuse paths p (fun w' => ¬Still w w') w →
      ¬LeavesHost paths p w := by
    intro p h hleaves
    obtain ⟨answers,r,w',hrun,hr,hmoved⟩ := can_finish h
    exact hmoved (hleaves answers r w' hrun hr)
  cases call with
  | apply spec => exact ⟨fun h hh => hbackward (apply_refuse hh) h,hforward apply_refusal⟩
  | remove name => exact ⟨fun h hh => hbackward (remove_refuse hh) h,hforward remove_refusal⟩
  | applyRoute slug route =>
    exact iff_of_true (hforward (wp_mono applyRoute_refusal fun _ _ h hr => .inl (h hr)) id) id
  | removeRoute slug =>
    exact iff_of_true (hforward (wp_mono removeRoute_refusal fun _ _ h hr => .inl (h hr)) id) id

/-- A hand-written file with the name of an old task of the app. -/
def foreignTask : World := .initial (.single Paths.default.quadletDir
  "kuadrat-web-task-mine.container" "[Container]\n")

/-- Applying the app is refused for it, with the unit written. -/
theorem foreignTask_refused_late : ¬LeavesHost .default
    (apply .default { name := "web", image := "web" }) foreignTask := by
  have hrun : ∃ answers r w', (World.machine .default).finish answers
      (apply .default { name := "web", image := "web" }).run foreignTask = some (r,w') ∧
      Refused r w' ∧ w'.fs.contents (unitPath .default "web") ≠
        foreignTask.fs.contents (unitPath .default "web") := by
    refine ⟨[.done,.done,.done,.done,.done,.entries ["kuadrat-web.container",
      "kuadrat-web-task-mine.container"],.done,.done],_,_,rfl,?_,?_⟩
    · exact ⟨"remove",Paths.default.quadletDir.join "kuadrat-web-task-mine.container",rfl,rfl,
        fun h => absurd (h "[Container]\n" rfl) (by decide +kernel)⟩
    · exact nofun
  obtain ⟨answers,r,w',hrun,hr,hmoved⟩ := hrun
  intro h
  exact hmoved (congrFun (h answers r w' hrun hr).files _)

end Backward
end Kuadrat
