import Kuadrat.Workloads.Refusal

/-!
# What the service managers have read

systemd reads the unit files when it is told to reload, and Caddy its fragments. A removal
has taken effect when its files are neither on the disk nor in what was read last.
-/
namespace Kuadrat

open Effect

/-- The files that carry the marker. -/
def managedFiles (fs : FileTree) (p : Path) : Option Text :=
  (fs.contents p).filter managedMarker.isPrefixOf

/-- The managed files at the last successful `daemon-reload` and `reload caddy`. -/
structure Loaded where
  units : Path → Option Text
  fragments : Path → Option Text

namespace Loaded

/-- What is loaded agrees with the disk. -/
def ofTree (fs : FileTree) : Loaded := ⟨managedFiles fs,managedFiles fs⟩

def note (l : Loaded) (w : World) : (e : Eff) → e.Resp → Loaded
  | .run .daemonReload, .ok out => if out.success then { l with units := managedFiles w.fs } else l
  | .run .reloadCaddy, .ok out => if out.success then { l with fragments := managedFiles w.fs } else l
  | _, _ => l

end Loaded

/-- The host together with what its service managers have read. -/
abbrev Managed := World × Loaded

def managers (paths : Paths) : Machine Eff Eff.Resp Answer Managed :=
  (World.machine paths).noted Loaded.note

/-- The operation makes neither manager read its files. -/
def Eff.Unread (e : Eff) : Prop := e ≠ .run .daemonReload ∧ e ≠ .run .reloadCaddy

abbrev overseen (paths : Paths) : Spec Eff Eff.Resp Managed :=
  (managers paths).spec (fun _ _ => True) fun _ => True

section Rules
variable {paths : Paths} {s : Managed} {α : Type}

theorem note_unread {l : Loaded} {w : World} {e : Eff} {r : e.Resp} (h : e.Unread) :
    l.note w e r = l := by
  unfold Loaded.note
  split
  · exact absurd rfl h.1
  · exact absurd rfl h.2
  · rfl

/-- What is known of a program on the host is known of it here. -/
theorem overseen_of_host {p : Run α} {Q : Except Message α → World → Prop}
    (h : wp (host paths fun _ _ => True) p.run Q s.1) :
    wp (overseen paths) p.run (fun r s' => Q r s'.1) s :=
  Machine.wp_noted _ _ h

theorem overseen_ok {p : Run α} {Q : α → World → Prop}
    (h : wpOk (host paths fun _ _ => True) p Q s.1) :
    wpOk (overseen paths) p (fun a s' => Q a s'.1) s :=
  overseen_of_host h

theorem overseen_quiet {p : Run α} (h : All Eff.Unread p.run) :
    wpOk (overseen paths) p (fun _ s' => s'.2 = s.2) s :=
  wpOk_of_wp (Machine.wp_noted_quiet _ _ h fun _ _ _ _ => note_unread)

theorem exec_noted (c : Command) : wpOk (overseen paths) (Run.exec c) (fun out s' =>
    s'.1.fs = s.1.fs ∧ s'.2 = s.2.note s.1 (.run c) (.ok out)) s := by
  refine ⟨trivial,fun r s' hr out hout => ?_⟩
  obtain ⟨x,-,hstep⟩ := hr
  obtain ⟨hworld,hnote⟩ := (Machine.noted_step _ _).mp hstep
  refine ⟨?_,by rw [hnote,hout]⟩
  have hfs : wp (host paths fun _ _ => True) (Run.exec c).run (fun _ w' => w'.fs = s.1.fs) s.1 :=
    wp_exec trivial (fun out _ => by split <;> rfl) fun _ _ => rfl
  exact hfs.2 r s'.1 ⟨x,trivial,hworld⟩

/-- A successful `daemon-reload` reads the units. -/
theorem daemonReload_read : wpOk (overseen paths) (systemctl .daemonReload) (fun _ s' =>
    s'.1.fs = s.1.fs ∧ s'.2 = { s.2 with units := managedFiles s.1.fs }) s := by
  refine wpOk_seq (exec_noted _) fun out s₁ h₁ => ?_
  split
  · rename_i hout
    rw [wpOk_pure,h₁.2,Loaded.note,if_pos hout]
    exact ⟨h₁.1,rfl⟩
  · exact wpOk_throw _ _ _

theorem reloadCaddy_read : wpOk (overseen paths) reloadCaddy (fun _ s' =>
    s'.1.fs = s.1.fs ∧ s'.2 = { s.2 with fragments := managedFiles s.1.fs }) s := by
  refine wpOk_seq (exec_noted _) fun out s₁ h₁ => ?_
  split
  · rename_i hout
    rw [wpOk_pure,h₁.2,Loaded.note,if_pos hout]
    exact ⟨h₁.1,rfl⟩
  · exact wpOk_throw _ _ _

end Rules

section Flag
variable {paths : Paths} {w : World} {name : Text} {keep : List Text}

/-- The flag of pruning says whether something was deleted. -/
theorem pruneEntry_flag (removed : Bool) (entry : Path) : wpOk (host paths fun _ _ => True)
    (pruneEntry name keep removed entry) (fun b w' =>
      (b = false → removed = false ∧ w'.fs.contents = w.fs.contents) ∧
      (b = true → removed = true ∨ StaleStem name keep entry ∧ w.fs.contents entry ≠ none)) w := by
  by_cases hs : StaleStem name keep entry
  · obtain ⟨stem,-,heq⟩ := pruneEntry_of_stale removed hs
    rw [heq]
    refine wpOk_seq (ensureOwned_ok _ _ _) fun owned w₁ h₁ => ?_
    split
    · rename_i howned
      obtain ⟨t,ht,-⟩ := h₁.2.1 howned
      refine wpOk_seq (P := fun _ _ => True)
        (when_ok (fun _ => wpOk_mono (systemctl_ok _) fun _ _ _ => trivial) fun _ => trivial)
        fun _ w₂ _ => ?_
      refine wpOk_seq (removeFile_ok _) fun _ w₃ _ => ?_
      rw [wpOk_pure]
      exact ⟨nofun,fun _ => .inr ⟨hs,by simp [ht]⟩⟩
    · rw [wpOk_pure,h₁.1]
      exact ⟨fun h => ⟨h,rfl⟩,.inl⟩
  · rw [pruneEntry_of_not_stale removed hs,wpOk_pure]
    exact ⟨fun h => ⟨h,rfl⟩,.inl⟩

theorem pruneDir_flag (removed : Bool) (dir : Path) : wpOk (host paths fun _ _ => True)
    (pruneDir name keep removed dir) (fun b w' =>
      (b = false → removed = false ∧ w'.fs.contents = w.fs.contents) ∧
      (b = true → removed = true ∨
        ∃ p, Path.Inside dir p ∧ StaleStem name keep p ∧ w.fs.contents p ≠ none)) w := by
  unfold pruneDir
  refine wpOk_seq (P := fun _ w' => w'.fs = w.fs)
    (wp_mono (present_refusal dir) fun _ _ h _ _ => h.1.1) fun b w₁ h₁ => ?_
  split
  · refine wpOk_seq (P := fun l w' => w'.fs = w₁.fs ∧ l.Perm (w₁.fs.entries dir))
      (wp_mono (readDir_refusal dir) fun _ _ h l hl => ⟨h.1.1,(h.2.1 l hl).2⟩) fun entries w₂ h₂ => ?_
    have hfs : w₂.fs = w.fs := h₂.1.trans h₁
    have hperm := h₂.2
    refine wpOk_foldlM (fun rest b w' => (∀ p ∈ rest, Path.Inside dir p) ∧
      Swept (fun p => Path.Inside dir p ∧ StaleStem name keep p) w.fs w'.fs ∧
      (b = false → removed = false ∧ w'.fs.contents = w.fs.contents) ∧
      (b = true → removed = true ∨
        ∃ p, Path.Inside dir p ∧ StaleStem name keep p ∧ w.fs.contents p ≠ none)) ?_ ?_ ?_
    · refine ⟨fun p hp => FileTree.inside_of_mem_entries (hperm.mem_iff.mp hp),hfs ▸ .refl _ _,
        fun h => ⟨h,by rw [hfs]⟩,.inl⟩
    · intro entry rest b w' hI
      obtain ⟨hin,hswept,hfalse,htrue⟩ := hI
      have hentry := hin entry List.mem_cons_self
      refine wpOk_mono (wpOk_and (pruneEntry_flag b entry) (pruneEntry_swept b entry))
        fun b' w'' h => ⟨fun p hp => hin p (List.mem_cons_of_mem _ hp),?_,fun hb' => ?_,fun hb' => ?_⟩
      · exact hswept.trans (h.2.mono fun p hp => ⟨hp.1 ▸ hentry,hp.2⟩)
      · obtain ⟨hb,hsame⟩ := h.1.1 hb'
        exact ⟨(hfalse hb).1,hsame.trans (hfalse hb).2⟩
      · rcases h.1.2 hb' with hb | ⟨hs,hne⟩
        · exact htrue hb
        · refine .inr ⟨entry,hentry,hs,?_⟩
          rcases hswept.files entry with hsame | ⟨hnone,-⟩
          · rwa [← hsame]
          · exact absurd hnone hne
    · exact fun b w' hI => ⟨hI.2.2.1,hI.2.2.2⟩
  · rw [wpOk_pure,h₁]
    exact ⟨fun h => ⟨h,rfl⟩,.inl⟩

theorem pruneTasks_flag : wpOk (host paths fun _ _ => True) (pruneTasks paths name keep)
    (fun b w' => (b = false → w'.fs.contents = w.fs.contents) ∧
      (b = true → ∃ p, StaleTask paths name keep p ∧ w.fs.contents p ≠ none)) w := by
  unfold pruneTasks
  rw [List.foldlM_cons]
  refine wpOk_seq (wpOk_and (pruneDir_flag _ _) (wpOk_of_wp (pruneDir_swept _ _))) fun b w₁ h₁ => ?_
  rw [List.foldlM_cons]
  refine wpOk_seq (pruneDir_flag _ _) fun b' w₂ h₂ => ?_
  rw [List.foldlM_nil,wpOk_pure]
  refine ⟨fun h => ?_,fun h => ?_⟩
  · obtain ⟨hb,hsame⟩ := h₂.1 h
    exact hsame.trans (h₁.1.1 hb).2
  · rcases h₂.2 h with hb | ⟨p,hin,hs,hne⟩
    · rcases h₁.1.2 hb with hf | ⟨p,hin,hs,hne⟩
      · cases hf
      · exact ⟨p,⟨.inl hin,hs⟩,hne⟩
    · refine ⟨p,⟨.inr hin,hs⟩,?_⟩
      rcases h₁.2.files p with hsame | ⟨hnone,-⟩
      · rwa [← hsame]
      · exact absurd hnone hne

end Flag

section Calls
variable {paths : Paths} {s : Managed} {name : Text}

theorem managedFiles_none {fs : FileTree} {p : Path} (h : fs.contents p = none) :
    managedFiles fs p = none := by simp [managedFiles,h]

/-- The calls that undo what was applied for an app. -/
inductive Removal
  | workload
  | route

namespace Removal
variable (paths : Paths) (name : Text)

def program : Removal → Run Unit
  | workload => remove paths name
  | route => removeRoute paths (slug name)

/-- The files that the call is to take away. -/
def Region : Removal → Path → Prop
  | workload => UnitRegion paths name
  | route => fun p => p = fragmentPath paths (slug name)

/-- What was read by the manager whose files they are. -/
def view : Removal → Loaded → Path → Option Text
  | workload => Loaded.units
  | route => Loaded.fragments

/-- A file of the call is still on the disk, or none is loaded. -/
def Ready (call : Removal) (s : Managed) : Prop :=
  (∃ p, call.Region paths name p ∧ s.1.fs.contents p ≠ none) ∨
  ∀ p, call.Region paths name p → call.view s.2 p = none

/-- No file of the call is on the disk, and none is loaded. -/
def Gone (call : Removal) (s : Managed) : Prop :=
  ∀ p, call.Region paths name p → s.1.fs.contents p = none ∧ call.view s.2 p = none

end Removal

/-- A call that succeeds with a file of `P` on the disk makes its manager read; without one it
reads nothing. -/
structure TakenAway (P : Path → Prop) (view : Loaded → Path → Option Text) (s s' : Managed) :
    Prop where
  gone : ∀ p, P p → s'.1.fs.contents p = none
  read : (∃ p, P p ∧ s.1.fs.contents p ≠ none) → ∀ p, P p → view s'.2 p = none
  unread : (∀ p, P p → s.1.fs.contents p = none) → view s'.2 = view s.2

/-- The files are gone, and the manager has read since. -/
theorem TakenAway.reloaded {P : Path → Prop} {view : Loaded → Path → Option Text} {s s' : Managed}
    (hthere : ∃ p, P p ∧ s.1.fs.contents p ≠ none) (hgone : ∀ p, P p → s'.1.fs.contents p = none)
    (hread : view s'.2 = managedFiles s'.1.fs) : TakenAway P view s s' := by
  refine ⟨hgone,fun _ p hp => ?_,fun hnone => ?_⟩
  · rw [hread]
    exact managedFiles_none (hgone p hp)
  · obtain ⟨p,hp,hne⟩ := hthere
    exact absurd (hnone p hp) hne

/-- There was nothing to take away. -/
theorem TakenAway.absent {P : Path → Prop} {view : Loaded → Path → Option Text} {s s' : Managed}
    (hnone : ∀ p, P p → s.1.fs.contents p = none)
    (hgone : ∀ p, P p → s'.1.fs.contents p = none) (hunread : view s'.2 = view s.2) :
    TakenAway P view s s' := by
  refine ⟨hgone,fun hthere => ?_,fun _ => hunread⟩
  obtain ⟨p,hp,hne⟩ := hthere
  exact absurd (hnone p hp) hne

theorem remove_takes : wpOk (overseen paths) (remove paths name)
    (fun _ s' => TakenAway (UnitRegion paths name) Loaded.units s s') s := by
  have hprune : All Eff.Unread (pruneTasks paths name []).run := all_pruneTasks {
    present := fun _ => ⟨nofun,nofun⟩
    read := fun _ => ⟨nofun,nofun⟩
    list := fun _ => ⟨nofun,nofun⟩
    disable := fun _ => ⟨nofun,nofun⟩
    removes := fun _ _ => ⟨nofun,nofun⟩ }
  refine wpOk_seq (wpOk_and (overseen_ok (wpOk_and pruneTasks_ok pruneTasks_flag))
    (overseen_quiet hprune)) fun pruned s₁ h₁ => ?_
  obtain ⟨⟨hpruned,hfalse,htrue⟩,hnotes₁⟩ := h₁
  simp only [staleTask_nil] at hpruned htrue
  have hunit : s₁.1.fs.contents (unitPath paths name) = s.1.fs.contents (unitPath paths name) :=
    (hpruned _).2 (not_ownTask_unitPath name)
  refine wpOk_seq (wpOk_and (overseen_ok (ensureOwned_ok _ _ _)) (overseen_quiet
    (all_ensureOwned ⟨fun _ => ⟨nofun,nofun⟩,fun _ => ⟨nofun,nofun⟩⟩ _ _ _))) fun owned s₂ h₂ => ?_
  obtain ⟨⟨hfs₂,howned,habsent⟩,hnotes₂⟩ := h₂
  split
  · rename_i ho
    obtain ⟨t,ht,-⟩ := howned ho
    refine wpOk_seq (overseen_ok (systemctl_ok _)) fun _ s₃ h₃ => ?_
    refine wpOk_seq (overseen_ok (removeFile_ok _)) fun _ s₄ h₄ => ?_
    refine wpOk_mono daemonReload_read fun _ s₅ h₅ => ?_
    have hgone : ∀ p, UnitRegion paths name p → s₄.1.fs.contents p = none := by
      intro p hp
      rw [h₄]
      by_cases hpu : p = unitPath paths name
      · rw [hpu,Function.update_self]
      · rw [Function.update_of_ne hpu,h₃,hfs₂]
        exact (hpruned p).1 (hp.resolve_left hpu)
    refine .reloaded ⟨unitPath paths name,.inl rfl,?_⟩ (fun p hp => h₅.1 ▸ hgone p hp) ?_
    · rw [← hunit,ht]
      exact Option.some_ne_none t
    · rw [h₅.2,h₅.1]
  · rename_i ho
    have hunit' : s₁.1.fs.contents (unitPath paths name) = none := habsent (by simpa using ho)
    have hgone : ∀ p, UnitRegion paths name p → s₂.1.fs.contents p = none := by
      intro p hp
      rw [hfs₂]
      rcases hp with rfl | hp
      · exact hunit'
      · exact (hpruned p).1 hp
    unfold Run.when
    split
    · rename_i hp
      refine wpOk_mono daemonReload_read fun _ s₃ h₃ => ?_
      obtain ⟨p,hown,hne⟩ := htrue hp
      refine .reloaded ⟨p,.inr hown,hne⟩ (fun p hp => h₃.1 ▸ hgone p hp) ?_
      rw [h₃.2,h₃.1]
    · rename_i hp
      have hsame : s₂.1.fs.contents = s.1.fs.contents := by
        rw [hfs₂]
        exact hfalse (by simpa using hp)
      rw [wpOk_pure]
      refine .absent (fun p hp => hsame ▸ hgone p hp) hgone ?_
      rw [hnotes₂,hnotes₁]

theorem removeRoute_takes {slug : Text} : wpOk (overseen paths) (removeRoute paths slug)
    (fun _ s' => TakenAway (fun p => p = fragmentPath paths slug) Loaded.fragments s s') s := by
  refine wpOk_seq (wpOk_and (overseen_ok (ensureOwned_ok _ _ _)) (overseen_quiet
    (all_ensureOwned ⟨fun _ => ⟨nofun,nofun⟩,fun _ => ⟨nofun,nofun⟩⟩ _ _ _))) fun owned s₁ h₁ => ?_
  obtain ⟨⟨hfs₁,howned,habsent⟩,hnotes₁⟩ := h₁
  split
  · rename_i ho
    obtain ⟨t,ht,-⟩ := howned ho
    refine wpOk_seq (overseen_ok (removeFile_ok _)) fun _ s₂ h₂ => ?_
    refine wpOk_mono reloadCaddy_read fun _ s₃ h₃ => ?_
    refine .reloaded ⟨_,rfl,?_⟩ (fun p hp => ?_) ?_
    · rw [ht]
      exact Option.some_ne_none t
    · rw [hp,h₃.1,h₂,Function.update_self]
    · rw [h₃.2,h₃.1]
  · rename_i ho
    have hnone : s.1.fs.contents (fragmentPath paths slug) = none := habsent (by simpa using ho)
    rw [wpOk_pure]
    refine .absent (fun p hp => hp ▸ hnone) (fun p hp => ?_) ?_
    · rw [hp,hfs₁,hnone]
    · rw [hnotes₁]

theorem Removal.takes (call : Removal) : wpOk (overseen paths) (call.program paths name)
    (fun _ s' => TakenAway (call.Region paths name) call.view s s') s := by
  cases call with
  | workload => exact remove_takes
  | route => exact removeRoute_takes

/-- After a call that succeeded its files are gone exactly when it was ready. -/
theorem TakenAway.gone_iff {call : Removal} {s' : Managed}
    (h : TakenAway (call.Region paths name) call.view s s') :
    call.Gone paths name s' ↔ call.Ready paths name s := by
  constructor
  · intro hgone
    by_cases hdisk : ∃ p, call.Region paths name p ∧ s.1.fs.contents p ≠ none
    · exact .inl hdisk
    · refine .inr fun p hp => ?_
      rw [← h.unread fun q hq => by_contra fun hne => hdisk ⟨q,hq,hne⟩]
      exact (hgone p hp).2
  · intro hready p hp
    refine ⟨h.gone p hp,?_⟩
    by_cases hdisk : ∃ p, call.Region paths name p ∧ s.1.fs.contents p ≠ none
    · exact h.read hdisk p hp
    · rw [h.unread fun q hq => by_contra fun hne => hdisk ⟨q,hq,hne⟩]
      exact hready.resolve_left hdisk p hp

end Calls

/-- One call of a run, between two states. -/
structure Removing where
  call : Removal
  before : Managed
  result : Except Message Unit
  after : Managed

/-- Calls for one app, one after the other; each may fail at any operation. -/
inductive Removals (paths : Paths) (name : Text) (s₀ : Managed) : List Removing → Managed → Prop
  | none : Removals paths name s₀ [] s₀
  | next {calls : List Removing} {s s' : Managed} {r : Except Message Unit} (call : Removal)
    (answers : List Answer) : Removals paths name s₀ calls s →
    (managers paths).finish answers (call.program paths name).run s = some (r,s') →
    Removals paths name s₀ (calls ++ [⟨call,s,r,s'⟩]) s'

/-- If the call returned `Ok`, it has taken effect. -/
def Removing.Effective (paths : Paths) (name : Text) (e : Removing) : Prop :=
  e.result = .ok () → e.call.Gone paths name e.after

/-- Every step of a run is one of the calls. -/
theorem Removals.takes {paths : Paths} {name : Text} {s₀ s : Managed} {calls : List Removing}
    (h : Removals paths name s₀ calls s) : ∀ e ∈ calls, e.result = .ok () →
      TakenAway (e.call.Region paths name) e.call.view e.before e.after := by
  induction h with
  | none =>
    intro e he
    cases he
  | next call answers _ hrun ih =>
    intro e he hok
    rcases List.mem_append.mp he with he | he
    · exact ih e he hok
    · rw [List.mem_singleton.mp he] at hok ⊢
      exact Machine.wp_complete _ call.takes
        (Machine.allowed_of_forall _ (fun _ _ _ => trivial) _ _)
        ((Machine.finish_eq_some _).mp hrun) () hok

/-- In a run from a state where what is loaded agrees with the disk, every call that returns
`Ok` has taken effect exactly when each of them had a file to delete or nothing to unload. -/
theorem removals_effective_iff {paths : Paths} {name : Text} {w : World} {calls : List Removing}
    {s : Managed} (h : Removals paths name (w,.ofTree w.fs) calls s) :
    (∀ e ∈ calls, e.Effective paths name) ↔
      ∀ e ∈ calls, e.result = .ok () → e.call.Ready paths name e.before := by
  refine forall_congr' fun e => imp_congr_right fun he => ?_
  exact imp_congr_right fun hok => (h.takes e he hok).gone_iff

section Sample

/-- A host with one workload. -/
def oneWorkload : World := .initial (.single Paths.default.quadletDir "kuadrat-web.container"
  (unitText { name := "web", image := "web" }))

/-- The unit cannot be stopped at first; then it is removed. -/
theorem oneWorkload_removed : ∃ calls s,
    Removals .default "web" (oneWorkload,.ofTree oneWorkload.fs) calls s ∧
    (calls.map fun e => e.result.isOk) = [false,true] ∧
    ∀ e ∈ calls, e.Effective .default "web" := by
  have hrun : ∃ calls s, Removals .default "web" (oneWorkload,.ofTree oneWorkload.fs) calls s ∧
      (calls.map fun e => e.result.isOk) = [false,true] ∧
      ∀ e ∈ calls, e.result = .ok () → e.call.Ready .default "web" e.before := by
    refine ⟨_,_,.next .workload [.done,.entries ["kuadrat-web.container"],.done,.done,.done,
      .output ⟨0,"",""⟩,.done,.output ⟨0,"",""⟩] (.next .workload
        [.done,.entries ["kuadrat-web.container"],.done,.done,.done,.output ⟨1,"",""⟩] .none rfl)
        rfl,rfl,?_⟩
    intro e he hok
    rcases List.mem_append.mp he with he | he
    · rw [List.nil_append] at he
      rw [List.mem_singleton.mp he] at hok
      cases hok
    · rw [List.mem_singleton.mp he]
      exact .inl ⟨unitPath .default "web",.inl rfl,nofun⟩
  obtain ⟨calls,s,hrun,hresults,hready⟩ := hrun
  exact ⟨calls,s,hrun,hresults,(removals_effective_iff hrun).mpr hready⟩

/-- The unit is deleted, and the reload fails: the next call finds no file, and returns `Ok`
without a reload. -/
theorem oneWorkload_stays_loaded : ¬∀ calls s,
    Removals .default "web" (oneWorkload,.ofTree oneWorkload.fs) calls s →
    ∀ e ∈ calls, e.Effective .default "web" := by
  intro h
  have hrun := h _ _ (.next .workload [.done,.entries [],.done,.done] (.next .workload
    [.done,.entries ["kuadrat-web.container"],.done,.done,.done,.output ⟨0,"",""⟩,.done,
      .output ⟨1,"",""⟩] .none rfl) rfl) _ (List.mem_append_right _ (List.mem_singleton_self _)) rfl
  exact absurd (hrun (unitPath .default "web") (.inl rfl)).2 nofun

end Sample
end Kuadrat
