import Kuadrat.Workloads.Sure

/-!
# Foreign files

A file that does not start with the marker is foreign. Whatever fails, and wherever a call is
cut short, the foreign files of a host stay the same ones, byte by byte.
-/
namespace Kuadrat

open Effect

/-- The two hosts have the same foreign files. -/
def SameForeign (f g : Path → Option Text) : Prop :=
  ∀ p t, ¬Marked t → (g p = some t ↔ f p = some t)

/-- The path is free for kuadrat: nothing foreign is there. -/
def Clean (f : Path → Option Text) (p : Path) : Prop := ∀ t, f p = some t → Marked t

section Updates
variable {f g : Path → Option Text} {p q : Path} {t : Text}

/-- Where nothing foreign is, a marked file may be written, and any file deleted. -/
theorem SameForeign.update (h : SameForeign f g) (hp : Clean g p) {o : Option Text}
    (ho : ∀ t, o = some t → Marked t) : SameForeign f (Function.update g p o) := by
  intro q t ht
  rw [← h q t ht]
  by_cases hq : q = p
  · subst hq
    rw [Function.update_self]
    exact iff_of_false (fun he => ht (ho t he)) fun he => ht (hp t he)
  · rw [Function.update_of_ne hq]

theorem SameForeign.clean (h : SameForeign f g) : Clean g p ↔ Clean f p := by
  constructor
  · intro hg t ht
    by_contra hm
    exact hm (hg t ((h p t hm).mpr ht))
  · intro hf t ht
    by_contra hm
    exact hm (hf t ((h p t hm).mp ht))

theorem Clean.update (h : Clean f q) {o : Option Text} (ho : ∀ t, o = some t → Marked t) :
    Clean (Function.update f p o) q := by
  intro t ht
  by_cases hq : q = p
  · subst hq
    rw [Function.update_self] at ht
    exact ho t ht
  · rw [Function.update_of_ne hq] at ht
    exact h t ht

end Updates

/-- Since `w₀`, no foreign file has changed, and only marked texts were written, to paths where
nothing foreign was. -/
structure Guarded (w₀ w : World) : Prop where
  foreign : SameForeign w₀.fs.contents w.fs.contents
  written : ∀ p t, Eff.write p t ∈ w.issued → Eff.write p t ∈ w₀.issued ∨
    (Marked t ∧ Clean w₀.fs.contents p)

/-- A call on a host that may fail at any operation, watched all along. -/
abbrev watched (paths : Paths) (w₀ : World) : Spec Eff Eff.Resp World :=
  hostSpec paths (fun _ _ => True) (Guarded w₀)

section Rules
variable {paths : Paths} {w₀ w : World}

theorem Guarded.refl (w : World) : Guarded w w := ⟨fun _ _ _ => Iff.rfl,fun _ _ => .inl⟩

/-- An operation that is not a write, and leaves the files alone. -/
theorem Guarded.record (h : Guarded w₀ w) {w' : World} {e : Eff} (he : ∀ p t, e ≠ .write p t)
    (hfs : w'.fs.contents = w.fs.contents) (hissued : w'.issued = w.issued) :
    Guarded w₀ (w'.record e) where
  foreign := by
    rw [World.record_fs,hfs]
    exact h.foreign
  written p t hmem := by
    rw [World.record_issued,hissued] at hmem
    rcases List.mem_append.mp hmem with hold | hnew
    · exact h.written p t hold
    · exact absurd (List.mem_singleton.mp hnew).symm (he p t)

/-- What touches no file leaves all of them as they are. -/
theorem quiet_guard {α : Type} {p : Run α} (h : All (fun e => ∀ q, ¬e.Touches q) p.run)
    (hk : Guarded w₀ w) : wp (watched paths w₀) p.run (fun _ w' => Guarded w₀ w' ∧
      w'.fs.contents = w.fs.contents) w := by
  refine wp_invariant (fun w' => Guarded w₀ w' ∧ w'.fs.contents = w.fs.contents) h ⟨hk,rfl⟩
    (fun _ h => h.1) fun w' e x r w'' he _ hI ha => ?_
  have hc : w''.fs.contents = w'.fs.contents := by
    rcases contents_of_answer ha with hc | ⟨q,t,rfl,-⟩ | ⟨q,rfl,-⟩
    · exact hc
    · exact absurd rfl (he q)
    · exact absurd rfl (he q)
  refine ⟨hI.1.record ?_ hc (issued_of_answer ha),hc.trans hI.2⟩
  rintro p t rfl
  exact he p rfl

/-- Asking for a file's owner: a path that passes has nothing foreign. -/
theorem ensureOwned_guard {p : Path} {action : String} (hk : Guarded w₀ w) :
    wp (watched paths w₀) (ensureOwned p managedMarker action).run (fun r w' =>
      (Guarded w₀ w' ∧ w'.fs.contents = w.fs.contents) ∧
        ∀ b, r = .ok b → Clean w'.fs.contents p) w := by
  unfold ensureOwned
  refine wp_run_seq (P := fun r w' => (Guarded w₀ w' ∧ w'.fs = w.fs) ∧
    ∀ b, r = .ok b → b = w.fs.present p)
    (wp_present hk
      (fun _ => ⟨⟨hk.record (by rintro _ _ ⟨⟩) rfl rfl,rfl⟩,fun _ h => (Except.ok.inj h).symm⟩)
      fun _ _ => ⟨⟨hk.record (by rintro _ _ ⟨⟩) rfl rfl,rfl⟩,by rintro _ ⟨⟩⟩)
    (fun b w₁ h₁ => ?_) fun e w₁ h₁ => ⟨⟨h₁.1.1,congrArg _ h₁.1.2⟩,by rintro _ ⟨⟩⟩
  obtain ⟨⟨hk₁,hfs⟩,hb⟩ := h₁
  cases b with
  | false =>
    refine ⟨⟨hk₁,congrArg _ hfs⟩,fun _ _ t ht => ?_⟩
    have habsent := hb false rfl
    rw [hfs] at ht
    simp [FileTree.present,ht] at habsent
  | true =>
    refine wp_run_seq (P := fun r w' => (Guarded w₀ w' ∧ w'.fs = w.fs) ∧
      ∀ t, r = .ok t → w.fs.contents p = some t)
      (wp_readToString hk₁
        (fun t _ ht => ⟨⟨hk₁.record (by rintro _ _ ⟨⟩) rfl rfl,hfs⟩,fun t' h => ?_⟩)
        fun _ _ => ⟨⟨hk₁.record (by rintro _ _ ⟨⟩) rfl rfl,hfs⟩,by rintro _ ⟨⟩⟩)
      (fun t w₂ h₂ => ?_) fun e w₂ h₂ => ⟨⟨h₂.1.1,congrArg _ h₂.1.2⟩,by rintro _ ⟨⟩⟩
    · cases h
      rw [← hfs,ht]
    · have hsame := congrArg FileTree.contents h₂.1.2
      split
      · rename_i hm
        refine ⟨⟨h₂.1.1,hsame⟩,fun _ _ t' ht' => ?_⟩
        rw [hsame,h₂.2 t rfl] at ht'
        cases ht'
        exact List.isPrefixOf_iff_prefix.mp hm
      · exact ⟨⟨h₂.1.1,hsame⟩,by rintro _ ⟨⟩⟩

theorem write_guard {p : Path} {t : Text} (hk : Guarded w₀ w) (hp : Clean w.fs.contents p)
    (ht : Marked t) : wp (watched paths w₀) (Run.write p t).run (fun _ w' => Guarded w₀ w' ∧
      ∀ q, Clean w.fs.contents q → Clean w'.fs.contents q) w := by
  have hmarked : ∀ t', some t = some t' → Marked t' := fun _ h => Option.some.inj h ▸ ht
  have hwritten : ∀ q t', Eff.write q t' ∈ w.issued ++ [.write p t] → Eff.write q t' ∈ w₀.issued ∨
      (Marked t' ∧ Clean w₀.fs.contents q) := by
    intro q t' hmem
    rcases List.mem_append.mp hmem with hold | hnew
    · exact hk.written q t' hold
    · cases List.mem_singleton.mp hnew
      exact .inr ⟨ht,hk.foreign.clean.mp hp⟩
  refine wp_write hk (fun fs _ hfs => ?_) fun _ _ => ⟨⟨hk.foreign,hwritten⟩,fun _ => id⟩
  have hc := FileTree.contents_of_write hfs
  refine ⟨⟨?_,hwritten⟩,fun q hq => ?_⟩
  · change SameForeign _ fs.contents
    rw [hc]
    exact hk.foreign.update hp hmarked
  · change Clean fs.contents q
    rw [hc]
    exact hq.update hmarked

theorem removeFile_guard {p : Path} (hk : Guarded w₀ w) (hp : Clean w.fs.contents p) :
    wp (watched paths w₀) (Run.removeFile p).run (fun _ w' => Guarded w₀ w') w := by
  refine wp_removeFile hk (fun fs _ hfs => ?_) fun _ _ => hk.record nofun rfl rfl
  have hc := FileTree.contents_of_removeFile hfs
  refine ⟨?_,fun q t hmem => ?_⟩
  · change SameForeign _ fs.contents
    rw [hc]
    exact hk.foreign.update hp nofun
  · exact (hk.record (e := .removeFile p) nofun rfl rfl).written q t hmem

end Rules

section Calls
variable {paths : Paths} {w₀ w : World} {name slug : Text} {keep : List Text}

theorem systemctl_untouching (c : Command) :
    All (fun e => ∀ q, ¬e.Touches q) (systemctl c).run := all_systemctl fun _ => id

theorem pruneEntry_guard (removed : Bool) (entry : Path) (hk : Guarded w₀ w) :
    wp (watched paths w₀) (pruneEntry name keep removed entry).run
      (fun _ w' => Guarded w₀ w') w := by
  by_cases hs : StaleStem name keep entry
  · obtain ⟨stem,-,heq⟩ := pruneEntry_of_stale removed hs
    rw [heq]
    refine wp_run_seq (ensureOwned_guard hk) (fun owned w₁ h₁ => ?_) fun _ _ h₁ => h₁.1.1
    have hclean := h₁.2 owned rfl
    split
    · refine wp_run_seq (quiet_guard (all_when (systemctl_untouching _)) h₁.1.1)
        (fun _ w₂ h₂ => ?_) fun _ _ h₂ => h₂.1
      rw [← h₂.2] at hclean
      exact wp_run_seq (removeFile_guard h₂.1 hclean) (fun _ _ h₃ => h₃) fun _ _ h₃ => h₃
    · exact h₁.1.1
  · rw [pruneEntry_of_not_stale removed hs]
    exact hk

theorem pruneTasks_guard (hk : Guarded w₀ w) : wp (watched paths w₀)
    (pruneTasks paths name keep).run (fun _ w' => Guarded w₀ w') w := by
  refine wp_foldlM (I := fun _ _ w => Guarded w₀ w) hk (fun dir _ removed w₁ h₁ => ?_)
    fun _ _ h => h
  unfold pruneDir
  refine wp_run_seq (quiet_guard (all_perform fun _ => id) h₁) (fun b w₂ h₂ => ?_)
    fun _ _ h₂ => h₂.1
  split
  · refine wp_run_seq (quiet_guard (all_readDir fun _ => id) h₂.1) (fun entries w₃ h₃ => ?_)
      fun _ _ h₃ => h₃.1
    refine wp_mono (wp_foldlM (I := fun _ _ w => Guarded w₀ w) (Q := fun _ w => Guarded w₀ w)
      h₃.1 (fun entry _ removed w₄ h₄ => ?_) fun _ _ h => h) fun r w₅ h₅ => ?_
    · refine wp_mono (pruneEntry_guard removed entry h₄) fun r _ h => ?_
      cases r <;> exact h
    · cases r <;> exact h₅
  · exact h₂.1

/-- The paths of one task's files are free. -/
def TaskFiles.CleanIn (f : Path → Option Text) (tf : TaskFiles) : Prop :=
  Clean f tf.container ∧ Clean f tf.timer

theorem checkOwned_guard {p : Path} {files : List TaskFiles} (hk : Guarded w₀ w) :
    wp (watched paths w₀) (checkOwned p files).run (fun r w' => Guarded w₀ w' ∧
      ∀ b, r = .ok b → Clean w'.fs.contents p ∧ ∀ tf ∈ files, tf.CleanIn w'.fs.contents) w := by
  unfold checkOwned
  refine wp_run_seq (ensureOwned_guard hk) (fun owned w₁ h₁ => ?_) fun _ _ h₁ => ⟨h₁.1.1,nofun⟩
  have hunit := h₁.2 owned rfl
  refine wp_forM (I := fun rest w' => Guarded w₀ w' ∧ Clean w'.fs.contents p ∧
    ∀ tf ∈ files, tf ∈ rest ∨ tf.CleanIn w'.fs.contents) ⟨h₁.1.1,hunit,fun _ h => .inl h⟩
    (fun tf rest w₂ h₂ => ?_) fun w₂ h₂ => ⟨h₂.1,fun _ _ => ⟨h₂.2.1,fun tf htf =>
      (h₂.2.2 tf htf).resolve_left List.not_mem_nil⟩⟩
  obtain ⟨hk₂,hp,hfiles⟩ := h₂
  refine wp_run_seq (ensureOwned_guard hk₂) (fun _ w₃ h₃ => ?_) fun _ _ h₃ => ⟨h₃.1.1,nofun⟩
  refine wp_run_seq (ensureOwned_guard h₃.1.1) (fun _ w₄ h₄ => ?_) fun _ _ h₄ => ⟨h₄.1.1,nofun⟩
  have hcontainer := h₃.2 _ rfl
  rw [← h₃.1.2,← h₄.1.2] at hp hfiles
  rw [← h₄.1.2] at hcontainer
  refine ⟨h₄.1.1,hp,fun tf' htf' => ?_⟩
  rcases hfiles tf' htf' with hmem | hclean
  · rcases List.mem_cons.mp hmem with rfl | hrest
    · exact .inr ⟨hcontainer,h₄.2 _ rfl⟩
    · exact .inl hrest
  · exact .inr hclean

theorem writeUnits_guard {p : Path} {unit : Text} {files : List TaskFiles}
    (hk : Guarded w₀ w) (hunit : Marked unit) (hp : Clean w.fs.contents p)
    (hfiles : ∀ tf ∈ files, tf.CleanIn w.fs.contents)
    (htexts : ∀ tf ∈ files, Marked tf.containerText ∧ Marked tf.timerText) :
    wp (watched paths w₀) (writeUnits paths p unit files).run (fun _ w' => Guarded w₀ w') w := by
  unfold writeUnits
  refine wp_run_seq (quiet_guard (all_perform fun _ => id) hk) (fun _ w₁ h₁ => ?_) fun _ _ h => h.1
  refine wp_run_seq (quiet_guard (all_when (all_perform fun _ => id)) h₁.1) (fun _ w₂ h₂ => ?_)
    fun _ _ h => h.1
  rw [← h₁.2,← h₂.2] at hp hfiles
  refine wp_run_seq (write_guard h₂.1 hp hunit) (fun _ w₃ h₃ => ?_) fun _ _ h => h.1
  refine wp_forM (I := fun rest w' => Guarded w₀ w' ∧ (∀ tf ∈ rest, tf ∈ files) ∧
    ∀ tf ∈ rest, tf.CleanIn w'.fs.contents)
    ⟨h₃.1,fun _ => id,fun tf htf => ⟨h₃.2 _ (hfiles tf htf).1,h₃.2 _ (hfiles tf htf).2⟩⟩
    (fun tf rest w₄ h₄ => ?_) fun w₄ h₄ => h₄.1
  obtain ⟨hk₄,hsub,hclean⟩ := h₄
  have htf := hclean tf List.mem_cons_self
  have htext := htexts tf (hsub tf List.mem_cons_self)
  refine wp_run_seq (write_guard hk₄ htf.1 htext.1) (fun _ w₅ h₅ => ?_) fun _ _ h => h.1
  refine wp_mono (write_guard h₅.1 (h₅.2 _ htf.2) htext.2) fun r w₆ h₆ => ?_
  cases r with
  | error e => exact h₆.1
  | ok u =>
    refine ⟨h₆.1,fun tf' h => hsub tf' (List.mem_cons_of_mem _ h),fun tf' h => ?_⟩
    have htf' := hclean tf' (List.mem_cons_of_mem _ h)
    exact ⟨h₆.2 _ (h₅.2 _ htf'.1),h₆.2 _ (h₅.2 _ htf'.2)⟩

theorem inspects_untouching : Inspects fun e => ∀ q, ¬e.Touches q :=
  ⟨fun _ _ => id,fun _ _ => id⟩

theorem all_activate_untouching (name : Text) (previous : Option Text) (unit : Text)
    (files : List TaskFiles) :
    All (fun e => ∀ q, ¬e.Touches q) (activate name previous unit files).run :=
  all_run_bind (systemctl_untouching _) fun _ => all_run_bind (systemctl_untouching _) fun _ =>
    all_forM fun _ _ => systemctl_untouching _

/-- All files are checked before the first of them is written. -/
theorem apply_guard {spec : WorkloadSpec} (hk : Guarded w₀ w) :
    wp (watched paths w₀) (apply paths spec).run (fun _ w' => Guarded w₀ w') w := by
  by_cases hv : spec.validate = .ok ()
  · rw [apply_of_valid hv]
    refine wp_run_seq (quiet_guard (all_forM fun task _ => all_preflight (fun _ _ => id) task) hk)
      (fun _ w₁ h₁ => ?_) fun _ _ h => h.1
    refine wp_run_seq (checkOwned_guard h₁.1) (fun _ w₂ h₂ => ?_) fun _ _ h => h.1
    obtain ⟨hunit,hfiles⟩ := h₂.2 _ rfl
    refine wp_run_seq (quiet_guard (all_readPrevious inspects_untouching _) h₂.1)
      (fun previous w₃ h₃ => ?_) fun _ _ h => h.1
    rw [← h₃.2] at hunit hfiles
    refine wp_run_seq (writeUnits_guard h₃.1 (marked_unitText spec) hunit hfiles fun tf htf => ?_)
      (fun _ w₄ h₄ => ?_) fun _ _ h => h
    · obtain ⟨task,-,rfl⟩ := List.mem_map.mp htf
      exact ⟨marked_taskText spec task,marked_timerText spec task⟩
    · refine wp_run_seq (pruneTasks_guard h₄) (fun _ w₅ h₅ => ?_) fun _ _ h => h
      exact wp_mono (quiet_guard (all_activate_untouching _ _ _ _) h₅) fun _ _ h => h.1
  · obtain ⟨e,heq⟩ := apply_of_not_valid hv
    rw [heq]
    exact hk

theorem remove_guard (hk : Guarded w₀ w) :
    wp (watched paths w₀) (remove paths name).run (fun _ w' => Guarded w₀ w') w := by
  unfold remove
  refine wp_run_seq (pruneTasks_guard hk) (fun pruned w₁ h₁ => ?_) fun _ _ h => h
  refine wp_run_seq (ensureOwned_guard h₁) (fun owned w₂ h₂ => ?_) fun _ _ h => h.1.1
  have hclean := h₂.2 owned rfl
  split
  · refine wp_run_seq (quiet_guard (systemctl_untouching _) h₂.1.1) (fun _ w₃ h₃ => ?_)
      fun _ _ h => h.1
    rw [← h₃.2] at hclean
    refine wp_run_seq (removeFile_guard h₃.1 hclean) (fun _ w₄ h₄ => ?_) fun _ _ h => h
    exact wp_mono (quiet_guard (systemctl_untouching _) h₄) fun _ _ h => h.1
  · exact wp_mono (quiet_guard (all_when (systemctl_untouching _)) h₂.1.1) fun _ _ h => h.1

theorem applyRoute_guard {route : Route} (hk : Guarded w₀ w) :
    wp (watched paths w₀) (applyRoute paths slug route).run (fun _ w' => Guarded w₀ w') w := by
  unfold applyRoute
  refine wp_run_seq (ensureOwned_guard hk) (fun owned w₁ h₁ => ?_) fun _ _ h => h.1.1
  have hclean := h₁.2 owned rfl
  refine wp_run_seq (quiet_guard (all_perform fun _ => id) h₁.1.1) (fun _ w₂ h₂ => ?_)
    fun _ _ h => h.1
  rw [← h₂.2] at hclean
  refine wp_run_seq (write_guard h₂.1 hclean (marked_renderFragment route)) (fun _ w₃ h₃ => ?_)
    fun _ _ h => h.1
  exact wp_mono (quiet_guard (all_reloadCaddy fun _ => id) h₃.1) fun _ _ h => h.1

theorem removeRoute_guard (hk : Guarded w₀ w) :
    wp (watched paths w₀) (removeRoute paths slug).run (fun _ w' => Guarded w₀ w') w := by
  unfold removeRoute
  refine wp_run_seq (ensureOwned_guard hk) (fun owned w₁ h₁ => ?_) fun _ _ h => h.1.1
  split
  · refine wp_run_seq (removeFile_guard h₁.1.1 (h₁.2 owned rfl)) (fun _ w₂ h₂ => ?_) fun _ _ h => h
    exact wp_mono (quiet_guard (all_reloadCaddy fun _ => id) h₂) fun _ _ h => h.1
  · exact h₁.1.1

end Calls

/-- A call of the workload engine or of the gateway. -/
inductive FileCall
  | apply (spec : WorkloadSpec)
  | remove (name : Text)
  | applyRoute (slug : Text) (route : Route)
  | removeRoute (slug : Text)

def FileCall.program (paths : Paths) : FileCall → Run Unit
  | apply spec => Kuadrat.apply paths spec
  | remove name => Kuadrat.remove paths name
  | applyRoute slug route => Kuadrat.applyRoute paths slug route
  | removeRoute slug => Kuadrat.removeRoute paths slug

/-- Any calls, one after the other, each returning or cut short. -/
inductive FileCalls (paths : Paths) (w₀ : World) : World → Prop
  | none : FileCalls paths w₀ w₀
  | next {w w' : World} (call : FileCall) {answers : List Answer}
      {rest : Prog Eff Eff.Resp (Except Message Unit)} : FileCalls paths w₀ w →
    (World.machine paths).advance answers (call.program paths).run w = some (rest,w') →
    FileCalls paths w₀ w'

theorem FileCall.guard {paths : Paths} {w₀ w : World} (call : FileCall) (hk : Guarded w₀ w) :
    wp (watched paths w₀) (call.program paths).run (fun _ w' => Guarded w₀ w') w := by
  cases call with
  | apply spec => exact apply_guard hk
  | remove name => exact remove_guard hk
  | applyRoute slug route => exact applyRoute_guard hk
  | removeRoute slug => exact removeRoute_guard hk

/-- Every call of a sequence keeps to its own files. -/
theorem FileCalls.guarded {paths : Paths} {w₀ w : World} (h : FileCalls paths w₀ w) :
    Guarded w₀ w := by
  induction h with
  | none => exact Guarded.refl _
  | next call _ hrun ih =>
    exact Machine.wp_cut _ (call.guard ih) (fun _ _ h => h)
      (Machine.allowed_of_forall _ (fun _ _ _ => trivial) _ _) hrun

section Sample

end Sample
end Kuadrat
