import Kuadrat.Workloads.Ownership

/-!
# Refusals

When a call is refused because of a foreign file, and what it has done by then. The paths
that a call writes are all asked for before the first write, but a stale task file is only
met by the scan that deletes its neighbours.
-/
namespace Kuadrat

open Effect

/-- What `ensureOwned` says of a file that kuadrat did not write. -/
def refusal (action : String) (p : Path) : Message :=
  ["refusing to ",.lit action," ",.text p.display,
    ": the file exists but does not start with `",.text managedMarker,
    "`, so kuadrat did not write it; resolve the drift by hand"]

/-- The call ended by refusing a foreign file, the one that it read last. -/
def Refused {α : Type} (r : Except Message α) (w : World) : Prop :=
  ∃ action p, r = .error (refusal action p) ∧ w.issued.getLast? = some (.readToString p) ∧
    ¬Clean w.fs.contents p

theorem Refused.error {α β : Type} {e : Message} {w : World}
    (h : Refused (.error e : Except Message α) w) : Refused (.error e : Except Message β) w := by
  obtain ⟨action,p,he,hp⟩ := h
  cases he
  exact ⟨action,p,rfl,hp⟩

/-- An error promises nothing of a result. -/
theorem error_never {α : Type} {P : α → Prop} {e : Message} :
    ∀ a, (.error e : Except Message α) = .ok a → P a := by
  intro a h
  cases h

theorem not_refused_ok {α : Type} {a : α} {w : World} : ¬Refused (.ok a) w := by
  intro h
  obtain ⟨_,_,he,-⟩ := h
  cases he

/-- Since `w` no file has changed, and no systemctl command was run. -/
structure Still (w w' : World) : Prop where
  files : w'.fs.contents = w.fs.contents
  commands : ∃ l, w'.issued = w.issued ++ l ∧ ∀ c, Eff.run c ∈ l → c.isSystemctl = false

theorem Still.refl (w : World) : Still w w := ⟨rfl,[],by simp,by simp⟩

theorem Still.trans {w w' w'' : World} (h : Still w w') (h' : Still w' w'') : Still w w'' := by
  obtain ⟨l,hl,hmute⟩ := h.commands
  obtain ⟨l',hl',hmute'⟩ := h'.commands
  refine ⟨h'.files.trans h.files,l ++ l',by simp [hl',hl],fun c hc => ?_⟩
  rcases List.mem_append.mp hc with hc | hc
  · exact hmute c hc
  · exact hmute' c hc

/-- The operation changes nothing on the disk, and is no systemctl command. -/
def Eff.Looks : Eff → Prop
  | .present _ | .readToString _ | .readDir _ => True
  | .run c => c.isSystemctl = false
  | _ => False

/-- The operation is no systemctl command. -/
def Eff.Mute (e : Eff) : Prop := ∀ c, e = .run c → c.isSystemctl = false

theorem Eff.Looks.mute {e : Eff} (h : e.Looks) : e.Mute := by
  intro c hc
  subst hc
  exact h

section Steps
variable {paths : Paths} {w w₀ : World} {α β : Type}

theorem issued_record (e : Eff) (he : e.Mute) {w' : World}
    (h : ∃ l, w'.issued = w.issued ++ l ∧ ∀ c, Eff.run c ∈ l → c.isSystemctl = false) :
    ∃ l, (w'.record e).issued = w.issued ++ l ∧ ∀ c, Eff.run c ∈ l → c.isSystemctl = false := by
  obtain ⟨l,hl,hmute⟩ := h
  refine ⟨l ++ [e],by simp [hl],fun c hc => ?_⟩
  rcases List.mem_append.mp hc with hc | hc
  · exact hmute c hc
  · exact he c (List.mem_singleton.mp hc).symm

/-- What only looks leaves the host still. -/
theorem wp_looks {p : Run α} (h : All Eff.Looks p.run) : wp (host paths fun _ _ => True) p.run
    (fun _ w' => w'.fs = w.fs ∧ Still w w') w := by
  refine wp_invariant (fun w' => w'.fs = w.fs ∧ Still w w') h ⟨rfl,.refl w⟩ (fun _ _ => trivial)
    fun w' e x r w'' he _ hI ha => ?_
  have hfs : w''.fs = w'.fs := by
    rcases answer_cases ha with rfl | ⟨p,t,fs,rfl,-,-⟩ | ⟨p,fs,rfl,-,-⟩ | ⟨p,fs,rfl,-,-⟩ |
      ⟨c,-,rfl⟩ | ⟨o,-,rfl⟩ | ⟨event,-,rfl⟩
    case inr.inl | inr.inr.inl | inr.inr.inr.inl => exact he.elim
    all_goals rfl
  have hsame : w''.fs = w.fs := hfs.trans hI.1
  refine ⟨hsame,congrArg FileTree.contents hsame,issued_record e he.mute ?_⟩
  rw [issued_of_answer ha]
  exact hI.2.commands

/-- What runs no systemctl command adds none to the operations. -/
theorem wp_mute {p : Run α} (h : All Eff.Mute p.run)
    (hw : ∃ l, w.issued = w₀.issued ++ l ∧ ∀ c, Eff.run c ∈ l → c.isSystemctl = false) :
    wp (host paths fun _ _ => True) p.run (fun _ w' =>
      ∃ l, w'.issued = w₀.issued ++ l ∧ ∀ c, Eff.run c ∈ l → c.isSystemctl = false) w := by
  refine wp_invariant (fun w' => ∃ l, w'.issued = w₀.issued ++ l ∧
    ∀ c, Eff.run c ∈ l → c.isSystemctl = false) h hw (fun _ _ => trivial)
    fun w' e x r w'' he _ hI ha => ?_
  refine issued_record e he ?_
  rw [issued_of_answer ha]
  exact hI

end Steps

/-- A failure of the program is no refusal: its last operation reads no file. -/
def Unrefusing (paths : Paths) {α : Type} (p : Run α) : Prop :=
  ∀ w, wp (host paths fun _ _ => True) p.run
    (fun r w' => ∀ e, r = .error e → ∀ q, w'.issued.getLast? ≠ some (.readToString q)) w

section Unrefusing
variable {paths : Paths} {w : World} {α β : Type}

theorem not_refused {r : Except Message α} (h : ∀ e, r = .error e →
    ∀ q, w.issued.getLast? ≠ some (.readToString q)) : ¬Refused r w := by
  intro hr
  obtain ⟨action,p,hr,hlast,-⟩ := hr
  exact h _ hr p hlast

theorem wp_unread {e : Eff} (he : ∀ q, e ≠ .readToString q) :
    wp (host paths fun _ _ => True) (.perform e)
      (fun _ w' => ∀ q, w'.issued.getLast? ≠ some (.readToString q)) w := by
  refine wp_issue trivial fun x r w' _ _ q hq => ?_
  rw [World.record_issued,List.getLast?_concat,Option.some.injEq] at hq
  exact he q hq

theorem unrefusing_pure (a : α) : Unrefusing paths (pure a : Run α) := by
  intro w e he
  cases he

theorem unrefusing_seq {p : Run α} {f : α → Run β} (hp : Unrefusing paths p)
    (hf : ∀ a, Unrefusing paths (f a)) : Unrefusing paths (p >>= f) :=
  fun w => wp_run_seq (hp w) (fun a w' _ => hf a w') fun e _ h _ _ => h e rfl

theorem unrefusing_when {c : Bool} {p : Run Unit} (h : Unrefusing paths p) :
    Unrefusing paths (Run.when c p) := by
  unfold Run.when
  split
  · exact h
  · exact unrefusing_pure ()

theorem unrefusing_forM {l : List α} {f : α → Run PUnit} (h : ∀ a ∈ l, Unrefusing paths (f a)) :
    Unrefusing paths (forM l f) := by
  induction l with
  | nil => exact unrefusing_pure _
  | cons a rest ih =>
    rw [List.forM_cons]
    exact unrefusing_seq (h a List.mem_cons_self) fun _ => ih fun b hb =>
      h b (List.mem_cons_of_mem _ hb)

theorem unrefusing_present (p : Path) : Unrefusing paths (Run.present p) :=
  fun _ => wp_mono (wp_unread nofun) fun _ _ h _ _ => h

theorem unrefusing_readDir (p : Path) : Unrefusing paths (Run.readDir p) :=
  unrefusing_seq (fun _ => wp_mono (wp_unread nofun) fun _ _ h _ _ => h) fun _ => unrefusing_pure _

theorem unrefusing_write (p : Path) (t : Text) : Unrefusing paths (Run.write p t) :=
  fun _ => wp_mono (wp_unread nofun) fun _ _ h _ _ => h

theorem unrefusing_createDirAll (p : Path) : Unrefusing paths (Run.createDirAll p) :=
  fun _ => wp_mono (wp_unread nofun) fun _ _ h _ _ => h

theorem unrefusing_removeFile (p : Path) : Unrefusing paths (Run.removeFile p) :=
  fun _ => wp_mono (wp_unread nofun) fun _ _ h _ _ => h

/-- A command that fails, or exits with an error, was the last operation. -/
theorem unrefusing_systemctl (c : Command) : Unrefusing paths (systemctl c) := by
  intro w
  refine wp_run_seq (wp_unread nofun) (fun out w' h => ?_) fun _ _ h _ _ => h
  split
  · exact unrefusing_pure () w'
  · intro _ _
    exact h

theorem unrefusing_reloadCaddy : Unrefusing paths reloadCaddy := by
  intro w
  refine wp_run_seq (wp_unread nofun) (fun out w' h => ?_) fun _ _ h _ _ => h
  split
  · exact unrefusing_pure () w'
  · intro _ _
    exact h

theorem unrefusing_writeUnits (p : Path) (unit : Text) (files : List TaskFiles) :
    Unrefusing paths (writeUnits paths p unit files) :=
  unrefusing_seq (unrefusing_createDirAll _) fun _ =>
    unrefusing_seq (unrefusing_when (unrefusing_createDirAll _)) fun _ =>
      unrefusing_seq (unrefusing_write _ _) fun _ => unrefusing_forM fun _ _ =>
        unrefusing_seq (unrefusing_write _ _) fun _ => unrefusing_write _ _

theorem unrefusing_activate (name : Text) (previous : Option Text) (unit : Text)
    (files : List TaskFiles) : Unrefusing paths (activate name previous unit files) :=
  unrefusing_seq (unrefusing_systemctl _) fun _ => unrefusing_seq (unrefusing_systemctl _) fun _ =>
    unrefusing_forM fun _ _ => unrefusing_systemctl _

end Unrefusing

section Directories
variable (name : Text) (keep : List Text)

/-- The directory holds a stale task file that kuadrat did not write. -/
def HasForeign (fs : FileTree) (dir : Path) : Prop :=
  ∃ p, Path.Inside dir p ∧ StaleStem name keep p ∧ ¬Clean fs.contents p

/-- The directory holds a stale task file of kuadrat's. -/
def HasOwned (fs : FileTree) (dir : Path) : Prop :=
  ∃ p t, Path.Inside dir p ∧ StaleStem name keep p ∧ fs.contents p = some t ∧ Marked t

/-- Whatever is stale in the directory can be deleted: it is neither foreign nor a directory. -/
def AllClear (fs : FileTree) (dir : Path) : Prop :=
  ∀ p, Path.Inside dir p → StaleStem name keep p → p ∉ fs.dirs ∧ Clean fs.contents p

/-- The scan of the directory can come to its end. -/
def Passes (fs : FileTree) (dir : Path) : Prop :=
  fs.present dir = false ∨ dir ∈ fs.dirs ∧ AllClear name keep fs dir

end Directories

/-- The second tree is the first without some owned files of `P`. -/
structure Swept (P : Path → Prop) (fs fs' : FileTree) : Prop where
  dirs : fs'.dirs = fs.dirs
  files : ∀ p, fs'.contents p = fs.contents p ∨
    fs'.contents p = none ∧ P p ∧ ∃ t, fs.contents p = some t ∧ Marked t

section Swept
variable {P P' : Path → Prop} {fs fs' fs'' : FileTree} {p dir : Path} {name : Text}
  {keep : List Text}

theorem Swept.refl (P : Path → Prop) (fs : FileTree) : Swept P fs fs := ⟨rfl,fun _ => .inl rfl⟩

theorem Swept.mono (h : Swept P fs fs') (hP : ∀ p, P p → P' p) : Swept P' fs fs' :=
  ⟨h.dirs,fun p => (h.files p).imp_right fun hp => ⟨hp.1,hP p hp.2.1,hp.2.2⟩⟩

theorem Swept.trans (h : Swept P fs fs') (h' : Swept P fs' fs'') : Swept P fs fs'' := by
  refine ⟨h'.dirs.trans h.dirs,fun p => ?_⟩
  rcases h'.files p with h₂ | ⟨hnone,hP,t,ht,hm⟩
  · rw [h₂]
    exact h.files p
  · rcases h.files p with h₁ | ⟨h₁,-⟩
    · exact .inr ⟨hnone,hP,t,h₁ ▸ ht,hm⟩
    · rw [h₁] at ht
      cases ht

/-- What has not been swept is still there. -/
theorem Swept.kept (h : Swept P fs fs') (hp : ¬P p) : fs'.contents p = fs.contents p :=
  (h.files p).resolve_right fun hs => hp hs.2.1

/-- Sweeping deletes no foreign file. -/
theorem Swept.clean (h : Swept P fs fs') : Clean fs'.contents p ↔ Clean fs.contents p := by
  rcases h.files p with hp | ⟨hp,-,t,ht,hm⟩
  · unfold Clean
    rw [hp]
  · refine iff_of_true (fun t' ht' => ?_) fun t' ht' => ?_
    · rw [hp] at ht'
      cases ht'
    · rw [ht] at ht'
      cases ht'
      exact hm

theorem Swept.hasForeign (h : Swept P fs fs') (hf : HasForeign name keep fs' dir) :
    HasForeign name keep fs dir := by
  obtain ⟨p,hin,hs,hclean⟩ := hf
  exact ⟨p,hin,hs,fun hc => hclean (h.clean.mpr hc)⟩

theorem Swept.hasOwned (h : Swept P fs fs') (ho : HasOwned name keep fs' dir) :
    HasOwned name keep fs dir := by
  obtain ⟨p,t,hin,hs,ht,hm⟩ := ho
  rcases h.files p with hp | ⟨hp,-⟩
  · exact ⟨p,t,hin,hs,hp ▸ ht,hm⟩
  · rw [hp] at ht
    cases ht

theorem Swept.allClear (h : Swept P fs fs') :
    AllClear name keep fs' dir ↔ AllClear name keep fs dir := by
  unfold AllClear
  rw [h.dirs]
  simp only [h.clean]

/-- A directory that is not itself swept can be scanned before when it can be after. -/
theorem Swept.passes (h : Swept P fs fs') (hdir : ¬P dir) :
    Passes name keep fs' dir ↔ Passes name keep fs dir := by
  unfold Passes FileTree.present
  rw [h.allClear,h.dirs,h.kept hdir]

end Swept

section Scan
variable {paths : Paths} {w : World} {name : Text} {keep : List Text}

theorem present_refusal (p : Path) : wp (host paths fun _ _ => True) (Run.present p).run
    (fun r w' => (w'.fs = w.fs ∧ Still w w') ∧ (∀ b, r = .ok b → b = w.fs.present p) ∧
      ¬Refused r w') w := by
  refine wp_mono (wp_and (wp_looks (all_perform trivial)) (wp_and (unrefusing_present p w)
    (wp_present (Q := fun r _ => ∀ b, r = .ok b → b = w.fs.present p) trivial
      (fun _ b hb => (Except.ok.inj hb).symm) fun _ _ => nofun))) fun r w' h => ?_
  exact ⟨h.1,h.2.2,not_refused h.2.1⟩

theorem readDir_refusal (dir : Path) : wp (host paths fun _ _ => True) (Run.readDir dir).run
    (fun r w' => (w'.fs = w.fs ∧ Still w w') ∧
      (∀ l, r = .ok l → dir ∈ w.fs.dirs ∧ l.Perm (w.fs.entries dir)) ∧ ¬Refused r w') w := by
  refine wp_mono (wp_and (wp_looks (all_readDir trivial)) (wp_and (unrefusing_readDir dir w)
    (wp_readDir (Q := fun r _ => ∀ l, r = .ok l → dir ∈ w.fs.dirs ∧ l.Perm (w.fs.entries dir))
      trivial (fun names _ hd hl l h => ?_) fun _ _ => nofun))) fun r w' h => ?_
  · cases h
    exact ⟨hd,hl⟩
  · exact ⟨h.1,h.2.2,not_refused h.2.1⟩

/-- Asking for a file's owner changes nothing, and is refused for a foreign file only. -/
theorem ensureOwned_refusal (p : Path) (action : String) : wp (host paths fun _ _ => True)
    (ensureOwned p managedMarker action).run (fun r w' => (w'.fs = w.fs ∧ Still w w') ∧
      (∀ b, r = .ok b → p ∉ w.fs.dirs ∧ Clean w.fs.contents p ∧ b = (w.fs.contents p).isSome) ∧
      (Refused r w' → ¬Clean w.fs.contents p)) w := by
  have hlooks := @wp_looks paths w _ _
    (all_ensureOwned ⟨fun _ => trivial,fun _ => trivial⟩ p managedMarker action)
  have hrest : wp (host paths fun _ _ => True) (ensureOwned p managedMarker action).run
      (fun r w' => (∀ b, r = .ok b → p ∉ w.fs.dirs ∧ Clean w.fs.contents p ∧
        b = (w.fs.contents p).isSome) ∧ (Refused r w' → ¬Clean w.fs.contents p)) w := by
    unfold ensureOwned
    refine wp_run_seq (present_refusal p) (fun b w₁ h₁ => ?_)
      fun e w₁ h₁ => ⟨error_never,fun h => absurd h.error h₁.2.2⟩
    obtain ⟨⟨hfs,-⟩,hb,-⟩ := h₁
    have hpresent := hb b rfl
    cases b with
    | false =>
      have habsent : w.fs.contents p = none ∧ p ∉ w.fs.dirs := by
        simpa [FileTree.present] using hpresent.symm
      refine ⟨fun b hb => ?_,fun hr => absurd hr not_refused_ok⟩
      cases hb
      refine ⟨habsent.2,fun t ht => ?_,by rw [habsent.1]; rfl⟩
      rw [habsent.1] at ht
      cases ht
    | true =>
      -- Whatever the read answers, a refusal after it is about the file that was read.
      have hread : ∀ {β : Type} {r : Except Message β} {w' : World}, w'.fs = w.fs →
          w'.issued.getLast? = some (.readToString p) → Refused r w' → ¬Clean w.fs.contents p := by
        intro β r w' hfs' hlast hr
        obtain ⟨action',q,-,hq,hclean⟩ := hr
        rw [hlast,Option.some.injEq,Eff.readToString.injEq] at hq
        rw [hq,← hfs']
        exact hclean
      refine wp_run_seq (P := fun r w' => (w'.fs = w.fs ∧
        w'.issued.getLast? = some (.readToString p)) ∧ ∀ t, r = .ok t → w.fs.contents p = some t)
        (wp_readToString trivial (fun t _ ht => ⟨⟨hfs,by simp⟩,fun t' h => ?_⟩)
          fun _ _ => ⟨⟨hfs,by simp⟩,error_never⟩)
        (fun t w₂ h₂ => ?_) fun e w₂ h₂ => ⟨error_never,hread h₂.1.1 h₂.1.2⟩
      · cases h
        rw [← hfs,ht]
      · have ht := h₂.2 t rfl
        have hdir : p ∉ w.fs.dirs := w.fs.file_not_dir p (FileTree.mem_files.mpr (by rw [ht]; rfl))
        split
        · rename_i hm
          refine ⟨fun b hb => ?_,fun hr => absurd hr not_refused_ok⟩
          cases hb
          refine ⟨hdir,fun t' ht' => ?_,by rw [ht]; rfl⟩
          rw [ht,Option.some.injEq] at ht'
          exact ht' ▸ List.isPrefixOf_iff_prefix.mp hm
        · exact ⟨error_never,hread h₂.1.1 h₂.1.2⟩
  exact wp_and hlooks hrest

theorem systemctl_fs (c : Command) :
    wp (host paths fun _ _ => True) (systemctl c).run (fun _ w' => w'.fs = w.fs) w := by
  refine wp_run_seq (P := fun _ w' => w'.fs = w.fs) (wp_exec trivial (fun out _ => ?_) fun _ _ => rfl)
    (fun out w' h => ?_) fun _ _ h => h
  · split <;> rfl
  · split <;> exact h

theorem swept_removeFile {fs fs' : FileTree} {entry : Path} {t : Text}
    (hs : StaleStem name keep entry) (ht : fs.contents entry = some t) (hm : Marked t)
    (h : fs.removeFile entry = some fs') :
    Swept (fun p => p = entry ∧ StaleStem name keep p) fs fs' := by
  refine ⟨FileTree.dirs_of_removeFile h,fun p => ?_⟩
  rw [FileTree.contents_of_removeFile h]
  by_cases hp : p = entry
  · subst hp
    exact .inr ⟨Function.update_self _ _ _,⟨rfl,hs⟩,t,ht,hm⟩
  · exact .inl (Function.update_of_ne hp _ _)

/-- What is done to an entry that is kuadrat's. -/
theorem pruneEntry_owned {stem : Text} {entry : Path} {t : Text} (hs : StaleStem name keep entry)
    (ht : w.fs.contents entry = some t) (hm : Marked t) : wp (host paths fun _ _ => True)
    (do
      Run.when (entry.extension = some ("timer" : Text)) (systemctl (.disableNow (stem ++ ".timer")))
      Run.removeFile entry
      return true : Run Bool).run (fun r w' =>
      Swept (fun p => p = entry ∧ StaleStem name keep p) w.fs w'.fs ∧ ¬Refused r w') w := by
  have hunrefusing : Unrefusing paths (do
      Run.when (entry.extension = some ("timer" : Text)) (systemctl (.disableNow (stem ++ ".timer")))
      Run.removeFile entry
      return true : Run Bool) :=
    unrefusing_seq (unrefusing_when (unrefusing_systemctl _)) fun _ =>
      unrefusing_seq (unrefusing_removeFile _) fun _ => unrefusing_pure _
  refine wp_mono (wp_and ?_ (hunrefusing w)) fun r w' h => ⟨h.1,not_refused h.2⟩
  have htimer : wp (host paths fun _ _ => True)
      (Run.when (entry.extension = some ("timer" : Text)) (systemctl (.disableNow (stem ++ ".timer")))).run
      (fun _ w' => w'.fs = w.fs) w := by
    unfold Run.when
    split
    · exact systemctl_fs _
    · rfl
  refine wp_run_seq htimer (fun _ w₁ h₁ => ?_) fun _ _ h₁ => h₁ ▸ .refl _ _
  refine wp_run_seq (P := fun _ w' => Swept (fun p => p = entry ∧ StaleStem name keep p) w.fs w'.fs)
    (wp_removeFile trivial (fun fs _ hfs => ?_) fun _ _ => ?_) (fun b w₂ h₂ => ?_) fun _ _ h => h
  · rw [h₁] at hfs
    exact swept_removeFile hs ht hm hfs
  · rw [World.record_fs,h₁]
    exact .refl _ _
  · exact h₂

/-- One entry: what was done to it by then, and why it was refused. -/
theorem pruneEntry_refusal (removed : Bool) (entry : Path) : wp (host paths fun _ _ => True)
    (pruneEntry name keep removed entry).run (fun r w' =>
      Swept (fun p => p = entry ∧ StaleStem name keep p) w.fs w'.fs ∧
      (Still w w' ∨ StaleStem name keep entry ∧ ∃ t, w.fs.contents entry = some t ∧ Marked t) ∧
      (∀ b, r = .ok b → StaleStem name keep entry →
        entry ∉ w.fs.dirs ∧ Clean w.fs.contents entry) ∧
      (Refused r w' → StaleStem name keep entry ∧ ¬Clean w.fs.contents entry)) w := by
  by_cases hs : StaleStem name keep entry
  · obtain ⟨stem,-,heq⟩ := pruneEntry_of_stale removed hs
    rw [heq]
    refine wp_run_seq (ensureOwned_refusal entry "remove") (fun owned w₁ h₁ => ?_)
      fun e w₁ h₁ => ⟨h₁.1.1 ▸ .refl _ _,.inl h₁.1.2,error_never,fun hr => ⟨hs,h₁.2.2 hr.error⟩⟩
    obtain ⟨⟨hfs,hstill⟩,hok,-⟩ := h₁
    obtain ⟨hdir,hclean,howned⟩ := hok owned rfl
    split
    · rename_i hb
      obtain ⟨t,ht⟩ := Option.isSome_iff_exists.mp (howned.symm.trans hb)
      refine wp_mono (pruneEntry_owned hs (hfs ▸ ht) (hclean t ht)) fun r w' h => ?_
      rw [hfs] at h
      exact ⟨h.1,.inr ⟨hs,t,ht,hclean t ht⟩,fun _ _ _ => ⟨hdir,hclean⟩,
        fun hr => absurd hr h.2⟩
    · exact ⟨hfs ▸ .refl _ _,.inl hstill,fun _ _ _ => ⟨hdir,hclean⟩,
        fun hr => absurd hr not_refused_ok⟩
  · rw [pruneEntry_of_not_stale removed hs]
    exact ⟨.refl _ _,.inl (.refl w),fun _ _ h => absurd h hs,fun hr => absurd hr not_refused_ok⟩

theorem pruneEntry_swept (removed : Bool) (entry : Path) : wpOk (host paths fun _ _ => True)
    (pruneEntry name keep removed entry)
    (fun _ w' => Swept (fun p => p = entry ∧ StaleStem name keep p) w.fs w'.fs) w :=
  wpOk_of_wp (wp_mono (pruneEntry_refusal removed entry) fun _ _ h => h.1)

/-- What holds within the scan of a directory: every stale entry is still to come, or was found
to be clear. -/
structure Scanning (name : Text) (keep : List Text) (dir : Path) (w : World) (rest : List Path)
    (w' : World) : Prop where
  inside : ∀ p ∈ rest, Path.Inside dir p
  swept : Swept (fun p => Path.Inside dir p ∧ StaleStem name keep p) w.fs w'.fs
  still : Still w w' ∨ HasOwned name keep w.fs dir
  clear : ∀ p, Path.Inside dir p → StaleStem name keep p →
    p ∈ rest ∨ p ∉ w.fs.dirs ∧ Clean w.fs.contents p

theorem scanning_entries {dir : Path} {entries : List Path} {w' : World} (hfs : w'.fs = w.fs)
    (hstill : Still w w') (hperm : entries.Perm (w.fs.entries dir)) :
    Scanning name keep dir w entries w' := by
  refine ⟨fun p hp => FileTree.inside_of_mem_entries (hperm.mem_iff.mp hp),hfs ▸ .refl _ _,
    .inl hstill,fun p hin _ => ?_⟩
  by_cases hp : p ∈ w.fs.entries dir
  · exact .inl (hperm.mem_iff.mpr hp)
  · obtain ⟨hnone,hdir⟩ := FileTree.absent_of_not_entry hin hp
    exact .inr ⟨hdir,fun t ht => by simp [hnone] at ht⟩

theorem Scanning.step {dir entry : Path} {rest : List Path} {w' : World}
    (h : Scanning name keep dir w (entry::rest) w') (removed : Bool) :
    wp (host paths fun _ _ => True) (pruneEntry name keep removed entry).run (fun r w'' =>
      Swept (fun p => Path.Inside dir p ∧ StaleStem name keep p) w.fs w''.fs ∧
      (Still w w'' ∨ HasOwned name keep w.fs dir) ∧
      (∀ b, r = .ok b → Scanning name keep dir w rest w'') ∧
      (Refused r w'' → HasForeign name keep w.fs dir)) w' := by
  have hentry := h.inside entry List.mem_cons_self
  refine wp_mono (pruneEntry_refusal removed entry) fun r w'' hr => ?_
  obtain ⟨hswept,hstill,hok,hrefused⟩ := hr
  have hall : Swept (fun p => Path.Inside dir p ∧ StaleStem name keep p) w.fs w''.fs :=
    h.swept.trans (hswept.mono fun p hp => ⟨hp.1 ▸ hentry,hp.2⟩)
  have hdone : Still w w'' ∨ HasOwned name keep w.fs dir := by
    rcases hstill with hstill | ⟨hs,t,ht,hm⟩
    · exact h.still.imp_left fun hbefore => hbefore.trans hstill
    · exact .inr (h.swept.hasOwned ⟨entry,t,hentry,hs,ht,hm⟩)
  refine ⟨hall,hdone,fun b hb => ?_,fun hr => ?_⟩
  · refine ⟨fun p hp => h.inside p (List.mem_cons_of_mem _ hp),hall,hdone,fun p hp hs => ?_⟩
    rcases h.clear p hp hs with hmem | hclear
    · rcases List.mem_cons.mp hmem with rfl | hmem
      · have hc := hok b hb hs
        rw [h.swept.dirs,h.swept.clean] at hc
        exact .inr hc
      · exact .inl hmem
    · exact .inr hclear
  · obtain ⟨hs,hclean⟩ := hrefused hr
    exact h.swept.hasForeign ⟨entry,hentry,hs,hclean⟩

/-- The scan of one directory, in any order of its entries. -/
theorem pruneDir_refusal (removed : Bool) (dir : Path) : wp (host paths fun _ _ => True)
    (pruneDir name keep removed dir).run (fun r w' =>
      Swept (fun p => Path.Inside dir p ∧ StaleStem name keep p) w.fs w'.fs ∧
      (Still w w' ∨ HasOwned name keep w.fs dir) ∧
      (∀ b, r = .ok b → Passes name keep w.fs dir) ∧
      (Refused r w' → HasForeign name keep w.fs dir)) w := by
  unfold pruneDir
  refine wp_run_seq (present_refusal dir) (fun b w₁ h₁ => ?_) fun e w₁ h₁ =>
    ⟨h₁.1.1 ▸ .refl _ _,.inl h₁.1.2,error_never,fun hr => absurd hr.error h₁.2.2⟩
  obtain ⟨⟨hfs₁,hstill₁⟩,hb,-⟩ := h₁
  have hpresent := hb b rfl
  split
  · refine wp_run_seq (readDir_refusal dir) (fun entries w₂ h₂ => ?_) fun e w₂ h₂ =>
      ⟨h₂.1.1.trans hfs₁ ▸ .refl _ _,.inl (hstill₁.trans h₂.1.2),error_never,
        fun hr => absurd hr.error h₂.2.2⟩
    obtain ⟨⟨hfs₂,hstill₂⟩,hl,-⟩ := h₂
    obtain ⟨hdir,hperm⟩ := hl entries rfl
    rw [hfs₁] at hdir hperm
    refine wp_foldlM (fun rest _ w' => Scanning name keep dir w rest w')
      (scanning_entries (hfs₂.trans hfs₁) (hstill₁.trans hstill₂) hperm)
      (fun entry rest b w' hI => ?_) fun b w' hI => ?_
    · refine wp_mono (hI.step b) fun r w'' h => ?_
      obtain ⟨hswept,hstill,hok,hrefused⟩ := h
      cases r with
      | error e => exact ⟨hswept,hstill,error_never,hrefused⟩
      | ok b' => exact hok b' rfl
    · exact ⟨hI.swept,hI.still,fun _ _ => .inr ⟨hdir,fun p hin hs =>
        (hI.clear p hin hs).resolve_left List.not_mem_nil⟩,fun hr => absurd hr not_refused_ok⟩
  · rename_i habsent
    refine ⟨hfs₁ ▸ .refl _ _,.inl hstill₁,fun _ _ => .inl ?_,fun hr => absurd hr not_refused_ok⟩
    rw [← hpresent]
    simpa using habsent

theorem pruneDir_swept (removed : Bool) (dir : Path) : wp (host paths fun _ _ => True)
    (pruneDir name keep removed dir).run (fun _ w' =>
      Swept (fun p => Path.Inside dir p ∧ StaleStem name keep p) w.fs w'.fs) w :=
  wp_mono (pruneDir_refusal removed dir) fun _ _ h => h.1

theorem not_inside_systemd : ¬(Path.Inside paths.quadletDir paths.systemdDir ∧
    StaleStem name keep paths.systemdDir) := by
  intro h
  refine paths.quadlet_above ?_
  rw [← h.1.2]
  exact List.dropLast_prefix _

/-- Pruning: what it has done when it stops, and what it had to pass to get there. -/
theorem pruneTasks_refusal : wp (host paths fun _ _ => True) (pruneTasks paths name keep).run
    (fun r w' => Swept (StaleTask paths name keep) w.fs w'.fs ∧
      (Still w w' ∨ HasOwned name keep w.fs paths.quadletDir ∨
        HasOwned name keep w.fs paths.systemdDir) ∧
      (∀ b, r = .ok b → Passes name keep w.fs paths.quadletDir ∧
        Passes name keep w.fs paths.systemdDir) ∧
      (Refused r w' → (HasForeign name keep w.fs paths.quadletDir ∧
          (Still w w' ∨ HasOwned name keep w.fs paths.quadletDir)) ∨
        Passes name keep w.fs paths.quadletDir ∧ HasForeign name keep w.fs paths.systemdDir)) w := by
  unfold pruneTasks
  rw [List.foldlM_cons]
  refine wp_run_seq (pruneDir_refusal false _) (fun b w₁ h₁ => ?_) fun e w₁ h₁ => ?_
  · obtain ⟨hswept₁,hstill₁,hok₁,-⟩ := h₁
    have hpass := hok₁ b rfl
    have hjoin : ∀ {w₂ : World}, Swept (fun p => Path.Inside paths.systemdDir p ∧
        StaleStem name keep p) w₁.fs w₂.fs →
        (Still w₁ w₂ ∨ HasOwned name keep w₁.fs paths.systemdDir) →
        Swept (StaleTask paths name keep) w.fs w₂.fs ∧ (Still w w₂ ∨
          HasOwned name keep w.fs paths.quadletDir ∨ HasOwned name keep w.fs paths.systemdDir) := by
      intro w₂ hswept₂ hstill₂
      refine ⟨(hswept₁.mono fun p hp => ⟨.inl hp.1,hp.2⟩).trans
        (hswept₂.mono fun p hp => ⟨.inr hp.1,hp.2⟩),?_⟩
      rcases hstill₁ with hstill₁ | howned
      · exact hstill₂.imp hstill₁.trans fun h => .inr (hswept₁.hasOwned h)
      · exact .inr (.inl howned)
    rw [List.foldlM_cons]
    refine wp_run_seq (pruneDir_refusal b _) (fun b' w₂ h₂ => ?_) fun e w₂ h₂ => ?_
    · obtain ⟨hswept₂,hstill₂,hok₂,-⟩ := h₂
      obtain ⟨hswept,hstill⟩ := hjoin hswept₂ hstill₂
      exact ⟨hswept,hstill,fun _ _ => ⟨hpass,(hswept₁.passes not_inside_systemd).mp (hok₂ b' rfl)⟩,
        fun hr => absurd hr not_refused_ok⟩
    · obtain ⟨hswept₂,hstill₂,-,hr⟩ := h₂
      obtain ⟨hswept,hstill⟩ := hjoin hswept₂ hstill₂
      exact ⟨hswept,hstill,error_never,fun h => .inr ⟨hpass,hswept₁.hasForeign (hr h.error)⟩⟩
  · obtain ⟨hswept,hstill,-,hr⟩ := h₁
    exact ⟨hswept.mono fun p hp => ⟨.inl hp.1,hp.2⟩,hstill.imp_right .inl,error_never,
      fun h => .inl ⟨hr h.error,hstill⟩⟩

end Scan
end Kuadrat
