import Kuadrat.Workloads.Outcome

/-!
# The files of one app

An app's region of the disk agrees with a spec when it holds that spec's files and
nothing else. The call that installs a spec reaches such a region from any region
whose task files have the two shapes that kuadrat writes.
-/
namespace Kuadrat

open Effect

section Agreement
variable (paths : Paths)

/-- The app's files are exactly those of its current spec, or none without one. -/
def Agrees (name : Text) (current : Option WorkloadSpec) (f : Path → Option Text) : Prop :=
  ∀ p, Owns paths name p → ∀ t, f p = some t ↔ ∃ spec, current = some spec ∧
    (p,t) ∈ artifacts paths spec

/-- A `.container` of the Quadlet directory or a `.timer` of systemd's. -/
def TaskShape (p : Path) : Prop := ∃ stem : Text, stem ≠ [] ∧
  (p = paths.quadletDir.join (stem ++ ".container") ∨ p = paths.systemdDir.join (stem ++ ".timer"))

/-- Every task file of the app has one of the two shapes. -/
def Shaped (name : Text) (f : Path → Option Text) : Prop :=
  ∀ p, OwnTask paths name p → f p ≠ none → TaskShape paths p

end Agreement

variable {paths : Paths} {spec : WorkloadSpec} {name : Text} {f g : Path → Option Text}

theorem taskShape_of_mem {p : Path} {t : Text} (h : (p,t) ∈ unitFiles paths spec) :
    TaskShape paths p := by
  rcases mem_unitFiles.mp h with ⟨rfl,-⟩ | ⟨task,-,⟨rfl,-⟩ | ⟨rfl,-⟩⟩
  · exact ⟨_,unitName_ne_nil _,.inl rfl⟩
  · exact ⟨_,taskUnitName_ne_nil _ _,.inl rfl⟩
  · exact ⟨_,taskUnitName_ne_nil _ _,.inr rfl⟩

theorem shaped_of_agrees {current : Option WorkloadSpec} (h : Agrees paths name current f) :
    Shaped paths name f := by
  intro p hp hf
  obtain ⟨t,ht⟩ := Option.ne_none_iff_exists'.mp hf
  obtain ⟨spec,-,hmem⟩ := (h p (.inr (.inl hp)) t).mp ht
  rcases List.mem_append.mp hmem with hmem | hmem
  · exact taskShape_of_mem hmem
  · obtain ⟨route,-,hr⟩ := List.mem_map.mp hmem
    have hpath : fragmentPath paths spec.slug = p := congrArg Prod.fst hr
    exact absurd (hpath ▸ hp) (not_ownTask_fragment _ _)

/-- A task file with the right shape whose stem is kept belongs to one of the spec's tasks. -/
theorem mem_unitFiles_of_keep {p : Path} {stem : Text} (hshape : TaskShape paths p)
    (hstem : p.fileStem = some stem) (hkeep : stem ∈ keepOf spec) :
    ∃ t, (p,t) ∈ unitFiles paths spec := by
  obtain ⟨task,htask,rfl⟩ := List.mem_map.mp hkeep
  obtain ⟨stem',hne,rfl | rfl⟩ := hshape
  · rw [fileStem_container _ hne,Option.some.injEq] at hstem
    exact ⟨taskText spec task,mem_unitFiles.mpr (.inr ⟨task,htask,.inl ⟨by rw [hstem]; rfl,rfl⟩⟩)⟩
  · rw [fileStem_timer _ hne,Option.some.injEq] at hstem
    exact ⟨timerText spec task,mem_unitFiles.mpr (.inr ⟨task,htask,.inr ⟨by rw [hstem]; rfl,rfl⟩⟩)⟩

/-- After an apply the unit and the task files are the spec's, whatever was there before. -/
theorem Installed.iff (h : Installed paths spec f g) (hf : Shaped paths spec.name f) {p : Path}
    (hp : p = unitPath paths spec.name ∨ OwnTask paths spec.name p) {t : Text} :
    g p = some t ↔ (p,t) ∈ unitFiles paths spec := by
  constructor
  · intro hg
    by_cases hmem : ∃ t', (p,t') ∈ unitFiles paths spec
    · obtain ⟨t',ht'⟩ := hmem
      have := h.written p t' ht'
      rw [hg,Option.some.injEq] at this
      exact this ▸ ht'
    have hnot : ∀ t', (p,t') ∉ unitFiles paths spec := fun t' ht' => hmem ⟨t',ht'⟩
    rcases hp with rfl | hp
    · exact absurd (mem_unitFiles.mpr (.inl ⟨rfl,rfl⟩)) (hnot (unitText spec))
    obtain ⟨hin,stem,hstem,hpre⟩ := hp
    by_cases hkeep : stem ∈ keepOf spec
    · have hlive : ¬StaleTask paths spec.name (keepOf spec) p := by
        rintro ⟨-,stem',hstem',-,hnk⟩
        rw [hstem,Option.some.injEq] at hstem'
        exact hnk (hstem' ▸ hkeep)
      have hold : f p ≠ none := by
        rw [← h.kept p hnot hlive,hg]
        exact Option.some_ne_none t
      have hshape := hf p ⟨hin,stem,hstem,hpre⟩ hold
      exact absurd (mem_unitFiles_of_keep hshape hstem hkeep) hmem
    · rw [h.pruned p ⟨hin,stem,hstem,hpre,hkeep⟩] at hg
      cases hg
  · exact h.written p t

theorem mem_routeFiles {p : Path} {t : Text} : (p,t) ∈ routeFiles paths spec ↔
    p = fragmentPath paths spec.slug ∧ ∃ route, spec.route = some route ∧
      t = renderFragment route := by
  unfold routeFiles
  cases spec.route <;> simp [eq_comm (a := t),eq_comm (a := p)]

theorem mem_artifacts_unit {p : Path} {t : Text}
    (hp : p = unitPath paths name ∨ OwnTask paths name p) :
    (p,t) ∈ artifacts paths spec ↔ (p,t) ∈ unitFiles paths spec := by
  refine ⟨fun h => (List.mem_append.mp h).resolve_right fun hr => ?_,fun h => List.mem_append_left _ h⟩
  obtain ⟨rfl,-⟩ := mem_routeFiles.mp hr
  rcases hp with hp | hp
  · exact unitPath_ne_fragment _ _ hp.symm
  · exact not_ownTask_fragment _ _ hp

theorem mem_artifacts_fragment {s t : Text} : (fragmentPath paths s,t) ∈ artifacts paths spec ↔
    (fragmentPath paths s,t) ∈ routeFiles paths spec := by
  refine ⟨fun h => (List.mem_append.mp h).resolve_left fun hu => ?_,fun h => List.mem_append_right _ h⟩
  rcases owns_of_mem_unitFiles hu with h | h
  · exact unitPath_ne_fragment _ _ h.symm
  · exact not_ownTask_fragment _ _ h

/-- What a region of the disk holds is settled by the spec it agrees with. -/
theorem Agrees.contents_eq {current : Option WorkloadSpec} (hf : Agrees paths name current f)
    (hg : Agrees paths name current g) {p : Path} (hp : Owns paths name p) : g p = f p := by
  refine Option.ext fun t => ?_
  rw [hg p hp t,hf p hp t]

/-- A tree agrees with a spec whose files it has, if all its other files are elsewhere. -/
theorem agrees_of_files {tree : FileTree} (hfiles : ∀ a ∈ artifacts paths spec,
      tree.contents a.1 = some a.2)
    (hothers : ∀ p ∈ tree.files.keys, p ∈ (artifacts paths spec).map Prod.fst ∨
      ¬Path.Inside paths.quadletDir p ∧ ¬Path.Inside paths.systemdDir p ∧
        ¬Path.Inside paths.caddyDir p) :
    Agrees paths name (some spec) tree.contents := by
  intro p hp t
  constructor
  · intro ht
    have hkey : p ∈ tree.files.keys :=
      AList.mem_keys.mp (FileTree.mem_files.mpr (by rw [ht]; rfl))
    rcases hothers p hkey with hp' | ⟨hq,hs,hc⟩
    · obtain ⟨⟨_,x⟩,hx,rfl⟩ := List.mem_map.mp hp'
      have heq : some t = some x := ht.symm.trans (hfiles _ hx)
      exact ⟨spec,rfl,Option.some.inj heq ▸ hx⟩
    · rcases inside_of_owns hp with h | h | h
      · exact absurd h hq
      · exact absurd h hs
      · exact absurd h hc
  · rintro ⟨spec',hspec,ht⟩
    cases hspec
    exact hfiles _ ht

end Kuadrat
