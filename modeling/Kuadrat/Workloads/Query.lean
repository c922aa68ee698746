import Kuadrat.Slug
import Kuadrat.Workloads.Outcome

/-!
# Listing the fleet

`list` reads workload names off the marked files of the Quadlet directory. Over any run of
successful calls it returns the applied workloads, as long as no call schedules a task and no
call deletes another workload's unit because its name looks like one of the caller's tasks.
-/
namespace Kuadrat

open Effect

/-- The workload name behind a unit filename stem, or none if it is not one of ours. -/
def specNameFromStem (stem : Text) : Option Text :=
  if unitPrefix.isPrefixOf stem then (some (stem.drop unitPrefix.length)).filter (· ≠ []) else none

/-- `std::io::ErrorKind`, as far as the code tells kinds apart. -/
inductive ErrorKind
  | notFound
  | other
  deriving DecidableEq

section Listing
variable (ioErrorKind : Message → Option ErrorKind) (paths : Paths)

/-- One entry of the Quadlet directory: a marked `.container` file with our prefix adds its name. -/
def listEntry (names : List Text) (path : Path) : Run (List Text) := do
  if path.extension ≠ some ("container" : Text) then return names
  else match path.fileStem.bind specNameFromStem with
    | none => return names
    | some name =>
      match ← (Run.readToString path).result with
      | .error e =>
        if ioErrorKind e = some .notFound then return names
        else throw (Message.context ["reading ",.text path.display] e)
      | .ok content =>
        if managedMarker.isPrefixOf content then return names ++ [name] else return names

/-- Names of every kuadrat-managed workload found in the quadlet directory. A directory that
does not exist is an empty fleet; anything else is an error. -/
def list : Run (List Text) := do
  match ← (Run.readDir paths.quadletDir).result with
  | .error e =>
    if ioErrorKind e = some .notFound then return []
    else throw (Message.context ["listing ",.text paths.quadletDir.display] e)
  | .ok entries => entries.foldlM (listEntry ioErrorKind) []

/-- The host does not report a path as missing when something is there. -/
def honestReply (w : World) : (e : Eff) → e.Resp → Bool
  | .readToString p, .error why | .readDir p, .error why =>
    ioErrorKind why ≠ some .notFound || !w.fs.present p
  | _, _ => true

def honestHost : Machine Eff Eff.Resp Answer World :=
  (World.machine paths).restrictIn (honestReply ioErrorKind)

/-- Nothing fails, except that what is not there is not found. -/
def OnlyMissing : Eff → Answer → Prop
  | _, .fail why => ioErrorKind why = some .notFound
  | _, _ => True

end Listing

section Result
variable {ioErrorKind : Message → Option ErrorKind} {paths : Paths} {ok : Eff → Answer → Prop}
  {w : World}

/-- The name under which an entry is listed. -/
def listedName (f : Path → Option Text) (p : Path) : Option Text :=
  if p.extension = some ("container" : Text) then
    (p.fileStem.bind specNameFromStem).filter fun _ => (f p).any managedMarker.isPrefixOf
  else none

theorem wp_honest {e : Eff} {Q : e.Resp → World → Prop}
    (h : ∀ x r w', ok e x → w.answer paths e x = some (r,w') → honestReply ioErrorKind w e r = true →
      Q r (w'.record e)) :
    wp ((honestHost ioErrorKind paths).spec ok fun _ => True) (.perform e) Q w := by
  refine ⟨trivial,fun r w' hr => ?_⟩
  obtain ⟨hgood,x,hx,hs⟩ := (Machine.restrictIn_post _).mp hr
  simp only [World.machine,Option.map_eq_some_iff,Prod.mk.injEq] at hs
  obtain ⟨⟨r',w''⟩,ha,rfl,rfl⟩ := hs
  exact h x r' w'' hx ha hgood

/-- What a failed reading says about the host. -/
def Blamed (ioErrorKind : Message → Option ErrorKind) (ok : Eff → Answer → Prop) : Prop :=
  ∃ e why, ok e (.fail why) ∧ ioErrorKind why ≠ some .notFound

theorem readToString_honest {p : Path} : wp ((honestHost ioErrorKind paths).spec ok fun _ => True)
    (Run.readToString p).run (fun r w' => w'.fs = w.fs ∧ match r with
      | .ok t => w.fs.contents p = some t
      | .error why => ok (.readToString p) (.fail why) ∧
        (ioErrorKind why = some .notFound → w.fs.present p = false)) w := by
  refine wp_honest fun x r w' hx ha hgood => ?_
  cases x <;> simp only [World.answer,Option.some.injEq,Prod.mk.injEq,Option.map_eq_some_iff,
    reduceCtorEq] at ha
  · obtain ⟨rfl,rfl⟩ := ha
    refine ⟨rfl,hx,fun hkind => ?_⟩
    simpa [honestReply,hkind] using hgood
  · obtain ⟨t,ht,rfl,rfl⟩ := ha
    exact ⟨rfl,ht⟩

theorem readDir_honest {dir : Path} : wp ((honestHost ioErrorKind paths).spec ok fun _ => True)
    (Run.readDir dir).run (fun r w' => w'.fs = w.fs ∧ match r with
      | .ok entries => entries.Perm (w.fs.entries dir)
      | .error why => ok (.readDir dir) (.fail why) ∧
        (ioErrorKind why = some .notFound → w.fs.present dir = false)) w := by
  unfold Run.readDir
  rw [Prog.run_bind,wp_bind]
  refine wp_honest fun x r w' hx ha hgood => ?_
  cases x <;> simp only [World.answer,Option.some.injEq,Prod.mk.injEq,Option.ite_none_right_eq_some,
    reduceCtorEq] at ha
  · obtain ⟨rfl,rfl⟩ := ha
    refine ⟨rfl,hx,fun hkind => ?_⟩
    simpa [honestReply,hkind] using hgood
  · obtain ⟨⟨-,hl⟩,rfl,rfl⟩ := ha
    exact ⟨rfl,hl⟩

/-- What an absent path holds is nothing. -/
theorem contents_of_absent {p : Path} (h : w.fs.present p = false) : w.fs.contents p = none := by
  simp only [FileTree.present,Bool.or_eq_false_iff] at h
  simpa using h.1

/-- An entry adds the name it is listed under. -/
theorem listEntry_honest (names : List Text) (p : Path) :
    wp ((honestHost ioErrorKind paths).spec ok fun _ => True) (listEntry ioErrorKind names p).run
      (fun r w' => match r with
        | .ok names' => w'.fs = w.fs ∧ names' = names ++ (listedName w.fs.contents p).toList
        | .error _ => Blamed ioErrorKind ok) w := by
  unfold listEntry
  split
  · rename_i hext
    refine ⟨rfl,?_⟩
    rw [listedName,if_neg hext]
    exact (List.append_nil _).symm
  · rename_i hext
    have hname : listedName w.fs.contents p = (p.fileStem.bind specNameFromStem).filter fun _ =>
        (w.fs.contents p).any managedMarker.isPrefixOf := if_pos (not_not.mp hext)
    rw [hname]
    split
    · rename_i hstem
      rw [hstem]
      exact ⟨rfl,(List.append_nil _).symm⟩
    · rename_i name hstem
      rw [hstem]
      refine wp_result_seq readToString_honest fun r w' h => ?_
      obtain ⟨hfs,hr⟩ := h
      cases r with
      | error e =>
        dsimp only
        split
        · rename_i hkind
          refine ⟨hfs,?_⟩
          rw [contents_of_absent (hr.2 hkind)]
          exact (List.append_nil _).symm
        · rename_i hkind
          exact ⟨_,e,hr.1,hkind⟩
      | ok content =>
        dsimp only at hr ⊢
        rw [hr]
        split
        · rename_i hmark
          refine ⟨hfs,?_⟩
          simp [Option.filter,hmark]
        · rename_i hmark
          refine ⟨hfs,?_⟩
          simp [Option.filter,hmark]

/-- The names of a host's marked units, in the order of the directory. -/
def listed (paths : Paths) (fs : FileTree) : List Text :=
  (fs.entries paths.quadletDir).filterMap (listedName fs.contents)

theorem list_honest : wp ((honestHost ioErrorKind paths).spec ok fun _ => True)
    (list ioErrorKind paths).run (fun r _ => match r with
      | .ok l => l.Perm (listed paths w.fs)
      | .error _ => Blamed ioErrorKind ok) w := by
  unfold list
  refine wp_result_seq readDir_honest fun r w₁ h => ?_
  obtain ⟨hfs,hr⟩ := h
  cases r with
  | error e =>
    dsimp only
    split
    · rename_i hkind
      have hnone : listed paths w.fs = [] := by
        refine List.filterMap_eq_nil_iff.mpr fun p hp => ?_
        have hin := FileTree.inside_of_mem_entries hp
        have habsent := FileTree.contents_eq_none_of_absent hin (hr.2 hkind)
        unfold listedName
        rw [habsent]
        split
        · exact Option.filter_eq_none_iff.mpr fun _ _ => Bool.false_ne_true
        · rfl
      rw [hnone]
      exact .refl _
    · rename_i hkind
      exact ⟨_,e,hr.1,hkind⟩
  | ok entries =>
    -- The names so far and those of the entries still to come are those of all entries.
    refine wp_foldlM (I := fun rest names w' => w'.fs = w.fs ∧
      names ++ rest.filterMap (listedName w.fs.contents) =
        entries.filterMap (listedName w.fs.contents)) ⟨hfs,rfl⟩ ?_ ?_
    · intro p rest names w₂ hI
      refine wp_mono (listEntry_honest names p) fun r w₃ h => ?_
      cases r with
      | error e => exact h
      | ok names' =>
        obtain ⟨hfs₃,rfl⟩ := h
        rw [hI.1] at hfs₃ ⊢
        refine ⟨hfs₃,hI.2 ▸ ?_⟩
        rw [List.append_assoc]
        cases hp : listedName w.fs.contents p with
        | none => simp [hp]
        | some name => simp [hp]
    · intro names w₂ hI
      have hall := hI.2
      rw [List.filterMap_nil,List.append_nil] at hall
      rw [hall]
      exact hr.filterMap _

end Result

/-- A call that changes the fleet. -/
inductive FleetCall
  | apply (spec : WorkloadSpec)
  | remove (name : Text)

namespace FleetCall

def program (paths : Paths) : FleetCall → Run Unit
  | apply spec => Kuadrat.apply paths spec
  | remove name => Kuadrat.remove paths name

/-- The workloads applied and not removed since, the latest first; one that is applied again
takes the place of its earlier version. -/
def after (fleet : List WorkloadSpec) : FleetCall → List WorkloadSpec
  | apply spec => spec::fleet.filter fun s => s.slug ≠ spec.slug
  | remove name => fleet.filter fun s => s.slug ≠ slug name

def workload : FleetCall → Text
  | apply spec => spec.name
  | remove name => name

def tasks : FleetCall → List ScheduledTask
  | apply spec => spec.tasks
  | remove _ => []

/-- The call schedules no task, and no workload of the fleet is named like a task of its. -/
def Plain (fleet : List WorkloadSpec) (call : FleetCall) : Prop :=
  call.tasks = [] ∧ ∀ s ∈ fleet, ¬LooksLikeTask call.workload s.slug

instance (fleet : List WorkloadSpec) (call : FleetCall) : Decidable (call.Plain fleet) :=
  inferInstanceAs (Decidable (_ ∧ _))

end FleetCall

/-- Successful calls one after the other, each of them one that `allow` lets through, from a
host without applied workloads. -/
inductive FleetRun (paths : Paths) (allow : List WorkloadSpec → FleetCall → Prop) (w₀ : World) :
    List WorkloadSpec → World → Prop
  | start : FleetRun paths allow w₀ [] w₀
  | next {fleet : List WorkloadSpec} {w w' : World} {answers : List Answer} (call : FleetCall) :
    FleetRun paths allow w₀ fleet w → allow fleet call →
    (World.machine paths).finish answers (call.program paths).run w = some (.ok (),w') →
    FleetRun paths allow w₀ (call.after fleet) w'

/-- The listing has each workload of the fleet once and nothing else, and the unit behind each
name is the one of its workload. -/
structure ListsExactly (paths : Paths) (fleet : List WorkloadSpec) (f : Path → Option Text)
    (l : List Text) : Prop where
  names : ∀ n, n ∈ l ↔ ∃ spec ∈ fleet, spec.slug = n
  once : l.Nodup
  units : ∀ n ∈ l, ∃ spec ∈ fleet, spec.slug = n ∧ f (unitPath paths n) = some (unitText spec)

section Fleet
variable {paths : Paths} {fleet : List WorkloadSpec} {f g : Path → Option Text}

/-- The marked files of the Quadlet directory are the units of the fleet. -/
structure Enrolled (paths : Paths) (fleet : List WorkloadSpec) (f : Path → Option Text) : Prop where
  named : ∀ s ∈ fleet, s.slug ≠ []
  units : ∀ s ∈ fleet, f (unitPath paths s.name) = some (unitText s)
  only : ∀ p t, Path.Inside paths.quadletDir p → f p = some t → Marked t →
    ∃ s ∈ fleet, p = unitPath paths s.name

theorem unitFiles_plain {spec : WorkloadSpec} (h : spec.tasks = []) :
    unitFiles paths spec = [(unitPath paths spec.name,unitText spec)] := by
  simp [unitFiles,h]

theorem Enrolled.apply {spec : WorkloadSpec} (h : Enrolled paths fleet f)
    (hplain : (FleetCall.apply spec).Plain fleet) (hi : Installed paths spec f g) :
    Enrolled paths ((FleetCall.apply spec).after fleet) g where
  named s hs := by
    rcases List.mem_cons.mp hs with rfl | hs
    · exact (WorkloadSpec.slugs_of_validate hi.valid).1
    · exact h.named s (List.mem_filter.mp hs).1
  units s hs := by
    rcases List.mem_cons.mp hs with rfl | hs
    · exact hi.written _ _ List.mem_cons_self
    · obtain ⟨hmem,hne⟩ := List.mem_filter.mp hs
      rw [hi.kept _ (fun t ht => ?_) fun hstale => ?_,h.units s hmem]
      · rw [unitFiles_plain hplain.1,List.mem_singleton,Prod.mk.injEq,unitPath_inj] at ht
        exact of_decide_eq_true hne ht.1
      · exact hplain.2 s hmem (ownTask_unitPath.mp hstale.own)
  only p t hin hp ht := by
    by_cases hunit : p = unitPath paths spec.name
    · exact ⟨spec,List.mem_cons_self,hunit⟩
    · have hstale : ¬StaleTask paths spec.name (keepOf spec) p := by
        intro hstale
        rw [hi.pruned p hstale] at hp
        cases hp
      rw [hi.kept p (fun t ht => ?_) hstale] at hp
      · obtain ⟨s,hs,rfl⟩ := h.only p t hin hp ht
        refine ⟨s,List.mem_cons_of_mem _ (List.mem_filter.mpr ⟨hs,?_⟩),rfl⟩
        exact decide_eq_true fun heq => hunit (unitPath_inj.mpr heq)
      · rw [unitFiles_plain hplain.1,List.mem_singleton,Prod.mk.injEq] at ht
        exact hunit ht.1

theorem Enrolled.remove {name : Text} (h : Enrolled paths fleet f)
    (hplain : (FleetCall.remove name).Plain fleet) (hr : Removed paths name f g) :
    Enrolled paths ((FleetCall.remove name).after fleet) g where
  named s hs := h.named s (List.mem_filter.mp hs).1
  units s hs := by
    obtain ⟨hmem,hne⟩ := List.mem_filter.mp hs
    rw [hr.kept _ (fun heq => ?_) fun hown => ?_,h.units s hmem]
    · exact of_decide_eq_true hne (unitPath_inj.mp heq)
    · exact hplain.2 s hmem (ownTask_unitPath.mp hown)
  only p t hin hp ht := by
    have hunit : p ≠ unitPath paths name := by
      rintro rfl
      rw [hr.unit] at hp
      cases hp
    have hown : ¬OwnTask paths name p := by
      intro hown
      rw [hr.tasks p hown] at hp
      cases hp
    rw [hr.kept p hunit hown] at hp
    obtain ⟨s,hs,rfl⟩ := h.only p t hin hp ht
    exact ⟨s,List.mem_filter.mpr ⟨hs,decide_eq_true fun heq => hunit (unitPath_inj.mpr heq)⟩,rfl⟩

/-- Where no file of the Quadlet directory is kuadrat's at first, plain calls keep to it. -/
theorem FleetRun.enrolled {w₀ w : World}
    (hempty : ∀ p t, Path.Inside paths.quadletDir p → w₀.fs.contents p = some t → ¬Marked t)
    (h : FleetRun paths (fun fleet call => call.Plain fleet) w₀ fleet w) :
    Enrolled paths fleet w.fs.contents := by
  induction h with
  | start =>
    refine ⟨fun _ hs => ?_,fun _ hs => ?_,fun p t hin hp ht => absurd ht (hempty p t hin hp)⟩
    · cases hs
    · cases hs
  | next call _ hplain hrun ih =>
    cases call with
    | apply spec => exact ih.apply hplain (wpOk_finish apply_ok hrun)
    | remove name => exact ih.remove hplain (wpOk_finish remove_ok hrun)

theorem specNameFromStem_unitName {name : Text} (h : slug name ≠ []) :
    specNameFromStem (unitName name) = some (slug name) := by
  unfold specNameFromStem unitName
  rw [if_pos (List.isPrefixOf_iff_prefix.mpr (List.prefix_append _ _)),List.drop_left]
  exact Option.filter_eq_some_iff.mpr ⟨rfl,decide_eq_true h⟩

theorem listedName_unitPath {name t : Text} (hne : slug name ≠ [])
    (hf : f (unitPath paths name) = some t) (ht : Marked t) :
    listedName f (unitPath paths name) = some (slug name) := by
  unfold listedName
  rw [hf,unitPath,extension_container _ (unitName_ne_nil name),if_pos rfl,
    fileStem_container _ (unitName_ne_nil name),Option.bind_some,specNameFromStem_unitName hne]
  exact Option.filter_eq_some_iff.mpr ⟨rfl,List.isPrefixOf_iff_prefix.mpr ht⟩

/-- Only a marked file is listed. -/
theorem marked_of_listedName {p : Path} {n : Text} (h : listedName f p = some n) :
    ∃ t, f p = some t ∧ Marked t := by
  unfold listedName at h
  split at h
  · have hm := (Option.filter_eq_some_iff.mp h).2
    obtain ⟨t,ht,hpre⟩ := (Option.any_eq_true _ _).mp hm
    exact ⟨t,ht,List.isPrefixOf_iff_prefix.mp hpre⟩
  · cases h

section Enrolled
variable {fs : FileTree} (h : Enrolled paths fleet fs.contents)
include h

/-- An entry that is listed is the unit of a workload, under its slug. -/
theorem Enrolled.of_listedName {p : Path} {n : Text} (hin : Path.Inside paths.quadletDir p)
    (hn : listedName fs.contents p = some n) :
    ∃ s ∈ fleet, p = unitPath paths s.name ∧ n = s.slug := by
  obtain ⟨t,ht,hmark⟩ := marked_of_listedName hn
  obtain ⟨s,hs,rfl⟩ := h.only p t hin ht hmark
  refine ⟨s,hs,rfl,?_⟩
  rw [listedName_unitPath (h.named s hs) ht hmark] at hn
  exact (Option.some.inj hn).symm

theorem Enrolled.mem_listed {n : Text} : n ∈ listed paths fs ↔ ∃ s ∈ fleet, s.slug = n := by
  unfold listed
  rw [List.mem_filterMap]
  constructor
  · intro hmem
    obtain ⟨p,hp,hn⟩ := hmem
    obtain ⟨s,hs,-,hslug⟩ := h.of_listedName (FileTree.inside_of_mem_entries hp) hn
    exact ⟨s,hs,hslug.symm⟩
  · intro hmem
    obtain ⟨s,hs,rfl⟩ := hmem
    have hunit := h.units s hs
    refine ⟨unitPath paths s.name,?_,?_⟩
    · refine FileTree.mem_entries_of_contents (by simp [unitPath]) ?_
      rw [hunit]
      rfl
    · exact listedName_unitPath (h.named s hs) hunit (marked_unitText s)

/-- A file has one name, and no directory has any. -/
theorem Enrolled.nodup_listed : (listed paths fs).Nodup := by
  have hdirs : (fs.dirs.filter fun p => Path.Inside paths.quadletDir p).filterMap
      (listedName fs.contents) = [] := by
    refine List.filterMap_eq_nil_iff.mpr fun p hp => ?_
    by_contra hne
    obtain ⟨n,hn⟩ := Option.ne_none_iff_exists'.mp hne
    obtain ⟨t,ht,-⟩ := marked_of_listedName hn
    refine fs.file_not_dir p (FileTree.mem_files.mpr ?_) (List.mem_filter.mp hp).1
    rw [ht]
    rfl
  unfold listed FileTree.entries
  rw [List.filter_append,List.filterMap_append,hdirs,List.append_nil]
  refine List.pairwise_filterMap.mpr ?_
  refine List.Pairwise.imp_of_mem (fun {p q} hp hq hpq n hn m hm heq => ?_)
    (fs.files.nodupKeys.filter _)
  obtain ⟨s,-,rfl,rfl⟩ := h.of_listedName (of_decide_eq_true (List.mem_filter.mp hp).2) hn
  obtain ⟨s',-,rfl,rfl⟩ := h.of_listedName (of_decide_eq_true (List.mem_filter.mp hq).2) hm
  exact hpq (unitPath_inj.mpr heq)

theorem Enrolled.listsExactly {l : List Text} (hl : l.Perm (listed paths fs)) :
    ListsExactly paths fleet fs.contents l where
  names n := hl.mem_iff.trans h.mem_listed
  once := hl.nodup_iff.mpr h.nodup_listed
  units n hn := by
    obtain ⟨s,hs,rfl⟩ := h.mem_listed.mp (hl.mem_iff.mp hn)
    refine ⟨s,hs,rfl,?_⟩
    -- A slug is its own slug, so the name that is listed leads back to the same unit.
    rw [WorkloadSpec.slug,unitPath_inj.mpr (slug_slug s.name)]
    exact h.units s hs

end Enrolled
end Fleet

/-- Along plain calls every listing is exact, and there is one unless the host fails. -/
theorem fleet_listed (ioErrorKind : Message → Option ErrorKind) (paths : Paths)
    (fleet : List WorkloadSpec) (w₀ w : World)
    (hempty : ∀ p t, Path.Inside paths.quadletDir p → w₀.fs.contents p = some t → ¬Marked t)
    (hrun : FleetRun paths (fun fleet call => call.Plain fleet) w₀ fleet w) :
    (∀ answers l w', (honestHost ioErrorKind paths).finish answers (list ioErrorKind paths).run w =
      some (.ok l,w') → ListsExactly paths fleet w.fs.contents l) ∧
    wpSure ((honestHost ioErrorKind paths).spec (OnlyMissing ioErrorKind) fun _ => True)
      (list ioErrorKind paths) (fun l _ => ListsExactly paths fleet w.fs.contents l) w := by
  have henrolled := hrun.enrolled hempty
  constructor
  · intro answers l w' hfinish
    have hlist := @list_honest ioErrorKind paths (fun _ _ => True) w
    have hl := Machine.wp_complete _ hlist (Machine.allowed_of_forall _ (fun _ _ _ => trivial) _ _)
      ((Machine.finish_eq_some _).mp hfinish)
    exact henrolled.listsExactly hl
  · refine wp_mono list_honest fun r w' h => ?_
    cases r with
    | ok l => exact ⟨l,rfl,henrolled.listsExactly h⟩
    | error e =>
      obtain ⟨op,why,hfail,hkind⟩ := h
      exact absurd hfail hkind

section Sample

/-- A host whose Quadlet directory has a hand-written unit. -/
def ownQuadlet : World := .initial (.single Paths.default.quadletDir "nginx.container" "[Container]\n")

/-- The kinds of errors of a host that prints them like this. -/
def sampleKind (why : Message) : Option ErrorKind :=
  if why = ["No such file or directory"] then some .notFound else none

theorem ownQuadlet_empty (p : Path) (t : Text) (_ : Path.Inside Paths.default.quadletDir p)
    (h : ownQuadlet.fs.contents p = some t) : ¬Marked t := by
  change (FileTree.single _ _ _).contents p = some t at h
  rw [FileTree.contents_single] at h
  split at h
  · cases h
    decide
  · cases h

theorem web_listed : ∃ w l, FleetRun .default (fun fleet call => call.Plain fleet) ownQuadlet
    [{ name := "web", image := "web" }] w ∧ l = ["web"] ∧
    ListsExactly .default [{ name := "web", image := "web" }] w.fs.contents l := by
  have hrun : ∃ w w', FleetRun .default (fun fleet call => call.Plain fleet) ownQuadlet
      [{ name := "web", image := "web" }] w ∧
      (honestHost sampleKind .default).finish
        [.entries ["kuadrat-web.container","nginx.container"],.done]
        (list sampleKind .default).run w = some (.ok ["web"],w') :=
    ⟨_,_,@FleetRun.next _ _ _ _ _ _ [.done,.done,.done,.done,.done,
      .entries ["kuadrat-web.container","nginx.container"],.done,.output ⟨0,"",""⟩,
      .output ⟨0,"",""⟩] (.apply { name := "web", image := "web" }) .start (by decide) rfl,rfl⟩
  obtain ⟨w,w',hcalls,hlist⟩ := hrun
  exact ⟨w,_,hcalls,rfl,(fleet_listed sampleKind .default _ ownQuadlet w ownQuadlet_empty
    hcalls).1 _ _ w' hlist⟩

def backedUp : WorkloadSpec where
  name := "web"
  image := "web"
  tasks := [⟨"nightly","daily",["backup"]⟩]

/-- The container of a task is listed as if it were a workload. -/
theorem task_listed : ¬∀ fleet w answers l w',
    FleetRun .default (fun _ _ => True) ownQuadlet fleet w →
    (honestHost sampleKind .default).finish answers (list sampleKind .default).run w =
      some (.ok l,w') → ListsExactly .default fleet w.fs.contents l := by
  intro h
  have hlist := h _ _ [.entries ["kuadrat-web-task-nightly.container","kuadrat-web.container",
    "nginx.container"],.done,.done] ["web-task-nightly","web"] _
    (@FleetRun.next _ _ _ _ _ _ [.output ⟨0,"",""⟩,.done,.done,.done,.done,.done,.done,.done,.done,
      .done,.done,.entries ["kuadrat-web-task-nightly.container","kuadrat-web.container",
        "nginx.container"],.done,.entries ["kuadrat-web-task-nightly.timer"],.output ⟨0,"",""⟩,
      .output ⟨0,"",""⟩,.output ⟨0,"",""⟩] (.apply backedUp) .start trivial rfl) rfl
  obtain ⟨spec,hspec,hslug⟩ := (hlist.names "web-task-nightly").mp List.mem_cons_self
  rw [List.mem_singleton.mp hspec] at hslug
  revert hslug
  decide

end Sample
end Kuadrat
