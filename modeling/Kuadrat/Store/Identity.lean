import Kuadrat.Store.Registry

/-!
# One slug, one app

The registrations recompute the slugs of two tables; the table of deployed specs has a
unique column. What relates the two: a deployed name is registered, and its column holds
the slug of its name.
-/
namespace Kuadrat

/-- The stores that registrations and the ends of deploys lead to. An app is deployed only
after a registration of its name was accepted; `registered` lists those names. -/
inductive Deployed : (registered : List Text) → Store → Prop
  | empty : Deployed [] .empty
  | accepted {registered : List Text} {s : Store} (config : AppConfig) (h : Deployed registered s) :
    (s.call (.registerApp config)).1 = .ok () →
    Deployed (config.name::registered) (s.call (.registerApp config)).2
  | refused {registered : List Text} {s : Store} (config : AppConfig) {why : Message}
    (h : Deployed registered s) : (s.call (.registerApp config)).1 = .error why →
    Deployed registered (s.call (.registerApp config)).2
  | deploy {registered : List Text} {s : Store} (name json : Text) (h : Deployed registered s) :
    name ∈ registered → Deployed registered (s.call (.putSpec name (slug name) json)).2

/-- The tables agree on who has which slug. -/
structure Identified (registered : List Text) (s : Store) : Prop where
  registered : ∀ name ∈ registered, name ∈ s.configs.keys
  deployed : ∀ name ∈ s.apps.keys, name ∈ s.configs.keys
  column : ∀ name row, s.apps.lookup name = some row → row.slug = slug name
  nonempty : ∀ name ∈ s.configs.keys, slug name ≠ []
  distinct : ∀ a ∈ s.configs.keys, ∀ b ∈ s.configs.keys, slug a = slug b → a = b

namespace Identified
variable {registered : List Text} {s : Store}

theorem mem_names (h : Identified registered s) {name : Text} :
    name ∈ s.names ↔ name ∈ s.configs.keys := by
  rw [Store.names,List.mem_append]
  exact or_iff_left_of_imp (h.deployed name)

theorem empty : Identified [] .empty where
  registered name h := by cases h
  deployed name h := by cases h
  column name row h := by cases h
  nonempty name h := by cases h
  distinct a h := by cases h

/-- The name of an accepted registration has a slug that no other name has. -/
theorem accept (h : Identified registered s) {config : AppConfig}
    (hw : config.wellFormed = true)
    (hfree : ∀ n ∈ s.names, slug n = slug config.name → n = config.name) :
    Identified (config.name::registered)
      { s with configs := s.configs.insert config.name config.toRow } := by
  have hkeys : ∀ name, name ∈ (s.configs.insert config.name config.toRow).keys ↔
      name = config.name ∨ name ∈ s.configs.keys := fun name => AList.mem_insert _
  have hslug : slug config.name ≠ [] := by
    have hw' := hw
    simp only [AppConfig.wellFormed,Bool.and_eq_true,Bool.not_eq_true'] at hw'
    simpa using hw'.1
  constructor
  · intro name hname
    rw [hkeys]
    rcases List.mem_cons.mp hname with hname | hname
    · exact .inl hname
    · exact .inr (h.registered name hname)
  · intro name hname
    exact (hkeys name).mpr (.inr (h.deployed name hname))
  · exact h.column
  · intro name hname
    rcases (hkeys name).mp hname with rfl | hname
    · exact hslug
    · exact h.nonempty name hname
  · intro a ha b hb hab
    rcases (hkeys a).mp ha with rfl | ha <;> rcases (hkeys b).mp hb with rfl | hb
    · rfl
    · exact (hfree b (h.mem_names.mpr hb) hab.symm).symm
    · exact hfree a (h.mem_names.mpr ha) hab
    · exact h.distinct a ha b hb hab

/-- A registered name can store its spec: the column is free, or its own. -/
theorem putSpec (h : Identified registered s) {name : Text} (hname : name ∈ registered)
    (json : Text) : ∃ s', s.putSpec name (slug name) json = .ok s' ∧ s'.configs = s.configs ∧
      s'.apps = s.apps.insert name ⟨slug name,json⟩ := by
  have hfree : ∀ b ∈ s.apps.keys, b ≠ name → (s.apps.lookup b).map AppRow.slug ≠ some (slug name) := by
    intro b hb hne hsame
    obtain ⟨row,hrow,hslug⟩ := Option.map_eq_some_iff.mp hsame
    rw [h.column b row hrow] at hslug
    exact hne (h.distinct b (h.deployed b hb) name (h.registered name hname) hslug)
  unfold Store.putSpec
  rw [dif_pos hfree]
  exact ⟨_,rfl,rfl,rfl⟩

theorem deploy (h : Identified registered s) {name : Text} (hname : name ∈ registered)
    (json : Text) :
    (s.call (.putSpec name (slug name) json)).1 = .ok () ∧
    Identified registered (s.call (.putSpec name (slug name) json)).2 := by
  obtain ⟨s',hput,hconfigs,happs⟩ := h.putSpec hname json
  have hcall : s.call (.putSpec name (slug name) json) = (.ok (),s') := by
    change s.commit ((s.putSpec name (slug name) json).map _) = _
    rw [hput]
    rfl
  rw [hcall]
  refine ⟨rfl,?_,?_,?_,?_,?_⟩
  · rw [hconfigs]
    exact h.registered
  · intro b hb
    rw [hconfigs]
    rw [happs] at hb
    rcases (AList.mem_insert _).mp hb with rfl | hb
    · exact h.registered b hname
    · exact h.deployed b hb
  · intro b row hrow
    rw [happs] at hrow
    by_cases hb : b = name
    · rw [hb,AList.lookup_insert,Option.some.injEq] at hrow
      rw [← hrow,hb]
    · rw [AList.lookup_insert_ne hb] at hrow
      exact h.column b row hrow
  · rw [hconfigs]
    exact h.nonempty
  · rw [hconfigs]
    exact h.distinct

theorem register (h : Identified registered s) (config : AppConfig) :
    ((s.call (.registerApp config)).1 = .ok () →
      Identified (config.name::registered) (s.call (.registerApp config)).2) ∧
    ∀ why, (s.call (.registerApp config)).1 = .error why →
      (s.call (.registerApp config)).2 = s := by
  have hcall : s.call (.registerApp config) =
      s.commit ((s.registerApp config).map fun s' => ((),s')) := rfl
  rcases registerApp_cases s config with ⟨hw,hfree,hok⟩ | ⟨-,why,herr⟩
  · rw [hcall,hok]
    exact ⟨fun _ => h.accept hw hfree,fun why hwhy => by cases hwhy⟩
  · rw [hcall,herr]
    exact ⟨fun hok => (by cases hok),fun _ _ => rfl⟩

end Identified

/-- Every call keeps the tables in agreement. -/
theorem Deployed.identified {registered : List Text} {s : Store} (h : Deployed registered s) :
    Identified registered s := by
  induction h with
  | empty => exact .empty
  | accepted config _ hok ih => exact (ih.register config).1 hok
  | refused config _ hwhy ih =>
    rw [(ih.register config).2 _ hwhy]
    exact ih
  | deploy name json _ hname ih => exact (ih.deploy hname json).2

/-- Two names that occur in the tables have different slugs, none is empty, the column holds
them, and the end of a deploy stores its spec. -/
theorem identities_apart {registered : List Text} {s : Store} (h : Deployed registered s) :
    (∀ name ∈ s.names, slug name ≠ []) ∧
    (∀ a ∈ s.names, ∀ b ∈ s.names, a ≠ b → slug a ≠ slug b) ∧
    (∀ name row, s.apps.lookup name = some row → row.slug = slug name) ∧
    ∀ name ∈ registered, ∀ json, (s.call (.putSpec name (slug name) json)).1 = .ok () := by
  have hi := h.identified
  refine ⟨fun name hname => ?_,fun a ha b hb hne hslug => ?_,hi.column,fun name hname json => ?_⟩
  · exact hi.nonempty name (hi.mem_names.mp hname)
  · exact hne (hi.distinct a (hi.mem_names.mp ha) b (hi.mem_names.mp hb) hslug)
  · exact (hi.deploy hname json).1

/-- Two apps side by side: a third name with the slug of the first is refused, and the first
is registered again after its deploy. -/
def sideBySide : Store :=
  [.registerApp ⟨"web","/srv/web",none⟩,.registerApp ⟨"api","/srv/api",none⟩,
    .putSpec "web" (slug "web") "v1",.registerApp ⟨"Web!","/srv/other",none⟩,
    .registerApp ⟨"web","/srv/web2",none⟩,.putSpec "web" (slug "web") "v2"].foldl
    (fun s o => (s.call o).2) .empty

theorem sideBySide_apart : sideBySide.names = ["web","api","web"] ∧
    (∀ a ∈ sideBySide.names, ∀ b ∈ sideBySide.names, a ≠ b → slug a ≠ slug b) ∧
    ∀ json, (sideBySide.call (.putSpec "api" (slug "api") json)).1 = .ok () := by
  have hdeployed : Deployed ["web","api","web"] sideBySide := by
    refine .deploy "web" "v2" (.accepted ⟨"web","/srv/web2",none⟩ ?_ (by decide +kernel)) (by decide)
    refine @Deployed.refused _ _ ⟨"Web!","/srv/other",none⟩ ["slug ",.debug "web"," for app ",
      .debug "Web!"," collides with an existing app"] ?_ (by decide +kernel)
    refine .deploy "web" "v1" (.accepted ⟨"api","/srv/api",none⟩ ?_ (by decide +kernel)) (by decide)
    exact .accepted ⟨"web","/srv/web",none⟩ .empty (by decide +kernel)
  have h := identities_apart hdeployed
  exact ⟨by decide +kernel,h.2.1,h.2.2.2 "api" (by decide)⟩

end Kuadrat
