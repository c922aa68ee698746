import Kuadrat.Daemon.Errand

/-!
# Whose checkout it is

A registration stands while the trigger lock is held, and a deploy that is reserved has its
checkout to itself as long as no two apps share a directory. So nobody else resets it before
the deploy has ended, and the commit that a push names is still there when the image is built.
-/
namespace Kuadrat

open Effect

/-- What the errands of the threads depend on. -/
structure View where
  owner : ℕ → Option ℕ
  course : ℕ → Option (Text × DeployStatus)
  checkout : Text → Option Text
  trigger : Option ℕ

def Shared.view (s : Shared) : View :=
  ⟨s.owner,s.store.course,s.store.checkout,s.holder .trigger⟩

def View.Live (v : View) (d : ℕ) : Prop := ∃ app, v.course d = some (app,.inProgress)

section Invariant
variable {K : Type} (place : Path → K)

/-- Thread `i` has read the registration with the trigger lock, which it still has. -/
structure Snapshot (v : View) (n : Notes K) (i : ℕ) (c : AppConfig) : Prop where
  trigger : v.trigger = some i
  read : n.read i = some c
  checkout : v.checkout c.name = some c.repoPath

/-- Thread `i` has created the only row in progress of the app, and not reserved it yet. -/
structure Created (v : View) (n : Notes K) (i : ℕ) (c : AppConfig) (d : ℕ) : Prop where
  snapshot : Snapshot v n i c
  owner : v.owner i = some d
  course : v.course d = some (c.name,.inProgress)
  only : ∀ d', v.course d' = some (c.name,.inProgress) → d' = d
  repo : n.repo d = none
  pushed : n.pushed d = none

/-- The deploy of thread `i` is reserved for the checkout, which stands at the commit of its push. -/
structure Holding (v : View) (n : Notes K) (i : ℕ) (path : Text) (d : ℕ) : Prop where
  owner : v.owner i = some d
  live : v.Live d
  repo : n.repo d = some (place (Path.ofText path))
  head : ∀ sha, n.pushed d = some sha → n.head (place (Path.ofText path)) = some sha

/-- What a thread knows is so. -/
def Errand.Fits (v : View) (n : Notes K) (i : ℕ) : Errand → Prop
  | free => True
  | locked => v.trigger = some i
  | knows c => Snapshot v n i c
  | alone c => Snapshot v n i c ∧ ∀ d, v.course d ≠ some (c.name,.inProgress)
  | created c d => Created v n i c d
  | holds repo d => Holding place v n i repo d
  | attempt d => v.owner i = some d
  | built d => v.owner i = some d ∧ ∀ sha, n.pushed d = some sha → n.built d = some sha

/-- Every deploy is owned by one thread at most, and has its checkout to itself while it is in
progress; the registration with that checkout, if there is one, is that of its app. -/
structure Grounds (v : View) (n : Notes K) : Prop where
  own : ∀ i j d, v.owner i = some d → v.owner j = some d → i = j
  there : ∀ i d, v.owner i = some d → v.course d ≠ none
  fresh : ∀ d, v.course d = none → n.repo d = none ∧ n.pushed d = none
  lone : ∀ d d' k, v.Live d → v.Live d' → n.repo d = some k → n.repo d' = some k → d = d'
  separate : ∀ name name' path path', v.checkout name = some path → v.checkout name' = some path' →
    place (Path.ofText path) = place (Path.ofText path') → name = name'
  settled : ∀ d app name path, v.course d = some (app,.inProgress) →
    n.repo d = some (place (Path.ofText path)) → v.checkout name = some path → name = app
  done : ∀ d app sha, v.course d = some (app,.done) → n.pushed d = some sha → n.built d = some sha

structure Errands (memo : ℕ → Errand) (v : View) (n : Notes K) : Prop where
  grounds : Grounds place v n
  fits : ∀ i, (memo i).Fits place v n i

/-- Nothing happens that thread `j` relies on. -/
structure Unmoved (v v' : View) (n n' : Notes K) (j : ℕ) : Prop where
  trigger : v.trigger = some j → v'.trigger = some j ∧ v'.checkout = v.checkout ∧
    ∀ d app, v'.course d = some (app,.inProgress) → v.course d = some (app,.inProgress)
  owner : v'.owner j = v.owner j
  read : n'.read j = n.read j
  deploy : ∀ d, v.owner j = some d → v'.course d = v.course d ∧ n'.repo d = n.repo d ∧
    n'.pushed d = n.pushed d ∧ n'.built d = n.built d
  head : ∀ d k, v.owner j = some d → v.Live d → n.repo d = some k → n'.head k = n.head k

variable {place} {v v' : View} {n n' : Notes K} {i j d : ℕ} {m : Errand} {memo : ℕ → Errand}

theorem Snapshot.unmoved {c : AppConfig} (h : Snapshot v n j c) (hu : Unmoved v v' n n' j) :
    Snapshot v' n' j c := by
  obtain ⟨htrigger,hcheckout,-⟩ := hu.trigger h.trigger
  refine ⟨htrigger,hu.read.trans h.read,?_⟩
  rw [hcheckout]
  exact h.checkout

theorem Errand.Fits.unmoved (h : m.Fits place v n j) (hu : Unmoved v v' n n' j) :
    m.Fits place v' n' j := by
  cases m with
  | free => trivial
  | locked => exact (hu.trigger h).1
  | knows c => exact Snapshot.unmoved h hu
  | alone c =>
    exact ⟨h.1.unmoved hu,fun d hd => h.2 d ((hu.trigger h.1.trigger).2.2 d _ hd)⟩
  | created c d =>
    obtain ⟨hcourse,hrepo,hpushed,-⟩ := hu.deploy d h.owner
    exact ⟨h.snapshot.unmoved hu,hu.owner.trans h.owner,hcourse.trans h.course,
      fun d' hd' => h.only d' ((hu.trigger h.snapshot.trigger).2.2 d' _ hd'),
      hrepo.trans h.repo,hpushed.trans h.pushed⟩
  | holds repo d =>
    obtain ⟨hcourse,hrepo,hpushed,-⟩ := hu.deploy d h.owner
    obtain ⟨app,happ⟩ := h.live
    refine ⟨hu.owner.trans h.owner,⟨app,hcourse.trans happ⟩,hrepo.trans h.repo,fun sha hsha => ?_⟩
    rw [hu.head d _ h.owner h.live h.repo]
    exact h.head sha (hpushed ▸ hsha)
  | attempt d => exact hu.owner.trans h
  | built d =>
    obtain ⟨-,-,hpushed,hbuilt⟩ := hu.deploy d h.1
    refine ⟨hu.owner.trans h.1,fun sha hsha => ?_⟩
    rw [hbuilt]
    exact h.2 sha (hpushed ▸ hsha)

/-- Whoever has an errand with a deploy owns it. -/
theorem Errand.Fits.owner (h : m.Fits place v n i) (hd : m.deploy = some d) :
    v.owner i = some d := by
  cases m with
  | free | locked | knows | alone => cases hd
  | created c d' =>
    cases hd
    exact h.owner
  | holds repo d' =>
    cases hd
    exact h.owner
  | attempt d' =>
    cases hd
    exact h
  | built d' =>
    cases hd
    exact h.1

/-- Thread `i` goes on, and disturbs no other. -/
theorem Errands.turn (h : Errands place memo v n) (hgrounds : Grounds place v' n')
    (hothers : ∀ j, j ≠ i → Unmoved v v' n n' j) (hself : m.Fits place v' n' i) :
    Errands place (Function.update memo i m) v' n' := by
  refine ⟨hgrounds,fun j => ?_⟩
  by_cases hj : j = i
  · subst hj
    rwa [Function.update_self]
  · rw [Function.update_of_ne hj]
    exact (h.fits j).unmoved (hothers j hj)

theorem Errands.same (h : Errands place memo v n) :
    Errands place (Function.update memo i (memo i)) v n := by
  rwa [Function.update_eq_self]

end Invariant

section Trigger
variable {K : Type} {place : Path → K} {v : View} {n : Notes K} {i d : ℕ} {memo : ℕ → Errand}
  {c : AppConfig}

theorem Errands.acquire (h : Errands place memo v n) (hfree : v.trigger = none) :
    Errands place (Function.update memo i .locked) { v with trigger := some i } n := by
  refine h.turn ⟨h.grounds.own,h.grounds.there,h.grounds.fresh,h.grounds.lone,h.grounds.separate,
    h.grounds.settled,h.grounds.done⟩ (fun j _ => ⟨fun hj => ?_,rfl,rfl,
      fun _ _ => ⟨rfl,rfl,rfl,rfl⟩,fun _ _ _ _ _ => rfl⟩) rfl
  rw [hfree] at hj
  cases hj

theorem Errands.release (h : Errands place memo v n) : Errands place (Function.update memo i .free)
    { v with trigger := if v.trigger = some i then none else v.trigger } n := by
  refine h.turn ⟨h.grounds.own,h.grounds.there,h.grounds.fresh,h.grounds.lone,h.grounds.separate,
    h.grounds.settled,h.grounds.done⟩ (fun j hj => ⟨fun hheld => ⟨?_,rfl,fun _ _ hd => hd⟩,rfl,rfl,
      fun _ _ => ⟨rfl,rfl,rfl,rfl⟩,fun _ _ _ _ _ => rfl⟩) trivial
  exact (if_neg fun heq => hj (Option.some.inj (hheld.symm.trans heq))).trans hheld

/-- While one thread has the trigger lock, nobody else counts on it. -/
theorem unmoved_of_trigger {v' : View} {n' : Notes K} {j : ℕ} (hj : j ≠ i)
    (htrigger : v.trigger = some i) (howner : v'.owner j = v.owner j) (hread : n'.read j = n.read j)
    (hdeploy : ∀ d, v.owner j = some d → v'.course d = v.course d ∧ n'.repo d = n.repo d ∧
      n'.pushed d = n.pushed d ∧ n'.built d = n.built d) (hhead : n'.head = n.head) :
    Unmoved v v' n n' j := by
  refine ⟨fun hheld => ?_,howner,hread,hdeploy,fun _ _ _ _ _ => by rw [hhead]⟩
  exact absurd (Option.some.inj (hheld.symm.trans htrigger)) hj

/-- A registration for a directory that is no other app's, and that no other app deploys from. -/
theorem Errands.register (h : Errands place memo v n) (hi : memo i = .locked) {name path : Text}
    (hother : ∀ name' path', v.checkout name' = some path' →
      place (Path.ofText path') = place (Path.ofText path) → name' = name)
    (hlive : ∀ d app, v.course d = some (app,.inProgress) →
      n.repo d = some (place (Path.ofText path)) → app = name) :
    Errands place (Function.update memo i .locked)
      { v with checkout := Function.update v.checkout name (some path) } n := by
  have htrigger : v.trigger = some i := by
    have := h.fits i
    rwa [hi] at this
  have hat : ∀ name' path', Function.update v.checkout name (some path) name' = some path' →
      (name' = name ∧ path' = path) ∨ v.checkout name' = some path' := by
    intro name' path' hp
    rcases update_cases hp with ⟨hn,heq⟩ | ⟨-,hp⟩
    · exact .inl ⟨hn,(Option.some.inj heq).symm⟩
    · exact .inr hp
  refine h.turn ⟨h.grounds.own,h.grounds.there,h.grounds.fresh,h.grounds.lone,?_,?_,h.grounds.done⟩
    (fun j hj => unmoved_of_trigger hj htrigger rfl rfl (fun _ _ => ⟨rfl,rfl,rfl,rfl⟩) rfl)
    htrigger
  · intro name₁ name₂ path₁ path₂ h₁ h₂ hplace
    rcases hat name₁ path₁ h₁ with ⟨rfl,rfl⟩ | hold₁
    · rcases hat name₂ path₂ h₂ with ⟨rfl,-⟩ | hold₂
      · rfl
      · exact (hother name₂ path₂ hold₂ hplace.symm).symm
    · rcases hat name₂ path₂ h₂ with ⟨rfl,rfl⟩ | hold₂
      · exact hother name₁ path₁ hold₁ hplace
      · exact h.grounds.separate name₁ name₂ path₁ path₂ hold₁ hold₂ hplace
  · intro d app name' path' hd hrepo hp
    rcases hat name' path' hp with ⟨rfl,rfl⟩ | hold
    · exact (hlive d app hd hrepo).symm
    · exact h.grounds.settled d app name' path' hd hrepo hold

theorem Errands.read (h : Errands place memo v n) (hi : memo i = .locked)
    (hcheckout : v.checkout c.name = some c.repoPath) :
    Errands place (Function.update memo i (.knows c)) v
      { n with read := Function.update n.read i (some c) } := by
  have htrigger : v.trigger = some i := by
    have := h.fits i
    rwa [hi] at this
  refine h.turn ⟨h.grounds.own,h.grounds.there,h.grounds.fresh,h.grounds.lone,h.grounds.separate,
    h.grounds.settled,h.grounds.done⟩ (fun j hj => unmoved_of_trigger hj htrigger rfl
      (Function.update_of_ne hj ..) (fun _ _ => ⟨rfl,rfl,rfl,rfl⟩) rfl)
    ⟨htrigger,Function.update_self ..,hcheckout⟩

theorem Errands.look (h : Errands place memo v n) (hi : memo i = .knows c) {rows : List DeployRow}
    (hrows : (rows.any fun row => row.app == c.name) = false →
      ∀ d, v.course d ≠ some (c.name,.inProgress)) :
    Errands place (Function.update memo i ((memo i).look rows)) v n := by
  have hsnapshot : Snapshot v n i c := by
    have := h.fits i
    rwa [hi] at this
  refine h.turn h.grounds (fun j hj => unmoved_of_trigger hj hsnapshot.trigger rfl rfl
    (fun _ _ => ⟨rfl,rfl,rfl,rfl⟩) rfl) ?_
  rw [hi,Errand.look]
  split
  · exact hsnapshot
  · rename_i hbusy
    exact ⟨hsnapshot,hrows (by simpa using hbusy)⟩

end Trigger

section Deploys
variable {K : Type} {place : Path → K} {v : View} {n : Notes K} {i d : ℕ} {memo : ℕ → Errand}
  {c : AppConfig}

/-- A new row is nobody else's, and is not reserved for any checkout. -/
theorem Grounds.create (h : Grounds place v n) (hnew : v.course d = none) (app : Text) :
    Grounds place { v with
      owner := Function.update v.owner i (some d)
      course := Function.update v.course d (some (app,.inProgress)) } n := by
  obtain ⟨hrepo,hpushed⟩ := h.fresh d hnew
  have hother : ∀ j, v.owner j ≠ some d := fun j hj => h.there j d hj hnew
  have howner : ∀ j d', Function.update v.owner i (some d) j = some d' →
      (j = i ∧ d' = d) ∨ v.owner j = some d' := by
    intro j d' hj
    rcases update_cases hj with ⟨hji,heq⟩ | ⟨-,hj⟩
    · exact .inl ⟨hji,(Option.some.inj heq).symm⟩
    · exact .inr hj
  have hcourse : ∀ d' a, Function.update v.course d (some (app,.inProgress)) d' = some a →
      n.repo d' ≠ none ∨ n.pushed d' ≠ none → v.course d' = some a := by
    intro d' a ha hheld
    rcases update_cases ha with ⟨rfl,-⟩ | ⟨-,ha⟩
    · exact absurd hheld (by simp [hrepo,hpushed])
    · exact ha
  refine ⟨fun j k d' hj hk => ?_,fun j d' hj hnone => ?_,fun d' hd' => ?_,
    fun d₁ d₂ k h₁ h₂ hk₁ hk₂ => ?_,h.separate,fun d' app' name path hd' hk => ?_,
    fun d' app' sha hd' hsha => ?_⟩
  · rcases howner j d' hj with ⟨hji,hjd⟩ | hj
    · rcases howner k d' hk with ⟨hki,-⟩ | hk
      · exact hji.trans hki.symm
      · exact absurd (hjd ▸ hk) (hother k)
    · rcases howner k d' hk with ⟨-,hkd⟩ | hk
      · exact absurd (hkd ▸ hj) (hother j)
      · exact h.own j k d' hj hk
  · rcases update_cases hnone with ⟨-,heq⟩ | ⟨hd,hnone⟩
    · cases heq
    · rcases howner j d' hj with ⟨-,hjd⟩ | hj
      · exact hd hjd
      · exact h.there j d' hj hnone
  · rcases update_cases hd' with ⟨-,heq⟩ | ⟨-,hd'⟩
    · cases heq
    · exact h.fresh d' hd'
  · obtain ⟨app₁,h₁⟩ := h₁
    obtain ⟨app₂,h₂⟩ := h₂
    exact h.lone d₁ d₂ k ⟨app₁,hcourse d₁ _ h₁ (.inl (by simp [hk₁]))⟩
      ⟨app₂,hcourse d₂ _ h₂ (.inl (by simp [hk₂]))⟩ hk₁ hk₂
  · exact h.settled d' app' name path (hcourse d' _ hd' (.inl (by simp [hk]))) hk
  · exact h.done d' app' sha (hcourse d' _ hd' (.inr (by simp [hsha]))) hsha

theorem Errands.create (h : Errands place memo v n) (hi : memo i = .knows c ∨ memo i = .alone c)
    (hnew : v.course d = none) : Errands place (Function.update memo i ((memo i).create d))
      { v with
        owner := Function.update v.owner i (some d)
        course := Function.update v.course d (some (c.name,.inProgress)) } n := by
  have hsnapshot : Snapshot v n i c := by
    have hfits := h.fits i
    rcases hi with hi | hi
    · rwa [hi] at hfits
    · rw [hi] at hfits
      exact hfits.1
  have hother : ∀ j d', v.owner j = some d' → d' ≠ d := by
    rintro j d' hj rfl
    exact h.grounds.there j d' hj hnew
  refine h.turn (h.grounds.create hnew c.name) (fun j hj => unmoved_of_trigger hj hsnapshot.trigger
    (Function.update_of_ne hj ..) rfl
    (fun d' hd' => ⟨Function.update_of_ne (hother j d' hd') ..,rfl,rfl,rfl⟩) rfl) ?_
  rcases hi with hi | hi
  · rw [hi]
    exact Function.update_self ..
  · have halone := h.fits i
    rw [hi] at halone ⊢
    obtain ⟨hrepo,hpushed⟩ := h.grounds.fresh d hnew
    refine ⟨⟨hsnapshot.trigger,hsnapshot.read,hsnapshot.checkout⟩,Function.update_self ..,
      Function.update_self ..,fun d' hd' => ?_,hrepo,hpushed⟩
    rcases update_cases hd' with ⟨hd,-⟩ | ⟨-,hd'⟩
    · exact hd
    · exact absurd hd' (halone.2 d')

/-- The lock is granted: nobody else has a deploy in progress in this checkout. -/
theorem Errands.reserve (h : Errands place memo v n) (hi : memo i = .created c d) :
    Errands place (Function.update memo i (.holds c.repoPath d)) v
      { n with repo := Function.update n.repo d (some (place (Path.ofText c.repoPath))) } := by
  have hcreated : Created v n i c d := by
    have := h.fits i
    rwa [hi] at this
  have hrepo : ∀ d' k, Function.update n.repo d (some (place (Path.ofText c.repoPath))) d' = some k →
      (d' = d ∧ k = place (Path.ofText c.repoPath)) ∨ (d' ≠ d ∧ n.repo d' = some k) := by
    intro d' k hk
    rcases update_cases hk with ⟨hd,heq⟩ | hk
    · exact .inl ⟨hd,(Option.some.inj heq).symm⟩
    · exact .inr hk
  have halone : ∀ d', v.Live d' → n.repo d' = some (place (Path.ofText c.repoPath)) → d' = d := by
    rintro d' ⟨app,happ⟩ hk
    have hname := h.grounds.settled d' app c.name c.repoPath happ hk hcreated.snapshot.checkout
    exact hcreated.only d' (hname ▸ happ)
  refine h.turn ⟨h.grounds.own,h.grounds.there,fun d' hd' => ?_,fun d₁ d₂ k h₁ h₂ hk₁ hk₂ => ?_,
    h.grounds.separate,fun d' app name path hd' hk hp => ?_,h.grounds.done⟩
    (fun j hj => unmoved_of_trigger hj hcreated.snapshot.trigger rfl rfl (fun d' hd' =>
      ⟨rfl,Function.update_of_ne ?_ ..,rfl,rfl⟩) rfl)
    ⟨hcreated.owner,⟨_,hcreated.course⟩,Function.update_self ..,fun sha hsha => ?_⟩
  · have hne : d' ≠ d := by
      rintro rfl
      rw [hcreated.course] at hd'
      cases hd'
    exact ⟨(Function.update_of_ne hne ..).trans (h.grounds.fresh d' hd').1,(h.grounds.fresh d' hd').2⟩
  · rcases hrepo d₁ k hk₁ with ⟨rfl,rfl⟩ | ⟨-,hold₁⟩
    · rcases hrepo d₂ _ hk₂ with ⟨rfl,-⟩ | ⟨-,hold₂⟩
      · rfl
      · exact (halone d₂ h₂ hold₂).symm
    · rcases hrepo d₂ k hk₂ with ⟨rfl,rfl⟩ | ⟨-,hold₂⟩
      · exact halone d₁ h₁ hold₁
      · exact h.grounds.lone d₁ d₂ k h₁ h₂ hold₁ hold₂
  · rcases hrepo d' _ hk with ⟨rfl,hplace⟩ | ⟨-,hold⟩
    · rw [hcreated.course] at hd'
      cases hd'
      exact h.grounds.separate name c.name path c.repoPath hp hcreated.snapshot.checkout hplace
    · exact h.grounds.settled d' app name path hd' hold hp
  · rintro rfl
    exact hj (h.grounds.own j i d' hd' hcreated.owner)
  · cases hcreated.pushed.symm.trans hsha

/-- What another thread relies on, when `i` does something to its own deploy only. -/
theorem Grounds.unmoved {v' : View} {n' : Notes K} {j : ℕ} (h : Grounds place v n) (hj : j ≠ i)
    (hi : v.owner i = some d) (htrigger : v'.trigger = v.trigger) (hcheckout : v'.checkout = v.checkout)
    (howner : v'.owner j = v.owner j) (hread : n'.read = n.read)
    (hlive : ∀ d app, v'.course d = some (app,.inProgress) → v.course d = some (app,.inProgress))
    (hdeploy : ∀ d', d' ≠ d → v'.course d' = v.course d' ∧ n'.repo d' = n.repo d' ∧
      n'.pushed d' = n.pushed d' ∧ n'.built d' = n.built d')
    (hhead : ∀ k, n'.head k ≠ n.head k → v.Live d ∧ n.repo d = some k) :
    Unmoved v v' n n' j := by
  refine ⟨fun hheld => ⟨htrigger.trans hheld,hcheckout,hlive⟩,howner,by rw [hread],
    fun d' hd' => hdeploy d' ?_,fun d' k hd' hlive' hk => ?_⟩
  · rintro rfl
    exact hj (h.own j i d' hd' hi)
  · by_contra hne
    obtain ⟨hlive,hk'⟩ := hhead k hne
    obtain rfl := h.lone d' d k hlive' hlive hk hk'
    exact hj (h.own j i d' hd' hi)

/-- An owner ends its deploy; one that ends well has been built. -/
theorem Errands.finish (h : Errands place memo v n) (hi : v.owner i = some d) {status : DeployStatus}
    {m : Errand} (hs : status ≠ .inProgress)
    (hdone : status = .done → ∀ sha, n.pushed d = some sha → n.built d = some sha)
    (hm : m = .free ∨ m = .attempt d) : Errands place (Function.update memo i m)
      { v with course := Function.update v.course d ((v.course d).map fun c => (c.1,status)) } n := by
  have hcourse : ∀ d' a, Function.update v.course d ((v.course d).map fun c => (c.1,status)) d' =
      some a → (d' = d ∧ a.2 = status) ∨ v.course d' = some a := by
    intro d' a ha
    rcases update_cases ha with ⟨hd,heq⟩ | ⟨-,ha⟩
    · obtain ⟨c,-,rfl⟩ := Option.map_eq_some_iff.mp heq
      exact .inl ⟨hd,rfl⟩
    · exact .inr ha
  have hlive : ∀ d' app, Function.update v.course d ((v.course d).map fun c => (c.1,status)) d' =
      some (app,.inProgress) → v.course d' = some (app,.inProgress) := by
    intro d' app hd'
    rcases hcourse d' _ hd' with ⟨-,heq⟩ | hd'
    · exact absurd heq.symm hs
    · exact hd'
  have hnone : ∀ d', Function.update v.course d ((v.course d).map fun c => (c.1,status)) d' = none ↔
      v.course d' = none := by
    intro d'
    by_cases hd : d' = d
    · rw [hd,Function.update_self,Option.map_eq_none_iff]
    · rw [Function.update_of_ne hd]
  refine h.turn ⟨h.grounds.own,fun j d' hj => (hnone d').not.mpr (h.grounds.there j d' hj),
    fun d' hd' => h.grounds.fresh d' ((hnone d').mp hd'),
    fun d₁ d₂ k h₁ h₂ => h.grounds.lone d₁ d₂ k (h₁.imp fun _ => hlive d₁ _)
      (h₂.imp fun _ => hlive d₂ _),h.grounds.separate,
    fun d' app name path hd' => h.grounds.settled d' app name path (hlive d' app hd'),
    fun d' app sha hd' hsha => ?_⟩ (fun j hj => h.grounds.unmoved hj hi rfl rfl rfl rfl hlive
      (fun d' hd' => ⟨Function.update_of_ne hd' ..,rfl,rfl,rfl⟩) fun k hk => absurd rfl hk) ?_
  · rcases hcourse d' _ hd' with ⟨rfl,heq⟩ | hd'
    · exact hdone heq.symm sha hsha
    · exact h.grounds.done d' app sha hd' hsha
  · rcases hm with rfl | rfl
    · trivial
    · exact hi

end Deploys

section Commands
variable {K : Type} {place : Path → K} {v : View} {n : Notes K} {i d : ℕ} {memo : ℕ → Errand}
  {repo : Text}

/-- A reset moves the checkout of the deploy that its thread owns, and no other. -/
theorem Errands.reset [DecidableEq K] (h : Errands place memo v n) (hi : memo i = .holds repo d) (sha : Text)
    (ok : Bool) : Errands place
      (Function.update memo i (if ok then .holds repo d else .attempt d)) v { n with
        head := Function.update n.head (place (Path.ofText repo)) (if ok then some sha else none)
        pushed := Function.update n.pushed d (some sha) } := by
  have hheld : Holding place v n i repo d := by
    have := h.fits i
    rwa [hi] at this
  have hcourse : ∀ d' s, v.course d' = s → (∀ app, s ≠ some (app,.inProgress)) → d' ≠ d := by
    rintro d' s hs hnot rfl
    obtain ⟨app,happ⟩ := hheld.live
    exact hnot app (hs.symm.trans happ)
  refine h.turn ⟨h.grounds.own,h.grounds.there,fun d' hd' => ?_,h.grounds.lone,h.grounds.separate,
    h.grounds.settled,fun d' app sha' hd' hsha => ?_⟩ (fun j hj => h.grounds.unmoved hj
      hheld.owner rfl rfl rfl rfl (fun _ _ hd => hd)
      (fun d' hd' => ⟨rfl,rfl,Function.update_of_ne hd' ..,rfl⟩) fun k hk => ?_) ?_
  · refine ⟨(h.grounds.fresh d' hd').1,?_⟩
    exact (Function.update_of_ne (hcourse d' _ hd' fun _ => nofun) ..).trans (h.grounds.fresh d' hd').2
  · refine h.grounds.done d' app sha' hd' ?_
    have hne : d' ≠ d := hcourse d' _ hd' fun _ heq => by cases heq
    exact (Function.update_of_ne hne ..).symm.trans hsha
  · refine ⟨hheld.live,hheld.repo.trans (congrArg some ?_)⟩
    by_contra hne
    exact hk (Function.update_of_ne (fun heq => hne heq.symm) ..)
  · cases ok with
    | false => exact hheld.owner
    | true =>
      refine ⟨hheld.owner,hheld.live,hheld.repo,fun sha' hsha => ?_⟩
      have hsame : some sha = some sha' := (Function.update_self d (some sha) n.pushed).symm.trans hsha
      cases hsame
      exact Function.update_self ..

/-- The image is built from the commit at which the checkout stands. -/
theorem Errands.build (h : Errands place memo v n) (hi : memo i = .holds repo d) :
    Errands place (Function.update memo i (.built d)) v
      { n with built := Function.update n.built d (n.head (place (Path.ofText repo))) } := by
  have hheld : Holding place v n i repo d := by
    have := h.fits i
    rwa [hi] at this
  refine h.turn ⟨h.grounds.own,h.grounds.there,h.grounds.fresh,h.grounds.lone,h.grounds.separate,
    h.grounds.settled,fun d' app sha hd' hsha => ?_⟩ (fun j hj => h.grounds.unmoved hj
      hheld.owner rfl rfl rfl rfl (fun _ _ hd => hd)
      (fun d' hd' => ⟨rfl,rfl,rfl,Function.update_of_ne hd' ..⟩) fun k hk => absurd rfl hk)
    ⟨hheld.owner,fun sha hsha => ?_⟩
  · have hne : d' ≠ d := by
      rintro rfl
      obtain ⟨app',happ⟩ := hheld.live
      rw [happ] at hd'
      cases hd'
    exact (Function.update_of_ne hne ..).trans (h.grounds.done d' app sha hd' hsha)
  · exact (Function.update_self ..).trans (hheld.head sha hsha)

/-- Thread `i` is gone, and with it what is known of the checkout of its deploy. -/
theorem Errands.leave (h : Errands place memo v n) {head : K → Option Text}
    (hhead : ∀ k, head k ≠ n.head k → ∃ d, v.owner i = some d ∧ v.Live d ∧ n.repo d = some k) :
    Errands place (Function.update memo i .free) { v with
      owner := Function.update v.owner i none
      trigger := if v.trigger = some i then none else v.trigger } { n with head := head } := by
  have hkept : ∀ j d, Function.update v.owner i none j = some d → v.owner j = some d := by
    intro j d hj
    rcases update_cases hj with ⟨-,heq⟩ | ⟨-,hj⟩
    · cases heq
    · exact hj
  refine h.turn ⟨fun j k d hj hk => h.grounds.own j k d (hkept j d hj) (hkept k d hk),
    fun j d hj => h.grounds.there j d (hkept j d hj),h.grounds.fresh,h.grounds.lone,
    h.grounds.separate,h.grounds.settled,h.grounds.done⟩ (fun j hj => ⟨fun hheld => ⟨?_,rfl,
      fun _ _ hd => hd⟩,Function.update_of_ne hj ..,rfl,fun _ _ => ⟨rfl,rfl,rfl,rfl⟩,
      fun d k hd hlive hk => ?_⟩) trivial
  · exact (if_neg fun heq => hj (Option.some.inj (hheld.symm.trans heq))).trans hheld
  · by_contra hne
    obtain ⟨d',hd',hlive',hk'⟩ := hhead k hne
    obtain rfl := h.grounds.lone d d' k hlive hlive' hk hk'
    exact hj (h.grounds.own j i d hd hd')

/-- The deploy of `i` is handed over to the task `j`, with its checkout. -/
theorem Errands.handOver (h : Errands place memo v n) (hi : memo i = .holds repo d) {j : ℕ}
    (hj : memo j = .free) (hij : j ≠ i) :
    Errands place (Function.update (Function.update memo j (.holds repo d)) i .free)
      { v with owner := Function.update (Function.update v.owner j (some d)) i none } n := by
  have hheld : Holding place v n i repo d := by
    have := h.fits i
    rwa [hi] at this
  have hat : ∀ k d', Function.update (Function.update v.owner j (some d)) i none k = some d' →
      k ≠ i ∧ ((k = j ∧ d' = d) ∨ (k ≠ j ∧ v.owner k = some d')) := by
    intro k d' hk
    rcases update_cases hk with ⟨-,heq⟩ | ⟨hki,hk⟩
    · cases heq
    refine ⟨hki,?_⟩
    rcases update_cases hk with ⟨hkj,heq⟩ | hk
    · exact .inl ⟨hkj,(Option.some.inj heq).symm⟩
    · exact .inr hk
  have hfresh : ∀ k, k ≠ i → v.owner k ≠ some d := fun k hki hk =>
    hki (h.grounds.own k i d hk hheld.owner)
  refine ⟨⟨fun k l d' hk hl => ?_,fun k d' hk => ?_,h.grounds.fresh,h.grounds.lone,
    h.grounds.separate,h.grounds.settled,h.grounds.done⟩,fun k => ?_⟩
  · obtain ⟨hki,⟨hkj,hkd⟩ | ⟨-,hold⟩⟩ := hat k d' hk
    · obtain ⟨hli,⟨hlj,-⟩ | ⟨-,hold'⟩⟩ := hat l d' hl
      · exact hkj.trans hlj.symm
      · exact absurd (hkd ▸ hold') (hfresh l hli)
    · obtain ⟨hli,⟨-,hld⟩ | ⟨-,hold'⟩⟩ := hat l d' hl
      · exact absurd (hld ▸ hold) (hfresh k hki)
      · exact h.grounds.own k l d' hold hold'
  · obtain ⟨hki,⟨-,hkd⟩ | ⟨-,hold⟩⟩ := hat k d' hk
    · exact hkd ▸ h.grounds.there i d hheld.owner
    · exact h.grounds.there k d' hold
  · by_cases hki : k = i
    · subst hki
      rw [Function.update_self]
      trivial
    · rw [Function.update_of_ne hki]
      by_cases hkj : k = j
      · subst hkj
        rw [Function.update_self]
        refine ⟨?_,hheld.live,hheld.repo,hheld.head⟩
        exact (Function.update_of_ne hki ..).trans (Function.update_self ..)
      · rw [Function.update_of_ne hkj]
        refine (h.fits k).unmoved ⟨fun hk => ⟨hk,rfl,fun _ _ hd => hd⟩,?_,rfl,
          fun _ _ => ⟨rfl,rfl,rfl,rfl⟩,fun _ _ _ _ _ => rfl⟩
        exact (Function.update_of_ne hki ..).trans (Function.update_of_ne hkj ..)

end Commands

end Kuadrat
