import Kuadrat.Store.Effects
import Mathlib.Data.List.Induction
import Mathlib.Data.List.Lex
import Mathlib.Data.List.Sort
import Mathlib.Data.Char

/-!
# Registrations and their listing

`register_app` writes a row whose reader has checks of its own. The configurations
that a sequence of calls accepts are told from the sequence alone: a slug belongs
to the name that came first with it.
-/
namespace Kuadrat

namespace AppConfig

/-- The row that `register_app` writes. -/
def toRow (c : AppConfig) : ConfigRow where
  repoPath := c.repoPath
  routeDomain := c.route.map Route.domain
  routePort := c.route.map fun route => (route.port.toNat : ℤ)

/-- What `register_app` asks of a configuration by itself. -/
def wellFormed (c : AppConfig) : Bool := !(slug c.name).isEmpty && isAbsolute c.repoPath

/-- The route, if there is one, has a port to serve on. -/
def Servable (c : AppConfig) : Prop := ∀ route, c.route = some route → route.port ≠ 0

end AppConfig

namespace Store

def readRow (row : (_ : Text) × ConfigRow) : Except Message AppConfig :=
  buildAppConfig row.1 row.2.repoPath row.2.routeDomain row.2.routePort

/-- Every registration, ordered by name; the first unreadable row is the answer. -/
def listAppConfigs (s : Store) : Except Message (List AppConfig) :=
  (s.configs.entries.insertionSort fun a b => a.1 ≤ b.1).mapM readRow

/-- Reading a written row back checks the port, and finds what was written. -/
theorem readRow_toRow (c : AppConfig) :
    (c.Servable → readRow ⟨c.name,c.toRow⟩ = .ok c) ∧
    (¬c.Servable → ∃ why, readRow ⟨c.name,c.toRow⟩ = .error why) := by
  obtain ⟨name,repoPath,route⟩ := c
  cases route with
  | none => exact ⟨fun _ => rfl,fun h => absurd (by rintro route ⟨⟩) h⟩
  | some route =>
    obtain ⟨domain,port⟩ := route
    have hlt : port.toNat < 65536 := port.toNat_lt
    have hrange : ¬((port.toNat : ℤ) < 0 ∨ 65535 < (port.toNat : ℤ)) := by omega
    have hzero : (port.toNat : ℤ) = 0 ↔ port = 0 := by
      rw [Int.natCast_eq_zero,← UInt16.toNat_inj]
      rfl
    simp only [readRow,AppConfig.toRow,Option.map_some,buildAppConfig,if_neg hrange,hzero]
    constructor
    · intro h
      rw [if_neg (h _ rfl)]
      simp
    · intro h
      have hport : port = 0 := by
        by_contra hne
        refine h fun r hr => ?_
        cases hr
        exact hne
      rw [if_pos hport]
      exact ⟨_,rfl⟩

theorem appConfig_eq (s : Store) (name : Text) : s.appConfig name =
    match s.configs.lookup name with
    | none => .ok none
    | some row => (readRow ⟨name,row⟩).map some := rfl

end Store

/-! ### The calls of one run -/

/-- One call of `register_app`; a refused one changes nothing. -/
def registerStep (acc : List AppConfig × Store) (c : AppConfig) : List AppConfig × Store :=
  match acc.2.registerApp c with
  | .ok s => (acc.1 ++ [c],s)
  | .error _ => acc

/-- The configurations accepted by a sequence of calls, and the store they leave. -/
def registerAll (cs : List AppConfig) : List AppConfig × Store :=
  cs.foldl registerStep ([],.empty)

/-- The last configuration of the list for a name. -/
def lastFor (name : Text) (cs : List AppConfig) : Option AppConfig :=
  cs.reverse.find? fun c => c.name = name

/-- Every name reads back as the last configuration accepted for it, and the listing
succeeds with exactly those, once each. -/
structure ReadsBack (cs : List AppConfig) : Prop where
  each : ∀ name, (registerAll cs).2.appConfig name = .ok (lastFor name (registerAll cs).1)
  listed : ∃ l, (registerAll cs).2.listAppConfigs = .ok l ∧ l.Nodup ∧
    ∀ c, c ∈ l ↔ lastFor c.name (registerAll cs).1 = some c

/-- The name that came first with a slug, among the well-formed configurations. -/
def slugHolder (cs : List AppConfig) (s : Text) : Option Text :=
  (cs.find? fun c => c.wellFormed && slug c.name == s).map AppConfig.name

/-- The well-formed configurations whose slug belongs to their name. -/
def taken (cs : List AppConfig) : List AppConfig :=
  cs.filter fun c => c.wellFormed && slugHolder cs (slug c.name) == some c.name

theorem lastFor_append (name : Text) (cs : List AppConfig) (c : AppConfig) :
    lastFor name (cs ++ [c]) = if c.name = name then some c else lastFor name cs := by
  unfold lastFor
  rw [List.reverse_append,List.reverse_singleton,List.singleton_append,List.find?_cons]
  by_cases h : c.name = name <;> simp [h]

theorem lastFor_isSome {name : Text} {cs : List AppConfig} :
    (lastFor name cs).isSome ↔ ∃ c ∈ cs, c.name = name := by
  simp [lastFor,List.find?_isSome]

theorem name_of_lastFor {name : Text} {cs : List AppConfig} {c : AppConfig}
    (h : lastFor name cs = some c) : c.name = name := by
  simpa using List.find?_some h

theorem slugHolder_append (cs : List AppConfig) (c : AppConfig) (s : Text) : slugHolder (cs ++ [c]) s =
    (slugHolder cs s).or (if c.wellFormed && slug c.name == s then some c.name else none) := by
  unfold slugHolder
  rw [List.find?_append,Option.map_or]
  congr 1
  by_cases h : (c.wellFormed && slug c.name == s) = true <;> simp [h]

/-- A well-formed configuration of the list has given its slug to some name. -/
theorem slugHolder_isSome {cs : List AppConfig} {c : AppConfig} (hc : c ∈ cs)
    (hw : c.wellFormed = true) : (slugHolder cs (slug c.name)).isSome := by
  simp only [slugHolder,Option.isSome_map,List.find?_isSome]
  exact ⟨c,hc,by simp [hw]⟩

theorem mem_taken {cs : List AppConfig} {c : AppConfig} :
    c ∈ taken cs ↔ c ∈ cs ∧ c.wellFormed = true ∧ slugHolder cs (slug c.name) = some c.name := by
  simp [taken]

/-- Slugs that belong to a name stay with it, whatever is tried later. -/
theorem taken_append (cs : List AppConfig) (c : AppConfig) : taken (cs ++ [c]) =
    if c.wellFormed = true ∧ ∀ n, slugHolder cs (slug c.name) = some n → n = c.name
    then taken cs ++ [c] else taken cs := by
  have hold : (cs.filter fun c' =>
      c'.wellFormed && slugHolder (cs ++ [c]) (slug c'.name) == some c'.name) = taken cs := by
    refine List.filter_congr fun c' hc' => ?_
    cases hw : c'.wellFormed with
    | false => rfl
    | true =>
      rw [slugHolder_append,Option.or_of_isSome (slugHolder_isSome hc' hw)]
  have hnew : (c.wellFormed && slugHolder (cs ++ [c]) (slug c.name) == some c.name) = true ↔
      c.wellFormed = true ∧ ∀ n, slugHolder cs (slug c.name) = some n → n = c.name := by
    rw [slugHolder_append,Bool.and_eq_true]
    refine and_congr_right fun hw => ?_
    cases slugHolder cs (slug c.name) with
    | none => simp [hw]
    | some n => simp
  rw [taken,List.filter_append,hold,List.filter_singleton]
  by_cases h : c.wellFormed = true ∧ ∀ n, slugHolder cs (slug c.name) = some n → n = c.name
  · rw [if_pos h,hnew.mpr h]
    rfl
  · rw [if_neg h,Bool.eq_false_iff.mpr fun hc => h (hnew.mp hc)]
    exact List.append_nil _

/-- The name that owns a slug is registered: its first configuration was accepted. -/
theorem taken_of_slugHolder {cs : List AppConfig} {s n : Text} (h : slugHolder cs s = some n) :
    ∃ c ∈ taken cs, c.name = n ∧ slug n = s := by
  obtain ⟨c,hc,rfl⟩ := Option.map_eq_some_iff.mp h
  have hmem := List.mem_of_find?_eq_some hc
  have hprop : c.wellFormed = true ∧ slug c.name = s := by simpa using List.find?_some hc
  exact ⟨c,mem_taken.mpr ⟨hmem,hprop.1,by rw [hprop.2]; exact h⟩,rfl,hprop.2⟩

/-! ### What the store holds after the calls -/

/-- The accepted configurations are the ones the sequence decides, and the table holds the
last one of each name. -/
structure Recorded (cs : List AppConfig) (acc : List AppConfig × Store) : Prop where
  accepted : acc.1 = taken cs
  apps : acc.2.apps = ∅
  rows : ∀ name, acc.2.configs.lookup name = (lastFor name acc.1).map AppConfig.toRow

/-- When a call is refused, and what an accepted one writes. -/
theorem registerApp_cases (s : Store) (c : AppConfig) :
    (c.wellFormed = true ∧ (∀ n ∈ s.names, slug n = slug c.name → n = c.name) ∧
      s.registerApp c = .ok { s with configs := s.configs.insert c.name c.toRow }) ∨
    ((c.wellFormed = true → ∃ n ∈ s.names, slug n = slug c.name ∧ n ≠ c.name) ∧
      ∃ why, s.registerApp c = .error why) := by
  unfold Store.registerApp AppConfig.wellFormed
  by_cases he : (slug c.name).isEmpty = true
  · exact .inr ⟨by simp [he],_,if_pos he⟩
  by_cases ha : (!isAbsolute c.repoPath) = true
  · rw [if_neg he,if_pos ha]
    exact .inr ⟨by simp_all,_,rfl⟩
  rw [if_neg he,if_neg ha]
  by_cases hn : (s.names.any fun n => n != c.name && slug n == slug c.name) = true
  · rw [if_pos hn]
    obtain ⟨n,hmem,h⟩ := List.any_eq_true.mp hn
    exact .inr ⟨fun _ => ⟨n,hmem,by simpa [and_comm] using h⟩,_,rfl⟩
  · rw [if_neg hn]
    refine .inl ⟨by simp_all,fun n hmem hs => ?_,rfl⟩
    by_contra hne
    exact hn (List.any_eq_true.mpr ⟨n,hmem,by simp [hne,hs]⟩)

theorem Recorded.mem_names {cs : List AppConfig} {acc : List AppConfig × Store}
    (h : Recorded cs acc) {n : Text} : n ∈ acc.2.names ↔ ∃ c ∈ taken cs, c.name = n := by
  have hmem : n ∈ acc.2.names ↔ (acc.2.configs.lookup n).isSome := by
    rw [Store.names,h.apps,AList.lookup_isSome,List.mem_append]
    exact or_iff_left (by simp)
  rw [hmem,h.rows,Option.isSome_map,lastFor_isSome,h.accepted]

theorem Recorded.step {cs : List AppConfig} {acc : List AppConfig × Store} (h : Recorded cs acc)
    (c : AppConfig) : Recorded (cs ++ [c]) (registerStep acc c) := by
  have hfree : (∀ n ∈ acc.2.names, slug n = slug c.name → n = c.name) ↔
      ∀ n, slugHolder cs (slug c.name) = some n → n = c.name := by
    constructor
    · intro hall n hn
      obtain ⟨c',hc',rfl,hs⟩ := taken_of_slugHolder hn
      exact hall _ (h.mem_names.mpr ⟨c',hc',rfl⟩) hs
    · intro hall n hn hs
      obtain ⟨c',hc',rfl⟩ := h.mem_names.mp hn
      exact hall _ (hs ▸ (mem_taken.mp hc').2.2)
  rcases registerApp_cases acc.2 c with ⟨hw,hall,heq⟩ | ⟨hno,why,heq⟩
  · have htaken := taken_append cs c
    rw [if_pos ⟨hw,hfree.mp hall⟩] at htaken
    simp only [registerStep,heq]
    refine ⟨by rw [htaken,h.accepted],h.apps,fun name => ?_⟩
    rw [lastFor_append]
    by_cases hname : c.name = name
    · rw [if_pos hname,← hname]
      exact AList.lookup_insert _
    · rw [if_neg hname,← h.rows]
      exact AList.lookup_insert_ne (Ne.symm hname)
  · have htaken := taken_append cs c
    rw [if_neg fun hc => ?_] at htaken
    · simp only [registerStep,heq]
      exact ⟨h.accepted.trans htaken.symm,h.apps,h.rows⟩
    · obtain ⟨n,hn,hs,hne⟩ := hno hc.1
      exact hne (hfree.mpr hc.2 n hn hs)

theorem recorded (cs : List AppConfig) : Recorded cs (registerAll cs) := by
  induction cs using List.reverseRecOn with
  | nil => exact ⟨rfl,rfl,fun name => rfl⟩
  | append_singleton cs c ih =>
    rw [registerAll,List.foldl_append]
    exact ih.step c

/-! ### Reading everything back -/

/-- Rows that can all be read give one value each, in their order. -/
theorem mapM_eq_ok {α β γ : Type} {f : α → Except Message β} {key : β → γ} {label : α → γ}
    (hkey : ∀ a b, f a = .ok b → key b = label a) {l : List α} (h : ∀ a ∈ l, ∃ b, f a = .ok b) :
    ∃ out, l.mapM f = .ok out ∧ out.map key = l.map label ∧
      ∀ b, b ∈ out ↔ ∃ a ∈ l, f a = .ok b := by
  induction l with
  | nil => exact ⟨[],rfl,rfl,by simp⟩
  | cons a l ih =>
    obtain ⟨b,hb⟩ := h a List.mem_cons_self
    obtain ⟨out,hout,hkeys,hmem⟩ := ih fun a' ha' => h a' (List.mem_cons_of_mem _ ha')
    refine ⟨b::out,?_,?_,fun b' => ?_⟩
    · rw [List.mapM_cons,hb,hout]
      rfl
    · rw [List.map_cons,List.map_cons,hkey a b hb,hkeys]
    · simp [hmem,hb,eq_comm]

theorem name_of_readRow {name : Text} {row : ConfigRow} {c : AppConfig}
    (h : Store.readRow ⟨name,row⟩ = .ok c) : c.name = name := (Store.buildAppConfig_ok h).1

/-- When the rows of a table all read back, the listing has one configuration for each key. -/
theorem listAppConfigs_of_readable {s : Store}
    (h : ∀ name row, s.configs.lookup name = some row → ∃ c, Store.readRow ⟨name,row⟩ = .ok c) :
    ∃ l, s.listAppConfigs = .ok l ∧ l.Nodup ∧ ∀ c, c ∈ l ↔
      ∃ row, s.configs.lookup c.name = some row ∧ Store.readRow ⟨c.name,row⟩ = .ok c := by
  have hperm := List.perm_insertionSort (fun a b : (_ : Text) × ConfigRow => a.1 ≤ b.1) s.configs.entries
  have hmem : ∀ row, row ∈ s.configs.entries.insertionSort (fun a b => a.1 ≤ b.1) ↔
      s.configs.lookup row.1 = some row.2 := fun row =>
    hperm.mem_iff.trans AList.mem_lookup_iff.symm
  obtain ⟨l,hl,hnames,hall⟩ := mapM_eq_ok (f := Store.readRow) (fun row c => name_of_readRow)
    fun row hrow => h row.1 row.2 ((hmem row).mp hrow)
  refine ⟨l,hl,List.Nodup.of_map AppConfig.name ?_,fun c => (hall c).trans ⟨?_,?_⟩⟩
  · rw [hnames]
    exact (hperm.map Sigma.fst).nodup_iff.mpr s.configs.nodupKeys
  · rintro ⟨row,hrow,hread⟩
    rw [name_of_readRow hread]
    exact ⟨row.2,(hmem row).mp hrow,hread⟩
  · rintro ⟨row,hrow,hread⟩
    exact ⟨⟨c.name,row⟩,(hmem _).mpr hrow,hread⟩

/-- Registrations read back exactly when no name is left with port 0. -/
theorem reads_back_iff_servable (cs : List AppConfig) :
    ReadsBack cs ↔ ∀ name c, lastFor name (taken cs) = some c → c.Servable := by
  have hrec := recorded cs
  have hrow : ∀ name c, lastFor name (taken cs) = some c →
      (registerAll cs).2.configs.lookup name = some c.toRow ∧ c.name = name := by
    intro name c hc
    refine ⟨?_,name_of_lastFor hc⟩
    rw [hrec.rows,hrec.accepted,hc]
    rfl
  constructor
  · intro h name c hc
    by_contra hport
    obtain ⟨hlookup,rfl⟩ := hrow name c hc
    obtain ⟨why,hwhy⟩ := (Store.readRow_toRow c).2 hport
    have heach := h.each c.name
    rw [Store.appConfig_eq,hlookup] at heach
    dsimp only at heach
    rw [hwhy] at heach
    exact nomatch heach
  · intro h
    have hread : ∀ name c, lastFor name (taken cs) = some c →
        Store.readRow ⟨name,c.toRow⟩ = .ok c := by
      intro name c hc
      rw [← name_of_lastFor hc]
      exact (Store.readRow_toRow c).1 (h name c hc)
    have hback : ∀ name row, (registerAll cs).2.configs.lookup name = some row →
        ∃ c, lastFor name (taken cs) = some c ∧ c.toRow = row := by
      intro name row hlookup
      rw [hrec.rows,hrec.accepted] at hlookup
      exact Option.map_eq_some_iff.mp hlookup
    constructor
    · intro name
      rw [Store.appConfig_eq,hrec.rows,hrec.accepted]
      cases hc : lastFor name (taken cs) with
      | none => rfl
      | some c =>
        dsimp only [Option.map_some]
        rw [hread name c hc]
        rfl
    · obtain ⟨l,hl,hnodup,hmem⟩ := listAppConfigs_of_readable fun name row hlookup => by
        obtain ⟨c,hc,rfl⟩ := hback name row hlookup
        exact ⟨c,hread name c hc⟩
      refine ⟨l,hl,hnodup,fun c => (hmem c).trans ⟨?_,fun hc => ?_⟩⟩
      · rintro ⟨row,hlookup,hok⟩
        obtain ⟨c',hc',rfl⟩ := hback _ row hlookup
        rw [hread _ c' hc'] at hok
        cases hok
        rw [hrec.accepted]
        exact hc'
      · rw [hrec.accepted] at hc
        exact ⟨c.toRow,(hrow _ c hc).1,hread _ c hc⟩

/-- One app registered with port 0 makes the whole listing fail. -/
theorem port_zero_blocks_listing :
    ¬ReadsBack [⟨"web","/srv/web",some ⟨"web.example",8080⟩⟩,
      ⟨"api","/srv/api",some ⟨"api.example",0⟩⟩] := by
  intro h
  obtain ⟨l,hl,-⟩ := h.listed
  have herr : (registerAll [⟨"web","/srv/web",some ⟨"web.example",8080⟩⟩,
      ⟨"api","/srv/api",some ⟨"api.example",0⟩⟩]).2.listAppConfigs = .error
        ["app ",.debug "api"," has route port 0, which is not a valid port to serve on"] := by
    decide +kernel
  exact nomatch hl.symm.trans herr

end Kuadrat
