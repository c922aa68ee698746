import Mathlib.Data.Set.Insert
import Mathlib.Logic.Function.Basic

/-!
# Tickets and locks

Holders take out tickets for keys. A key has one lock, which names the ticket it was
granted to. Closing a ticket gives up the locks that name it; its holder may later free
the lock of its key once more, and then frees it whoever has it by that time.
-/
namespace Kuadrat.Effect

/-- How far a holder has come with its ticket. -/
inductive Point
  | issued
  | refused
  | granted
  | expired
  | closed
  deriving DecidableEq

namespace Point

/-- The ticket has not been closed. -/
def isOpen : Point → Bool
  | issued | refused | granted => true
  | expired | closed => false

/-- After the ticket is closed: a granted one still has to free the lock of its key. -/
def close : Point → Point
  | granted | expired => expired
  | issued | refused | closed => closed

@[simp] theorem isOpen_close (p : Point) : p.close.isOpen = false := by cases p <;> rfl

theorem close_eq_expired {p : Point} : p.close = expired ↔ p = granted ∨ p = expired := by
  cases p <;> simp [close]

end Point

structure Claim (K : Type) where
  point : Point
  key : K
  ticket : ℕ

@[ext] structure Ledger (ι K : Type) where
  /-- The key of each ticket, and whether the ticket is open. -/
  tickets : ℕ → Option (K × Bool)
  lock : K → Option ℕ
  granted : Set ℕ
  claim : ι → Option (Claim K)

namespace Ledger
variable {ι K : Type}

/-- One step of holder `i`; a lock is granted only for a key that `calm` allows. -/
inductive Step [DecidableEq ι] [DecidableEq K] (calm : K → Prop) (i : ι) (s : Ledger ι K) :
    Ledger ι K → Prop
  | issue (k : K) {t : ℕ} (hfree : s.claim i = none) (hnew : s.tickets t = none) :
      Step calm i s { s with
        tickets := Function.update s.tickets t (some (k,true))
        claim := Function.update s.claim i (some ⟨.issued,k,t⟩) }
  | grant {k : K} {t : ℕ} (hclaim : s.claim i = some ⟨.issued,k,t⟩) (hlock : s.lock k = none)
      (hcalm : calm k) :
      Step calm i s { s with
        lock := Function.update s.lock k (some t)
        granted := insert t s.granted
        claim := Function.update s.claim i (some ⟨.granted,k,t⟩) }
  | refuse {k : K} {t : ℕ} (hclaim : s.claim i = some ⟨.issued,k,t⟩) :
      Step calm i s { s with claim := Function.update s.claim i (some ⟨.refused,k,t⟩) }
  | reject {k : K} {t : ℕ} (hclaim : s.claim i = some ⟨.refused,k,t⟩) :
      Step calm i s { s with
        tickets := Function.update s.tickets t (some (k,false))
        claim := Function.update s.claim i (some ⟨.closed,k,t⟩) }
  | close {c : Claim K} (hclaim : s.claim i = some c) :
      Step calm i s { s with
        tickets := Function.update s.tickets c.ticket (some (c.key,false))
        lock := fun k => (s.lock k).filter (· ≠ c.ticket)
        claim := Function.update s.claim i (some { c with point := c.point.close }) }
  | free {k : K} {t : ℕ} (hclaim : s.claim i = some ⟨.expired,k,t⟩) :
      Step calm i s { s with
        lock := Function.update s.lock k none
        claim := Function.update s.claim i (some ⟨.closed,k,t⟩) }

theorem Step.of_eq [DecidableEq ι] [DecidableEq K] {calm : K → Prop} {i : ι} {s s' u : Ledger ι K}
    (h : Step calm i s s') (htickets : u.tickets = s'.tickets) (hlock : u.lock = s'.lock)
    (hgranted : u.granted = s'.granted) (hclaim : u.claim = s'.claim) : Step calm i s u := by
  rw [Ledger.ext htickets hlock hgranted hclaim]
  exact h

/-- Holder `i` gives its claim to `j`. -/
def hand [DecidableEq ι] (s : Ledger ι K) (i j : ι) : Ledger ι K :=
  { s with claim := Function.update (Function.update s.claim j (s.claim i)) i none }

/-- Holder `i` forgets its claim. -/
def quit [DecidableEq ι] (s : Ledger ι K) (i : ι) : Ledger ι K :=
  { s with claim := Function.update s.claim i none }

/-- Every holder has a ticket of its own, which is open as long as its claim says so. -/
structure Coherent (s : Ledger ι K) : Prop where
  ticket : ∀ i c, s.claim i = some c → s.tickets c.ticket = some (c.key,c.point.isOpen)
  own : ∀ i j c c', s.claim i = some c → s.claim j = some c' → c.ticket = c'.ticket → i = j

section Coherent
variable [DecidableEq ι] {s s' : Ledger ι K} {i j : ι}

/-- Where a claim of the new state comes from when `i` moved to `c'`. -/
theorem claim_update {c' d : Claim K} {k : ι} (h : Function.update s.claim i (some c') k = some d) :
    (k = i ∧ d = c') ∨ (k ≠ i ∧ s.claim k = some d) := by
  rw [Function.update_apply] at h
  split at h
  · rename_i hk
    exact .inl ⟨hk,(Option.some.inj h).symm⟩
  · rename_i hk
    exact .inr ⟨hk,h⟩

/-- A holder moves on with the same ticket, and no other ticket changes. -/
theorem Coherent.move {c : Claim K} (c' : Claim K) (h : Coherent s) (hc : s.claim i = some c)
    (ht : c'.ticket = c.ticket) (hclaim : s'.claim = Function.update s.claim i (some c'))
    (hrow : s'.tickets c'.ticket = some (c'.key,c'.point.isOpen))
    (hframe : ∀ t, t ≠ c.ticket → s'.tickets t = s.tickets t) : Coherent s' := by
  have hother : ∀ j d, j ≠ i → s.claim j = some d → d.ticket ≠ c.ticket := by
    intro j d hj hd heq
    exact hj (h.own j i d c hd hc heq)
  constructor
  · intro j d hd
    rw [hclaim] at hd
    rcases claim_update hd with ⟨-,rfl⟩ | ⟨hj,hold⟩
    · exact hrow
    · rw [hframe _ (hother j d hj hold)]
      exact h.ticket j d hold
  · intro j k d d' hd hd' heq
    rw [hclaim] at hd hd'
    rcases claim_update hd with ⟨hj,rfl⟩ | ⟨hj,hold⟩
    · rcases claim_update hd' with ⟨hk,rfl⟩ | ⟨hk,hold'⟩
      · rw [hj,hk]
      · exact absurd (heq.symm.trans ht) (hother k d' hk hold')
    · rcases claim_update hd' with ⟨hk,rfl⟩ | ⟨hk,hold'⟩
      · exact absurd (heq.trans ht) (hother j d hj hold)
      · exact h.own j k d d' hold hold' heq

theorem Coherent.issue {k : K} {t : ℕ} (h : Coherent s) (hnew : s.tickets t = none) :
    Coherent { s with
      tickets := Function.update s.tickets t (some (k,true))
      claim := Function.update s.claim i (some ⟨.issued,k,t⟩) } := by
  have hother : ∀ j d, s.claim j = some d → d.ticket ≠ t := by
    intro j d hd heq
    have hrow := h.ticket j d hd
    rw [heq,hnew] at hrow
    exact nomatch hrow
  constructor
  · intro j d hd
    dsimp only
    rcases claim_update hd with ⟨-,rfl⟩ | ⟨-,hold⟩
    · exact Function.update_self ..
    · rw [Function.update_of_ne (hother j d hold)]
      exact h.ticket j d hold
  · intro j k d d' hd hd' heq
    rcases claim_update hd with ⟨hj,rfl⟩ | ⟨hj,hold⟩
    · rcases claim_update hd' with ⟨hk,rfl⟩ | ⟨hk,hold'⟩
      · rw [hj,hk]
      · exact absurd heq.symm (hother k d' hold')
    · rcases claim_update hd' with ⟨hk,rfl⟩ | ⟨hk,hold'⟩
      · exact absurd heq (hother j d hold)
      · exact h.own j k d d' hold hold' heq

theorem Coherent.step [DecidableEq K] (h : Coherent s) (calm : K → Prop) (hs : Step calm i s s') :
    Coherent s' := by
  cases hs with
  | issue k hfree hnew => exact h.issue hnew
  | @grant k t hclaim hlock hcalm =>
    exact Coherent.move ⟨.granted,k,t⟩ h hclaim rfl rfl (h.ticket i ⟨.issued,k,t⟩ hclaim) fun _ _ => rfl
  | @refuse k t hclaim =>
    exact Coherent.move ⟨.refused,k,t⟩ h hclaim rfl rfl (h.ticket i ⟨.issued,k,t⟩ hclaim) fun _ _ => rfl
  | @reject k t hclaim =>
    exact Coherent.move ⟨.closed,k,t⟩ h hclaim rfl rfl (Function.update_self ..) fun t ht =>
      Function.update_of_ne ht ..
  | @close c hclaim =>
    refine Coherent.move { c with point := c.point.close } h hclaim rfl rfl ?_ fun t ht =>
      Function.update_of_ne ht ..
    dsimp only
    rw [Function.update_self,Point.isOpen_close]
  | @free k t hclaim =>
    exact Coherent.move ⟨.closed,k,t⟩ h hclaim rfl rfl (h.ticket i ⟨.expired,k,t⟩ hclaim) fun _ _ => rfl

theorem claim_quit {c : Claim K} (h : (s.quit i).claim j = some c) : j ≠ i ∧ s.claim j = some c := by
  dsimp only [quit] at h
  rw [Function.update_apply] at h
  split at h
  · cases h
  · rename_i hj
    exact ⟨hj,h⟩

theorem Coherent.quit (h : Coherent s) (i : ι) : Coherent (s.quit i) where
  ticket j c hc := h.ticket j c (claim_quit hc).2
  own j k c c' hc hc' := h.own j k c c' (claim_quit hc).2 (claim_quit hc').2

/-- A claim that was handed over was there before, with the one who gave it. -/
theorem claim_hand {k : ι} {c : Claim K} (h : (s.hand i j).claim k = some c) :
    k ≠ i ∧ ((k = j ∧ s.claim i = some c) ∨ (k ≠ j ∧ s.claim k = some c)) := by
  dsimp only [hand] at h
  rw [Function.update_apply] at h
  split at h
  · cases h
  · rename_i hk
    rw [Function.update_apply] at h
    split at h
    · rename_i hkj
      exact ⟨hk,.inl ⟨hkj,h⟩⟩
    · rename_i hkj
      exact ⟨hk,.inr ⟨hkj,h⟩⟩

theorem Coherent.hand (h : Coherent s) (i j : ι) : Coherent (s.hand i j) where
  ticket k c hc := by
    obtain ⟨-,⟨-,hc⟩ | ⟨-,hc⟩⟩ := claim_hand hc
    · exact h.ticket i c hc
    · exact h.ticket k c hc
  own k l c c' hc hc' heq := by
    obtain ⟨hk,⟨hkj,hc⟩ | ⟨hkj,hc⟩⟩ := claim_hand hc
    · obtain ⟨hl,⟨hlj,hc'⟩ | ⟨hlj,hc'⟩⟩ := claim_hand hc'
      · rw [hkj,hlj]
      · exact absurd (h.own i l c c' hc hc' heq) hl.symm
    · obtain ⟨hl,⟨hlj,hc'⟩ | ⟨hlj,hc'⟩⟩ := claim_hand hc'
      · exact absurd (h.own k i c c' hc hc' heq) hk
      · exact h.own k l c c' hc hc' heq

end Coherent

section Exclusive
variable {s s' : Ledger ι K} {i : ι}

/-- An open ticket that was ever granted has its lock, and a holder that still has to free
the lock of its key finds nothing there. -/
structure Exclusive (s : Ledger ι K) : Prop extends Coherent s where
  taken : ∀ t ∈ s.granted, s.tickets t ≠ none
  locked : ∀ t k, t ∈ s.granted → s.tickets t = some (k,true) → s.lock k = some t
  granted : ∀ i c, s.claim i = some c → c.point = .granted ∨ c.point = .expired →
    c.ticket ∈ s.granted
  expired : ∀ i c, s.claim i = some c → c.point = .expired → s.lock c.key = none

/-- Nobody still has to free the lock of `k`. -/
def Calm (s : Ledger ι K) (k : K) : Prop :=
  ∀ i c, s.claim i = some c → c.key = k → c.point ≠ .expired

theorem Exclusive.lock_of_granted {c : Claim K} (h : Exclusive s) (hc : s.claim i = some c)
    (hp : c.point = .granted) : s.lock c.key = some c.ticket := by
  refine h.locked _ _ (h.granted i c hc (.inl hp)) ?_
  rw [h.ticket i c hc,hp]
  rfl

/-- Two open tickets that were granted are for different keys. -/
theorem Exclusive.unique (h : Exclusive s) {t t' : ℕ} {k : K} (ht : t ∈ s.granted)
    (ht' : t' ∈ s.granted) (hopen : s.tickets t = some (k,true))
    (hopen' : s.tickets t' = some (k,true)) : t = t' :=
  Option.some.inj ((h.locked t k ht hopen).symm.trans (h.locked t' k ht' hopen'))

variable [DecidableEq ι]

/-- A claim that is neither granted nor expired promises nothing about the locks. -/
theorem Exclusive.granted_update {c' : Claim K} (h : Exclusive s)
    (hp : ¬(c'.point = .granted ∨ c'.point = .expired)) (j : ι) (d : Claim K)
    (hd : Function.update s.claim i (some c') j = some d)
    (hgranted : d.point = .granted ∨ d.point = .expired) : d.ticket ∈ s.granted := by
  rcases claim_update hd with ⟨-,rfl⟩ | ⟨-,hold⟩
  · exact absurd hgranted hp
  · exact h.granted j d hold hgranted

theorem Exclusive.expired_update {c' : Claim K} (h : Exclusive s) (hp : c'.point ≠ .expired)
    (j : ι) (d : Claim K) (hd : Function.update s.claim i (some c') j = some d)
    (hexpired : d.point = .expired) : s.lock d.key = none := by
  rcases claim_update hd with ⟨-,rfl⟩ | ⟨-,hold⟩
  · exact absurd hexpired hp
  · exact h.expired j d hold hexpired

theorem Exclusive.quit (h : Exclusive s) (i : ι) : Exclusive (s.quit i) where
  toCoherent := h.toCoherent.quit i
  taken := h.taken
  locked := h.locked
  granted j c hc := h.granted j c (claim_quit hc).2
  expired j c hc := h.expired j c (claim_quit hc).2

/-- Handing a claim over is no matter of the locks. -/
theorem Exclusive.hand (h : Exclusive s) (i j : ι) : Exclusive (s.hand i j) where
  toCoherent := h.toCoherent.hand i j
  taken := h.taken
  locked := h.locked
  granted k c hc := by
    obtain ⟨-,⟨-,hc⟩ | ⟨-,hc⟩⟩ := claim_hand hc
    · exact h.granted i c hc
    · exact h.granted k c hc
  expired k c hc := by
    obtain ⟨-,⟨-,hc⟩ | ⟨-,hc⟩⟩ := claim_hand hc
    · exact h.expired i c hc
    · exact h.expired k c hc

variable [DecidableEq K]

theorem Exclusive.grant {k : K} {t : ℕ} (h : Exclusive s)
    (hclaim : s.claim i = some ⟨.issued,k,t⟩) (hlock : s.lock k = none) (hcalm : Calm s k) :
    Exclusive { s with
      lock := Function.update s.lock k (some t)
      granted := insert t s.granted
      claim := Function.update s.claim i (some ⟨.granted,k,t⟩) } := by
  have hrow : s.tickets t = some (k,true) := h.ticket i ⟨.issued,k,t⟩ hclaim
  refine ⟨h.toCoherent.step (Calm s) (.grant hclaim hlock hcalm),?_,?_,?_,?_⟩
  · intro t' ht'
    rcases Set.mem_insert_iff.mp ht' with rfl | ht'
    · simp [hrow]
    · exact h.taken t' ht'
  · intro t' k' ht' hopen
    dsimp only at hopen ⊢
    rw [Function.update_apply]
    split
    · -- No other ticket for this key was granted and is open: its lock was free.
      rename_i hk
      subst hk
      rcases Set.mem_insert_iff.mp ht' with rfl | ht'
      · rfl
      · rw [h.locked t' k' ht' hopen] at hlock
        exact nomatch hlock
    · rename_i hk
      rcases Set.mem_insert_iff.mp ht' with rfl | ht'
      · rw [hrow] at hopen
        cases hopen
        exact absurd rfl hk
      · exact h.locked t' k' ht' hopen
  · intro j d hd hp
    rcases claim_update hd with ⟨-,rfl⟩ | ⟨-,hold⟩
    · exact Set.mem_insert ..
    · exact Set.mem_insert_of_mem _ (h.granted j d hold hp)
  · intro j d hd hp
    rcases claim_update hd with ⟨-,rfl⟩ | ⟨-,hold⟩
    · exact nomatch hp
    · dsimp only
      rw [Function.update_of_ne fun heq => hcalm j d hold heq hp]
      exact h.expired j d hold hp

theorem Exclusive.close {c : Claim K} (h : Exclusive s) (hclaim : s.claim i = some c) :
    Exclusive { s with
      tickets := Function.update s.tickets c.ticket (some (c.key,false))
      lock := fun k => (s.lock k).filter (· ≠ c.ticket)
      claim := Function.update s.claim i (some { c with point := c.point.close }) } := by
  refine ⟨h.toCoherent.step (Calm s) (.close hclaim),?_,?_,?_,?_⟩
  · intro t ht
    dsimp only
    rw [Function.update_apply]
    split
    · simp
    · exact h.taken t ht
  · intro t k ht hopen
    dsimp only at hopen ⊢
    rw [Function.update_apply] at hopen
    split at hopen
    · cases hopen
    · rename_i hne
      rw [h.locked t k ht hopen]
      simp [hne]
  · intro j d hd hp
    rcases claim_update hd with ⟨-,rfl⟩ | ⟨-,hold⟩
    · refine h.granted i c hclaim ?_
      rcases hp with hp | hp
      · have hclosed := Point.isOpen_close c.point
        rw [show c.point.close = .granted from hp] at hclosed
        cases hclosed
      · exact Point.close_eq_expired.mp hp
    · exact h.granted j d hold hp
  · intro j d hd hp
    dsimp only
    rcases claim_update hd with ⟨-,rfl⟩ | ⟨-,hold⟩
    · rcases Point.close_eq_expired.mp hp with hc | hc
      · simp [h.lock_of_granted hclaim hc]
      · simp [h.expired i c hclaim hc]
    · simp [h.expired j d hold hp]

theorem Exclusive.free {k : K} {t : ℕ} (h : Exclusive s)
    (hclaim : s.claim i = some ⟨.expired,k,t⟩) : Exclusive { s with
      lock := Function.update s.lock k none
      claim := Function.update s.claim i (some ⟨.closed,k,t⟩) } := by
  -- The lock was already gone, so that nothing is freed.
  have hsame : Function.update s.lock k none = s.lock :=
    Function.update_eq_self_iff.mpr (h.expired i ⟨.expired,k,t⟩ hclaim rfl).symm
  refine ⟨h.toCoherent.step (Calm s) (.free hclaim),h.taken,?_,?_,?_⟩
  · dsimp only
    rw [hsame]
    exact h.locked
  · exact h.granted_update (by simp)
  · dsimp only
    rw [hsame]
    exact h.expired_update (by simp)

/-- Mutual exclusion is kept as long as no lock is granted while somebody still has to free
the lock of the same key. -/
theorem Exclusive.step (h : Exclusive s) (hs : Step (Calm s) i s s') : Exclusive s' := by
  have hcoherent := h.toCoherent.step _ hs
  cases hs with
  | @issue k t hfree hnew =>
    have hne : ∀ t' ∈ s.granted, t' ≠ t := fun t' ht' heq => h.taken t' ht' (heq ▸ hnew)
    refine ⟨hcoherent,fun t' ht' => ?_,fun t' k' ht' hopen => ?_,h.granted_update (by simp),
      h.expired_update (by simp)⟩
    · dsimp only
      rw [Function.update_of_ne (hne t' ht')]
      exact h.taken t' ht'
    · dsimp only at hopen
      rw [Function.update_of_ne (hne t' ht')] at hopen
      exact h.locked t' k' ht' hopen
  | grant hclaim hlock hcalm => exact h.grant hclaim hlock hcalm
  | refuse hclaim =>
    exact ⟨hcoherent,h.taken,h.locked,h.granted_update (by simp),h.expired_update (by simp)⟩
  | @reject k t hclaim =>
    refine ⟨hcoherent,fun t' ht' => ?_,fun t' k' ht' hopen => ?_,h.granted_update (by simp),
      h.expired_update (by simp)⟩
    · dsimp only
      rw [Function.update_apply]
      split
      · simp
      · exact h.taken t' ht'
    · dsimp only at hopen
      rw [Function.update_apply] at hopen
      split at hopen
      · cases hopen
      · exact h.locked t' k' ht' hopen
  | close hclaim => exact h.close hclaim
  | free hclaim => exact h.free hclaim

/-- A step frees no lock but that of its holder's own ticket. -/
theorem Exclusive.lock_step {calm : K → Prop} (h : Exclusive s) (hs : Step calm i s s') {k : K}
    {t : ℕ} (hlock : s.lock k = some t) (hown : ∀ c, s.claim i = some c → c.ticket ≠ t) :
    s'.lock k = some t := by
  cases hs with
  | issue | refuse | reject => exact hlock
  | @grant k' t' hclaim hfree hcalm =>
    have hne : k ≠ k' := by
      rintro rfl
      rw [hfree] at hlock
      exact nomatch hlock
    exact (Function.update_of_ne hne ..).trans hlock
  | @close c hclaim =>
    have hne := hown c hclaim
    simp [hlock,hne.symm]
  | @free k' t' hclaim =>
    have hne : k ≠ k' := by
      rintro rfl
      rw [h.expired i _ hclaim rfl] at hlock
      exact nomatch hlock
    exact (Function.update_of_ne hne ..).trans hlock

end Exclusive

section Covered
variable {s s' : Ledger ι K} {i j : ι}

/-- Every open ticket has a holder, and every lock names an open ticket. -/
structure Covered (s : Ledger ι K) : Prop extends Coherent s where
  held : ∀ t k, s.tickets t = some (k,true) → ∃ i c, s.claim i = some c ∧ c.ticket = t
  live : ∀ k t, s.lock k = some t → ∃ k', s.tickets t = some (k',true)
  unlocked : ∀ i c, s.claim i = some c → c.point = .issued ∨ c.point = .refused →
    ∀ k, s.lock k ≠ some c.ticket

/-- When nobody holds a ticket, no ticket is open and no key is locked. -/
theorem Covered.settled (h : Covered s) (hnone : ∀ i, s.claim i = none) :
    (∀ t k, s.tickets t ≠ some (k,true)) ∧ ∀ k, s.lock k = none := by
  have hopen : ∀ t k, s.tickets t ≠ some (k,true) := by
    intro t k ht
    obtain ⟨i,c,hc,-⟩ := h.held t k ht
    rw [hnone i] at hc
    exact nomatch hc
  refine ⟨hopen,fun k => ?_⟩
  cases hk : s.lock k with
  | none => rfl
  | some t =>
    obtain ⟨k',hk'⟩ := h.live k t hk
    exact absurd hk' (hopen t k')

variable [DecidableEq ι]

/-- A holder that moves on keeps holding its ticket. -/
theorem Covered.held_move {c : Claim K} (c' : Claim K) (h : Covered s) (hc : s.claim i = some c)
    (ht : c'.ticket = c.ticket) {t : ℕ} {k : K} (hopen : s.tickets t = some (k,true)) :
    ∃ j d, Function.update s.claim i (some c') j = some d ∧ d.ticket = t := by
  obtain ⟨j,d,hd,hdt⟩ := h.held t k hopen
  by_cases hj : j = i
  · subst hj
    cases hc.symm.trans hd
    exact ⟨j,c',Function.update_self ..,ht.trans hdt⟩
  · exact ⟨j,d,(Function.update_of_ne hj ..).trans hd,hdt⟩

theorem Covered.unlocked_update {c' : Claim K} (h : Covered s)
    (hc' : c'.point = .issued ∨ c'.point = .refused → ∀ k, s.lock k ≠ some c'.ticket) (j : ι)
    (d : Claim K) (hd : Function.update s.claim i (some c') j = some d)
    (hp : d.point = .issued ∨ d.point = .refused) (k : K) : s.lock k ≠ some d.ticket := by
  rcases claim_update hd with ⟨-,rfl⟩ | ⟨-,hold⟩
  · exact hc' hp k
  · exact h.unlocked j d hold hp k

theorem Covered.issue {k : K} {t : ℕ} (h : Covered s) (hfree : s.claim i = none)
    (hnew : s.tickets t = none) : Covered { s with
      tickets := Function.update s.tickets t (some (k,true))
      claim := Function.update s.claim i (some ⟨.issued,k,t⟩) } := by
  refine ⟨h.toCoherent.issue hnew,fun t' k' hopen => ?_,fun k' t' hlock => ?_,
    h.unlocked_update fun _ k' hlock => ?_⟩
  · dsimp only at hopen
    rw [Function.update_apply] at hopen
    split at hopen
    · rename_i ht
      exact ⟨i,⟨.issued,k,t⟩,Function.update_self ..,ht.symm⟩
    · obtain ⟨j,d,hd,hdt⟩ := h.held t' k' hopen
      have hj : j ≠ i := by
        rintro rfl
        rw [hfree] at hd
        exact nomatch hd
      exact ⟨j,d,(Function.update_of_ne hj ..).trans hd,hdt⟩
  · obtain ⟨k₀,hk₀⟩ := h.live k' t' hlock
    have ht : t' ≠ t := by
      rintro rfl
      rw [hnew] at hk₀
      exact nomatch hk₀
    exact ⟨k₀,(Function.update_of_ne ht ..).trans hk₀⟩
  · obtain ⟨k₀,hk₀⟩ := h.live k' t hlock
    rw [hnew] at hk₀
    exact nomatch hk₀

theorem Covered.grant [DecidableEq K] {k : K} {t : ℕ} (h : Covered s)
    (hclaim : s.claim i = some ⟨.issued,k,t⟩) (hlock : s.lock k = none) : Covered { s with
      lock := Function.update s.lock k (some t)
      granted := insert t s.granted
      claim := Function.update s.claim i (some ⟨.granted,k,t⟩) } := by
  have hrow : s.tickets t = some (k,true) := h.ticket i ⟨.issued,k,t⟩ hclaim
  refine ⟨h.toCoherent.step (fun _ => True) (.grant hclaim hlock trivial),
    fun t' k' => h.held_move ⟨.granted,k,t⟩ hclaim rfl,fun k' t' hk' => ?_,
    fun j d hd hp k' hk' => ?_⟩
  · dsimp only at hk'
    rw [Function.update_apply] at hk'
    split at hk'
    · cases hk'
      exact ⟨k,hrow⟩
    · exact h.live k' t' hk'
  · dsimp only at hk'
    rcases claim_update hd with ⟨-,rfl⟩ | ⟨hj,hold⟩
    · simp at hp
    · rw [Function.update_apply] at hk'
      split at hk'
      · exact hj (h.own j i d _ hold hclaim (Option.some.inj hk').symm)
      · exact h.unlocked j d hold hp k' hk'

theorem Covered.reject [DecidableEq K] {k : K} {t : ℕ} (h : Covered s)
    (hclaim : s.claim i = some ⟨.refused,k,t⟩) : Covered { s with
      tickets := Function.update s.tickets t (some (k,false))
      claim := Function.update s.claim i (some ⟨.closed,k,t⟩) } := by
  refine ⟨h.toCoherent.step (fun _ => True) (.reject hclaim),fun t' k' hopen => ?_,
    fun k' t' hk' => ?_,h.unlocked_update (by simp)⟩
  · dsimp only at hopen
    rw [Function.update_apply] at hopen
    split at hopen
    · cases hopen
    · exact h.held_move ⟨.closed,k,t⟩ hclaim rfl hopen
  · obtain ⟨k₀,hk₀⟩ := h.live k' t' hk'
    have ht : t' ≠ t := by
      rintro rfl
      exact h.unlocked i _ hclaim (.inr rfl) k' hk'
    exact ⟨k₀,(Function.update_of_ne ht ..).trans hk₀⟩

theorem Covered.close [DecidableEq K] {c : Claim K} (h : Covered s) (hclaim : s.claim i = some c) :
    Covered { s with
      tickets := Function.update s.tickets c.ticket (some (c.key,false))
      lock := fun k => (s.lock k).filter (· ≠ c.ticket)
      claim := Function.update s.claim i (some { c with point := c.point.close }) } := by
  refine ⟨h.toCoherent.step (fun _ => True) (.close hclaim),fun t k hopen => ?_,
    fun k t hk => ?_,fun j d hd hp k hk => ?_⟩
  · dsimp only at hopen
    rw [Function.update_apply] at hopen
    split at hopen
    · cases hopen
    · exact h.held_move { c with point := c.point.close } hclaim rfl hopen
  · obtain ⟨hlock,hne⟩ := Option.filter_eq_some_iff.mp hk
    obtain ⟨k₀,hk₀⟩ := h.live k t hlock
    have ht : t ≠ c.ticket := by simpa using hne
    exact ⟨k₀,(Function.update_of_ne ht ..).trans hk₀⟩
  · have hlock := (Option.filter_eq_some_iff.mp hk).1
    rcases claim_update hd with ⟨-,rfl⟩ | ⟨-,hold⟩
    · have hclosed := Point.isOpen_close c.point
      rcases hp with hp | hp
      · rw [show c.point.close = .issued from hp] at hclosed
        cases hclosed
      · rw [show c.point.close = .refused from hp] at hclosed
        cases hclosed
    · exact h.unlocked j d hold hp k hlock

theorem Covered.free [DecidableEq K] {k : K} {t : ℕ} (h : Covered s)
    (hclaim : s.claim i = some ⟨.expired,k,t⟩) : Covered { s with
      lock := Function.update s.lock k none
      claim := Function.update s.claim i (some ⟨.closed,k,t⟩) } := by
  have hkeep : ∀ k' t', Function.update s.lock k none k' = some t' → s.lock k' = some t' := by
    intro k' t' hk'
    rw [Function.update_apply] at hk'
    split at hk'
    · cases hk'
    · exact hk'
  refine ⟨h.toCoherent.step (fun _ => True) (.free hclaim),
    fun t' k' => h.held_move ⟨.closed,k,t⟩ hclaim rfl,
    fun k' t' hk' => h.live k' t' (hkeep k' t' hk'),fun j d hd hp k' hk' => ?_⟩
  exact h.unlocked_update (by simp) j d hd hp k' (hkeep k' _ hk')

theorem Covered.step [DecidableEq K] {calm : K → Prop} (h : Covered s)
    (hs : Step calm i s s') : Covered s' := by
  have hcoherent := h.toCoherent.step _ hs
  cases hs with
  | issue k hfree hnew => exact h.issue hfree hnew
  | grant hclaim hlock hcalm => exact h.grant hclaim hlock
  | @refuse k t hclaim =>
    exact ⟨hcoherent,fun t' k' => h.held_move ⟨.refused,k,t⟩ hclaim rfl,h.live,
      h.unlocked_update fun _ => h.unlocked i ⟨.issued,k,t⟩ hclaim (.inl rfl)⟩
  | reject hclaim => exact h.reject hclaim
  | close hclaim => exact h.close hclaim
  | free hclaim => exact h.free hclaim

/-- A holder may forget a ticket that is closed. -/
theorem Covered.quit (h : Covered s) (hclosed : ∀ c, s.claim i = some c → c.point.isOpen = false) :
    Covered (s.quit i) where
  toCoherent := h.toCoherent.quit i
  held t k hopen := by
    obtain ⟨j,d,hd,hdt⟩ := h.held t k hopen
    have hj : j ≠ i := by
      rintro rfl
      have hrow := h.ticket j d hd
      rw [hdt,hclosed d hd,show s.tickets t = some (k,true) from hopen] at hrow
      cases hrow
    exact ⟨j,d,(Function.update_of_ne hj ..).trans hd,hdt⟩
  live := h.live
  unlocked j c hc := h.unlocked j c (claim_quit hc).2

theorem Covered.hand (h : Covered s) (hj : s.claim j = none) (hij : j ≠ i) :
    Covered (s.hand i j) where
  toCoherent := h.toCoherent.hand i j
  held t k hopen := by
    obtain ⟨l,d,hd,hdt⟩ := h.held t k hopen
    by_cases hl : l = i
    · subst hl
      exact ⟨j,d,(Function.update_of_ne hij ..).trans ((Function.update_self ..).trans hd),hdt⟩
    · have hlj : l ≠ j := by
        rintro rfl
        rw [hj] at hd
        exact nomatch hd
      exact ⟨l,d,(Function.update_of_ne hl ..).trans ((Function.update_of_ne hlj ..).trans hd),hdt⟩
  live := h.live
  unlocked l c hc hp := by
    obtain ⟨-,⟨-,hc⟩ | ⟨-,hc⟩⟩ := claim_hand hc
    · exact h.unlocked i c hc hp
    · exact h.unlocked l c hc hp

end Covered
end Ledger
end Kuadrat.Effect
