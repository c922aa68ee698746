import Kuadrat.Deploy.Steps
import Kuadrat.Host.World

/-!
# Polling against a clock

What `poll_health` does with an endless sequence of attempts, each of which takes its time.
A poll returns, its result says what the attempts said, and the stage's cap is never reached.
Times are in nanoseconds.
-/
namespace Kuadrat

open Effect

/-- What an attempt would report if nothing cut it off, and when. -/
structure Attempt where
  result : Except Message CommandOutput
  took : ℕ

def attemptTimeout : ℕ := Duration.ofSecs healthAttemptTimeout

namespace Attempt

/-- The attempt under its timeout: whether the container is healthy. -/
def cut (a : Attempt) : Except Message Bool :=
  if a.took ≤ attemptTimeout then a.result.map CommandOutput.success else .ok false

/-- The time that passes until the attempt is over. -/
def used (a : Attempt) : ℕ := min a.took attemptTimeout

/-- It reported success in time. -/
def Healthy (a : Attempt) : Prop :=
  a.took ≤ attemptTimeout ∧ ∃ out, a.result = .ok out ∧ out.success = true

/-- It reported a failure, or nothing in time. -/
def Missed (a : Attempt) : Prop :=
  attemptTimeout < a.took ∨ ∃ out, a.result = .ok out ∧ out.success = false

theorem used_le (a : Attempt) : a.used ≤ attemptTimeout := Nat.min_le_right _ _

theorem cut_eq_true {a : Attempt} : a.cut = .ok true ↔ a.Healthy := by
  unfold cut Healthy
  split
  · rename_i hle
    cases hr : a.result with
    | error e => simp [Except.map]
    | ok out => simp [Except.map,hle]
  · rename_i hgt
    simp [hgt]

theorem cut_eq_false {a : Attempt} : a.cut = .ok false ↔ a.Missed := by
  unfold cut Missed
  split
  · rename_i hle
    cases hr : a.result with
    | error e => simp [Except.map,Nat.not_lt.mpr hle]
    | ok out => simp [Except.map,Nat.not_lt.mpr hle]
  · rename_i hgt
    simp [Nat.lt_of_not_le hgt]

end Attempt

/-- One of `n` attempts from the `k`-th on was healthy, and the ones before it missed. -/
def HealthyAfterMisses (attempts : ℕ → Attempt) (k n : ℕ) : Prop :=
  ∃ i < n, (attempts (k+i)).Healthy ∧ ∀ j < i, (attempts (k+j)).Missed

theorem healthyAfterMisses_one {attempts : ℕ → Attempt} {k : ℕ} :
    HealthyAfterMisses attempts k 1 ↔ (attempts k).cut = .ok true := by
  rw [Attempt.cut_eq_true]
  constructor
  · rintro ⟨i,hi,hhealthy,-⟩
    obtain rfl : i = 0 := by omega
    exact hhealthy
  · exact fun h => ⟨0,Nat.one_pos,h,fun j hj => absurd hj (Nat.not_lt_zero j)⟩

theorem healthyAfterMisses_succ {attempts : ℕ → Attempt} {k n : ℕ}
    (hcut : (attempts k).cut = .ok false) :
    HealthyAfterMisses attempts k (n+1) ↔ HealthyAfterMisses attempts (k+1) n := by
  have hshift : ∀ j, k+1+j = k+(j+1) := by omega
  constructor
  · rintro ⟨i,hi,hhealthy,hmissed⟩
    cases i with
    | zero =>
      have htrue := Attempt.cut_eq_true.mpr hhealthy
      rw [Nat.add_zero,hcut] at htrue
      cases htrue
    | succ i =>
      refine ⟨i,by omega,by rwa [hshift],fun j hj => ?_⟩
      rw [hshift]
      exact hmissed (j+1) (by omega)
  · rintro ⟨i,hi,hhealthy,hmissed⟩
    refine ⟨i+1,by omega,by rwa [hshift] at hhealthy,fun j hj => ?_⟩
    cases j with
    | zero => exact Attempt.cut_eq_false.mp hcut
    | succ j =>
      rw [← hshift]
      exact hmissed j (by omega)

/-- The answers of a host whose next `n` health commands go like the attempts from the
`k`-th on. -/
def answers (attempts : ℕ → Attempt) (k n : ℕ) : List Answer :=
  (List.range' k n).map fun i => .took (attempts i).result (attempts i).took

theorem answers_succ (attempts : ℕ → Attempt) (k n : ℕ) : answers attempts k (n+1) =
    .took (attempts k).result (attempts k).took::answers attempts (k+1) n := by
  simp [answers,List.range'_succ]

/-- The answers to fewer attempts are the first of the answers to more. -/
theorem answers_split (attempts : ℕ → Attempt) {n m : ℕ} (h : n ≤ m) :
    answers attempts 0 m = answers attempts 0 n++answers attempts n (m-n) := by
  have hrange : List.range' 0 m = List.range' 0 n++List.range' n (m-n) := by
    have happend : List.range' 0 n++List.range' (0+1*n) (m-n) = List.range' 0 (n+(m-n)) :=
      List.range'_append
    rw [Nat.one_mul,Nat.zero_add,Nat.add_sub_cancel' h] at happend
    exact happend.symm
  rw [answers,hrange,List.map_append]
  rfl

theorem attempt_run (container : Text) : (attempt container).run =
    .op (.timed (.podmanHealthcheckRun container)) fun r => .ret (match r with
      | .finished result took => .ok (Attempt.cut ⟨result,took⟩,Attempt.used ⟨result,took⟩)
      | .stalled => bail ["healthcheck stage exceeded its ",
          .text (Text.decimal (healthcheckStageCap/Duration.ofSecs 1)),"s hard cap"]) := by
  unfold attempt timedExec
  simp only [Prog.run_bind,Run.timed]
  change Prog.op _ _ = _
  congr 1
  funext r
  cases r with
  | stalled => rfl
  | finished result took =>
    change (if took ≤ attemptTimeout then _ else _ : Run _).run = _
    by_cases htook : took ≤ attemptTimeout
    · have hcut : Attempt.cut ⟨result,took⟩ = result.map CommandOutput.success := if_pos htook
      have hused : Attempt.used ⟨result,took⟩ = took := Nat.min_eq_left htook
      rw [if_pos htook]
      simp only [hcut,hused]
      rfl
    · have hcut : Attempt.cut ⟨result,took⟩ = .ok false := if_neg htook
      have hused : Attempt.used ⟨result,took⟩ = attemptTimeout :=
        Nat.min_eq_right (Nat.le_of_not_le htook)
      rw [if_neg htook]
      simp only [hcut,hused]
      rfl

section Loop
variable (container : Text) (budget interval : ℕ)

/-- What the loop does after an attempt, when the clock says `now`. -/
def pollNext (fuel start now : ℕ) : Except Message Bool → Run Poll
  | .error e => return ⟨.error e,[start],now⟩
  | .ok true => return ⟨.ok (),[start],now⟩
  | .ok false =>
    if budget ≤ now then return ⟨notHealthy container budget,[start],now⟩
    else if budget ≤ now+interval then
      return ⟨notHealthy container budget,[start],now+interval⟩
    else return (← pollLoop container budget interval fuel (now+interval)).after start

theorem pollLoop_succ (fuel start : ℕ) :
    pollLoop container budget interval (fuel+1) start = (do
      let (attempted,used) ← attempt container
      pollNext container budget interval fuel start (start+used) attempted) := by
  rw [pollLoop]
  congr 1

/-- Loops that go on alike after a sleep within the budget are alike. -/
theorem pollLoop_congr {fuel fuel' start : ℕ}
    (h : ∀ now ≥ start, now+interval < budget →
      pollLoop container budget interval fuel (now+interval) =
        pollLoop container budget interval fuel' (now+interval)) :
    pollLoop container budget interval (fuel+1) start =
      pollLoop container budget interval (fuel'+1) start := by
  rw [pollLoop_succ,pollLoop_succ]
  congr 1
  funext r
  rcases r with ⟨e | healthy,used⟩
  · rfl
  cases healthy with
  | true => rfl
  | false =>
    change pollNext container budget interval fuel start (start+used) (.ok false) =
      pollNext container budget interval fuel' start (start+used) (.ok false)
    rw [pollNext,pollNext]
    split
    · rfl
    split
    · rfl
    · rename_i hslept
      rw [h _ (Nat.le_add_right start used) (Nat.lt_of_not_le hslept)]

/-- Fuel for the sleeps that the budget has room for is enough; more changes nothing. -/
theorem pollLoop_fuel {fuel fuel' start : ℕ} (hroom : budget ≤ start+(fuel+1)*interval)
    (hroom' : budget ≤ start+(fuel'+1)*interval) :
    pollLoop container budget interval (fuel+1) start =
      pollLoop container budget interval (fuel'+1) start := by
  induction fuel generalizing fuel' start with
  | zero =>
    refine pollLoop_congr container budget interval fun now hnow hlt => ?_
    omega
  | succ fuel ih =>
    refine pollLoop_congr container budget interval fun now hnow hlt => ?_
    rw [Nat.succ_mul] at hroom hroom'
    cases fuel' with
    | zero => omega
    | succ fuel' => exact ih (by omega) (by omega)

/-- An attempt is one operation of the host. -/
theorem advance_pollLoop (paths : Paths) (fuel start : ℕ) (a : Attempt)
    (xs : List Answer) (w : World) :
    (World.machine paths).advance (.took a.result a.took::xs)
        (pollLoop container budget interval (fuel+1) start).run w =
      (World.machine paths).advance xs
        (pollNext container budget interval fuel start (start+a.used) a.cut).run
        (w.record (.timed (.podmanHealthcheckRun container))) := by
  rw [pollLoop_succ,Prog.run_bind,attempt_run]
  rfl

end Loop

/-- What holds of a poll over the attempts from the `k`-th on, the first of which started at
`start`. -/
structure Polled (budget interval : ℕ) (attempts : ℕ → Attempt) (k start : ℕ) (p : Poll) :
    Prop where
  /-- The result is `Ok` when some attempt that was made was healthy and all before it missed. -/
  honest : p.result = .ok () ↔ HealthyAfterMisses attempts k p.starts.length
  /-- Only the first attempt may start when the budget is spent. -/
  punctual : ∃ later, p.starts = start::later ∧ ∀ s ∈ later, s < budget
  /-- Within the budget, the poll is over before the longer of an attempt and a sleep has
  passed behind it. -/
  elapsed_lt : start < budget → p.elapsed < budget+max attemptTimeout interval
  /-- Outside the budget there is one attempt and no sleep. -/
  elapsed_le : budget ≤ start → p.elapsed ≤ start+attemptTimeout

section Polled
variable {budget interval k start : ℕ} {attempts : ℕ → Attempt}

/-- The attempt that ends the loop ends it at once. -/
theorem polled_last {result : Except Message Unit} (hresult : result = .ok () ↔
      (attempts k).cut = .ok true) :
    Polled budget interval attempts k start ⟨result,[start],start+(attempts k).used⟩ := by
  have hused := (attempts k).used_le
  refine ⟨hresult.trans healthyAfterMisses_one.symm,⟨[],rfl,List.forall_mem_nil _⟩,fun h => ?_,
    fun _ => Nat.add_le_add_left hused _⟩
  change start+(attempts k).used < budget+max attemptTimeout interval
  omega

/-- The budget may also run out during the sleep. -/
theorem polled_overslept {container : Text} (hcut : (attempts k).cut = .ok false)
    (hnow : start+(attempts k).used < budget) : Polled budget interval attempts k start
      ⟨notHealthy container budget,[start],start+(attempts k).used+interval⟩ := by
  refine ⟨?_,⟨[],rfl,List.forall_mem_nil _⟩,fun _ => ?_,fun h => ?_⟩
  · simp [notHealthy,healthyAfterMisses_one,hcut]
  · change start+(attempts k).used+interval < budget+max attemptTimeout interval
    omega
  · omega

theorem Polled.after {p : Poll} (hcut : (attempts k).cut = .ok false)
    (hwoken : start+(attempts k).used+interval < budget)
    (h : Polled budget interval attempts (k+1) (start+(attempts k).used+interval) p) :
    Polled budget interval attempts k start (p.after start) := by
  obtain ⟨later,hstarts,hlater⟩ := h.punctual
  refine ⟨?_,⟨p.starts,rfl,?_⟩,fun _ => h.elapsed_lt hwoken,fun hspent => ?_⟩
  · rw [Poll.after,List.length_cons,healthyAfterMisses_succ hcut]
    exact h.honest
  · rw [hstarts]
    exact List.forall_mem_cons.mpr ⟨hwoken,hlater⟩
  · omega

/-- An attempt ends the loop, or leaves budget for the rest of it after the sleep. -/
theorem exists_polled_step (container : Text) {fuel : ℕ}
    (hrest : start+(attempts k).used+interval < budget →
      ∃ p, Polled budget interval attempts (k+1) (start+(attempts k).used+interval) p ∧
        ∀ paths w, ∃ w',
          (World.machine paths).advance (answers attempts (k+1) p.starts.length)
            (pollLoop container budget interval fuel (start+(attempts k).used+interval)).run w =
              some (.ret (.ok p),w')) :
    ∃ p, Polled budget interval attempts k start p ∧ ∀ paths w, ∃ w',
      (World.machine paths).advance (answers attempts k p.starts.length)
        (pollLoop container budget interval (fuel+1) start).run w = some (.ret (.ok p),w') := by
  -- the loop after the attempt, when that is all there is to the poll
  have hlast : ∀ p : Poll, p.starts.length = 1 →
      pollNext container budget interval fuel start (start+(attempts k).used) (attempts k).cut =
        pure p → ∀ paths w, ∃ w',
      (World.machine paths).advance (answers attempts k p.starts.length)
        (pollLoop container budget interval (fuel+1) start).run w = some (.ret (.ok p),w') := by
    intro p hone hnext paths w
    refine ⟨w.record (.timed (.podmanHealthcheckRun container)),?_⟩
    rw [hone]
    refine (advance_pollLoop container budget interval paths fuel start _ [] w).trans ?_
    rw [hnext]
    rfl
  cases hcut : (attempts k).cut with
  | error e =>
    exact ⟨_,polled_last (by simp [hcut]),hlast ⟨.error e,_,_⟩ rfl (by rw [hcut]; rfl)⟩
  | ok healthy =>
    cases healthy with
    | true => exact ⟨_,polled_last (by simp [hcut]),hlast ⟨.ok (),_,_⟩ rfl (by rw [hcut]; rfl)⟩
    | false =>
      by_cases hspent : budget ≤ start+(attempts k).used
      · refine ⟨_,polled_last (by simp [hcut,notHealthy]),
          hlast ⟨notHealthy container budget,_,_⟩ rfl ?_⟩
        rw [hcut,pollNext,if_pos hspent]
      · have hnow := Nat.lt_of_not_le hspent
        by_cases hslept : budget ≤ start+(attempts k).used+interval
        · refine ⟨_,polled_overslept hcut hnow,
            hlast ⟨notHealthy container budget,_,_⟩ rfl ?_⟩
          rw [hcut,pollNext,if_neg hspent,if_pos hslept]
        · have hwoken := Nat.lt_of_not_le hslept
          obtain ⟨p,hpolled,hrun⟩ := hrest hwoken
          refine ⟨p.after start,hpolled.after hcut hwoken,fun paths w => ?_⟩
          obtain ⟨w',hw'⟩ := hrun paths (w.record (.timed (.podmanHealthcheckRun container)))
          refine ⟨w',?_⟩
          rw [Poll.after,List.length_cons,answers_succ,advance_pollLoop,hcut,pollNext,
            if_neg hspent,if_neg hslept,Prog.run_bind]
          exact (World.machine paths).advance_bind _ hw'

/-- The loop returns, whatever the attempts do. -/
theorem exists_polled (container : Text) {fuel : ℕ}
    (hroom : budget ≤ start+(fuel+1)*interval) :
    ∃ p, Polled budget interval attempts k start p ∧ ∀ paths w, ∃ w',
      (World.machine paths).advance (answers attempts k p.starts.length)
        (pollLoop container budget interval (fuel+1) start).run w = some (.ret (.ok p),w') := by
  induction fuel generalizing k start with
  | zero =>
    refine exists_polled_step container fun hwoken => ?_
    omega
  | succ fuel ih =>
    refine exists_polled_step container fun hwoken => ih ?_
    rw [Nat.succ_mul] at hroom
    omega

end Polled

/-- With the constants of the stage a poll is over before the cap. -/
theorem Polled.elapsed_lt_cap {attempts : ℕ → Attempt} {p : Poll}
    (h : Polled healthBudget healthInterval attempts 0 0 p) : p.elapsed < healthcheckStageCap :=
  Nat.lt_trans (h.elapsed_lt (by decide)) (by decide)

/-- A stage that polls ends with the result of the poll, when the cap leaves it alone. -/
theorem advance_healthcheck {paths : Paths} {spec : WorkloadSpec} {xs : List Answer} {p : Poll}
    {w w' : World} (hcmd : spec.healthCmd.isSome) (hcap : p.elapsed ≤ healthcheckStageCap)
    (h : (World.machine paths).advance xs
      (pollHealth (unitPrefix ++ spec.slug) healthBudget healthInterval).run w =
        some (.ret (.ok p),w')) :
    (World.machine paths).advance xs (healthcheck spec).run w = some (.ret p.result,w') := by
  have hcapped : capped p.elapsed p.result = p.result := if_pos hcap
  rw [healthcheck,if_pos hcmd,Prog.run_bind]
  refine ((World.machine paths).advance_bind _ h).trans ?_
  rw [Prog.ret_bind,Prog.orElse_ok,hcapped]
  cases p.result <;> rfl

/-- For every schedule of attempts the poll returns, in one way, and not because its fuel runs
out. It succeeds when an attempt did that was made after misses only; no attempt but the first
starts when the budget is spent; it ends within an attempt or a sleep of the budget, so that
the stage's cap changes nothing. -/
theorem poll_bounded_and_honest (container : Text) (budget interval : ℕ)
    (attempts : ℕ → Attempt) (hinterval : 0 < interval) :
    (∀ fuel > budget/interval,
      pollLoop container budget interval fuel 0 = pollHealth container budget interval) ∧
    ∃ p : Poll,
      (∀ paths w, ∃ w', (World.machine paths).finish (answers attempts 0 p.starts.length)
        (pollHealth container budget interval).run w = some (.ok p,w')) ∧
      (∀ paths w n r w', (World.machine paths).finish (answers attempts 0 n)
        (pollHealth container budget interval).run w = some (r,w') → r = .ok p) ∧
      (p.result = .ok () ↔ HealthyAfterMisses attempts 0 p.starts.length) ∧
      (∃ later, p.starts = 0::later ∧ ∀ s ∈ later, s < budget) ∧
      (if budget = 0 then p.elapsed ≤ attemptTimeout
        else p.elapsed < budget+max attemptTimeout interval) ∧
      (budget = healthBudget → interval = healthInterval → p.elapsed < healthcheckStageCap ∧
        ∀ spec : WorkloadSpec, spec.healthCmd.isSome → unitPrefix ++ spec.slug = container →
          ∀ paths w, ∃ w', (World.machine paths).finish (answers attempts 0 p.starts.length)
            (healthcheck spec).run w = some (p.result,w')) := by
  have hroom : budget ≤ 0+(budget/interval+1)*interval := by
    have := Nat.lt_div_mul_add hinterval (a := budget)
    rw [Nat.succ_mul]
    omega
  obtain ⟨p,hpolled,hrun⟩ : ∃ p, Polled budget interval attempts 0 0 p ∧ _ :=
    exists_polled container hroom
  refine ⟨fun fuel hfuel => ?_,p,fun paths w => ?_,fun paths w n r w' hr => ?_,hpolled.honest,
    hpolled.punctual,?_,?_⟩
  · obtain ⟨fuel,rfl⟩ := Nat.exists_eq_add_one_of_ne_zero (Nat.ne_of_gt (Nat.zero_lt_of_lt hfuel))
    refine pollLoop_fuel container budget interval (hroom.trans ?_) hroom
    exact Nat.add_le_add_left (Nat.mul_le_mul_right _ (by omega)) _
  · obtain ⟨w',hw'⟩ := hrun paths w
    exact ⟨w',(Machine.finish_eq_some _).mpr hw'⟩
  · obtain ⟨w'',hw''⟩ := hrun paths w
    have hp := ((World.machine paths).finish_eq_some).mpr hw''
    rcases Nat.le_total n p.starts.length with hle | hle
    · rw [answers_split attempts hle] at hp
      exact ((World.machine paths).finish_unique hr hp).2.1.symm
    · rw [answers_split attempts hle] at hr
      exact ((World.machine paths).finish_unique hp hr).2.1
  · split
    · rename_i hzero
      have := hpolled.elapsed_le (Nat.le_of_eq hzero)
      rwa [Nat.zero_add] at this
    · exact hpolled.elapsed_lt (by omega)
  · rintro rfl rfl
    have hlt := hpolled.elapsed_lt_cap
    refine ⟨hlt,fun spec hcmd hcontainer paths w => ?_⟩
    subst hcontainer
    obtain ⟨w',hw'⟩ := hrun paths w
    exact ⟨w',(Machine.finish_eq_some _).mpr
      (advance_healthcheck hcmd (Nat.le_of_lt hlt) hw')⟩

/-- A health command that hangs, then fails, and is healthy from then on. -/
def slowStart : ℕ → Attempt
  | 0 => ⟨.ok ⟨0,[],[]⟩,Duration.ofSecs 20⟩
  | 1 => ⟨.ok ⟨1,[],[]⟩,Duration.ofSecs 1⟩
  | _ => ⟨.ok ⟨0,[],[]⟩,Duration.ofSecs 1⟩

/-- The stage succeeds with the third attempt, eleven seconds after it began. -/
theorem slowStart_succeeds : ∃ p : Poll, p.starts = [0,Duration.ofSecs 7,Duration.ofSecs 10] ∧
    p.elapsed = Duration.ofSecs 11 ∧ ∀ spec : WorkloadSpec, spec.healthCmd.isSome →
      spec.slug = "web" → ∀ paths w, ∃ w', (World.machine paths).finish (answers slowStart 0 3)
        (healthcheck spec).run w = some (.ok (),w') := by
  obtain ⟨-,p,-,hunique,-,-,-,hstage⟩ := poll_bounded_and_honest "kuadrat-web" healthBudget
    healthInterval slowStart (by decide)
  have hpoll : (.ok ⟨.ok (),[0,Duration.ofSecs 7,Duration.ofSecs 10],Duration.ofSecs 11⟩ :
      Except Message Poll) = .ok p := hunique .default (.initial .empty) 3 _ _ rfl
  obtain rfl := Except.ok.inj hpoll
  refine ⟨⟨.ok (),_,_⟩,rfl,rfl,fun spec hcmd hslug => (hstage rfl rfl).2 spec hcmd ?_⟩
  rw [hslug]
  rfl

end Kuadrat
