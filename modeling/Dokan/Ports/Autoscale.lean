import Dokan.Verified.Machine

/-!
# The autoscaler

A tick of `spawn_autoscaler` computes how many jobs should run at once, has
`Concurrency::set` grow or shrink the semaphore towards it, and sets the depth of
the warm pool.  Jobs take and give back permits at any point of a tick: `set`
reads `current`, changes the semaphore, and writes `current`.

What arrivals and durations ask for is computed in floats and cast to a `usize`;
it is the argument of a tick here.  `clamp` panics if its bounds are not in
order, and a semaphore if it gets more than `MAX_PERMITS` permits.

## Main results

* `inv_step` — what a step keeps, at every point of a tick.
* `safe_iff` — the settings under which every tick completes and the permits add
  up.
-/

namespace Dokan.Ports.Autoscale

open Dokan.Verified.Machine

/-! ## The limiter -/

/-- `Ord::clamp`; there is no result if it panics. -/
def clamp (x lo hi : Nat) : Option Nat :=
  if lo ≤ hi then some (if x < lo then lo else if hi < x then hi else x) else none

/-- `Semaphore::MAX_PERMITS`: `usize::MAX >> 3`. -/
def maxPermits : Nat := 2 ^ 61 - 1

/-- `Concurrency`, and the permits that are out. -/
structure Concurrency where
  /-- the free permits of `sem` -/
  available : Nat
  held : Nat
  current : Nat
  max : Nat
deriving DecidableEq

/-- `Concurrency::new`. -/
def Concurrency.new (initial max : Nat) : Option Concurrency := do
  let max := Nat.max max 1
  let initial ← clamp initial 1 max
  -- `Semaphore::new`
  if initial ≤ maxPermits then some ⟨initial, 0, initial, max⟩ else none

/-- The settings of the command line. -/
structure Cli where
  concurrency : Nat
  maxConcurrency : Nat
  warmIdle : Nat
  maxWarm : Nat

/-! ## Ticks -/

/-- Where the controller is. -/
inductive Phase
  | idle
  /-- `set` has read `cur` -/
  | loaded (demand target cur : Nat)
  /-- permits were added, `current` is to be written -/
  | grown (demand target : Nat)
  /-- permits were forgotten, `current` is to be lowered -/
  | shrunk (demand removed : Nat)
  /-- `set` is done -/
  | resized (demand : Nat)
  | panicked
deriving DecidableEq

structure State where
  conc : Concurrency
  /-- `target_idle` of the warm pool -/
  warmTarget : Nat
  phase : Phase
deriving DecidableEq

/-- The executor at its start, unless it panics there. -/
def start (cli : Cli) : Option State :=
  (Concurrency.new cli.concurrency cli.maxConcurrency).map fun conc => ⟨conc, cli.warmIdle, .idle⟩

inductive Label
  | acquire
  | release
  /-- a tick begins; so many jobs should run -/
  | tick (demand : Nat)
  /-- the controller goes on -/
  | proceed
deriving DecidableEq

/-- The beginning of a tick: both bounds on the target, and the load of `current`. -/
def beginTick (cli : Cli) (s : State) (demand : Nat) : State :=
  match (clamp demand cli.concurrency cli.maxConcurrency).bind fun t => clamp t 1 s.conc.max with
  | none => { s with phase := .panicked }
  | some target => { s with phase := .loaded demand target s.conc.current }

/-- `add_permits` or `forget_permits`. -/
def resize (s : State) (demand target cur : Nat) : State :=
  if cur < target then
    if s.conc.available + (target - cur) ≤ maxPermits then
      { s with
        conc := { s.conc with available := s.conc.available + (target - cur) }
        phase := .grown demand target }
    else { s with phase := .panicked }
  else if target < cur then
    let removed := min s.conc.available (cur - target)
    { s with
      conc := { s.conc with available := s.conc.available - removed }
      phase := .shrunk demand removed }
  else { s with phase := .resized demand }

/-- `set_warm_target`, and the end of the tick. -/
def setWarm (cli : Cli) (s : State) (demand : Nat) : State :=
  match clamp demand cli.warmIdle cli.maxWarm with
  | none => { s with phase := .panicked }
  | some depth => { s with warmTarget := depth, phase := .idle }

/-- One step of a job or of the controller. -/
def step (cli : Cli) (s : State) : Label → Option State
  | .acquire =>
      if 0 < s.conc.available then
        some { s with conc :=
          { s.conc with available := s.conc.available - 1, held := s.conc.held + 1 } }
      else none
  | .release =>
      if 0 < s.conc.held then
        some { s with conc :=
          { s.conc with available := s.conc.available + 1, held := s.conc.held - 1 } }
      else none
  | .tick demand =>
      match s.phase with
      | .idle => some (beginTick cli s demand)
      | _ => none
  | .proceed =>
      match s.phase with
      | .loaded demand target cur => some (resize s demand target cur)
      | .grown demand target =>
          some { s with conc := { s.conc with current := target }, phase := .resized demand }
      | .shrunk demand removed =>
          some { s with
            conc := { s.conc with current := s.conc.current - removed }
            phase := .resized demand }
      | .resized demand => some (setWarm cli s demand)
      | .idle | .panicked => none

/-- The size is in bounds, the permits add up when no tick is under way, and the
tick that is under way completes. -/
structure Sound (cli : Cli) (s : State) : Prop where
  pos : 1 ≤ s.conc.current
  le : s.conc.current ≤ s.conc.max
  permits : s.phase = .idle → s.conc.held + s.conc.available = s.conc.current
  completes : ∃ n t, run (step cli) s (List.replicate n .proceed) = some t ∧ t.phase = .idle

/-- The executor starts, and every state it reaches is sound. -/
def Safe (cli : Cli) : Prop :=
  ∃ s, start cli = some s ∧ ∀ labels t, run (step cli) s labels = some t → Sound cli t

/-- Eight jobs and thirty-two at most: three arrive, then twenty are asked for. -/
example : (start ⟨8, 32, 2, 16⟩).bind (fun s => run (step ⟨8, 32, 2, 16⟩) s
    [.acquire, .acquire, .tick 20, .proceed, .acquire, .proceed, .proceed]) =
      some ⟨⟨17, 3, 20, 32⟩, 16, .idle⟩ := by
  decide

/-! ## Clamping -/

theorem clamp_eq_none {x lo hi : Nat} : clamp x lo hi = none ↔ hi < lo := by
  unfold clamp
  split_ifs with h <;> simp <;> omega

theorem clamp_spec {x lo hi y : Nat} (h : clamp x lo hi = some y) : lo ≤ y ∧ y ≤ hi := by
  unfold clamp at h
  split_ifs at h <;> cases h <;> omega

theorem clamp_zero {lo hi : Nat} (h : lo ≤ hi) : clamp 0 lo hi = some lo := by
  rw [clamp, if_pos h]
  split_ifs <;> congr 1 <;> omega

theorem clamp_top {x lo : Nat} (h : lo ≤ x) : clamp x lo x = some x := by
  rw [clamp, if_pos h, if_neg (Nat.not_lt.mpr h), if_neg (Nat.lt_irrefl x)]

theorem clamp_isSome {x lo hi : Nat} (h : lo ≤ hi) : ∃ y, clamp x lo hi = some y :=
  ⟨_, if_pos h⟩

/-! ## Settings in order -/

/-- The settings under which nothing panics. -/
structure Ordered (cli : Cli) : Prop where
  conc : cli.concurrency ≤ cli.maxConcurrency
  warm : cli.warmIdle ≤ cli.maxWarm
  permits : cli.maxConcurrency ≤ maxPermits

/-- What holds at every point of a tick. -/
def Accounts (s : State) : Prop :=
  let c := s.conc
  match s.phase with
  | .idle | .resized _ => c.held + c.available = c.current
  | .loaded _ target cur => c.held + c.available = c.current ∧ cur = c.current ∧ 1 ≤ target ∧
      target ≤ c.max
  | .grown _ target => c.held + c.available = target ∧ 1 ≤ target ∧ target ≤ c.max
  | .shrunk _ removed => c.held + c.available + removed = c.current ∧ removed < c.current
  | .panicked => False

structure Inv (s : State) : Prop where
  pos : 1 ≤ s.conc.current
  le : s.conc.current ≤ s.conc.max
  permits : s.conc.max ≤ maxPermits
  accounts : Accounts s

section Steps

variable {cli : Cli} {s s' t : State}

theorem inv_beginTick (ho : Ordered cli) (h : Inv s) (hphase : s.phase = .idle) (demand : Nat) :
    Inv (beginTick cli s demand) := by
  have haccounts := h.accounts
  rw [Accounts, hphase] at haccounts
  obtain ⟨a, ha⟩ := clamp_isSome (x := demand) ho.conc
  obtain ⟨b, hb⟩ := clamp_isSome (x := a) (Nat.le_trans h.pos h.le)
  obtain ⟨hpos, hle⟩ := clamp_spec hb
  rw [beginTick, ha, Option.bind_some, hb]
  exact ⟨h.pos, h.le, h.permits, haccounts, rfl, hpos, hle⟩

theorem inv_resize (h : Inv s) {demand target cur : Nat}
    (hphase : s.phase = .loaded demand target cur) : Inv (resize s demand target cur) := by
  have haccounts := h.accounts
  rw [Accounts, hphase] at haccounts
  obtain ⟨hsum, rfl, hpos, hle⟩ := haccounts
  have hmax := h.permits
  unfold resize
  split_ifs with hgrow hfits hshrink
  · refine ⟨h.pos, h.le, h.permits, ?_, hpos, hle⟩
    show s.conc.held + (s.conc.available + (target - s.conc.current)) = target
    omega
  · -- the free permits and the new ones are no more than `target`
    omega
  · refine ⟨h.pos, h.le, h.permits, ?_, ?_⟩
    · show s.conc.held + (s.conc.available - min s.conc.available (s.conc.current - target)) +
        min s.conc.available (s.conc.current - target) = s.conc.current
      omega
    · show min s.conc.available (s.conc.current - target) < s.conc.current
      omega
  · exact ⟨h.pos, h.le, h.permits, hsum⟩

theorem inv_setWarm (ho : Ordered cli) (h : Inv s) {demand : Nat}
    (hphase : s.phase = .resized demand) : Inv (setWarm cli s demand) := by
  have haccounts := h.accounts
  rw [Accounts, hphase] at haccounts
  obtain ⟨depth, hdepth⟩ := clamp_isSome (x := demand) ho.warm
  rw [setWarm, hdepth]
  exact ⟨h.pos, h.le, h.permits, haccounts⟩

/-- Permits that jobs take and give back. -/
theorem accounts_moved {available held : Nat} (h : Accounts s)
    (hsum : held + available = s.conc.held + s.conc.available) :
    Accounts { s with conc := { s.conc with available := available, held := held } } := by
  unfold Accounts at h ⊢
  cases hphase : s.phase with
  | panicked => simp [hphase] at h
  | _ =>
      simp only [hphase] at h ⊢
      omega

/-- **What a step keeps.** -/
theorem inv_step (ho : Ordered cli) (h : Inv s) {a : Label} (hstep : step cli s a = some s') :
    Inv s' := by
  cases a with
  | acquire =>
      rw [step, Option.ite_none_right_eq_some] at hstep
      obtain ⟨hfree, hstep⟩ := hstep
      cases hstep
      exact ⟨h.pos, h.le, h.permits, accounts_moved h.accounts (by omega)⟩
  | release =>
      rw [step, Option.ite_none_right_eq_some] at hstep
      obtain ⟨hheld, hstep⟩ := hstep
      cases hstep
      exact ⟨h.pos, h.le, h.permits, accounts_moved h.accounts (by omega)⟩
  | tick demand =>
      rw [step] at hstep
      split at hstep
      · cases hstep
        exact inv_beginTick ho h ‹_› demand
      · cases hstep
  | proceed =>
      have haccounts := h.accounts
      rw [Accounts] at haccounts
      rw [step] at hstep
      split at hstep
      · cases hstep
        exact inv_resize h ‹_›
      · rename_i demand target hphase
        cases hstep
        rw [hphase] at haccounts
        exact ⟨haccounts.2.1, haccounts.2.2, h.permits, haccounts.1⟩
      · rename_i demand removed hphase
        cases hstep
        rw [hphase] at haccounts
        have hle := h.le
        obtain ⟨hsum, hlt⟩ := haccounts
        refine ⟨?_, ?_, h.permits, ?_⟩
        · show 1 ≤ s.conc.current - removed
          omega
        · show s.conc.current - removed ≤ s.conc.max
          omega
        · show s.conc.held + s.conc.available = s.conc.current - removed
          omega
      · cases hstep
        exact inv_setWarm ho h ‹_›
      all_goals cases hstep

/-- The steps a tick still takes. -/
def remaining : Phase → Nat
  | .loaded .. => 3
  | .grown .. | .shrunk .. => 2
  | .resized _ => 1
  | .idle | .panicked => 0

/-- The controller always goes on. -/
theorem proceeds (ho : Ordered cli) (h : Inv s) (hphase : s.phase ≠ .idle) :
    ∃ s', step cli s .proceed = some s' ∧ remaining s'.phase < remaining s.phase := by
  cases hp : s.phase with
  | idle => exact absurd hp hphase
  | panicked =>
      have haccounts := h.accounts
      rw [Accounts, hp] at haccounts
      exact haccounts.elim
  | loaded demand target cur =>
      have hstep : step cli s .proceed = some (resize s demand target cur) := by rw [step, hp]
      refine ⟨_, hstep, ?_⟩
      have hnext := (inv_step ho h hstep).accounts
      unfold resize at hnext ⊢
      split_ifs at hnext ⊢
      · exact Nat.lt_succ_self 2
      · exact hnext.elim
      · exact Nat.lt_succ_self 2
      · exact Nat.lt_of_succ_lt (Nat.lt_succ_self 2)
  | grown demand target =>
      refine ⟨_, by rw [step, hp], ?_⟩
      exact Nat.lt_succ_self 1
  | shrunk demand removed =>
      refine ⟨_, by rw [step, hp], ?_⟩
      exact Nat.lt_succ_self 1
  | resized demand =>
      have hstep : step cli s .proceed = some (setWarm cli s demand) := by rw [step, hp]
      refine ⟨_, hstep, ?_⟩
      obtain ⟨depth, hdepth⟩ := clamp_isSome (x := demand) ho.warm
      rw [setWarm, hdepth]
      exact Nat.lt_succ_self 0

/-- A tick that is under way completes. -/
theorem completes (ho : Ordered cli) (h : Inv s) :
    ∃ n t, run (step cli) s (List.replicate n .proceed) = some t ∧ t.phase = .idle := by
  induction hn : remaining s.phase using Nat.strongRecOn generalizing s with
  | ind n ih =>
      by_cases hphase : s.phase = .idle
      · exact ⟨0, s, rfl, hphase⟩
      · obtain ⟨s', hstep, hlt⟩ := proceeds ho h hphase
        obtain ⟨m, t, hrun, ht⟩ := ih _ (hn ▸ hlt) (inv_step ho h hstep) rfl
        refine ⟨m + 1, t, ?_, ht⟩
        rw [List.replicate_succ, run_cons, hstep]
        exact hrun

/-! ## Every run -/

/-- The executor after its start. -/
structure Started (cli : Cli) (s : State) : Prop where
  phase : s.phase = .idle
  held : s.conc.held = 0
  available : s.conc.available = s.conc.current
  max : s.conc.max = Nat.max cli.maxConcurrency 1
  current : clamp cli.concurrency 1 s.conc.max = some s.conc.current
  permits : s.conc.current ≤ maxPermits

theorem started_of_start {s : State} (h : start cli = some s) : Started cli s := by
  obtain ⟨conc, hconc, rfl⟩ := Option.map_eq_some_iff.mp h
  obtain ⟨initial, hinitial, hnew⟩ := Option.bind_eq_some_iff.mp hconc
  obtain ⟨hpermits, hnew⟩ := Option.ite_none_right_eq_some.mp hnew
  cases hnew
  exact ⟨rfl, rfl, rfl, rfl, hinitial, hpermits⟩

theorem exists_start (ho : Ordered cli) : ∃ s, start cli = some s := by
  obtain ⟨initial, hinitial⟩ :=
    clamp_isSome (x := cli.concurrency) (Nat.le_max_right cli.maxConcurrency 1)
  have hle : initial ≤ maxPermits :=
    (clamp_spec hinitial).2.trans (Nat.max_le.mpr ⟨ho.permits, by decide⟩)
  refine ⟨⟨⟨initial, 0, initial, Nat.max cli.maxConcurrency 1⟩, cli.warmIdle, .idle⟩, ?_⟩
  have hnew : Concurrency.new cli.concurrency cli.maxConcurrency =
      (clamp cli.concurrency 1 (Nat.max cli.maxConcurrency 1)).bind fun initial =>
        if initial ≤ maxPermits then some ⟨initial, 0, initial, Nat.max cli.maxConcurrency 1⟩
        else none := rfl
  have hinitial' : clamp cli.concurrency 1 (Nat.max cli.maxConcurrency 1) = some initial := hinitial
  rw [start, hnew, hinitial', Option.bind_some, if_pos hle, Option.map_some]

theorem Started.inv {s : State} (ho : Ordered cli) (h : Started cli s) : Inv s := by
  obtain ⟨hpos, hle⟩ := clamp_spec h.current
  refine ⟨hpos, hle, ?_, ?_⟩
  · rw [h.max]
    exact Nat.max_le.mpr ⟨ho.permits, by decide⟩
  · rw [Accounts, h.phase]
    show s.conc.held + s.conc.available = s.conc.current
    rw [h.held, h.available, Nat.zero_add]

theorem not_sound_of_panicked {s : State} (h : s.phase = .panicked) : ¬ Sound cli s := by
  rintro ⟨_, _, _, n, t, hrun, ht⟩
  cases n with
  | zero =>
      cases hrun
      rw [h] at ht
      cases ht
  | succ n =>
      rw [List.replicate_succ, run_cons, step, h] at hrun
      cases hrun

/-- What panics at some point of a tick is not safe. -/
theorem not_safe_of_run {s t : State} (hstart : start cli = some s) (labels : List Label)
    (hrun : run (step cli) s labels = some t) (ht : t.phase = .panicked) : ¬ Safe cli := by
  rintro ⟨s', hstart', hall⟩
  cases hstart.symm.trans hstart'
  exact not_sound_of_panicked ht (hall labels t hrun)

/-- A floor above the ceiling panics in the first tick. -/
theorem concurrency_le_of_safe (hsafe : Safe cli) : cli.concurrency ≤ cli.maxConcurrency := by
  by_contra hlt
  obtain ⟨s, hstart, -⟩ := id hsafe
  have hbegin : (beginTick cli s 0).phase = .panicked := by
    rw [beginTick, clamp_eq_none.mpr (Nat.lt_of_not_le hlt)]
    rfl
  refine not_safe_of_run hstart [.tick 0] ?_ hbegin hsafe
  rw [run_cons, step, (started_of_start hstart).phase]
  rfl

/-- A tick that leaves the size as it is gets to the warm pool. -/
theorem warmIdle_le_of_safe (hsafe : Safe cli) (hconc : cli.concurrency ≤ cli.maxConcurrency) :
    cli.warmIdle ≤ cli.maxWarm := by
  by_contra hlt
  obtain ⟨s, hstart, -⟩ := id hsafe
  have hs := started_of_start hstart
  have hbegin : beginTick cli s 0 =
      { s with phase := .loaded 0 s.conc.current s.conc.current } := by
    rw [beginTick, clamp_zero hconc, Option.bind_some, hs.current]
  have hresize : resize { s with phase := .loaded 0 s.conc.current s.conc.current } 0
      s.conc.current s.conc.current = { s with phase := .resized 0 } := by
    rw [resize, if_neg (Nat.lt_irrefl _), if_neg (Nat.lt_irrefl _)]
  have hwarm : (setWarm cli { s with phase := .resized 0 } 0).phase = .panicked := by
    rw [setWarm, clamp_eq_none.mpr (Nat.lt_of_not_le hlt)]
  refine not_safe_of_run hstart [.tick 0, .proceed, .proceed] ?_ hwarm hsafe
  rw [run_cons, step, hs.phase, Option.bind_some, hbegin, run_cons, step, Option.bind_some, hresize]
  rfl

/-- A tick that asks for the ceiling may add too many permits. -/
theorem maxConcurrency_le_of_safe (hsafe : Safe cli)
    (hconc : cli.concurrency ≤ cli.maxConcurrency) : cli.maxConcurrency ≤ maxPermits := by
  by_contra hlt
  obtain ⟨s, hstart, -⟩ := id hsafe
  have hs := started_of_start hstart
  have hmax : s.conc.max = cli.maxConcurrency := by
    rw [hs.max]
    exact Nat.max_eq_left (by omega)
  have hbegin : beginTick cli s cli.maxConcurrency =
      { s with phase := .loaded cli.maxConcurrency cli.maxConcurrency s.conc.current } := by
    rw [beginTick, clamp_top hconc, Option.bind_some, hmax, clamp_top (by omega)]
  have hresize : (resize { s with
      phase := .loaded cli.maxConcurrency cli.maxConcurrency s.conc.current }
      cli.maxConcurrency cli.maxConcurrency s.conc.current).phase = .panicked := by
    have hpermits := hs.permits
    have havailable := hs.available
    rw [resize, if_pos (by omega), if_neg (by show ¬ s.conc.available + _ ≤ _; omega)]
  refine not_safe_of_run hstart [.tick cli.maxConcurrency, .proceed] ?_ hresize hsafe
  rw [run_cons, step, hs.phase, Option.bind_some, hbegin]
  rfl

theorem safe_of_ordered (ho : Ordered cli) : Safe cli := by
  obtain ⟨s, hstart⟩ := exists_start ho
  refine ⟨s, hstart, fun labels t hrun => ?_⟩
  have hinv : Inv t := inv_run (C := fun _ _ => True) (fun _ _ _ h _ => inv_step ho h)
    ((started_of_start hstart).inv ho) (along_of_forall fun _ _ => trivial) hrun
  refine ⟨hinv.pos, hinv.le, fun hphase => ?_, completes ho hinv⟩
  have haccounts := hinv.accounts
  rwa [Accounts, hphase] at haccounts

/-- **Every tick completes, the size stays in bounds and the permits add up** exactly
if neither floor is above its ceiling and the ceiling is a number of permits. -/
theorem safe_iff (cli : Cli) :
    Safe cli ↔ cli.concurrency ≤ cli.maxConcurrency ∧ cli.warmIdle ≤ cli.maxWarm ∧
      cli.maxConcurrency ≤ maxPermits := by
  constructor
  · intro hsafe
    have hconc := concurrency_le_of_safe hsafe
    exact ⟨hconc, warmIdle_le_of_safe hsafe hconc, maxConcurrency_le_of_safe hsafe hconc⟩
  · rintro ⟨hconc, hwarm, hpermits⟩
    exact safe_of_ordered ⟨hconc, hwarm, hpermits⟩

/-- Sixty-four jobs, and the ceiling that is the default. -/
def raised : Cli := ⟨64, 32, 2, 16⟩

/-- The first tick panics. -/
theorem not_safe_raised : ¬ ∀ cli, Safe cli := by
  intro h
  have hsafe := h raised
  exact not_safe_of_run (show start raised = some ⟨⟨32, 0, 32, 32⟩, 2, .idle⟩ by decide) [.tick 0]
    (show _ = some ⟨⟨32, 0, 32, 32⟩, 2, .panicked⟩ by decide) rfl hsafe

end Steps

end Dokan.Ports.Autoscale
