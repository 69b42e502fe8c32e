import Dokan.Verified.Tally
import Dokan.Ports.RunOnce

/-!
# How often workers are handed a run

`mark_attempt` counts every hand-out of a run, but only a worker that survives
its execution reads the count: `reap_orphan_runs` returns a run to the queue
whatever its `attempts`, and `claim_run` does not look at them either.  A
worker compares its own attempt number, which is the row's count only while it
was the last to be handed the run.  The cap holds over every run of the queue
in which a run goes back to `pending` only while attempts are left.

## Main results

* `AttemptInv.step` — calls are counted, and a pending run has attempts left.
* `attempts_capped` — no run is handed to `Executor::run` by workers more than
  `MAX_ATTEMPTS` times.
-/

namespace Dokan.Ports.RunQueue

open Dokan.Verified.Machine
open Dokan.Verified.Tally
open Dokan.Ports.RunRow
open Dokan.Ports.ExecJob

/-! ## Counting attempts -/

def Caller.isWorker : Caller → Bool
  | .worker _ => true
  | .flow _ => false

/-- How often workers called `Executor::run` on `r`. -/
def workerCalls (log : List Entry) (r : RunId) : Nat :=
  (callers log r).countP Caller.isWorker

/-- No run was handed out more than `MAX_ATTEMPTS` times: not by workers, and
not at all when no flow task inserted it. -/
structure AttemptsCapped (q : Queue) : Prop where
  workers : ∀ r, workerCalls q.log r ≤ maxAttempts
  total : ∀ r, (∀ t, .inserted r t ∉ q.log) → (callers q.log r).length ≤ maxAttempts

/-- Before `mark_attempt`. -/
def WorkerPc.uncounted : WorkerPc → Bool
  | .mark => true
  | _ => false

/-- Before `requeue`. -/
def WorkerPc.requeues : WorkerPc → Bool
  | .requeue => true
  | _ => false

/-- Worker task `t` has claimed `r` and not counted its attempt yet. -/
def Queue.uncounted (q : Queue) (r : RunId) (t : TaskId) : Bool :=
  (q.workers t).any fun w => decide (w.job.runId = r) && w.pc.uncounted

/-- How many tasks have claimed `r` and not counted their attempt yet. -/
def Queue.unmarked (q : Queue) (r : RunId) : Nat := tally (q.uncounted r) q.nextTask

/-- The attempts of `r` that are counted or about to be. -/
def Queue.spent (q : Queue) (r : RunId) (row : Run) : Nat :=
  row.attempts + q.unmarked r

/-- Task `t` was the last to be handed `r`, and nobody is about to be. -/
def Queue.lastHolder (q : Queue) (r : RunId) (t : TaskId) : Prop :=
  (callers q.log r).head? = some (.worker t) ∧ q.unmarked r = 0

instance (q : Queue) (r : RunId) (t : TaskId) : Decidable (q.lastHolder r t) :=
  inferInstanceAs (Decidable (_ ∧ _))

/-- A run goes back to `pending` only while attempts are left.  The reaper
does not look; the worker has looked at its own attempt, which is enough as
long as it was the last to be handed the run. -/
def AttemptsLeft (q : Queue) : Label → Prop
  | .reapRuns => ∀ r < q.nextRun, ∀ row ∈ q.runs r,
      orphaned q.now runLease row = true → q.spent r row < maxAttempts
  | .worker t _ => ∀ w ∈ q.workers t, w.pc.requeues = true →
      ∀ row ∈ q.runs w.job.runId,
        q.lastHolder w.job.runId t ∨ q.spent w.job.runId row < maxAttempts
  | _ => True

/-! ## The invariant -/

/-- What the point a task has reached says about the attempts of its row,
when it was the last to be handed the run. -/
def WorkerPc.Counted (attempts : Nat) : WorkerPc → Prop
  | .mark => True
  | .exec attempt _ | .outcome attempt => attempts = attempt
  | .errorRead | .requeue => attempts < maxAttempts

structure AttemptInv (q : Queue) : Prop where
  bounded : Bounded q
  tasks : ∀ t, q.nextTask ≤ t → q.workers t = none
  flowCalls : ∀ r t, .flow t ∈ callers q.log r → .inserted r t ∈ q.log
  fresh : ∀ r, q.runs r = none → workerCalls q.log r = 0
  calls : ∀ r row, q.runs r = some row → workerCalls q.log r = row.attempts
  spent : ∀ r row, q.runs r = some row → q.spent r row ≤ maxAttempts
  pending : ∀ r row, q.runs r = some row → row.status = .pending →
    q.spent r row < maxAttempts
  own : ∀ t w row, q.workers t = some w → q.runs w.job.runId = some row →
    (callers q.log w.job.runId).head? = some (.worker t) → w.pc.Counted row.attempts

theorem attemptInv_init (now : Nat) : AttemptInv (init now) where
  bounded := bounded_init now
  tasks := fun _ _ => rfl
  flowCalls := fun _ _ h => by cases h
  fresh := fun _ _ => rfl
  calls := fun _ _ h => by cases h
  spent := fun _ _ h => by cases h
  pending := fun _ _ h => by cases h
  own := fun _ _ _ h => by cases h

/-! ## What one step does to the counts -/

/-- A `claim_run` that selects `r`. -/
def ClaimsRun (q : Queue) (a : Label) (r : RunId) : Prop :=
  ∃ p caps locked, a = .claim p caps locked ∧ q.claimed caps locked = some r

/-- The `mark_attempt` of task `t` for `r`, and its call. -/
def MarksRun (q : Queue) (a : Label) (r : RunId) (t : TaskId) : Prop :=
  ∃ reply w, a = .worker t reply ∧ q.workers t = some w ∧ w.job.runId = r ∧
    w.pc = .mark

section Counts

variable {q q' : Queue} {a : Label} {r : RunId} {t : TaskId} {row : Run}

theorem callers_cons_of_not_called {log : List Entry} {e : Entry}
    (he : ∀ r' who, e ≠ .called r' who) : callers (e :: log) r = callers log r := by
  cases e with
  | called r' who => exact absurd rfl (he r' who)
  | inserted | started | canceled => rfl

/-- What a step adds to the callers of `r`. -/
inductive CallersStep (q : Queue) (a : Label) (r : RunId) : List Caller → Prop
  | same : CallersStep q a r (callers q.log r)
  | worker (t : TaskId) (hm : MarksRun q a r t) :
      CallersStep q a r (.worker t :: callers q.log r)
  | flow (t : TaskId) (w : FlowTask) (hw : q.flows t = some w) (hpc : w.pc = .wait r) :
      CallersStep q a r (.flow t :: callers q.log r)

theorem step_callers (h : step q a = some q') (r : RunId) :
    CallersStep q a r (callers q'.log r) := by
  generalize hlog : q'.log = log
  cases hlog ▸ step_log h with
  | nothing => exact .same
  | inserted | startedWorker | startedFlow | canceled =>
      rw [callers_cons_of_not_called fun _ _ => Entry.noConfusion]
      exact .same
  | calledWorker t w hw hpc reply ha =>
      rw [callers_cons_called]
      split_ifs with hr
      · exact .worker t ⟨reply, w, ha, hw, hr, hpc⟩
      · exact .same
  | calledFlow t w r' hw hpc =>
      rw [callers_cons_called]
      split_ifs with hr
      · subst hr
        exact .flow t w hw hpc
      · exact .same

/-- The worker that was last handed `r` is counted. -/
theorem workerCalls_pos {log : List Entry} (h : (callers log r).head? = some (.worker t)) :
    0 < workerCalls log r :=
  List.countP_pos_iff.mpr ⟨_, List.mem_of_head? h, rfl⟩

theorem uncounted_eq_true :
    q.uncounted r t = true ↔
      ∃ w, q.workers t = some w ∧ w.job.runId = r ∧ w.pc.uncounted = true := by
  simp [Queue.uncounted, Option.any_eq_true]

theorem uncounted_eq_false (h : q.workers t = none) : q.uncounted r t = false := by
  simp [Queue.uncounted, h]

/-- A task that has not counted its attempt is old or has just claimed. -/
theorem uncounted_from (h : step q a = some q') (hu : q'.uncounted r t = true) :
    q.uncounted r t = true ∨ ClaimsRun q a r := by
  obtain ⟨w, hw, hr, hpc⟩ := uncounted_eq_true.mp hu
  cases step_workers h hw with
  | kept _ hv => exact Or.inl (uncounted_eq_true.mpr ⟨w, hv, hr, hpc⟩)
  | beaten v hv => exact Or.inl (uncounted_eq_true.mpr ⟨v, hv, hr, hpc⟩)
  | claimed _ row p caps locked ha hclaim =>
      exact Or.inr ⟨p, caps, locked, ha, hr ▸ hclaim⟩
  | marked | left | exec | errorRead => cases hpc
  | retry v attempt row pc reply ha hv hpc' hrow hret hto =>
      rcases hto with ⟨rfl, _⟩ | ⟨rfl, _⟩ <;> cases hpc

/-- A step that does not claim `r` hands it to nobody. -/
theorem unmarked_le (ht : ∀ t, q.nextTask ≤ t → q.workers t = none)
    (hle : q.nextTask ≤ q'.nextTask) (h : step q a = some q')
    (hno : ¬ ClaimsRun q a r) : q'.unmarked r ≤ q.unmarked r := by
  have hpast : ∀ t, q.nextTask ≤ t → q.uncounted r t = false :=
    fun t hge => uncounted_eq_false (ht t hge)
  calc q'.unmarked r
      ≤ tally (q.uncounted r) q'.nextTask :=
        tally_mono fun t _ hu => (uncounted_from h hu).resolve_right hno
    _ = q.unmarked r := tally_of_le hpast hle

/-- A change at one worker task. -/
theorem unmarked_update (r : RunId) {o : Option WorkerTask} (hlt : t < q.nextTask)
    (hworkers : q'.workers = Function.update q.workers t o)
    (hnext : q'.nextTask = q.nextTask) :
    q'.unmarked r + (q.uncounted r t).toNat =
      q.unmarked r + (q'.uncounted r t).toNat := by
  rw [Queue.unmarked, Queue.unmarked, hnext]
  refine tally_of_ne hlt fun i hi => ?_
  simp [Queue.uncounted, hworkers, Function.update_of_ne hi]

/-- A claim of `r`, taken apart. -/
theorem ClaimsRun.step (hc : ClaimsRun q a r) (h : step q a = some q')
    (hrow : q.runs r = some row) :
    row.status = .pending ∧ q'.runs r = some (claimRun q.now row) ∧
      q'.unmarked r ≤ q.unmarked r + 1 := by
  obtain ⟨p, caps, locked, rfl, hsel⟩ := hc
  obtain ⟨x, job, row', hsel', hx, hpend, hjob, rfl⟩ := claim_inv h
  rw [hsel] at hsel'
  cases hsel'
  rw [hrow] at hx
  cases hx
  refine ⟨hpend, by simp [Queue.onRun, Queue.setWorker, hrow], ?_⟩
  rw [Queue.unmarked, tally_succ]
  refine Nat.add_le_add (Nat.le_of_eq (tally_congr fun i hi => ?_)) (Bool.toNat_le _)
  simp [Queue.uncounted, Queue.setWorker, Queue.onRun,
    Function.update_of_ne (Nat.ne_of_lt hi)]

/-- `mark_attempt` finds its row. -/
theorem MarksRun.found (hm : MarksRun q a r t) (h : step q a = some q') :
    ∃ row, q.runs r = some row := by
  obtain ⟨reply, w, rfl, hw, rfl, hpc⟩ := hm
  simp only [RunQueue.step, Queue.stepWorker, hw, hpc, Option.bind_eq_bind,
    Option.bind_some, Option.bind_eq_some_iff] at h
  obtain ⟨row, hrow, _⟩ := h
  exact ⟨row, hrow⟩

/-- A `mark_attempt` for `r`, taken apart. -/
theorem MarksRun.step (hm : MarksRun q a r t)
    (ht : ∀ t, q.nextTask ≤ t → q.workers t = none) (h : step q a = some q')
    (hrow : q.runs r = some row) :
    q'.runs r = some (markAttempt row) ∧
      callers q'.log r = .worker t :: callers q.log r ∧
      q'.unmarked r + 1 = q.unmarked r := by
  obtain ⟨reply, w, rfl, hw, rfl, hpc⟩ := hm
  obtain ⟨w', hw', hstep⟩ := stepWorker_inv h
  rw [hw] at hw'
  cases hw'
  have hlt : t < q.nextTask := by
    by_contra hge
    rw [ht t (Nat.not_lt.mp hge)] at hw
    cases hw
  cases hstep with
  | mark row' _ hrow' =>
      generalize hq' : ((q.onRun w.job.runId markAttempt).setWorker t
        (some { w with pc := .exec (row'.attempts + 1) .acquire })).record
          (.called w.job.runId (.worker t)) = q'
      have hworkers : q'.workers = Function.update q.workers t
          (some { w with pc := .exec (row'.attempts + 1) .acquire }) := by
        subst hq'
        rfl
      have hnext : q'.nextTask = q.nextTask := by
        subst hq'
        rfl
      have hbefore : q.uncounted w.job.runId t = true :=
        uncounted_eq_true.mpr ⟨w, hw, rfl, by rw [hpc]; rfl⟩
      have hafter : q'.uncounted w.job.runId t = false := by
        simp [Queue.uncounted, hworkers, WorkerPc.uncounted]
      have hsum := unmarked_update w.job.runId hlt hworkers hnext
      rw [hbefore, hafter] at hsum
      refine ⟨?_, ?_, hsum⟩
      · subst hq'
        simp [Queue.onRun, Queue.setWorker, Queue.record, hrow]
      · subst hq'
        exact (callers_cons_called _ _ _ _).trans (if_pos rfl)
  | leave attempt hpc' | exec attempt pc out hpc' | retry attempt row' pc hpc'
  | errorRead hpc' | requeue hpc' =>
      rw [hpc] at hpc'
      cases hpc'
  | giveUp hpc' =>
      rw [hpc] at hpc'
      rcases hpc' with ⟨_, hpc'⟩ | hpc' <;> cases hpc'

/-- Every other step leaves the attempts of `r` alone, and puts it back into
the queue only by a reap or a requeue. -/
theorem step_attempts (h : step q a = some q') (hrow : q.runs r = some row)
    (hlt : r < q.nextRun) (hclaim : ¬ ClaimsRun q a r) (hmark : ∀ t, ¬ MarksRun q a r t) :
    ∃ row', q'.runs r = some row' ∧ row'.attempts = row.attempts ∧
      (row'.status = .pending → row.status = .pending ∨
        (a = .reapRuns ∧ orphaned q.now runLease row = true) ∨
        ∃ t reply w, a = .worker t reply ∧ q.workers t = some w ∧ w.job.runId = r ∧
          w.pc = .requeue) := by
  obtain ⟨f, hf, hwrite⟩ := step_row h hrow hlt
  refine ⟨f row, hf, ?_⟩
  cases hwrite with
  | nothing => exact ⟨rfl, Or.inl⟩
  | claim p caps locked row' ha hsel =>
      exact absurd ⟨p, caps, locked, ha, hsel⟩ hclaim
  | mark t reply w ha hw hr hpc => exact absurd ⟨reply, w, ha, hw, hr, hpc⟩ (hmark t)
  | exec _ hf =>
      cases hf with
      | nothing | outputs | result | receipt => exact ⟨rfl, Or.inl⟩
      | finish st hst c e =>
          refine ⟨by unfold finishRun; split <;> rfl, ?_⟩
          rw [finishRun_status]
          split
          · exact RunStatus.noConfusion
          · rcases hst with rfl | rfl <;> exact RunStatus.noConfusion
  | requeue t reply w ha hw hr hpc =>
      exact ⟨rfl, fun _ => Or.inr (Or.inr ⟨t, reply, w, ha, hw, hr, hpc⟩)⟩
  | touch =>
      refine ⟨by unfold touchRun; split <;> rfl, ?_⟩
      rw [touchRun_status]
      exact Or.inl
  | cancel reason =>
      refine ⟨by unfold cancelRun; split <;> rfl, ?_⟩
      rw [cancelRun_status]
      split <;> exact RunStatus.noConfusion
  | reap ha =>
      cases ho : orphaned q.now runLease row with
      | true =>
          rw [reapOrphanRun_of_orphaned ho]
          exact ⟨rfl, fun _ => Or.inr (Or.inl ⟨ha, rfl⟩)⟩
      | false =>
          rw [reapOrphanRun_of_not_orphaned ho]
          exact ⟨rfl, Or.inl⟩
  | failStale maxAge =>
      refine ⟨by unfold failStalePending; split <;> rfl, ?_⟩
      rcases failStalePending_status q.now maxAge row with hst | ⟨hst, _⟩
      · rw [hst]
        exact Or.inl
      · exact fun _ => Or.inl hst

/-- A step of a task that is past its `mark_attempt` and was the last to be
handed its run keeps what its point says. -/
theorem AttemptInv.own_step (hI : AttemptInv q) (h : step q a = some q') {w : WorkerTask}
    (hw : q'.workers t = some w) (hrow : q.runs w.job.runId = some row)
    (hmark : ¬ MarksRun q a w.job.runId t)
    (hhead : (callers q.log w.job.runId).head? = some (.worker t)) :
    w.pc.Counted row.attempts := by
  cases step_workers h hw with
  | kept _ hv => exact hI.own t w row hv hrow hhead
  | claimed _ row' p caps locked ha hclaim hrow' hp hpc =>
      rw [hpc]
      trivial
  | marked v attempt hv hpc row' hrow' hat reply ha =>
      exact absurd ⟨reply, v, ha, hv, rfl, hpc⟩ hmark
  | left v attempt hv hpc =>
      have hown := hI.own t v row hv hrow hhead
      rw [hpc] at hown
      exact hown
  | exec v attempt pc reply out hv hpc hout =>
      have hown := hI.own t v row hv hrow hhead
      rw [hpc] at hown
      exact hown
  | retry v attempt row' pc reply ha hv hpc hrow' hret hto =>
      have hown := hI.own t v row hv hrow hhead
      rw [hpc] at hown
      simp only [retries, Bool.and_eq_true, decide_eq_true_eq] at hret
      have hleft : row.attempts < maxAttempts := lt_of_eq_of_lt hown hret.2
      rcases hto with ⟨rfl, _⟩ | ⟨rfl, _⟩ <;> exact hleft
  | errorRead v hv hpc =>
      have hown := hI.own t v row hv hrow hhead
      rw [hpc] at hown
      exact hown
  | beaten v hv => exact hI.own t v row hv hrow hhead

end Counts

/-! ## Every step keeps the invariant -/

section Step

variable {q q' : Queue} {a : Label}

/-- The history records flow calls of inserted rows only. -/
theorem AttemptInv.flowCalls_step (hI : AttemptInv q) (h : step q a = some q')
    {r : RunId} {t : TaskId} (hin : .flow t ∈ callers q'.log r) :
    .inserted r t ∈ q'.log := by
  generalize hcallers : callers q'.log r = cs at hin
  cases hcallers ▸ step_callers h r with
  | same => exact log_subset h (hI.flowCalls r t hin)
  | worker t' hm =>
      rcases List.mem_cons.mp hin with heq | hin
      · cases heq
      · exact log_subset h (hI.flowCalls r t hin)
  | flow t' w hw hpc =>
      rcases List.mem_cons.mp hin with heq | hin
      · cases heq
        exact log_subset h (hI.bounded.owns t w r hw (by rw [hpc]; rfl))
      · exact log_subset h (hI.flowCalls r t hin)

/-- Without a `mark_attempt` only flow calls are recorded. -/
theorem workerCalls_step (h : step q a = some q') {r : RunId}
    (hmark : ∀ t, ¬ MarksRun q a r t) : workerCalls q'.log r = workerCalls q.log r := by
  unfold workerCalls
  generalize hcallers : callers q'.log r = cs
  cases hcallers ▸ step_callers h r with
  | same => rfl
  | worker t hm => exact absurd hm (hmark t)
  | flow t w hw hpc => exact List.countP_cons_of_neg (by simp [Caller.isWorker])

/-- A row that is not there is not handed to a worker. -/
theorem AttemptInv.fresh_step (hI : AttemptInv q) (h : step q a = some q') {r : RunId}
    (hnone : q.runs r = none) : workerCalls q'.log r = 0 := by
  have hmark : ∀ t, ¬ MarksRun q a r t := by
    intro t hm
    obtain ⟨row, hrow⟩ := hm.found h
    rw [hnone] at hrow
    cases hrow
  rw [workerCalls_step h hmark]
  exact hI.fresh r hnone

/-- Ids of tasks past the counter are free. -/
theorem AttemptInv.tasks_step (hI : AttemptInv q) (h : step q a = some q')
    {t : TaskId} (ht : q'.nextTask ≤ t) : q'.workers t = none := by
  have hge : q.nextTask ≤ t := Nat.le_trans (step_ids h hI.bounded).2.1 ht
  have hfree : ∀ v, q.workers t ≠ some v := by
    intro v hv
    rw [hI.tasks t hge] at hv
    cases hv
  refine Option.eq_none_iff_forall_ne_some.mpr fun w hw => ?_
  cases step_workers h hw with
  | claimed _ row p caps locked ha hclaim hrow hp hpc hnew =>
      subst ha hnew
      obtain ⟨_, _, _, _, _, _, _, rfl⟩ := claim_inv h
      exact absurd ht (Nat.not_le.mpr (Nat.lt_succ_self _))
  | kept _ hv => exact hfree _ hv
  | marked v _ hv | left v _ hv | exec v _ _ _ _ hv | errorRead v hv | beaten v hv =>
      exact hfree v hv
  | retry v _ _ _ _ _ hv => exact hfree v hv

/-- A run that goes back into the queue has attempts left. -/
theorem AttemptInv.returns (hI : AttemptInv q) (hC : AttemptsLeft q a) {r : RunId}
    {row : Run} (hrow : q.runs r = some row)
    (hback : (a = .reapRuns ∧ orphaned q.now runLease row = true) ∨
      ∃ t reply w, a = .worker t reply ∧ q.workers t = some w ∧ w.job.runId = r ∧
        w.pc = .requeue) :
    q.spent r row < maxAttempts := by
  rcases hback with ⟨rfl, ho⟩ | ⟨t, reply, w, rfl, hw, rfl, hpc⟩
  · exact hC r (hI.bounded.lt hrow) row hrow ho
  · rcases hC w hw (by rw [hpc]; rfl) row hrow with ⟨hhead, hnone⟩ | hleft
    · have hown := hI.own t w row hw hrow hhead
      rw [hpc] at hown
      rw [Queue.spent, hnone]
      exact hown
    · exact hleft

/-- What the invariant says of one row. -/
structure RowCounted (q : Queue) (r : RunId) (row : Run) : Prop where
  calls : workerCalls q.log r = row.attempts
  spent : q.spent r row ≤ maxAttempts
  pending : row.status = .pending → q.spent r row < maxAttempts

theorem AttemptInv.row (hI : AttemptInv q) {r : RunId} {row : Run}
    (hrow : q.runs r = some row) : RowCounted q r row :=
  ⟨hI.calls r row hrow, hI.spent r row hrow, hI.pending r row hrow⟩

/-- A row that was not there has no attempts and nobody holds it. -/
theorem AttemptInv.row_new (hI : AttemptInv q) (h : step q a = some q') {r : RunId}
    {row' : Run} (hge : q.nextRun ≤ r) (hnew : RowNew q row') :
    RowCounted q' r row' := by
  have hno : ¬ ClaimsRun q a r := by
    rintro ⟨p, caps, locked, _, hsel⟩
    exact absurd (claimed_some hsel).1 (Nat.not_lt.mpr hge)
  have hzero : row'.attempts = 0 := by
    cases hnew <;> rfl
  have hnobody : q.unmarked r = 0 := by
    refine tally_eq_zero fun t _ => ?_
    rw [Bool.eq_false_iff]
    intro hu
    obtain ⟨w, hw, hr, _⟩ := uncounted_eq_true.mp hu
    exact absurd (hI.bounded.workers t w hw) (hr ▸ Nat.not_lt.mpr hge)
  have hle := unmarked_le hI.tasks (step_ids h hI.bounded).2.1 h hno
  have hspent : q'.spent r row' = 0 := by
    rw [Queue.spent]
    omega
  have hpos : 0 < maxAttempts := by decide
  refine ⟨?_, by omega, fun _ => by omega⟩
  rw [hI.fresh_step h (hI.bounded.rows r hge), hzero]

/-- The row of a run that was there. -/
theorem AttemptInv.row_old (hI : AttemptInv q) (hC : AttemptsLeft q a)
    (h : step q a = some q') {r : RunId} {row row' : Run} (hrow : q.runs r = some row)
    (hrow' : q'.runs r = some row') : RowCounted q' r row' := by
  obtain ⟨hcalls, hspent, hpending⟩ := hI.row hrow
  have htask := (step_ids h hI.bounded).2.1
  by_cases hclaim : ClaimsRun q a r
  · obtain ⟨hp, hq, hle⟩ := hclaim.step h hrow
    rw [hrow'] at hq
    cases hq
    have hlt := hpending hp
    have hnot : ∀ t, ¬ MarksRun q a r t := by
      obtain ⟨p, caps, locked, rfl, _⟩ := hclaim
      rintro t ⟨reply, w, ha, _⟩
      cases ha
    refine ⟨(workerCalls_step h hnot).trans hcalls, ?_, fun hst => by cases hst⟩
    unfold Queue.spent at hlt ⊢
    have hsame : (claimRun q.now row).attempts = row.attempts := rfl
    omega
  · have hle := unmarked_le hI.tasks htask h hclaim
    by_cases hmark : ∃ t, MarksRun q a r t
    · obtain ⟨t, hmark⟩ := hmark
      obtain ⟨hq, hcallers, hsum⟩ := hmark.step hI.tasks h hrow
      rw [hrow'] at hq
      cases hq
      have hsame : q'.spent r (markAttempt row) = q.spent r row := by
        have hone : (markAttempt row).attempts = row.attempts + 1 := rfl
        unfold Queue.spent
        omega
      refine ⟨?_, hsame ▸ hspent, fun hst => hsame ▸ hpending hst⟩
      rw [workerCalls, hcallers, List.countP_cons_of_pos (by rfl)]
      exact congrArg (· + 1) hcalls
    · have hnot : ∀ t, ¬ MarksRun q a r t := fun t hm => hmark ⟨t, hm⟩
      obtain ⟨row₁, hq, hatt, hback⟩ :=
        step_attempts h hrow (hI.bounded.lt hrow) hclaim hnot
      rw [hrow'] at hq
      cases hq
      have hless : q'.spent r row' ≤ q.spent r row := by
        unfold Queue.spent
        omega
      refine ⟨?_, Nat.le_trans hless hspent, fun hst => Nat.lt_of_le_of_lt hless ?_⟩
      · rw [workerCalls_step h hnot, hatt]
        exact hcalls
      · rcases hback hst with hp | hreturn
        · exact hpending hp
        · exact hI.returns hC hrow hreturn

/-- Without a `mark_attempt` the attempts of a row stay. -/
theorem attempts_step (hb : Bounded q) (h : step q a = some q') {r : RunId}
    {row row' : Run} (hrow : q.runs r = some row) (hrow' : q'.runs r = some row')
    (hmark : ∀ t, ¬ MarksRun q a r t) : row'.attempts = row.attempts := by
  by_cases hclaim : ClaimsRun q a r
  · have hq := (hclaim.step h hrow).2.1
    rw [hrow'] at hq
    cases hq
    rfl
  · obtain ⟨row₁, hq, hatt, _⟩ := step_attempts h hrow (hb.lt hrow) hclaim hmark
    rw [hrow'] at hq
    cases hq
    exact hatt

/-- A task that was the last to be handed its run knows its attempts. -/
theorem AttemptInv.counted_step (hI : AttemptInv q) (h : step q a = some q') {t : TaskId}
    {w : WorkerTask} {row' : Run} (hw : q'.workers t = some w)
    (hrow' : q'.runs w.job.runId = some row')
    (hhead : (callers q'.log w.job.runId).head? = some (.worker t)) :
    w.pc.Counted row'.attempts := by
  rcases step_new_row h hrow' with ⟨row, hrow⟩ | ⟨hge, _⟩
  · by_cases hmark : ∃ x, MarksRun q a w.job.runId x
    · obtain ⟨x, hmark⟩ := hmark
      obtain ⟨hq, hcallers, _⟩ := hmark.step hI.tasks h hrow
      rw [hrow'] at hq
      cases hq
      rw [hcallers] at hhead
      cases hhead
      obtain ⟨_, v, _, hv, _, hpc⟩ := hmark
      cases step_workers h hw with
      | kept _ hv' =>
          cases hv.symm.trans hv'
          rw [hpc]
          trivial
      | beaten v' hv' =>
          cases hv.symm.trans hv'
          rw [show ({ v with beatAt := q.now } : WorkerTask).pc = v.pc from rfl, hpc]
          trivial
      | claimed _ row₁ p caps locked ha hclaim hrow₁ hp hpc' =>
          rw [hpc']
          trivial
      | marked v' attempt hv' hpc' row₁ hrow₁ hat =>
          cases hrow.symm.trans hrow₁
          exact hat.symm
      | left v' attempt hv' hpc' | exec v' attempt pc reply out hv' hpc'
      | errorRead v' hv' hpc' =>
          cases hv.symm.trans hv'
          rw [hpc] at hpc'
          cases hpc'
      | retry v' attempt row₁ pc reply ha hv' hpc' =>
          cases hv.symm.trans hv'
          rw [hpc] at hpc'
          cases hpc'
    · have hnot : ∀ x, ¬ MarksRun q a w.job.runId x := fun x hm => hmark ⟨x, hm⟩
      rw [attempts_step hI.bounded h hrow hrow' hnot]
      refine hI.own_step h hw hrow (hnot t) ?_
      generalize hcallers : callers q'.log w.job.runId = cs at hhead
      cases hcallers ▸ step_callers h w.job.runId with
      | same => exact hhead
      | worker x hm => exact absurd hm (hnot x)
      | flow x v hv hpc => cases hhead
  · have hzero := hI.fresh_step h (hI.bounded.rows _ hge)
    exact absurd hzero (Nat.ne_of_gt (workerCalls_pos hhead))

/-- Every step that returns runs to the queue only with attempts left keeps
the invariant. -/
theorem AttemptInv.step (hI : AttemptInv q) (hC : AttemptsLeft q a)
    (h : step q a = some q') : AttemptInv q' := by
  have hrows : ∀ r row', q'.runs r = some row' → RowCounted q' r row' := by
    intro r row' hrow'
    rcases step_new_row h hrow' with ⟨row, hrow⟩ | ⟨hge, hnew⟩
    · exact hI.row_old hC h hrow hrow'
    · exact hI.row_new h hge hnew
  exact
    { bounded := hI.bounded.step h
      tasks := fun t ht => hI.tasks_step h ht
      flowCalls := fun r t hin => hI.flowCalls_step h hin
      fresh := by
        intro r hnone
        refine hI.fresh_step h ?_
        by_contra hsome
        obtain ⟨row, hrow⟩ := Option.ne_none_iff_exists'.mp hsome
        obtain ⟨f, hf, _⟩ := step_row h hrow (hI.bounded.lt hrow)
        rw [hnone] at hf
        cases hf
      calls := fun r row' hrow' => (hrows r row' hrow').calls
      spent := fun r row' hrow' => (hrows r row' hrow').spent
      pending := fun r row' hrow' => (hrows r row' hrow').pending
      own := fun t w row' hw hrow' hhead => hI.counted_step h hw hrow' hhead }

/-- The invariant bounds the calls. -/
theorem AttemptInv.capped (hI : AttemptInv q) : AttemptsCapped q := by
  have hworkers : ∀ r, workerCalls q.log r ≤ maxAttempts := by
    intro r
    cases hrow : q.runs r with
    | none => exact Nat.le_trans (Nat.le_of_eq (hI.fresh r hrow)) (Nat.zero_le _)
    | some row =>
        rw [hI.calls r row hrow]
        exact Nat.le_trans (Nat.le_add_right _ _) (hI.spent r row hrow)
  refine ⟨hworkers, fun r hno => ?_⟩
  have hall : ∀ c ∈ callers q.log r, c.isWorker = true := by
    intro c hc
    cases c with
    | worker t => rfl
    | flow t => exact absurd (hI.flowCalls r t hc) (hno t)
  rw [← List.countP_eq_length.mpr hall]
  exact hworkers r

end Step

/-- **The attempt cap**, over every run of the queue in which a run goes back
to `pending` only while attempts are left. -/
theorem attempts_capped (now : Nat) (l : List Label) (q : Queue)
    (hleft : Along step AttemptsLeft (init now) l)
    (hrun : run step (init now) l = some q) : AttemptsCapped q := by
  have hstep : ∀ s a s', AttemptInv s → AttemptsLeft s a → step s a = some s' →
      AttemptInv s' := fun _ _ _ hI hC h => hI.step hC h
  exact (inv_run hstep (attemptInv_init now) hleft hrun).capped

instance (q : Queue) : ∀ a, Decidable (AttemptsLeft q a)
  | .reapRuns => inferInstanceAs (Decidable (∀ r < q.nextRun, ∀ row ∈ q.runs r, _ → _))
  | .worker t _ => inferInstanceAs (Decidable (∀ w ∈ q.workers t, _ → ∀ row ∈ _, _ ∨ _))
  | .tick _ | .putScript _ _ | .enqueue _ | .refuse _ _ | .claim _ _ _
  | .spawnFlow _ _ | .flow _ _ | .beat _ | .cancelCall _ _ _ | .cancelWrite _
  | .failStale _ | .enqueueFlow _ | .claimFlow _ _ | .driver _ _ | .reapFlows
  | .crash _ => .isTrue trivial

/-- A worker of process `0` is handed run `0`; its task is `t`. -/
def handOut (t : TaskId) : List Label :=
  [.claim 0 ["bash"] fun _ => false, .worker t .ok]

/-- Its process dies, and one lease later the reaper returns the run. -/
def crashAndReap : List Label := [.crash 0, .tick (runLease + 1), .reapRuns]

/-- The image pull fails, and the worker requeues the run. -/
def failAndRequeue (t : TaskId) : List Label :=
  [.worker t (.error "image pull failed"), .worker t .ok, .worker t .ok, .worker t .ok,
    .worker t .ok]

/-- One crash, one failure of the infrastructure, one more hand-out. -/
def threeAttempts : List Label :=
  [.putScript 7 ⟨"bash", none⟩, .enqueue [stepRun]] ++ handOut 0 ++ crashAndReap ++
    handOut 1 ++ failAndRequeue 1 ++ handOut 2

theorem attempts_capped_threeAttempts :
    ∃ q, run step (init 0) threeAttempts = some q ∧
      Along step AttemptsLeft (init 0) threeAttempts ∧
      (callers q.log 0).length = 3 ∧ AttemptsCapped q := by
  have hleft : Along step AttemptsLeft (init 0) threeAttempts := by decide +kernel
  exact ⟨_, rfl, hleft, by decide +kernel, attempts_capped 0 _ _ hleft rfl⟩

/-- A process that dies with the run, four times. -/
def fourCrashes : List Label :=
  [.putScript 7 ⟨"bash", none⟩, .enqueue [stepRun]] ++ handOut 0 ++ crashAndReap ++
    handOut 1 ++ crashAndReap ++ handOut 2 ++ crashAndReap ++ handOut 3

/-- Along `fourCrashes` one run is handed out four times. -/
theorem not_attempts_capped :
    ¬ ∀ now l q, run step (init now) l = some q → AttemptsCapped q := by
  intro hclaim
  have hcap := (hclaim 0 fourCrashes _ rfl).workers 0
  exact absurd hcap (by decide +kernel)

end Dokan.Ports.RunQueue
