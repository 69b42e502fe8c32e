import Dokan.Verified.Lease
import Dokan.Ports.RunQueueSteps

/-!
# Leases of runs and of flow runs

Ownership of a row of `runs` is implicit in its status and its heartbeat.
`leaseOf q r` reads the abstract lease of row `r` off the queue: the worker
tasks that hold the row, what each is doing and when it last beat.  Every step
of the queue is a step of that lease or leaves it alone, so the invariant of
`Verified.Lease` carries over.  Drivers and rows of `flow_runs` are treated
the same way.

## Main results

* `leaseOf_step`, `flowLeaseOf_step` — the queue refines the abstract lease.
* `lease_safe` — one owner at a time, never reaped while alive.
-/

namespace Dokan.Ports.RunQueue

open Dokan.Verified
open Dokan.Verified.Machine
open Dokan.Ports.RunRow
open Dokan.Ports.FlowRow
open Dokan.Ports.ExecJob

/-! ## The lease of a row of `runs` -/

/-- The phase of a row; a row that does not exist is closed. -/
def runPhase : Option Run → Lease.Phase
  | none => .closed
  | some row =>
      match row.status with
      | .pending => .free
      | .running => .taken
      | .succeeded | .failed | .canceled => .closed

/-- What a worker task is doing with its row. -/
def WorkerPc.mode : WorkerPc → Lease.Mode
  | .mark => .working
  | .exec _ pc => if pc.settled then .finished else .working
  | .outcome _ | .errorRead | .requeue => .deciding

/-- Between the claim and the end of `Executor::run`. -/
def WorkerPc.inRun : WorkerPc → Bool
  | .mark | .exec _ _ => true
  | .outcome _ | .errorRead | .requeue => false

/-- What is known about a worker task that holds `r`. -/
def holdOf (r : RunId) (w : Option WorkerTask) : Option Lease.Hold :=
  match w with
  | some w => if w.job.runId = r then some ⟨w.pc.mode, w.beatAt⟩ else none
  | none => none

/-- The timestamp the reaper compares. -/
def signOf (row : Option Run) : Nat := (row.bind lastSign).getD 0

/-- The lease of row `r`. -/
def leaseOf (q : Queue) (r : RunId) : Lease.State TaskId where
  now := q.now
  phase := runPhase (q.runs r)
  beat := signOf (q.runs r)
  holder := fun t => holdOf r (q.workers t)

theorem WorkerPc.inRun_iff (pc : WorkerPc) : pc.inRun = true ↔ pc.mode ≠ .deciding := by
  cases pc with
  | exec attempt pc => cases h : pc.settled <;> simp [WorkerPc.inRun, WorkerPc.mode, h]
  | mark | outcome | errorRead | requeue => simp [WorkerPc.inRun, WorkerPc.mode]

section Update

variable {q : Queue} {r r₀ : RunId} {t : TaskId}

/-- Changing a task of another row leaves the holders of `r` alone. -/
theorem holder_other {v : WorkerTask} {o : Option WorkerTask}
    (hv : q.workers t = some v) (hr : v.job.runId ≠ r)
    (ho : ∀ w, o = some w → w.job.runId ≠ r) :
    (fun t' => holdOf r (Function.update q.workers t o t')) =
      fun t' => holdOf r (q.workers t') := by
  funext t'
  by_cases ht : t' = t
  · subst ht
    simp only [Function.update_self]
    rw [hv]
    cases o with
    | none => simp [holdOf, hr]
    | some w => simp [holdOf, hr, ho w rfl]
  · simp [Function.update_of_ne ht]

/-- Changing a task of row `r` is `setHolder`. -/
theorem holder_same (o : Option WorkerTask) :
    (fun t' => holdOf r (Function.update q.workers t o t')) =
      Function.update (fun t' => holdOf r (q.workers t')) t (holdOf r o) := by
  funext t'
  by_cases ht : t' = t
  · subst ht
    simp
  · simp [Function.update_of_ne ht]

theorem runs_onRun_of_ne {f : Run → Run} (hr : r ≠ r₀) :
    (q.onRun r₀ f).runs r = q.runs r := by
  simp [Queue.onRun, Function.update_of_ne hr]

theorem runs_onRun_self {f : Run → Run} :
    (q.onRun r f).runs r = (q.runs r).map f := by
  simp [Queue.onRun]

end Update

section RunSteps

variable {q q' : Queue} {a : Label} {r : RunId}

/-- The lease of `r` after one step. -/
def Follows (q q' : Queue) (r : RunId) : Prop :=
  leaseOf q' r = leaseOf q r ∨ Lease.Step runLease (leaseOf q r) (leaseOf q' r)

theorem follows_of_eq (hnow : q'.now = q.now) (hrow : q'.runs r = q.runs r)
    (hw : (fun t => holdOf r (q'.workers t)) = fun t => holdOf r (q.workers t)) :
    Follows q q' r := by
  left
  unfold leaseOf
  rw [hnow, hrow, hw]

/-- A statement that keeps phase and timestamp of every row. -/
theorem follows_of_plain (r₀ : RunId) {f : Run → Run} (hf : Plain f)
    (hnow : q'.now = q.now) (hrow : q'.runs r = (q.onRun r₀ f).runs r)
    (hw : (fun t => holdOf r (q'.workers t)) = fun t => holdOf r (q.workers t)) :
    Follows q q' r := by
  left
  have hph : runPhase (q'.runs r) = runPhase (q.runs r) ∧
      signOf (q'.runs r) = signOf (q.runs r) := by
    by_cases hr : r = r₀
    · subst hr
      rw [hrow, runs_onRun_self]
      cases q.runs r with
      | none => exact ⟨rfl, rfl⟩
      | some row => simp [runPhase, signOf, (hf row).1, (hf row).2]
    · rw [hrow, runs_onRun_of_ne hr]
      exact ⟨rfl, rfl⟩
  unfold leaseOf
  rw [hnow, hph.1, hph.2, hw]

theorem holder_none (hb : Bounded q) (hr : q.nextRun ≤ r) (t : TaskId) :
    (leaseOf q r).holder t = none := by
  simp only [leaseOf, holdOf]
  cases hw : q.workers t with
  | none => rfl
  | some w =>
      exact if_neg (Nat.ne_of_lt (Nat.lt_of_lt_of_le (hb.workers t w hw) hr))

/-- Rows appended to the table are offered, or arrive closed. -/
theorem follows_append (hb : Bounded q) {runs : RunId → Option Run} {rows : List Run}
    (hrows : ∀ row ∈ rows, (row.status = .pending ∨ row.status = .failed))
    (hnow : q'.now = q.now) (hruns : q'.runs = appendRows runs q.nextRun rows)
    (hw : (fun t => holdOf r (q'.workers t)) = fun t => holdOf r (q.workers t))
    (hr : q.nextRun ≤ r) : Follows q q' r := by
  cases hrow : rows[r - q.nextRun]? with
  | none =>
      refine follows_of_eq hnow ?_ hw
      rw [hruns, appendRows_ge hr, hrow, hb.rows r hr]
  | some row =>
      right
      have hlease : leaseOf q' r = { leaseOf q r with
          phase := runPhase (some row), beat := signOf (some row) } := by
        simp only [leaseOf, hnow, hw]
        rw [hruns, appendRows_ge hr, hrow]
      rw [hlease]
      rcases hrows row (List.mem_of_getElem? hrow) with hp | hf
      · have hfree : runPhase (some row) = .free := by simp [runPhase, hp]
        rw [hfree]
        exact .offer _ _ (holder_none hb hr)
      · have hclosed : runPhase (some row) = .closed := by simp [runPhase, hf]
        rw [hclosed]
        exact .shut _ _

/-- `claim_run` takes the row it selects. -/
theorem follows_claim {p : Proc} {caps : List String} {locked : RunId → Bool}
    (h : q.claim p caps locked = some q') : Follows q q' r := by
  obtain ⟨r₀, job, row, _, hrow, hpend, hjob, rfl⟩ := claim_inv h
  right
  by_cases hr : r = r₀
  · subst hr
    have hfree : (leaseOf q r).phase = .free := by simp [leaseOf, runPhase, hrow, hpend]
    have hlease : Lease.Step runLease _ _ := .take (leaseOf q r) q.nextTask hfree
    convert hlease using 1
    simp only [leaseOf, Lease.State.setHolder, Queue.setWorker, holder_same]
    simp [Queue.onRun, hrow, runPhase, signOf, holdOf, hjob, WorkerPc.mode]
  · have hlease : Lease.Step runLease _ _ := .leave (leaseOf q r) q.nextTask
    convert hlease using 1
    simp only [leaseOf, Lease.State.setHolder, Queue.setWorker, holder_same]
    have hne : ¬ r₀ = r := fun heq => hr heq.symm
    simp [Queue.onRun, Function.update_of_ne hr, holdOf, hjob, hne]

/-- A worker task that only moves, keeping its mode, its row and its beat. -/
theorem follows_of_move {t : TaskId} {w : WorkerTask} {pc : WorkerPc}
    (hw : q.workers t = some w) (hmode : pc.mode = w.pc.mode) :
    (fun t' => holdOf r (Function.update q.workers t (some { w with pc }) t')) =
      fun t' => holdOf r (q.workers t') := by
  rw [holder_same]
  funext t'
  by_cases ht : t' = t
  · subst ht
    simp [holdOf, hw, hmode]
  · simp [Function.update_of_ne ht]

/-- The holder that a worker task of `r` is. -/
theorem holder_of {t : TaskId} {w : WorkerTask} (hw : q.workers t = some w)
    (hr : w.job.runId = r) :
    (leaseOf q r).holder t = some ⟨w.pc.mode, w.beatAt⟩ := by
  simp [leaseOf, holdOf, hw, hr]

/-- The phase after a `finish_run` that ends the run. -/
theorem runPhase_finishRun {st : RunStatus} (hst : st = .succeeded ∨ st = .failed)
    (now : Nat) (c : Option Int) (e : Option String) (o : Option Run) :
    runPhase (o.map (finishRun now st c e)) = .closed := by
  cases o with
  | none => rfl
  | some row =>
      simp only [Option.map_some, runPhase, finishRun_status]
      split_ifs
      · rfl
      · rcases hst with rfl | rfl <;> rfl

/-- The part of an execution's step that concerns row `r`. -/
theorem follows_exec (hb : Bounded q) {t : TaskId} {w : WorkerTask}
    {attempt : Nat} {pc : ExecPc} {reply : Reply} {out : ExecOut}
    (hw : q.workers t = some w) (hpc : w.pc = .exec attempt pc)
    (hout : execStep q.now w.job.captureOutput q.killed pc reply = some out)
    (hq' : q' = (q.apply w.proc w.job.runId (.worker t) out).setWorker t
      (some { w with pc := .exec attempt out.pc })) : Follows q q' r := by
  subst hq'
  by_cases hlt : r < q.nextRun
  · by_cases hr : w.job.runId = r
    · rcases execStep_settled hout with ⟨hs, hs', hid⟩ | ⟨hs, hs', st, c, e, hst, hfin⟩ |
        ⟨hs, hs', hplain⟩
      · refine follows_of_plain r (f := id) (fun _ => ⟨rfl, rfl⟩) rfl ?_
          (follows_of_move hw (by simp [WorkerPc.mode, hpc, hs, hs']))
        exact (appendRows_lt hlt).trans (by rw [hid, hr]; rfl)
      · right
        have hk := holder_of (q := q) hw hr
        have hin : (Lease.Hold.mk w.pc.mode w.beatAt).Inside := by
          simp [Lease.Hold.Inside, WorkerPc.mode, hpc, hs]
        have hlease : Lease.Step runLease _ _ := .finish (leaseOf q r) t _ hk hin
          (signOf ((q.runs r).map (finishRun q.now st c e)))
        convert hlease using 1
        simp only [leaseOf, Lease.State.setHolder, Queue.setWorker, holder_same]
        have hrow : (q.apply w.proc w.job.runId (.worker t) out).runs r =
            (q.runs r).map (finishRun q.now st c e) := by
          refine (appendRows_lt hlt).trans ?_
          rw [hfin, hr, Function.update_self]
        rw [hrow, runPhase_finishRun hst]
        simp [Queue.apply, holdOf, hr, WorkerPc.mode, hs']
      · refine follows_of_plain r hplain rfl ?_
          (follows_of_move hw (by simp [WorkerPc.mode, hpc, hs, hs']))
        exact (appendRows_lt hlt).trans (by rw [hr]; rfl)
    · refine follows_of_eq rfl ?_ (holder_other hw hr ?_)
      · exact (appendRows_lt hlt).trans (Function.update_of_ne (Ne.symm hr) _ _)
      · rintro v hv
        cases hv
        exact hr
  · have hge : q.nextRun ≤ r := Nat.not_lt.mp hlt
    have hr : w.job.runId ≠ r := Nat.ne_of_lt (Nat.lt_of_lt_of_le (hb.workers t w hw) hge)
    refine follows_append hb ?_ rfl rfl (holder_other hw hr ?_) hge
    · intro row hrow
      obtain ⟨n, _, rfl⟩ := List.mem_map.mp hrow
      exact Or.inl rfl
    · rintro v hv
      cases hv
      exact hr

/-- A worker task's own step. -/
theorem follows_worker (hb : Bounded q) {t : TaskId} {w : WorkerTask}
    (hw : q.workers t = some w) (hstep : WorkerStep q t w reply q') : Follows q q' r := by
  by_cases hr : w.job.runId = r
  · have hk := holder_of (q := q) hw hr
    cases hstep with
    | mark row hpc hrow =>
        refine follows_of_plain w.job.runId (f := markAttempt) ?_ rfl rfl
          (follows_of_move hw (by rw [hpc]; rfl))
        exact fun _ => ⟨rfl, rfl⟩
    | leave attempt hpc =>
        right
        have hfin : (Lease.Hold.mk w.pc.mode w.beatAt).mode = .finished := by
          rw [hpc]; rfl
        have hlease : Lease.Step runLease _ _ := .decide (leaseOf q r) t _ hk hfin
        convert hlease using 1
        simp only [leaseOf, Lease.State.setHolder, Queue.setWorker, holder_same]
        simp [holdOf, hr, WorkerPc.mode]
    | exec attempt pc out hpc hout => exact follows_exec hb hw hpc hout rfl
    | retry attempt row pc hpc hrow hret hpc' =>
        refine follows_of_eq rfl rfl (follows_of_move hw ?_)
        rcases hpc' with ⟨rfl, _⟩ | ⟨rfl, _⟩ <;> rw [hpc] <;> rfl
    | giveUp hpc =>
        right
        have hlease : Lease.Step runLease _ _ := .leave (leaseOf q r) t
        convert hlease using 1
        simp only [leaseOf, Lease.State.setHolder, Queue.setWorker, holder_same]
        rfl
    | errorRead hpc =>
        exact follows_of_eq rfl rfl (follows_of_move hw (by rw [hpc]; rfl))
    | requeue hpc =>
        right
        have hdec : (Lease.Hold.mk w.pc.mode w.beatAt).mode = .deciding := by
          rw [hpc]; rfl
        cases hrow : q.runs r with
        | none =>
            have hlease : Lease.Step runLease _ _ := .leave (leaseOf q r) t
            convert hlease using 1
            simp only [leaseOf, Lease.State.setHolder, Queue.setWorker, holder_same, hr,
              runs_onRun_self, hrow]
            rfl
        | some row =>
            have hlease : Lease.Step runLease _ _ := .putBack (leaseOf q r) t _ hk hdec
              (signOf (some (RunRow.requeue row)))
            convert hlease using 1
            simp only [leaseOf, Lease.State.setHolder, Queue.setWorker, holder_same, hr,
              runs_onRun_self, hrow]
            rfl
  · -- a task of another row
    have hother : ∀ o : Option WorkerTask, (∀ v, o = some v → v.job = w.job) →
        (fun t' => holdOf r (Function.update q.workers t o t')) =
          fun t' => holdOf r (q.workers t') := fun o ho =>
      holder_other hw hr fun v hv => by rw [ho v hv]; exact hr
    cases hstep with
    | mark row hpc hrow =>
        refine follows_of_eq rfl (runs_onRun_of_ne (Ne.symm hr)) (hother _ ?_)
        rintro v hv
        cases hv
        rfl
    | exec attempt pc out hpc hout => exact follows_exec hb hw hpc hout rfl
    | leave | retry | errorRead =>
        refine follows_of_eq rfl rfl (hother _ ?_)
        rintro v hv
        cases hv
        rfl
    | giveUp hpc => exact follows_of_eq rfl rfl (hother none fun v hv => by cases hv)
    | requeue hpc =>
        exact follows_of_eq rfl (runs_onRun_of_ne (Ne.symm hr))
          (hother none fun v hv => by cases hv)

/-- A heartbeat of a worker task. -/
theorem follows_beat {t : TaskId} {w : WorkerTask} (hw : q.workers t = some w)
    (hq' : q' = (q.onRun w.job.runId (touchRun q.now)).setWorker t
      (some { w with beatAt := q.now })) : Follows q q' r := by
  subst hq'
  by_cases hr : w.job.runId = r
  · right
    have hk := holder_of (q := q) hw hr
    have hbeat : (leaseOf q r).phase = .taken →
        signOf ((q.runs r).map (touchRun q.now)) = (leaseOf q r).now := by
      intro hp
      cases hrow : q.runs r with
      | none => simp [leaseOf, runPhase, hrow] at hp
      | some row =>
          have hrun : row.status = .running := by
            cases hst : row.status <;> simp [leaseOf, runPhase, hrow, hst] at hp ⊢
          simp [signOf, touchRun, hrun, lastSign, leaseOf]
    have hlease : Lease.Step runLease _ _ := .beat (leaseOf q r) t _ hk _ hbeat
    convert hlease using 1
    have hphase : runPhase ((q.runs r).map (touchRun q.now)) = runPhase (q.runs r) := by
      cases q.runs r with
      | none => rfl
      | some row => simp [runPhase]
    simp only [leaseOf, Lease.State.setHolder, Queue.setWorker, holder_same, hr,
      runs_onRun_self, hphase]
    simp [holdOf, Queue.onRun, hr]
  · refine follows_of_eq rfl (runs_onRun_of_ne (Ne.symm hr)) (holder_other hw hr ?_)
    rintro v hv
    cases hv
    exact hr

/-- A statement on one row by somebody who does not hold it, which closes the
row or leaves it alone. -/
theorem follows_shut {r₀ : RunId} {f : Run → Run}
    (hf : ∀ row, q.runs r = some row → f row = row ∨ runPhase (some (f row)) = .closed)
    (hnow : q'.now = q.now) (hrow : q'.runs r = (q.onRun r₀ f).runs r)
    (hw : (fun t => holdOf r (q'.workers t)) = fun t => holdOf r (q.workers t)) :
    Follows q q' r := by
  by_cases hr : r = r₀
  · subst hr
    rw [runs_onRun_self] at hrow
    cases hold : q.runs r with
    | none =>
        rw [hold] at hrow
        exact follows_of_eq hnow (hrow.trans hold.symm) hw
    | some row =>
        rw [hold] at hrow
        rcases hf row hold with hsame | hclosed
        · exact follows_of_eq hnow (by rw [hrow, hold, Option.map_some, hsame]) hw
        · right
          have hlease : leaseOf q' r = { leaseOf q r with
              phase := .closed, beat := signOf (some (f row)) } := by
            simp only [leaseOf, hnow, hw, hrow, Option.map_some, hclosed]
          rw [hlease]
          exact .shut _ _
  · rw [runs_onRun_of_ne hr] at hrow
    exact follows_of_eq hnow hrow hw

/-- The reaper's statement on row `r`. -/
theorem follows_reap (hnow : q'.now = q.now)
    (hrow : q'.runs r = (q.runs r).map (reapOrphanRun q.now runLease))
    (hw : (fun t => holdOf r (q'.workers t)) = fun t => holdOf r (q.workers t)) :
    Follows q q' r := by
  cases hold : q.runs r with
  | none =>
      rw [hold] at hrow
      exact follows_of_eq hnow (hrow.trans hold.symm) hw
  | some row =>
      rw [hold, Option.map_some] at hrow
      cases horph : orphaned q.now runLease row with
      | false =>
          rw [reapOrphanRun_of_not_orphaned horph] at hrow
          exact follows_of_eq hnow (hrow.trans hold.symm) hw
      | true =>
          right
          rw [reapOrphanRun_of_orphaned horph] at hrow
          have hrun := status_of_orphaned horph
          have htaken : (leaseOf q r).phase = .taken := by
            simp [leaseOf, runPhase, hold, hrun]
          have hstale : (leaseOf q r).beat + runLease < (leaseOf q r).now := by
            obtain ⟨t, ht, hlt⟩ := lastSign_of_orphaned horph
            have hsign : (leaseOf q r).beat = t := by simp [leaseOf, signOf, hold, ht]
            rw [hsign]
            exact hlt
          have hlease : leaseOf q' r = { leaseOf q r with
              phase := .free, beat := signOf (some (requeue row)) } := by
            simp only [leaseOf, hnow, hw, hrow]
            rfl
          rw [hlease]
          exact .reap _ htaken hstale _

/-- **Refinement.**  Seen from a row the flow engine did not insert, every
step of the queue is a step of the lease or leaves it alone. -/
theorem leaseOf_step (hb : Bounded q) (h : step q a = some q')
    (hqueue : ∀ t, .inserted r t ∉ q'.log) : Follows q q' r := by
  have hforeign : ∀ t w x, q.flows t = some w → w.pc.row = some x → r ≠ x := by
    rintro t w x hw hrow rfl
    exact hqueue t (log_subset h (hb.owns t w r hw hrow))
  cases a with
  | tick d =>
      cases h
      exact Or.inr (.tick _ d)
  | putScript i s | spawnFlow p call | cancelCall p x reason | enqueueFlow input
  | reapFlows =>
      cases h
      exact follows_of_eq rfl rfl rfl
  | enqueue rows =>
      cases h
      by_cases hlt : r < q.nextRun
      · exact follows_of_eq rfl (appendRows_lt hlt) rfl
      · refine follows_append hb ?_ rfl rfl rfl (Nat.not_lt.mp hlt)
        intro row hrow
        obtain ⟨n, _, rfl⟩ := List.mem_map.mp hrow
        exact Or.inl rfl
  | refuse n reason =>
      cases h
      by_cases hlt : r < q.nextRun
      · exact follows_of_eq rfl (appendRows_lt hlt) rfl
      · refine follows_append hb ?_ rfl rfl rfl (Nat.not_lt.mp hlt)
        intro row hrow
        rw [List.mem_singleton.mp hrow]
        exact Or.inr rfl
  | claim p caps locked => exact follows_claim h
  | worker t reply =>
      obtain ⟨w, hw, hstep⟩ := stepWorker_inv h
      exact follows_worker hb hw hstep
  | flow t reply =>
      obtain ⟨w, hw, hstep⟩ := stepFlow_inv h
      cases hstep with
      | insert n rest hpc htodo =>
          by_cases hlt : r < q.nextRun
          · exact follows_of_eq rfl (appendRows_lt hlt) rfl
          · refine follows_append hb ?_ rfl rfl rfl (Nat.not_lt.mp hlt)
            intro row hrow
            rw [List.mem_singleton.mp hrow]
            exact Or.inl rfl
      | exec x pc out hpc hout =>
          have hne : r ≠ x := hforeign t w x hw (by rw [hpc]; rfl)
          by_cases hlt : r < q.nextRun
          · exact follows_of_eq rfl
              ((appendRows_lt hlt).trans (Function.update_of_ne hne _ _)) rfl
          · refine follows_append hb ?_ rfl rfl rfl (Nat.not_lt.mp hlt)
            intro row hrow
            obtain ⟨n, _, rfl⟩ := List.mem_map.mp hrow
            exact Or.inl rfl
      | returns | call | leave | status => exact follows_of_eq rfl rfl rfl
  | beat who =>
      rcases beat_inv h with ⟨t, w, hw, _, hq'⟩ | ⟨t, w, x, pc, hw, hpc, rfl⟩
      · exact follows_beat hw hq'
      · have hne : r ≠ x := hforeign t w x hw (by rw [hpc]; rfl)
        exact follows_of_eq rfl (runs_onRun_of_ne hne) rfl
  | cancelWrite t =>
      obtain ⟨c, _, ⟨row, hrow, htakes, rfl⟩ | rfl⟩ := cancelWrite_inv h
      · refine follows_shut (f := cancelRun q.now c.reason) ?_ rfl rfl rfl
        intro row' _
        unfold cancelRun
        split
        · exact Or.inl rfl
        · exact Or.inr rfl
      · exact follows_of_eq rfl rfl rfl
  | reapRuns =>
      cases h
      exact follows_reap rfl rfl rfl
  | failStale maxAge =>
      cases h
      refine follows_shut (f := failStalePending q.now maxAge) ?_ rfl
        runs_onRun_self.symm rfl
      intro row _
      unfold failStalePending
      split
      · exact Or.inr rfl
      · exact Or.inl rfl
  | claimFlow p locked =>
      obtain ⟨f, row', _, _, rfl⟩ := claimFlow_inv h
      exact follows_of_eq rfl rfl rfl
  | driver t m =>
      obtain ⟨d, _, hstep⟩ := stepDriver_inv h
      cases hstep <;> exact follows_of_eq rfl rfl rfl
  | crash p =>
      cases h
      right
      have hlease : Lease.Step runLease _ _ := .die (leaseOf q r)
        fun t => (q.workers t).any fun w => w.proc = p
      convert hlease using 1
      simp only [leaseOf, Queue.crash]
      congr 1
      funext t
      cases q.workers t with
      | none => rfl
      | some w =>
          by_cases hp : w.proc = p <;> simp [holdOf, Option.filter, hp]

end RunSteps

/-! ## The lease of a row of `flow_runs` -/

/-- The phase of a row of `flow_runs`. -/
def flowPhase : Option FlowRun → Lease.Phase
  | none => .closed
  | some row =>
      match row.status with
      | .pending => .free
      | .running => .taken
      | .succeeded | .failed | .compensationFailed => .closed

/-- What a driver is doing with its row; past `drive` it holds nothing. -/
def driverHold (f : FlowId) (d : Option Driver) : Option Lease.Hold :=
  match d with
  | some d =>
      if d.flow = f then
        match d.pc with
        | .drive => some ⟨.working, d.beatAt⟩
        | .finished => some ⟨.finished, d.beatAt⟩
        | .failing => none
      else none
  | none => none

/-- The timestamp the reaper compares. -/
def flowSign (row : Option FlowRun) : Nat := (row.bind FlowRun.startedAt).getD 0

/-- The lease of flow run `f`. -/
def flowLeaseOf (q : Queue) (f : FlowId) : Lease.State TaskId where
  now := q.now
  phase := flowPhase (q.flowRuns f)
  beat := flowSign (q.flowRuns f)
  holder := fun t => driverHold f (q.drivers t)

/-- Inside `drive`. -/
def DriverPc.inDrive : DriverPc → Bool
  | .drive | .finished => true
  | .failing => false

/-- Flow ids come from their counter, and a running row has a timestamp. -/
structure FlowBounded (q : Queue) : Prop where
  drivers : ∀ t d, q.drivers t = some d → d.flow < q.nextFlow
  rows : ∀ f row, q.flowRuns f = some row → f < q.nextFlow
  started : ∀ f row, q.flowRuns f = some row → row.status = .running →
    row.startedAt.isSome

section FlowSteps

variable {q q' : Queue} {a : Label} {f : FlowId}

theorem driver_other {t : TaskId} {v : Driver} {o : Option Driver}
    (hv : q.drivers t = some v) (hf : v.flow ≠ f) (ho : ∀ w, o = some w → w.flow ≠ f) :
    (fun t' => driverHold f (Function.update q.drivers t o t')) =
      fun t' => driverHold f (q.drivers t') := by
  funext t'
  by_cases ht : t' = t
  · subst ht
    simp only [Function.update_self]
    rw [hv]
    cases o with
    | none => simp [driverHold, hf]
    | some w => simp [driverHold, hf, ho w rfl]
  · simp [Function.update_of_ne ht]

theorem driver_same {t : TaskId} (o : Option Driver) :
    (fun t' => driverHold f (Function.update q.drivers t o t')) =
      Function.update (fun t' => driverHold f (q.drivers t')) t (driverHold f o) := by
  funext t'
  by_cases ht : t' = t
  · subst ht
    simp
  · simp [Function.update_of_ne ht]

/-- The lease of `f` after one step. -/
def FlowFollows (q q' : Queue) (f : FlowId) : Prop :=
  flowLeaseOf q' f = flowLeaseOf q f ∨
    Lease.Step flowLease (flowLeaseOf q f) (flowLeaseOf q' f)

theorem flowFollows_of_eq (hnow : q'.now = q.now) (hrow : q'.flowRuns f = q.flowRuns f)
    (hd : (fun t => driverHold f (q'.drivers t)) = fun t => driverHold f (q.drivers t)) :
    FlowFollows q q' f := by
  left
  unfold flowLeaseOf
  rw [hnow, hrow, hd]

/-- A driver's own step. -/
theorem flowFollows_driver {t : TaskId} {d : Driver} (hd : q.drivers t = some d)
    (hstep : DriverStep q t d q') : FlowFollows q q' f := by
  by_cases hf : d.flow = f
  · cases hstep with
    | touch hpc =>
        right
        obtain ⟨m, hk⟩ : ∃ m, (flowLeaseOf q f).holder t = some ⟨m, d.beatAt⟩ ∧
            ∀ b, driverHold f (some { d with flow := f, beatAt := b }) = some ⟨m, b⟩ := by
          rcases hpc with hpc | hpc
          · exact ⟨.working, by simp [flowLeaseOf, driverHold, hd, hf, hpc],
              fun b => by simp [driverHold, hpc]⟩
          · exact ⟨.finished, by simp [flowLeaseOf, driverHold, hd, hf, hpc],
              fun b => by simp [driverHold, hpc]⟩
        have hbeat : (flowLeaseOf q f).phase = .taken →
            flowSign ((q.flowRuns f).map (touchFlowRun q.now)) = (flowLeaseOf q f).now := by
          intro hp
          cases hrow : q.flowRuns f with
          | none => simp [flowLeaseOf, flowPhase, hrow] at hp
          | some row => rfl
        have hlease : Lease.Step flowLease _ _ := .beat (flowLeaseOf q f) t _ hk.1 _ hbeat
        convert hlease using 1
        have hphase : flowPhase ((q.flowRuns f).map (touchFlowRun q.now)) =
            flowPhase (q.flowRuns f) := by
          cases q.flowRuns f <;> rfl
        simp only [flowLeaseOf, Lease.State.setHolder, Queue.setDriver, driver_same,
          Queue.onFlow, hf, Function.update_self, hphase, hk.2]
    | finish status hpc hst =>
        right
        have hk : (flowLeaseOf q f).holder t = some ⟨.working, d.beatAt⟩ := by
          simp [flowLeaseOf, driverHold, hd, hf, hpc]
        have hin : (Lease.Hold.mk .working d.beatAt).Inside := by
          simp [Lease.Hold.Inside]
        have hlease : Lease.Step flowLease _ _ := .finish (flowLeaseOf q f) t _ hk hin
          (flowSign ((q.flowRuns f).map (finishFlowRun q.now status)))
        convert hlease using 1
        have hphase : flowPhase ((q.flowRuns f).map (finishFlowRun q.now status)) =
            .closed := by
          cases q.flowRuns f with
          | none => rfl
          | some row =>
              cases status with
              | pending => exact (hst (Or.inl rfl)).elim
              | running => exact (hst (Or.inr rfl)).elim
              | succeeded | failed | compensationFailed => rfl
        simp only [flowLeaseOf, Lease.State.setHolder, Queue.setDriver, driver_same,
          Queue.onFlow, hf, Function.update_self, hphase]
        simp [driverHold]
    | error hpc =>
        right
        have hlease : Lease.Step flowLease _ _ := .leave (flowLeaseOf q f) t
        convert hlease using 1
        simp only [flowLeaseOf, Lease.State.setHolder, Queue.setDriver, driver_same]
        simp [driverHold, hf]
    | done hpc =>
        right
        have hlease : Lease.Step flowLease _ _ := .leave (flowLeaseOf q f) t
        convert hlease using 1
        simp only [flowLeaseOf, Lease.State.setHolder, Queue.setDriver, driver_same]
        rfl
    | recorded hpc =>
        -- the task held nothing any more; whoever holds the row sees it close
        have hnone : driverHold f (q.drivers t) = none := by simp [driverHold, hd, hf, hpc]
        have hhold : (fun t' => driverHold f (Function.update q.drivers t none t')) =
            fun t' => driverHold f (q.drivers t') := by
          rw [driver_same]
          funext t'
          by_cases ht : t' = t
          · subst ht
            rw [Function.update_self, hnone]
            rfl
          · rw [Function.update_of_ne ht]
        cases hrow : q.flowRuns f with
        | none =>
            refine flowFollows_of_eq rfl ?_ hhold
            simp [Queue.setDriver, Queue.onFlow, hf, hrow]
        | some row =>
            right
            have hlease : Lease.Step flowLease _ _ := .shut (flowLeaseOf q f)
              (flowSign (some (finishFlowRun q.now .failed row)))
            convert hlease using 1
            simp only [flowLeaseOf, Queue.setDriver, Queue.onFlow, hf, Function.update_self,
              hrow, hhold]
            rfl
  · have hother : ∀ o : Option Driver, (∀ v, o = some v → v.flow = d.flow) →
        (fun t' => driverHold f (Function.update q.drivers t o t')) =
          fun t' => driverHold f (q.drivers t') := fun o ho =>
      driver_other hd hf fun v hv => by rw [ho v hv]; exact hf
    have hrow : ∀ g, (q.onFlow d.flow g).flowRuns f = q.flowRuns f := fun g =>
      Function.update_of_ne (Ne.symm hf) _ _
    cases hstep with
    | touch | finish =>
        refine flowFollows_of_eq rfl (hrow _) (hother _ ?_)
        rintro v hv
        cases hv
        rfl
    | error =>
        refine flowFollows_of_eq rfl rfl (hother _ ?_)
        rintro v hv
        cases hv
        rfl
    | done => exact flowFollows_of_eq rfl rfl (hother none fun v hv => by cases hv)
    | recorded => exact flowFollows_of_eq rfl (hrow _) (hother none fun v hv => by cases hv)

theorem driver_none (hb : FlowBounded q) (hf : q.nextFlow ≤ f) (t : TaskId) :
    (flowLeaseOf q f).holder t = none := by
  simp only [flowLeaseOf, driverHold]
  cases hd : q.drivers t with
  | none => rfl
  | some d => exact if_neg (Nat.ne_of_lt (Nat.lt_of_lt_of_le (hb.drivers t d hd) hf))

/-- The reaper's statement on row `f`. -/
theorem flowFollows_reap (hb : FlowBounded q)
    (hnow : q'.now = q.now)
    (hrow : q'.flowRuns f = (q.flowRuns f).map (reapOrphanFlowRun q.now flowLease))
    (hd : (fun t => driverHold f (q'.drivers t)) = fun t => driverHold f (q.drivers t)) :
    FlowFollows q q' f := by
  cases hold : q.flowRuns f with
  | none =>
      rw [hold] at hrow
      exact flowFollows_of_eq hnow (hrow.trans hold.symm) hd
  | some row =>
      rw [hold, Option.map_some] at hrow
      cases horph : orphanedFlow q.now flowLease row with
      | false =>
          rw [reapOrphanFlowRun_of_not_orphaned horph] at hrow
          exact flowFollows_of_eq hnow (hrow.trans hold.symm) hd
      | true =>
          right
          rw [reapOrphanFlowRun_of_orphaned horph] at hrow
          have hrun := status_of_orphanedFlow horph
          obtain ⟨t, ht⟩ := Option.isSome_iff_exists.mp (hb.started f row hold hrun)
          have htaken : (flowLeaseOf q f).phase = .taken := by
            simp [flowLeaseOf, flowPhase, hold, hrun]
          have hsign : (flowLeaseOf q f).beat = t := by
            simp [flowLeaseOf, flowSign, hold, ht]
          have hstale : (flowLeaseOf q f).beat + flowLease < (flowLeaseOf q f).now := by
            rw [hsign]
            exact ((orphanedFlow_started ht).mp horph).2
          have hlease : flowLeaseOf q' f = { flowLeaseOf q f with
              phase := .free, beat := flowSign (some { row with status := .pending }) } := by
            simp only [flowLeaseOf, hnow, hd, hrow]
            rfl
          rw [hlease]
          exact .reap _ htaken hstale _

/-- **Refinement.**  Every step of the queue is a step of the lease of a flow
run or leaves it alone. -/
theorem flowLeaseOf_step (hb : FlowBounded q) (h : step q a = some q') :
    FlowFollows q q' f := by
  cases a with
  | tick d =>
      cases h
      exact Or.inr (.tick _ d)
  | putScript i s | spawnFlow p call | cancelCall p x reason | enqueue rows
  | refuse n reason | reapRuns | failStale maxAge =>
      cases h
      exact flowFollows_of_eq rfl rfl rfl
  | claim p caps locked =>
      obtain ⟨_, _, _, _, _, _, _, rfl⟩ := claim_inv h
      exact flowFollows_of_eq rfl rfl rfl
  | worker t reply =>
      obtain ⟨w, hw, hstep⟩ := stepWorker_inv h
      cases hstep <;> exact flowFollows_of_eq rfl rfl rfl
  | flow t reply =>
      obtain ⟨w, hw, hstep⟩ := stepFlow_inv h
      cases hstep <;> exact flowFollows_of_eq rfl rfl rfl
  | beat who =>
      rcases beat_inv h with ⟨_, _, _, _, rfl⟩ | ⟨_, _, _, _, _, _, rfl⟩ <;>
        exact flowFollows_of_eq rfl rfl rfl
  | cancelWrite t =>
      obtain ⟨c, _, ⟨row, hrow, htakes, rfl⟩ | rfl⟩ := cancelWrite_inv h <;>
        exact flowFollows_of_eq rfl rfl rfl
  | enqueueFlow input =>
      cases h
      by_cases hf : f = q.nextFlow
      · subst hf
        right
        have hlease : Lease.Step flowLease _ _ := .offer (flowLeaseOf q q.nextFlow) 0
          (driver_none hb (Nat.le_refl _))
        convert hlease using 1
        simp [flowLeaseOf, flowPhase, flowSign, insertFlowRun]
      · exact flowFollows_of_eq rfl (Function.update_of_ne hf _ _) rfl
  | claimFlow p locked =>
      obtain ⟨f₀, row, hrow, hpend, rfl⟩ := claimFlow_inv h
      right
      by_cases hf : f = f₀
      · subst hf
        have hfree : (flowLeaseOf q f).phase = .free := by
          simp [flowLeaseOf, flowPhase, hrow, hpend]
        have hlease : Lease.Step flowLease _ _ := .take (flowLeaseOf q f) q.nextTask
          hfree
        convert hlease using 1
        simp only [flowLeaseOf, Lease.State.setHolder, Queue.setDriver, driver_same]
        simp [Queue.onFlow, hrow, flowPhase, flowSign, driverHold, claimFlowRun]
      · have hlease : Lease.Step flowLease _ _ := .leave (flowLeaseOf q f) q.nextTask
        convert hlease using 1
        simp only [flowLeaseOf, Lease.State.setHolder, Queue.setDriver, driver_same]
        have hne : ¬ f₀ = f := fun heq => hf heq.symm
        simp [Queue.onFlow, Function.update_of_ne hf, driverHold, hne]
  | driver t m =>
      obtain ⟨d, hd, hstep⟩ := stepDriver_inv h
      exact flowFollows_driver hd hstep
  | reapFlows =>
      cases h
      exact flowFollows_reap hb rfl rfl rfl
  | crash p =>
      cases h
      right
      have hlease : Lease.Step flowLease _ _ := .die (flowLeaseOf q f)
        fun t => (q.drivers t).any fun d => d.proc = p
      convert hlease using 1
      simp only [flowLeaseOf, Queue.crash]
      congr 1
      funext t
      cases q.drivers t with
      | none => rfl
      | some d =>
          by_cases hp : d.proc = p <;> simp [driverHold, Option.filter, hp]

theorem flowBounded_init (now : Nat) : FlowBounded (init now) where
  drivers := fun _ _ h => by cases h
  rows := fun _ _ h => by cases h
  started := fun _ _ h => by cases h

/-- A statement on one row of `flow_runs` that starts no row without a
timestamp keeps `FlowBounded`. -/
theorem FlowBounded.onFlow (hb : FlowBounded q) {f₀ : FlowId} {g : FlowRun → FlowRun}
    (hg : ∀ row, q.flowRuns f₀ = some row → (g row).status = .running →
      (g row).startedAt.isSome)
    (hrows : q'.flowRuns = (q.onFlow f₀ g).flowRuns) (hnext : q'.nextFlow = q.nextFlow)
    (hd : ∀ t d, q'.drivers t = some d → d.flow < q.nextFlow) : FlowBounded q' := by
  have hcase : ∀ f row, q'.flowRuns f = some row →
      (∃ row₀, f = f₀ ∧ q.flowRuns f₀ = some row₀ ∧ row = g row₀) ∨
        q.flowRuns f = some row := by
    intro f row hrow
    rw [hrows] at hrow
    by_cases hf : f = f₀
    · subst hf
      simp only [Queue.onFlow, Function.update_self, Option.map_eq_some_iff] at hrow
      obtain ⟨row₀, hrow₀, rfl⟩ := hrow
      exact Or.inl ⟨row₀, rfl, hrow₀, rfl⟩
    · exact Or.inr (by simpa [Queue.onFlow, Function.update_of_ne hf] using hrow)
  refine ⟨?_, ?_, ?_⟩
  · intro t d hdt
    rw [hnext]
    exact hd t d hdt
  · intro f row hrow
    rw [hnext]
    rcases hcase f row hrow with ⟨row₀, rfl, hrow₀, _⟩ | hold
    · exact hb.rows _ _ hrow₀
    · exact hb.rows _ _ hold
  · intro f row hrow hrun
    rcases hcase f row hrow with ⟨row₀, rfl, hrow₀, rfl⟩ | hold
    · exact hg row₀ hrow₀ hrun
    · exact hb.started _ _ hold hrun

/-- Every step keeps `FlowBounded`. -/
theorem FlowBounded.step (hb : FlowBounded q) (h : step q a = some q') :
    FlowBounded q' := by
  cases a with
  | tick d | putScript i s | spawnFlow p call | cancelCall p x reason | enqueue rows
  | refuse n reason | reapRuns | failStale maxAge =>
      cases h
      exact ⟨hb.drivers, hb.rows, hb.started⟩
  | claim p caps locked =>
      obtain ⟨_, _, _, _, _, _, _, rfl⟩ := claim_inv h
      exact ⟨hb.drivers, hb.rows, hb.started⟩
  | worker t reply =>
      obtain ⟨w, hw, hstep⟩ := stepWorker_inv h
      cases hstep <;> exact ⟨hb.drivers, hb.rows, hb.started⟩
  | flow t reply =>
      obtain ⟨w, hw, hstep⟩ := stepFlow_inv h
      cases hstep <;> exact ⟨hb.drivers, hb.rows, hb.started⟩
  | beat who =>
      rcases beat_inv h with ⟨_, _, _, _, rfl⟩ | ⟨_, _, _, _, _, _, rfl⟩ <;>
        exact ⟨hb.drivers, hb.rows, hb.started⟩
  | cancelWrite t =>
      obtain ⟨c, _, ⟨row, hrow, htakes, rfl⟩ | rfl⟩ := cancelWrite_inv h <;>
        exact ⟨hb.drivers, hb.rows, hb.started⟩
  | enqueueFlow input =>
      cases h
      have hcase : ∀ f row, Function.update q.flowRuns q.nextFlow
          (some (insertFlowRun input)) f = some row →
          (f = q.nextFlow ∧ row = insertFlowRun input) ∨ q.flowRuns f = some row := by
        intro f row hrow
        rcases update_some hrow with ⟨rfl, hnew⟩ | hold
        · exact Or.inl ⟨rfl, (Option.some.inj hnew).symm⟩
        · exact Or.inr hold
      refine ⟨fun t d hd => Nat.lt_succ_of_lt (hb.drivers t d hd), ?_, ?_⟩
      · intro f row hrow
        rcases hcase f row hrow with ⟨rfl, _⟩ | hold
        · exact Nat.lt_succ_self _
        · exact Nat.lt_succ_of_lt (hb.rows f row hold)
      · intro f row hrow hrun
        rcases hcase f row hrow with ⟨_, rfl⟩ | hold
        · cases hrun
        · exact hb.started f row hold hrun
  | claimFlow p locked =>
      obtain ⟨f, row, hrow, hpend, rfl⟩ := claimFlow_inv h
      refine hb.onFlow (g := claimFlowRun q.now) (fun _ _ _ => rfl) rfl rfl ?_
      intro t d hd
      rcases update_some hd with ⟨_, hnew⟩ | hold
      · cases hnew
        exact hb.rows f row hrow
      · exact hb.drivers t d hold
  | driver t m =>
      obtain ⟨d, hd, hstep⟩ := stepDriver_inv h
      have hkeep : ∀ (o : Option Driver), (∀ v, o = some v → v.flow = d.flow) →
          ∀ t' v, Function.update q.drivers t o t' = some v → v.flow < q.nextFlow := by
        intro o ho t' v hv
        rcases update_some hv with ⟨_, hnew⟩ | hold
        · rw [ho v hnew]
          exact hb.drivers t d hd
        · exact hb.drivers t' v hold
      cases hstep with
      | touch hpc =>
          exact hb.onFlow (fun _ _ _ => rfl) rfl rfl
            (hkeep _ fun v hv => by cases hv; rfl)
      | finish status hpc hst =>
          refine hb.onFlow ?_ rfl rfl
            (hkeep _ fun v hv => by cases hv; rfl)
          intro row _ hrun
          exact (hst (Or.inr hrun)).elim
      | error hpc =>
          exact ⟨hkeep _ (fun v hv => by cases hv; rfl), hb.rows, hb.started⟩
      | done hpc => exact ⟨hkeep none (fun v hv => by cases hv), hb.rows, hb.started⟩
      | recorded hpc =>
          exact hb.onFlow (fun _ _ hrun => by cases hrun) rfl rfl
            (hkeep none fun v hv => by cases hv)
  | reapFlows =>
      cases h
      have hcase : ∀ f row,
          (q.flowRuns f).map (reapOrphanFlowRun q.now flowLease) = some row →
          ∃ row₀, q.flowRuns f = some row₀ ∧
            row = reapOrphanFlowRun q.now flowLease row₀ := by
        intro f row hrow
        obtain ⟨row₀, hrow₀, rfl⟩ := Option.map_eq_some_iff.mp hrow
        exact ⟨row₀, hrow₀, rfl⟩
      refine ⟨hb.drivers, ?_, ?_⟩
      · intro f row hrow
        obtain ⟨row₀, hrow₀, _⟩ := hcase f row hrow
        exact hb.rows f row₀ hrow₀
      · intro f row hrow hrun
        obtain ⟨row₀, hrow₀, rfl⟩ := hcase f row hrow
        cases horph : orphanedFlow q.now flowLease row₀ with
        | false =>
            rw [reapOrphanFlowRun_of_not_orphaned horph] at hrun ⊢
            exact hb.started f row₀ hrow₀ hrun
        | true =>
            rw [reapOrphanFlowRun_of_orphaned horph] at hrun
            cases hrun
  | crash p =>
      cases h
      exact ⟨fun t d hd => hb.drivers t d (Option.filter_eq_some_iff.mp hd).1, hb.rows,
        hb.started⟩

end FlowSteps

/-! ## Lease safety -/

/-- Every live owner's last touch is within the lease: a worker's from the
claim to the end of `Executor::run`, a driver's while inside `drive`. -/
structure OnTime (q : Queue) : Prop where
  workers : ∀ t w, q.workers t = some w → w.pc.inRun = true →
    q.now ≤ w.beatAt + runLease
  drivers : ∀ t d, q.drivers t = some d → d.pc.inDrive = true →
    q.now ≤ d.beatAt + flowLease

/-- The step leaves every live owner on time. -/
def StaysOnTime (q : Queue) (a : Label) : Prop :=
  ∀ q', step q a = some q' → OnTime q'

/-- One owner at a time, and the reapers leave its row alone. -/
structure LeaseSafe (q : Queue) : Prop where
  runs : ∀ t t' w w', q.workers t = some w → q.workers t' = some w' →
    w.job.runId = w'.job.runId → (∀ x, .inserted w.job.runId x ∉ q.log) →
    w.pc.inRun = true → w'.pc.inRun = true → t = t'
  flows : ∀ t t' d d', q.drivers t = some d → q.drivers t' = some d' →
    d.flow = d'.flow → d.pc.inDrive = true → d'.pc.inDrive = true → t = t'
  runsKept : ∀ t w row, q.workers t = some w → w.pc.inRun = true →
    (∀ x, .inserted w.job.runId x ∉ q.log) → q.runs w.job.runId = some row →
    reapOrphanRun q.now runLease row = row
  flowsKept : ∀ t d row, q.drivers t = some d → d.pc.inDrive = true →
    q.flowRuns d.flow = some row → reapOrphanFlowRun q.now flowLease row = row

/-- The lease invariant of every row the worker queue owns and of every flow
run. -/
structure LeaseInv (q : Queue) : Prop where
  bounded : Bounded q
  flowBounded : FlowBounded q
  runs : ∀ r, (∀ t, .inserted r t ∉ q.log) → Lease.Inv runLease (leaseOf q r)
  flows : ∀ f, Lease.Inv flowLease (flowLeaseOf q f)

theorem leaseInv_init (now : Nat) : LeaseInv (init now) where
  bounded := bounded_init now
  flowBounded := flowBounded_init now
  runs := fun _ _ => Lease.Inv.of_no_holder fun _ => rfl
  flows := fun _ => Lease.Inv.of_no_holder fun _ => rfl

section Safety

variable {q q' : Queue} {a : Label}

theorem OnTime.runTimely (hq : OnTime q) (r : RunId) :
    Lease.Timely runLease (leaseOf q r) := by
  intro t k hk hin
  cases hw : q.workers t with
  | none => simp [leaseOf, holdOf, hw] at hk
  | some w =>
      by_cases hr : w.job.runId = r
      · rw [holder_of hw hr] at hk
        cases hk
        exact hq.workers t w hw (w.pc.inRun_iff.mpr hin)
      · simp [leaseOf, holdOf, hw, hr] at hk

theorem driverHold_some {f : FlowId} {d : Driver} {k : Lease.Hold}
    (hk : driverHold f (some d) = some k) :
    d.flow = f ∧ d.pc.inDrive = true ∧ k.last = d.beatAt ∧ k.Inside := by
  by_cases hf : d.flow = f
  · cases hpc : d.pc <;> simp only [driverHold, if_pos hf, hpc] at hk <;> cases hk
    · exact ⟨hf, rfl, rfl, by simp [Lease.Hold.Inside]⟩
    · exact ⟨hf, rfl, rfl, by simp [Lease.Hold.Inside]⟩
  · simp [driverHold, hf] at hk

/-- A driver inside `drive` holds its flow run. -/
theorem driver_holds {t : TaskId} {d : Driver} (hd : q.drivers t = some d)
    (hin : d.pc.inDrive = true) :
    ∃ k, (flowLeaseOf q d.flow).holder t = some k ∧ k.Inside := by
  cases hpc : d.pc with
  | drive =>
      refine ⟨⟨.working, d.beatAt⟩, ?_, by simp [Lease.Hold.Inside]⟩
      simp [flowLeaseOf, driverHold, hd, hpc]
  | finished =>
      refine ⟨⟨.finished, d.beatAt⟩, ?_, by simp [Lease.Hold.Inside]⟩
      simp [flowLeaseOf, driverHold, hd, hpc]
  | failing =>
      rw [hpc] at hin
      cases hin

theorem OnTime.flowTimely (hq : OnTime q) (f : FlowId) :
    Lease.Timely flowLease (flowLeaseOf q f) := by
  intro t k hk _
  cases hd : q.drivers t with
  | none => simp [flowLeaseOf, driverHold, hd] at hk
  | some d =>
      have hk' : driverHold f (some d) = some k := by simpa [flowLeaseOf, hd] using hk
      obtain ⟨_, hin, hlast, _⟩ := driverHold_some hk'
      rw [hlast]
      exact hq.drivers t d hd hin

/-- Every step that leaves the owners on time keeps the invariant. -/
theorem LeaseInv.step (hI : LeaseInv q) (htime : StaysOnTime q a)
    (h : step q a = some q') : LeaseInv q' := by
  refine ⟨hI.bounded.step h, hI.flowBounded.step h, ?_, ?_⟩
  · intro r hqueue
    have hold := hI.runs r fun t hin => hqueue t (log_subset h hin)
    rcases leaseOf_step hI.bounded h hqueue with heq | hstep
    · rw [heq]
      exact hold
    · exact hold.step hstep ((htime q' h).runTimely r)
  · intro f
    rcases flowLeaseOf_step (f := f) hI.flowBounded h with heq | hstep
    · rw [heq]
      exact hI.flows f
    · exact (hI.flows f).step hstep ((htime q' h).flowTimely f)

/-- The invariant makes the queue safe. -/
theorem LeaseInv.safe (hI : LeaseInv q) : LeaseSafe q where
  runs := by
    intro t t' w w' hw hw' hr hqueue _ _
    exact (hI.runs w.job.runId hqueue).mutex (holder_of hw rfl) (holder_of hw' hr.symm)
  flows := by
    intro t t' d d' hd hd' hf hin hin'
    obtain ⟨k, hk, _⟩ := driver_holds hd hin
    obtain ⟨k', hk', _⟩ := driver_holds hd' hin'
    rw [← hf] at hk'
    exact (hI.flows d.flow).mutex hk hk'
  runsKept := by
    intro t w row hw hin hqueue hrow
    refine reapOrphanRun_of_not_orphaned ?_
    by_contra horph
    have horph : orphaned q.now runLease row = true := by simpa using horph
    obtain ⟨s, hs, hstale⟩ := lastSign_of_orphaned horph
    have htaken : (leaseOf q w.job.runId).phase = .taken := by
      simp [leaseOf, runPhase, hrow, status_of_orphaned horph]
    have hsign : (leaseOf q w.job.runId).beat = s := by
      simp [leaseOf, signOf, hrow, hs]
    refine (hI.runs w.job.runId hqueue).not_stale (holder_of hw rfl)
      (w.pc.inRun_iff.mp hin) htaken ?_
    rw [hsign]
    exact hstale
  flowsKept := by
    intro t d row hd hin hrow
    refine reapOrphanFlowRun_of_not_orphaned ?_
    by_contra horph
    have horph : orphanedFlow q.now flowLease row = true := by simpa using horph
    have hrun := status_of_orphanedFlow horph
    obtain ⟨s, hs⟩ := Option.isSome_iff_exists.mp (hI.flowBounded.started _ row hrow hrun)
    obtain ⟨k, hk, hinside⟩ := driver_holds hd hin
    have htaken : (flowLeaseOf q d.flow).phase = .taken := by
      simp [flowLeaseOf, flowPhase, hrow, hrun]
    have hsign : (flowLeaseOf q d.flow).beat = s := by
      simp [flowLeaseOf, flowSign, hrow, hs]
    refine (hI.flows d.flow).not_stale hk hinside htaken ?_
    rw [hsign]
    exact ((orphanedFlow_started hs).mp horph).2

end Safety

/-- **Lease safety**, over every run of the queue whose live owners stay on
time. -/
theorem lease_safe (now : Nat) (l : List Label) (q : Queue)
    (htime : Along step StaysOnTime (init now) l)
    (hrun : run step (init now) l = some q) : LeaseSafe q := by
  have hstep : ∀ s a s', LeaseInv s → StaysOnTime s a → step s a = some s' →
      LeaseInv s' := fun _ _ _ hI hC h => hI.step hC h
  exact (inv_run hstep (leaseInv_init now) htime hrun).safe

/-- While the clock has not passed the lease nobody can be late. -/
theorem onTime_of_now_le {q : Queue} (hr : q.now ≤ runLease) (hf : q.now ≤ flowLease) :
    OnTime q where
  workers := fun _ _ _ _ => Nat.le_trans hr (Nat.le_add_left _ _)
  drivers := fun _ _ _ _ => Nat.le_trans hf (Nat.le_add_left _ _)

/-- A worker executes a run and an engine drives a flow run while both reapers
pass. -/
def leased : List Label :=
  [.putScript 7 ⟨"bash", none⟩,
    .enqueue [⟨7, .null, none, none, false, none⟩],
    .claim 0 ["bash"] fun _ => false, .worker 0 .ok, .beat (.worker 0), .reapRuns,
    .enqueueFlow none, .claimFlow 0 fun _ => false, .driver 1 .touch, .reapFlows]

theorem lease_safe_leased :
    ∃ q, run step (init 0) leased = some q ∧ Along step StaysOnTime (init 0) leased ∧
      (q.workers 0).isSome ∧ (q.drivers 1).isSome ∧ LeaseSafe q := by
  have hzero : ∀ q : Queue, q.now = 0 → OnTime q := by
    intro q hq
    exact onTime_of_now_le (hq ▸ Nat.zero_le _) (hq ▸ Nat.zero_le _)
  have htime : Along step StaysOnTime (init 0) leased := by
    repeat refine along_cons rfl (fun _ h => by cases h; exact hzero _ rfl) ?_
    trivial
  exact ⟨_, rfl, htime, rfl, rfl, lease_safe 0 leased _ htime rfl⟩

end Dokan.Ports.RunQueue
