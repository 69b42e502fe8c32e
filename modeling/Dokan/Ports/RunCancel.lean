import Dokan.Ports.RunQueueSteps

/-!
# Canceling a run

`cancel_run` wins over a racing `finish_run`, but two things lie outside that
guard.  A worker that has read a failed outcome and decided to retry writes
`requeue` unconditionally, so a cancel that lands in between is undone; and
`Executor::cancel` kills only a container that is already in `active`, so an
execution that has not got that far goes on to start the script of a run that
is canceled.  Each result below holds of every run of the queue whose cancels
avoid the window in question.

## Main results

* `canceled_absorbing` — a canceled run stays canceled and is never claimed.
* `canceled_before_start` — a run canceled before its script started is not
  started afterwards.
-/

namespace Dokan.Ports.RunQueue

open Dokan.Verified.Machine
open Dokan.Verified.Json
open Dokan.Ports.RunRow
open Dokan.Ports.ExecJob

/-- The label is a `cancel_run` of `r` that takes effect. -/
def CancelsAt (q : Queue) (a : Label) (r : RunId) : Prop :=
  ∃ t c row, a = .cancelWrite t ∧ q.cancels t = some c ∧ c.run = r ∧
    q.runs r = some row ∧ cancelTakes row = true

/-- After a cancel that takes effect the row is canceled. -/
theorem CancelsAt.row {q q' : Queue} {a : Label} {r : RunId} (hc : CancelsAt q a r)
    (h : step q a = some q') : ∃ row, q'.runs r = some row ∧ row.status = .canceled := by
  obtain ⟨t, c, row, rfl, hcancel, rfl, hrow, htakes⟩ := hc
  obtain ⟨c', hc', hor⟩ := cancelWrite_inv h
  rw [hcancel] at hc'
  cases hc'
  have hlive : row.status ≠ .succeeded := by simpa [cancelTakes] using htakes
  rcases hor with ⟨row', hrow', _, rfl⟩ | rfl
  · rw [hrow] at hrow'
    cases hrow'
    refine ⟨cancelRun q.now c.reason row, by simp [Queue.onRun, Queue.record, hrow], ?_⟩
    rw [cancelRun_status, if_neg hlive]
  · simp only [step, Queue.cancelWrite, hcancel, Option.bind_eq_bind, Option.bind_some,
      hrow, htakes, if_true, Option.pure_def, Option.some.injEq] at h
    have hlog := congrArg Queue.log h
    exact absurd hlog (List.cons_ne_self _ _)

/-- A cancel in the history is old or the step's own. -/
theorem canceled_log {q q' : Queue} {a : Label} {r : RunId} (h : step q a = some q')
    (hin : .canceled r ∈ q'.log) : .canceled r ∈ q.log ∨ CancelsAt q a r := by
  generalize hlog : q'.log = log at hin
  cases hlog ▸ step_log h with
  | nothing => exact Or.inl hin
  | inserted | calledWorker | calledFlow | startedWorker | startedFlow =>
      rcases List.mem_cons.mp hin with heq | hin
      · cases heq
      · exact Or.inl hin
  | canceled t c row ha hc hrow htakes =>
      rcases List.mem_cons.mp hin with heq | hin
      · cases heq
        exact Or.inr ⟨t, c, row, ha, hc, rfl, hrow, htakes⟩
      · exact Or.inl hin

/-! ## A canceled run stays canceled -/

/-- The worker has decided to retry. -/
def WorkerPc.deciding : WorkerPc → Bool
  | .errorRead | .requeue => true
  | _ => false

/-- No worker holds a retry decision for a run that is being canceled. -/
def NoRetryPending (q : Queue) (a : Label) : Prop :=
  ∀ r, CancelsAt q a r → ∀ t w, q.workers t = some w → w.job.runId = r →
    w.pc.deciding = false

/-- Canceled runs are canceled, and nobody is about to requeue one. -/
structure CancelInv (q : Queue) : Prop where
  bounded : Bounded q
  row : ∀ r, .canceled r ∈ q.log → ∃ row, q.runs r = some row ∧ row.status = .canceled
  undecided : ∀ r, .canceled r ∈ q.log → ∀ t w, q.workers t = some w →
    w.job.runId = r → w.pc.deciding = false

theorem cancelInv_init (now : Nat) : CancelInv (init now) where
  bounded := bounded_init now
  row := fun _ h => by cases h
  undecided := fun _ h => by cases h

/-- A decision to retry a run comes from an earlier one or from a row that
reads failed. -/
theorem deciding_from {q : Queue} {a : Label} {t : TaskId} {w : WorkerTask}
    (hw : WorkerFrom q a t w) (hd : w.pc.deciding = true) :
    (∃ v, q.workers t = some v ∧ v.job = w.job ∧ v.pc.deciding = true) ∨
      (∃ row reply, a = .worker t reply ∧ q.runs w.job.runId = some row ∧
        row.status = .failed) := by
  cases hw with
  | kept _ hv => exact Or.inl ⟨_, hv, rfl, hd⟩
  | beaten v hv => exact Or.inl ⟨v, hv, rfl, hd⟩
  | claimed _ row p caps locked ha hclaim hrow hp hpc => simp [hpc, WorkerPc.deciding] at hd
  | marked | left | exec => cases hd
  | retry v attempt row pc reply ha hv hpc hrow hret =>
      simp only [retries, Bool.and_eq_true, decide_eq_true_eq] at hret
      exact Or.inr ⟨row, reply, ha, hrow, hret.1.1⟩
  | errorRead v hv hpc => exact Or.inl ⟨v, hv, rfl, by rw [hpc]; rfl⟩

/-- Every step that cancels no run under a retry decision keeps the
invariant. -/
theorem CancelInv.step {q q' : Queue} {a : Label} (hI : CancelInv q)
    (hno : NoRetryPending q a) (h : step q a = some q') : CancelInv q' := by
  refine ⟨hI.bounded.step h, ?_, ?_⟩
  · intro r hin
    rcases canceled_log h hin with hold | hnew
    · obtain ⟨row, hrow, hc⟩ := hI.row r hold
      obtain ⟨f, hf, hwrite⟩ := step_row h hrow (hI.bounded.lt hrow)
      refine ⟨f row, hf, hwrite.canceled hrow hc ?_⟩
      intro t w hw hr hpc
      have hund := hI.undecided r hold t w hw hr
      rw [hpc] at hund
      cases hund
    · exact hnew.row h
  · intro r hin t w hw hr
    cases hd : w.pc.deciding with
    | false => rfl
    | true =>
        exfalso
        rcases deciding_from (step_workers h hw) hd with
          ⟨v, hv, hjob, hvd⟩ | ⟨row, reply, ha, hrow, hf⟩
        · have hvr : v.job.runId = r := by rw [hjob]; exact hr
          rcases canceled_log h hin with hold | hnew
          · rw [hI.undecided r hold t v hv hvr] at hvd
            cases hvd
          · rw [hno r hnew t v hv hvr] at hvd
            cases hvd
        · rw [hr] at hrow
          rcases canceled_log h hin with hold | hnew
          · obtain ⟨row', hrow', hc⟩ := hI.row r hold
            rw [hrow] at hrow'
            cases hrow'
            rw [hf] at hc
            cases hc
          · obtain ⟨x, c, row', hcancel, _⟩ := hnew
            rw [ha] at hcancel
            cases hcancel

/-- No run that was canceled is anything but canceled, or can be claimed. -/
def CanceledAbsorbs (q : Queue) : Prop :=
  ∀ r, .canceled r ∈ q.log →
    (∃ row, q.runs r = some row ∧ row.status = .canceled) ∧
      ∀ caps locked, q.claimed caps locked ≠ some r

theorem CancelInv.absorbs {q : Queue} (hI : CancelInv q) : CanceledAbsorbs q := by
  intro r hin
  obtain ⟨row, hrow, hc⟩ := hI.row r hin
  refine ⟨⟨row, hrow, hc⟩, ?_⟩
  intro caps locked hclaim
  obtain ⟨row', hrow', hpend⟩ := claimable_status (claimed_some hclaim).2
  rw [hrow] at hrow'
  cases hrow'
  rw [hc] at hpend
  cases hpend

/-- **Canceled is absorbing**, over every run of the queue in which no cancel
takes effect on a run some worker has decided to retry. -/
theorem canceled_absorbing (now : Nat) (l : List Label) (q : Queue)
    (hno : Along step NoRetryPending (init now) l)
    (hrun : run step (init now) l = some q) : CanceledAbsorbs q := by
  have hstep : ∀ s a s', CancelInv s → NoRetryPending s a → step s a = some s' →
      CancelInv s' := fun _ _ _ hI hC h => hI.step hC h
  exact (inv_run hstep (cancelInv_init now) hno hrun).absorbs

/-- A run as `run_script` enqueues it. -/
def sampleRun : NewRun where
  scriptId := 7
  input := .object []
  agentId := none
  inputBlobs := none
  captureOutput := false
  idempotencyKey := none

/-- An enqueued run. -/
def enqueued : List Label := [.putScript 7 ⟨"bash", none⟩, .enqueue [sampleRun]]

/-- The `cancel` tool on run `0` in process `0`; its task is `t`. -/
def cancelTool (t : TaskId) : List Label :=
  [.cancelCall 0 0 "canceled by operator", .cancelWrite t]

theorem noRetryPending_of_no_workers {q : Queue} {a : Label}
    (h : ∀ t, q.workers t = none) : NoRetryPending q a := by
  intro r _ t w hw
  rw [h t] at hw
  cases hw

theorem canceled_absorbing_enqueued :
    ∃ q, run step (init 0) (enqueued ++ cancelTool 0) = some q ∧
      Along step NoRetryPending (init 0) (enqueued ++ cancelTool 0) ∧
      .canceled 0 ∈ q.log ∧ CanceledAbsorbs q := by
  have hno : Along step NoRetryPending (init 0) (enqueued ++ cancelTool 0) := by
    repeat refine along_cons rfl (noRetryPending_of_no_workers fun _ => rfl) ?_
    trivial
  exact ⟨_, rfl, hno, by decide, canceled_absorbing 0 _ _ hno rfl⟩

/-- Claimed by a worker, which enters `Executor::run`. -/
def executing : List Label :=
  enqueued ++ [.claim 0 ["bash"] fun _ => false, .worker 0 .ok]

/-- The image pull fails, the worker reads the outcome and decides to retry;
the cancel lands before its `requeue`. -/
def undoneCancel : List Label :=
  executing ++
    [.worker 0 (.error "image pull failed"), .worker 0 .ok, .worker 0 .ok, .worker 0 .ok] ++
    cancelTool 1 ++ [.worker 0 .ok]

/-- The run of `undoneCancel` ends with a canceled run back in the queue. -/
theorem not_canceled_absorbing :
    ¬ ∀ now l q, run step (init now) l = some q → CanceledAbsorbs q := by
  intro hclaim
  obtain ⟨⟨row, hrow, hc⟩, _⟩ := hclaim 0 undoneCancel _ rfl 0 (by decide)
  cases hrow
  cases hc

/-! ## A canceled run is not started -/

/-- The execution can no longer start its script: it is past the start, or
holds a container that was killed. -/
def Disarmed (killed : Cid → Bool) (pc : ExecPc) : Prop :=
  pc.beforeStart = true → ∃ cid, pc.held = some cid ∧ killed cid = true

/-- The worker task will not start a script without claiming again. -/
def WorkerPc.Harmless (killed : Cid → Bool) : WorkerPc → Prop
  | .mark | .errorRead | .requeue => False
  | .exec _ pc => Disarmed killed pc
  | .outcome _ => True

/-- The flow task will not start the script of `r`. -/
def FlowPc.Harmless (killed : Cid → Bool) (r : RunId) : FlowPc → Prop
  | .wait r' => r' ≠ r
  | .exec r' pc => r' = r → Disarmed killed pc
  | .next | .status _ => True

/-- Nobody who holds `r` can still start it. -/
structure Quiet (q : Queue) (r : RunId) : Prop where
  workers : ∀ t w, q.workers t = some w → w.job.runId = r → w.pc.Harmless q.killed
  flows : ∀ t w, q.flows t = some w → w.pc.Harmless q.killed r

/-- Every cancel that takes effect finds its run quiet. -/
def CancelsQuiet (q : Queue) (a : Label) : Prop :=
  ∀ r, CancelsAt q a r → Quiet q r

/-- No script was started after its run had been canceled. -/
def NoLateStart : List Entry → Prop
  | [] => True
  | .started r _ :: l => .canceled r ∉ l ∧ NoLateStart l
  | _ :: l => NoLateStart l

theorem Disarmed.execStep {now : Nat} {cap : Bool} {killed : Cid → Bool}
    {pc : ExecPc} {reply : Reply} {out : ExecOut} (hd : Disarmed killed pc)
    (h : execStep now cap killed pc reply = some out) :
    out.pc.beforeStart = false := by
  cases hb : out.pc.beforeStart with
  | false => rfl
  | true =>
      exfalso
      obtain ⟨hpc, ⟨rfl, _⟩ | ⟨cid, hheld, hlive, _⟩⟩ := execStep_beforeStart h hb
      · obtain ⟨cid, hheld, _⟩ := hd rfl
        cases hheld
      · obtain ⟨cid', hheld', hkilled⟩ := hd hpc
        rw [hheld] at hheld'
        cases hheld'
        rw [hlive] at hkilled
        cases hkilled

theorem Disarmed.mono {killed killed' : Cid → Bool} {pc : ExecPc}
    (hsub : ∀ cid, killed cid = true → killed' cid = true)
    (hd : Disarmed killed pc) : Disarmed killed' pc := by
  intro hb
  obtain ⟨cid, hheld, hk⟩ := hd hb
  exact ⟨cid, hheld, hsub cid hk⟩

theorem WorkerPc.Harmless.mono {killed killed' : Cid → Bool} {pc : WorkerPc}
    (hsub : ∀ cid, killed cid = true → killed' cid = true)
    (hh : pc.Harmless killed) : pc.Harmless killed' := by
  cases pc with
  | exec attempt pc => exact Disarmed.mono hsub hh
  | mark | errorRead | requeue | outcome => exact hh

theorem FlowPc.Harmless.mono {killed killed' : Cid → Bool} {r : RunId} {pc : FlowPc}
    (hsub : ∀ cid, killed cid = true → killed' cid = true)
    (hh : pc.Harmless killed r) : pc.Harmless killed' r := by
  cases pc with
  | exec r' pc => exact fun hr => Disarmed.mono hsub (hh hr)
  | next | wait | status => exact hh

/-- Canceled runs are canceled and quiet, and none was started late. -/
structure StartInv (q : Queue) : Prop where
  bounded : Bounded q
  row : ∀ r, .canceled r ∈ q.log → ∃ row, q.runs r = some row ∧ row.status = .canceled
  quiet : ∀ r, .canceled r ∈ q.log → Quiet q r
  late : NoLateStart q.log

theorem startInv_init (now : Nat) : StartInv (init now) where
  bounded := bounded_init now
  row := fun _ h => by cases h
  quiet := fun _ h => by cases h
  late := trivial

section QuietSteps

variable {q q' : Queue} {a : Label} {r : RunId}

/-- A run whose row is canceled and that is quiet stays quiet. -/
theorem Quiet.step (hb : Bounded q) (hq : Quiet q r) {row : Run}
    (hrow : q.runs r = some row) (hdead : row.status = .canceled ∨ CancelsAt q a r)
    (h : step q a = some q') : Quiet q' r := by
  have hk : ∀ cid, q.killed cid = true → q'.killed cid = true :=
    fun cid => step_killed h
  refine ⟨?_, ?_⟩
  · intro t w hw hr
    cases step_workers h hw with
    | kept _ hv => exact (hq.workers t _ hv hr).mono hk
    | beaten v hv => exact (hq.workers t v hv hr).mono hk
    | claimed _ row' p caps locked ha hclaim hrow' hp hpc =>
        exfalso
        rw [hr, hrow] at hrow'
        cases hrow'
        rcases hdead with hc | ⟨x, c, row', hcancel, _⟩
        · rw [hc] at hp
          cases hp
        · rw [ha] at hcancel
          cases hcancel
    | marked v attempt hv hpc =>
        have hh := hq.workers t v hv hr
        rw [hpc] at hh
        exact hh.elim
    | left v attempt hv hpc => exact trivial
    | exec v attempt pc reply out hv hpc hout =>
        have hh := hq.workers t v hv hr
        rw [hpc] at hh
        have hpast := Disarmed.execStep hh hout
        intro hbefore
        rw [hpast] at hbefore
        cases hbefore
    | retry v attempt row' pc reply ha hv hpc hrow' hret =>
        exfalso
        rw [show v.job.runId = r from hr, hrow] at hrow'
        cases hrow'
        simp only [retries, Bool.and_eq_true, decide_eq_true_eq] at hret
        rcases hdead with hc | ⟨x, c, row', hcancel, _⟩
        · rw [hret.1.1] at hc
          cases hc
        · rw [ha] at hcancel
          cases hcancel
    | errorRead v hv hpc =>
        have hh := hq.workers t v hv hr
        rw [hpc] at hh
        exact hh.elim
  · intro t w hw
    cases step_flows h hw with
    | kept _ hv => exact (hq.flows t _ hv).mono hk
    | spawned | status | left => exact trivial
    | inserted v n rest hv hpc htodo hnext hin =>
        intro hr
        rw [← hr, hb.rows _ (Nat.le_refl _)] at hrow
        cases hrow
    | called v x hv hpc =>
        have hh := hq.flows t v hv
        rw [hpc] at hh
        exact fun hr => (hh hr).elim
    | exec v x pc reply out hv hpc hout =>
        have hh := hq.flows t v hv
        rw [hpc] at hh
        intro hr hbefore
        rw [Disarmed.execStep (hh hr) hout] at hbefore
        cases hbefore

/-- A step that starts `r` finds it not quiet. -/
theorem not_quiet_of_start {who : Caller} (h : Logged q q' a (.started r who :: q.log)) :
    ¬ Quiet q r := by
  intro hq
  generalize hlog : Entry.started r who :: q.log = log at h
  cases h with
  | nothing => exact absurd hlog (List.cons_ne_self _ _)
  | inserted | calledWorker | calledFlow | canceled => cases hlog
  | startedWorker t w attempt cid hw hpc hlive =>
      cases hlog
      have hh := hq.workers t w hw rfl
      rw [hpc] at hh
      obtain ⟨cid', hheld, hkilled⟩ := hh rfl
      cases hheld
      rw [hlive] at hkilled
      cases hkilled
  | startedFlow t w x cid hw hpc hlive =>
      cases hlog
      have hh := hq.flows t w hw
      rw [hpc] at hh
      obtain ⟨cid', hheld, hkilled⟩ := hh rfl rfl
      cases hheld
      rw [hlive] at hkilled
      cases hkilled

/-- Every step whose cancels find their run quiet keeps the invariant. -/
theorem StartInv.step (hI : StartInv q) (hC : CancelsQuiet q a)
    (h : step q a = some q') : StartInv q' := by
  refine ⟨hI.bounded.step h, ?_, ?_, ?_⟩
  · intro r hin
    rcases canceled_log h hin with hold | hnew
    · obtain ⟨row, hrow, hc⟩ := hI.row r hold
      obtain ⟨f, hf, hwrite⟩ := step_row h hrow (hI.bounded.lt hrow)
      refine ⟨f row, hf, hwrite.canceled hrow hc ?_⟩
      intro t w hw hr hpc
      have hh := (hI.quiet r hold).workers t w hw hr
      rw [hpc] at hh
      exact hh
    · exact hnew.row h
  · intro r hin
    rcases canceled_log h hin with hold | hnew
    · obtain ⟨row, hrow, hc⟩ := hI.row r hold
      exact (hI.quiet r hold).step hI.bounded hrow (Or.inl hc) h
    · obtain ⟨t, c, row, _, _, _, hrow, _⟩ := id hnew
      exact (hC r hnew).step hI.bounded hrow (Or.inr hnew) h
  · have hlogged := step_log h
    generalize q'.log = log at hlogged
    cases id hlogged with
    | nothing | inserted | calledWorker | calledFlow | canceled => exact hI.late
    | startedWorker t w attempt cid hw hpc hlive =>
        exact ⟨fun hin => not_quiet_of_start hlogged (hI.quiet _ hin), hI.late⟩
    | startedFlow t w x cid hw hpc hlive =>
        exact ⟨fun hin => not_quiet_of_start hlogged (hI.quiet _ hin), hI.late⟩

end QuietSteps

/-- **A cancel before the start prevents it**, over every run of the queue in
which a cancel that takes effect finds nobody who could still start the
run. -/
theorem canceled_before_start (now : Nat) (l : List Label) (q : Queue)
    (hquiet : Along step CancelsQuiet (init now) l)
    (hrun : run step (init now) l = some q) : NoLateStart q.log := by
  have hstep : ∀ s a s', StartInv s → CancelsQuiet s a → step s a = some s' →
      StartInv s' := fun _ _ _ hI hC h => hI.step hC h
  exact (inv_run hstep (startInv_init now) hquiet hrun).late

theorem cancelsQuiet_of_no_tasks {q : Queue} {a : Label}
    (hw : ∀ t, q.workers t = none) (hf : ∀ t, q.flows t = none) : CancelsQuiet q a := by
  intro r _
  refine ⟨?_, ?_⟩
  · intro t w h
    rw [hw t] at h
    cases h
  · intro t w h
    rw [hf t] at h
    cases h

theorem canceled_before_start_enqueued :
    ∃ q, run step (init 0) (enqueued ++ cancelTool 0) = some q ∧
      Along step CancelsQuiet (init 0) (enqueued ++ cancelTool 0) ∧
      .canceled 0 ∈ q.log ∧ NoLateStart q.log := by
  have hquiet : Along step CancelsQuiet (init 0) (enqueued ++ cancelTool 0) := by
    repeat refine along_cons rfl (cancelsQuiet_of_no_tasks (fun _ => rfl) fun _ => rfl) ?_
    trivial
  exact ⟨_, rfl, hquiet, by decide, canceled_before_start 0 _ _ hquiet rfl⟩

/-- The kill finds no container, the cancel takes effect, and the execution
goes on to acquire one and start the script. -/
def lateStart : List Label :=
  executing ++ cancelTool 1 ++ [.worker 0 (.container 3), .worker 0 .ok, .worker 0 .ok]

/-- The run of `lateStart` starts a canceled run. -/
theorem not_canceled_before_start :
    ¬ ∀ now l q, run step (init now) l = some q → NoLateStart q.log := by
  intro hclaim
  have hlate := hclaim 0 lateStart _ rfl
  exact hlate.1 (by decide)

end Dokan.Ports.RunQueue
