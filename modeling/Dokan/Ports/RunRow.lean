import Dokan.Verified.Json

/-!
# A row of `runs` and the statements that write it

Each statement of `db.rs` that touches one row of `runs` is a function on
`Run`; a statement whose `WHERE` clause excludes the row returns it
unchanged.  Time is the microsecond clock of Postgres' `now()`.

`cache_key`, `progress` and the log lines are not read by anything modelled
here and are left out of the row.
-/

namespace Dokan.Ports.RunRow

open Dokan.Verified.Json

/-- Seconds on the microsecond clock. -/
def secs (n : Nat) : Nat := n * 1000000

/-- `exec::DEFAULT_TIMEOUT_SECS`. -/
def defaultTimeoutSecs : Nat := 300

/-- `exec::RUN_LEASE_SECS`, in microseconds. -/
def runLease : Nat := secs (defaultTimeoutSecs * 2)

/-- `flow::FLOW_LEASE_SECS`, in microseconds. -/
def flowLease : Nat := secs (defaultTimeoutSecs * 2)

/-- `worker::MAX_ATTEMPTS`. -/
def maxAttempts : Nat := 3

/-- `runs.status`. -/
inductive RunStatus
  | pending
  | running
  | succeeded
  | failed
  | canceled
deriving DecidableEq, Repr

/-- The columns an enqueue supplies. -/
structure NewRun where
  scriptId : Int
  input : Value
  agentId : Option String
  inputBlobs : Option Value
  captureOutput : Bool
  idempotencyKey : Option String

/-- A row of `runs`. -/
structure Run extends NewRun where
  status : RunStatus
  exitCode : Option Int
  error : Option String
  attempts : Nat
  createdAt : Nat
  startedAt : Option Nat
  heartbeatAt : Option Nat
  finishedAt : Option Nat
  result : Option Value
  outputBlobs : Option Value
  receipt : Option Value

/-! ## Inserts -/

/-- `Db::insert_run_with_blobs`: a fresh `pending` row. -/
def insertRunWithBlobs (now : Nat) (n : NewRun) : Run :=
  { n with
    status := .pending, exitCode := none, error := none, attempts := 0
    createdAt := now, startedAt := none, heartbeatAt := none
    finishedAt := none, result := none, outputBlobs := none, receipt := none }

/-- `Db::insert_run`: no files and no captured output. -/
def insertRun (now : Nat) (scriptId : Int) (input : Value)
    (agentId : Option String) : Run :=
  insertRunWithBlobs now
    { scriptId, input, agentId, inputBlobs := none, captureOutput := false
      idempotencyKey := none }

/-- `Db::insert_refused_run`: a terminal row that never started. -/
def insertRefusedRun (now : Nat) (n : NewRun) (reason : String) : Run :=
  { insertRunWithBlobs now { n with inputBlobs := none, captureOutput := false } with
    status := .failed, error := some reason, finishedAt := some now }

/-! ## Updates -/

/-- The `UPDATE` of `Db::claim_run`. -/
def claimRun (now : Nat) (r : Run) : Run :=
  { r with status := .running, startedAt := some now, heartbeatAt := some now }

/-- `Db::mark_attempt`. -/
def markAttempt (r : Run) : Run := { r with attempts := r.attempts + 1 }

/-- `Db::finish_run`: a canceled row is left alone. -/
def finishRun (now : Nat) (status : RunStatus) (exitCode : Option Int)
    (error : Option String) (r : Run) : Run :=
  if r.status = .canceled then r
  else { r with status, exitCode, error, finishedAt := some now }

/-- `Db::cancel_run`: a succeeded row is left alone. -/
def cancelRun (now : Nat) (reason : String) (r : Run) : Run :=
  if r.status = .succeeded then r
  else { r with status := .canceled, error := some reason, finishedAt := some now }

/-- What `Db::cancel_run` returns: whether the row was canceled. -/
def cancelTakes (r : Run) : Bool := r.status ≠ .succeeded

/-- `Db::requeue`: unconditional. -/
def requeue (r : Run) : Run :=
  { r with status := .pending, startedAt := none, heartbeatAt := none }

/-- `COALESCE(heartbeat_at, started_at)`. -/
def lastSign (r : Run) : Option Nat := r.heartbeatAt.or r.startedAt

/-- The `WHERE` clause of `Db::reap_orphan_runs`; a null timestamp compares
to nothing. -/
def orphaned (now lease : Nat) (r : Run) : Bool :=
  r.status = .running ∧ (lastSign r).any fun t => t + lease < now

/-- `Db::reap_orphan_runs`. -/
def reapOrphanRun (now lease : Nat) (r : Run) : Run :=
  if orphaned now lease r then requeue r else r

/-- `Db::touch_run`. -/
def touchRun (now : Nat) (r : Run) : Run :=
  if r.status = .running then { r with heartbeatAt := some now } else r

/-- `Db::fail_stale_pending`. -/
def failStalePending (now maxAge : Nat) (r : Run) : Run :=
  if r.status = .pending ∧ r.createdAt + maxAge < now then
    { r with
      status := .failed, error := some "unclaimed: pending past timeout"
      finishedAt := some now }
  else r

/-- `Db::set_run_result`. -/
def setRunResult (v : Value) (r : Run) : Run := { r with result := some v }

/-- `Db::set_run_output_blobs`. -/
def setRunOutputBlobs (v : Value) (r : Run) : Run := { r with outputBlobs := some v }

/-- `Db::set_run_receipt`. -/
def setRunReceipt (v : Value) (r : Run) : Run := { r with receipt := some v }

/-! ## What the updates do to the status -/

@[simp] theorem insertRunWithBlobs_status (now : Nat) (n : NewRun) :
    (insertRunWithBlobs now n).status = .pending := rfl

@[simp] theorem insertRun_status (now : Nat) (i : Int) (v : Value)
    (a : Option String) : (insertRun now i v a).status = .pending := rfl

@[simp] theorem insertRefusedRun_status (now : Nat) (n : NewRun) (m : String) :
    (insertRefusedRun now n m).status = .failed := rfl

@[simp] theorem claimRun_status (now : Nat) (r : Run) :
    (claimRun now r).status = .running := rfl

@[simp] theorem claimRun_lastSign (now : Nat) (r : Run) :
    lastSign (claimRun now r) = some now := rfl

@[simp] theorem markAttempt_status (r : Run) :
    (markAttempt r).status = r.status := rfl

@[simp] theorem markAttempt_lastSign (r : Run) :
    lastSign (markAttempt r) = lastSign r := rfl

@[simp] theorem requeue_status (r : Run) : (requeue r).status = .pending := rfl

@[simp] theorem setRunResult_status (v : Value) (r : Run) :
    (setRunResult v r).status = r.status := rfl

@[simp] theorem setRunOutputBlobs_status (v : Value) (r : Run) :
    (setRunOutputBlobs v r).status = r.status := rfl

@[simp] theorem setRunReceipt_status (v : Value) (r : Run) :
    (setRunReceipt v r).status = r.status := rfl

theorem finishRun_status (now : Nat) (st : RunStatus) (c : Option Int)
    (e : Option String) (r : Run) :
    (finishRun now st c e r).status =
      if r.status = .canceled then .canceled else st := by
  unfold finishRun
  split
  · assumption
  · rfl

/-- A canceled row is not written by `finish_run`. -/
theorem finishRun_of_canceled {r : Run} (h : r.status = .canceled) (now : Nat)
    (st : RunStatus) (c : Option Int) (e : Option String) :
    finishRun now st c e r = r := if_pos h

theorem cancelRun_status (now : Nat) (m : String) (r : Run) :
    (cancelRun now m r).status =
      if r.status = .succeeded then .succeeded else .canceled := by
  unfold cancelRun
  split
  · assumption
  · rfl

@[simp] theorem touchRun_status (now : Nat) (r : Run) :
    (touchRun now r).status = r.status := by
  unfold touchRun
  split <;> rfl

theorem reapOrphanRun_of_not_orphaned {now lease : Nat} {r : Run}
    (h : orphaned now lease r = false) : reapOrphanRun now lease r = r := by
  simp [reapOrphanRun, h]

theorem reapOrphanRun_of_orphaned {now lease : Nat} {r : Run}
    (h : orphaned now lease r = true) : reapOrphanRun now lease r = requeue r := by
  simp [reapOrphanRun, h]

/-- An orphaned row gave its last sign longer than the lease ago. -/
theorem lastSign_of_orphaned {now lease : Nat} {r : Run}
    (h : orphaned now lease r = true) : ∃ t, lastSign r = some t ∧ t + lease < now := by
  simp only [orphaned, decide_eq_true_eq, Option.any_eq_true] at h
  exact h.2

/-- Only a running row is orphaned. -/
theorem status_of_orphaned {now lease : Nat} {r : Run}
    (h : orphaned now lease r = true) : r.status = .running := by
  simp only [orphaned, decide_eq_true_eq] at h
  exact h.1

/-- `fail_stale_pending` leaves every row alone that is not pending. -/
theorem failStalePending_of_not_pending {now maxAge : Nat} {r : Run}
    (h : r.status ≠ .pending) : failStalePending now maxAge r = r := by
  unfold failStalePending
  rw [if_neg]
  rintro ⟨hp, _⟩
  exact h hp

/-- `fail_stale_pending` keeps the status or fails a pending row. -/
theorem failStalePending_status (now maxAge : Nat) (r : Run) :
    (failStalePending now maxAge r).status = r.status ∨
      (r.status = .pending ∧ (failStalePending now maxAge r).status = .failed) := by
  unfold failStalePending
  split
  · rename_i h
    exact Or.inr ⟨h.1, rfl⟩
  · exact Or.inl rfl

end Dokan.Ports.RunRow
