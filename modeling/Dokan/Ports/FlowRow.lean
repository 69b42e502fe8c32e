import Dokan.Verified.Rows
import Dokan.Ports.RunRow

/-!
# Rows of `flow_runs` and `flow_steps` and the statements that write them

The rows of one flow run's ledger are kept as a list in the order of their
serial ids, which is the order `Db::flow_steps` returns them in.  A statement
that names a step id rewrites every row of that id; `UNIQUE (flow_run_id,
step_id)` makes that one row.
-/

namespace Dokan.Ports.FlowRow

open Dokan.Verified
open Dokan.Verified.Json

/-! ## `flow_runs` -/

/-- `flow_runs.status`. -/
inductive FlowStatus
  | pending
  | running
  | succeeded
  | failed
  | compensationFailed
deriving DecidableEq, Repr

/-- A row of `flow_runs`. -/
structure FlowRun where
  status : FlowStatus
  input : Option Value
  startedAt : Option Nat
  finishedAt : Option Nat

/-- The row an insert creates. -/
def insertFlowRun (input : Option Value) : FlowRun :=
  { status := .pending, input, startedAt := none, finishedAt := none }

/-- The `UPDATE` of `Db::claim_flow_run`. -/
def claimFlowRun (now : Nat) (f : FlowRun) : FlowRun :=
  { f with status := .running, startedAt := some now }

/-- `Db::touch_flow_run`: unconditional. -/
def touchFlowRun (now : Nat) (f : FlowRun) : FlowRun := { f with startedAt := some now }

/-- `Db::finish_flow_run`: unconditional. -/
def finishFlowRun (now : Nat) (status : FlowStatus) (f : FlowRun) : FlowRun :=
  { f with status, finishedAt := some now }

/-- The `WHERE` clause of `Db::reap_orphan_flow_runs`; a null timestamp counts
as stale. -/
def orphanedFlow (now lease : Nat) (f : FlowRun) : Bool :=
  f.status = .running ∧ f.startedAt.all fun t => t + lease < now

/-- `Db::reap_orphan_flow_runs`. -/
def reapOrphanFlowRun (now lease : Nat) (f : FlowRun) : FlowRun :=
  if orphanedFlow now lease f then { f with status := .pending } else f

/-- A running row with a timestamp is reclaimed when the timestamp is older
than the lease. -/
theorem orphanedFlow_started {now lease t : Nat} {f : FlowRun}
    (hstart : f.startedAt = some t) :
    orphanedFlow now lease f = true ↔ f.status = .running ∧ t + lease < now := by
  simp [orphanedFlow, hstart]

theorem reapOrphanFlowRun_of_not_orphaned {now lease : Nat} {f : FlowRun}
    (h : orphanedFlow now lease f = false) : reapOrphanFlowRun now lease f = f := by
  simp [reapOrphanFlowRun, h]

theorem reapOrphanFlowRun_of_orphaned {now lease : Nat} {f : FlowRun}
    (h : orphanedFlow now lease f = true) :
    reapOrphanFlowRun now lease f = { f with status := .pending } := by
  simp [reapOrphanFlowRun, h]

/-- Only a running row is reclaimed. -/
theorem status_of_orphanedFlow {now lease : Nat} {f : FlowRun}
    (h : orphanedFlow now lease f = true) : f.status = .running := by
  simp only [orphanedFlow, decide_eq_true_eq] at h
  exact h.1

/-! ## `flow_steps` -/

/-- `flow_steps.status`. -/
inductive StepStatus
  | pending
  | running
  | expanded
  | skipped
  | succeeded
  | failed
deriving DecidableEq, Repr

/-- The step still has something to do. -/
def StepStatus.active : StepStatus → Bool
  | .pending => true
  | .running => true
  | .expanded => true
  | _ => false

/-- The step has begun, and has not failed. -/
def StepStatus.ran : StepStatus → Bool
  | .running => true
  | .expanded => true
  | .succeeded => true
  | _ => false

/-- The step will not be touched again. -/
def StepStatus.settled : StepStatus → Bool
  | .succeeded => true
  | .skipped => true
  | _ => false

/-- A row of `flow_steps`. -/
structure FlowStep where
  stepId : String
  scriptId : Int
  input : Value
  dependsOn : List String
  status : StepStatus
  output : Option String
  whenCond : Option Value
  mapRef : Option String
  compensate : Option Int
  compensated : Bool
  retries : Option Int
  finishedAt : Option Nat
  cache : Bool
  runId : Option Nat

/-- Rewrite the row of one step id. -/
def updateStep (id : String) (f : FlowStep → FlowStep) (steps : List FlowStep) :
    List FlowStep :=
  Rows.update FlowStep.stepId id f steps

/-- `Db::set_step_running`. -/
def setStepRunning (id : String) (runId : Nat) : List FlowStep → List FlowStep :=
  updateStep id fun s => { s with status := .running, runId := some runId }

/-- `Db::finish_step`. -/
def finishStep (now : Nat) (id : String) (status : StepStatus)
    (output : Option String) : List FlowStep → List FlowStep :=
  updateStep id fun s => { s with status, output, finishedAt := some now }

/-- `Db::mark_step_skipped`. -/
def markStepSkipped (now : Nat) (id : String) : List FlowStep → List FlowStep :=
  updateStep id fun s => { s with status := .skipped, finishedAt := some now }

/-- `Db::mark_step_compensated`. -/
def markStepCompensated (id : String) : List FlowStep → List FlowStep :=
  updateStep id fun s => { s with compensated := true }

/-- One child of a map step, as `expand` hands it to the database. -/
structure MapChild where
  stepId : String
  scriptId : Int
  input : Value
  dependsOn : List String

/-- The row `expand_map_step` inserts for a child. -/
def childRow (cache : Bool) (c : MapChild) : FlowStep :=
  { stepId := c.stepId, scriptId := c.scriptId, input := c.input
    dependsOn := c.dependsOn, status := .pending, output := none
    whenCond := none, mapRef := none, compensate := none, compensated := false
    retries := none, finishedAt := none, cache, runId := none }

/-- `INSERT … ON CONFLICT (flow_run_id, step_id) DO NOTHING`. -/
def insertStepRow (steps : List FlowStep) (s : FlowStep) : List FlowStep :=
  Rows.insertNew FlowStep.stepId steps s

/-- `Db::expand_map_step`. -/
def expandMapStep (parent : String) (children : List MapChild) (cache : Bool)
    (steps : List FlowStep) : List FlowStep :=
  updateStep parent (fun s => { s with status := .expanded })
    (children.foldl (fun rows c => insertStepRow rows (childRow cache c)) steps)

/-- The attempts `run_step` makes: `retries.unwrap_or(1).max(0) as u32 + 1`,
in 32-bit arithmetic. -/
def stepAttempts (retries : Option Int) : Nat :=
  ((max (retries.getD 1) 0).toNat % 2 ^ 32 + 1) % 2 ^ 32

end Dokan.Ports.FlowRow
