import Dokan.Ports.RunRow

/-!
# One execution of a job, statement by statement

`ExecPc` is the point a call of `Executor::run` has reached, and `execStep`
the next thing it does there: an answer of the outside world (Docker, the
container's output, the host directory, the receipt builder) together with
what the call then writes to its row of `runs`.  The statements the call
sends to Postgres succeed.

The log lines, the progress text, the metrics and the relay are not part of
the row and are left out; what `pump_logs` hands on is the structured
result.  `build_receipt` is an answer as well: nothing here looks inside a
receipt.
-/

namespace Dokan.Ports.ExecJob

open Dokan.Verified.Json
open Dokan.Ports.RunRow

/-- A Docker container id. -/
abbrev Cid := Nat

/-- The point a call of `Executor::run` has reached. -/
inductive ExecPc
  /-- `run_inner` up to the container, blob materialisation and pulls included -/
  | acquire
  /-- `exec_job` before `create_exec` -/
  | createExec (cid : Cid)
  /-- before `start_exec` -/
  | startExec (cid : Cid)
  /-- inside `pump_logs`, under the wall-clock limit -/
  | pumpLogs (cid : Cid)
  | timedOut
  /-- before `inspect_exec` -/
  | inspect (result : Option Value)
  | vanished
  /-- before the terminal `finish_run` -/
  | finish (code : Int) (result : Option Value)
  /-- before `capture_output` -/
  | capture (code : Int) (result : Option Value)
  | storeOutputs (code : Int) (result : Option Value) (map : Value)
  | storeResult (code : Int) (result : Value)
  | buildReceipt (code : Int) (result : Option Value)
  | storeReceipt (result : Option Value) (receipt : Value)
  | fireTriggers (result : Value)
  /-- `run_inner` returned an error, not yet recorded -/
  | internalError (msg : String)
  /-- the row is written for the last time -/
  | returned

/-- An answer of the outside world to one execution. -/
inductive Reply
  | ok
  /-- any error on the way out of `run_inner` -/
  | error (msg : String)
  | container (cid : Cid)
  /-- the log stream ended; the last `::dokan:result::` line, parsed -/
  | ended (result : Option Value)
  | timeout
  /-- `inspect_exec` answered -/
  | exit (code : Option Int)
  /-- `inspect_exec` answered 404 -/
  | gone
  | captured (map : Option Value)
  | receipt (r : Value)
  /-- the rows `fire_triggers` enqueues -/
  | fired (rows : List NewRun)

/-- What one step of an execution does. -/
structure ExecOut where
  pc : ExecPc
  /-- the statement on the execution's own row -/
  write : Run → Run := id
  /-- `start_exec` went through: the script runs -/
  started : Bool := false
  /-- the container entered in `active` -/
  register : Option Cid := none
  /-- the container killed at the timeout -/
  kill : Option Cid := none
  /-- rows enqueued by `fire_triggers` -/
  fired : List NewRun := []

/-- `exit_code as i32`. -/
def asI32 (c : Int) : Int := (c + 2 ^ 31) % 2 ^ 32 - 2 ^ 31

/-- The status `exec_job` gives a run that reported `code`. -/
def exitStatus (code : Int) : RunStatus := if code = 0 then .succeeded else .failed

/-- After the output map: the result is stored only when there is one. -/
def afterOutputs (code : Int) (result : Option Value) : ExecPc :=
  match result with
  | some v => .storeResult code v
  | none => .buildReceipt code none

/-- After the receipt: triggers fire only on a result. -/
def afterReceipt (result : Option Value) : ExecPc :=
  match result with
  | some v => .fireTriggers v
  | none => .returned

/-- The next step of an execution.  A killed container accepts neither
`create_exec` nor `start_exec`. -/
def execStep (now : Nat) (captureOutput : Bool) (killed : Cid → Bool) :
    ExecPc → Reply → Option ExecOut
  | .acquire, .container cid => some { pc := .createExec cid, register := some cid }
  | .acquire, .error msg => some { pc := .internalError msg }
  | .createExec cid, .ok =>
      if killed cid then none else some { pc := .startExec cid }
  | .createExec _, .error msg => some { pc := .internalError msg }
  | .startExec cid, .ok =>
      if killed cid then none else some { pc := .pumpLogs cid, started := true }
  | .startExec _, .error msg => some { pc := .internalError msg }
  | .pumpLogs _, .ended result => some { pc := .inspect result }
  | .pumpLogs cid, .timeout => some { pc := .timedOut, kill := some cid }
  | .pumpLogs _, .error msg => some { pc := .internalError msg }
  | .timedOut, .ok =>
      some { pc := .returned, write := finishRun now .failed none (some "timeout") }
  | .inspect result, .exit code => some { pc := .finish (code.getD 0) result }
  | .inspect _, .gone => some { pc := .vanished }
  | .inspect _, .error msg => some { pc := .internalError msg }
  | .vanished, .ok =>
      some
        { pc := .returned
          write := finishRun now .failed none (some "container vanished") }
  | .finish code result, .ok =>
      some
        { pc := .capture code result
          write := finishRun now (exitStatus code) (some (asI32 code)) none }
  | .capture code result, .captured none => some { pc := afterOutputs code result }
  | .capture code result, .captured (some map) =>
      if captureOutput then some { pc := .storeOutputs code result map } else none
  | .storeOutputs code result map, .ok =>
      some { pc := afterOutputs code result, write := setRunOutputBlobs map }
  | .storeResult code result, .ok =>
      some { pc := .buildReceipt code (some result), write := setRunResult result }
  | .buildReceipt _ result, .receipt r => some { pc := .storeReceipt result r }
  | .storeReceipt result r, .ok =>
      some { pc := afterReceipt result, write := setRunReceipt r }
  | .fireTriggers _, .fired rows => some { pc := .returned, fired := rows }
  | .internalError msg, .ok =>
      some { pc := .returned, write := finishRun now .failed none (some msg) }
  | _, _ => none

/-! ## Phases of an execution -/

/-- The script has not been started and still may be. -/
def ExecPc.beforeStart : ExecPc → Bool
  | .acquire | .createExec _ | .startExec _ => true
  | _ => false

/-- The container an unstarted execution holds. -/
def ExecPc.held : ExecPc → Option Cid
  | .createExec cid | .startExec cid => some cid
  | _ => none

/-- The row's last `finish_run` by this execution is behind it. -/
def ExecPc.settled : ExecPc → Bool
  | .capture .. | .storeOutputs .. | .storeResult .. | .buildReceipt ..
  | .storeReceipt .. | .fireTriggers _ | .returned => true
  | _ => false

@[simp] theorem afterOutputs_beforeStart (c : Int) (r : Option Value) :
    (afterOutputs c r).beforeStart = false := by
  cases r <;> rfl

@[simp] theorem afterOutputs_settled (c : Int) (r : Option Value) :
    (afterOutputs c r).settled = true := by
  cases r <;> rfl

@[simp] theorem afterReceipt_beforeStart (r : Option Value) :
    (afterReceipt r).beforeStart = false := by
  cases r <;> rfl

@[simp] theorem afterReceipt_settled (r : Option Value) :
    (afterReceipt r).settled = true := by
  cases r <;> rfl

/-! ## What one step may do -/

section StepFacts

variable {now : Nat} {cap : Bool} {killed : Cid → Bool} {pc : ExecPc}
  {reply : Reply} {out : ExecOut}

/-- The kinds of write a step of an execution makes to its row. -/
inductive Writes (now : Nat) : (Run → Run) → Prop
  | nothing : Writes now id
  | finish (st : RunStatus) (hst : st = .succeeded ∨ st = .failed)
      (c : Option Int) (e : Option String) : Writes now (finishRun now st c e)
  | outputs (v : Value) : Writes now (setRunOutputBlobs v)
  | result (v : Value) : Writes now (setRunResult v)
  | receipt (v : Value) : Writes now (setRunReceipt v)

theorem exitStatus_terminal (code : Int) :
    exitStatus code = .succeeded ∨ exitStatus code = .failed := by
  unfold exitStatus
  split
  · exact Or.inl rfl
  · exact Or.inr rfl

/-- Every step makes one of the listed writes. -/
theorem execStep_writes (h : execStep now cap killed pc reply = some out) :
    Writes now out.write := by
  revert h
  fun_cases execStep now cap killed pc reply <;> intro h <;> cases h
  all_goals first
    | exact .nothing
    | exact .finish _ (Or.inr rfl) _ _
    | exact .finish _ (exitStatus_terminal _) _ _
    | exact .outputs _
    | exact .result _
    | exact .receipt _

/-- The script starts in one place: from `start_exec` on a container that was
not killed, and the execution is past its start afterwards. -/
theorem execStep_started (h : execStep now cap killed pc reply = some out)
    (hs : out.started = true) :
    ∃ cid, pc = .startExec cid ∧ killed cid = false ∧ out.pc.beforeStart = false := by
  revert h
  fun_cases execStep now cap killed pc reply <;> intro h <;> cases h
  -- every other branch leaves `started` at its default
  all_goals first
    | exact absurd hs Bool.false_ne_true
    | exact ⟨_, rfl, by simpa using ‹¬ killed _ = true›, rfl⟩

/-- An execution that has not started was not further before; it holds the
container it registered. -/
theorem execStep_beforeStart (h : execStep now cap killed pc reply = some out)
    (hb : out.pc.beforeStart = true) :
    pc.beforeStart = true ∧
      ((pc = .acquire ∧ ∃ cid, out.register = some cid ∧ out.pc.held = some cid) ∨
        (∃ cid, pc.held = some cid ∧ killed cid = false ∧
          out.pc.held = some cid)) := by
  revert h
  fun_cases execStep now cap killed pc reply <;> intro h <;> cases h
  all_goals first
    | exact ⟨rfl, Or.inl ⟨rfl, _, rfl, rfl⟩⟩
    | exact ⟨rfl, Or.inr ⟨_, rfl, by simpa using ‹¬ killed _ = true›, rfl⟩⟩
    | exact absurd hb Bool.false_ne_true
    | simp at hb

/-- Rows are fired by one step, the answer of `fire_triggers`. -/
theorem execStep_fired (h : execStep now cap killed pc reply = some out) :
    out.fired = [] ∨ ∃ v, pc = .fireTriggers v ∧ reply = .fired out.fired := by
  revert h
  fun_cases execStep now cap killed pc reply <;> intro h <;> cases h
  all_goals first
    | exact Or.inl rfl
    | exact Or.inr ⟨_, rfl, rfl⟩

/-- A write that neither ends nor claims a run. -/
def Plain (f : Run → Run) : Prop :=
  ∀ r, (f r).status = r.status ∧ lastSign (f r) = lastSign r

/-- The status of the row is written by one step, the one that settles the
execution; before it nothing is written at all. -/
theorem execStep_settled (h : execStep now cap killed pc reply = some out) :
    (pc.settled = false ∧ out.pc.settled = false ∧ out.write = id) ∨
      (pc.settled = false ∧ out.pc.settled = true ∧ ∃ st c e,
        (st = .succeeded ∨ st = .failed) ∧ out.write = finishRun now st c e) ∨
      (pc.settled = true ∧ out.pc.settled = true ∧ Plain out.write) := by
  revert h
  fun_cases execStep now cap killed pc reply <;> intro h <;> cases h
  all_goals first
    | exact Or.inl ⟨rfl, rfl, rfl⟩
    | exact Or.inr (Or.inl ⟨rfl, rfl, _, _, _, Or.inr rfl, rfl⟩)
    | exact Or.inr (Or.inl ⟨rfl, rfl, _, _, _, exitStatus_terminal _, rfl⟩)
    | exact Or.inr (Or.inr ⟨rfl, rfl, fun _ => ⟨rfl, rfl⟩⟩)
    | exact Or.inr (Or.inr ⟨rfl, afterOutputs_settled _ _, fun _ => ⟨rfl, rfl⟩⟩)
    | exact Or.inr (Or.inr ⟨rfl, afterReceipt_settled _, fun _ => ⟨rfl, rfl⟩⟩)

end StepFacts

end Dokan.Ports.ExecJob
