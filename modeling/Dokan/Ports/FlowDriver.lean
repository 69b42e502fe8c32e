import Dokan.Verified.Machine
import Dokan.Ports.FlowEval

/-!
# The flow driver, statement by statement

One row of `flow_runs`, its ledger, and the engine that drives it.  A pass of
`drive_inner` reads the ledger once; everything it then decides is a pure
function of that snapshot (`pass`), and what it decided is carried out one
statement at a time.  The driver dies between any two of them (`crash`), its
step tasks with it; a dead driver's flow run is reclaimed and claimed again.
At most one driver of a flow run is alive.

The answers of the database, of the executor and of the runs the driver starts
are in the labels.  Where the source drops the result of a statement with
`.ok()` or `let _ =`, an `err` leaves the ledger as it was and the driver goes
on.  `compensate` reports a run as succeeded when its row says so, and
`undone` remembers the steps for which that has happened.

The heartbeat of the flow run is not part of this machine, and neither are
cache keys, `prev_result`, permits and metrics.
-/

namespace Dokan.Ports.FlowDriver

open Dokan.Verified
open Dokan.Verified.Json
open Dokan.Ports.RunRow
open Dokan.Ports.FlowRow
open Dokan.Ports.FlowSpec
open Dokan.Ports.FlowEval

/-! ## Statements on the ledger -/

/-- A statement that changes `flow_steps`. -/
inductive Write
  | setRunning (id : String) (runId : Nat)
  | finish (id : String) (status : StepStatus) (output : Option String)
  | skip (id : String)
  | expand (parent : String) (children : List MapChild) (cache : Bool)
  | compensated (id : String)

/-- The row a statement rewrites. -/
def Write.id : Write → String
  | .setRunning id _ => id
  | .finish id _ _ => id
  | .skip id => id
  | .expand parent _ _ => parent
  | .compensated id => id

/-- Carry a statement out. -/
def Write.apply (now : Nat) : Write → List FlowStep → List FlowStep
  | .setRunning id runId => setStepRunning id runId
  | .finish id status output => finishStep now id status output
  | .skip id => markStepSkipped now id
  | .expand parent children cache => expandMapStep parent children cache
  | .compensated id => markStepCompensated id

/-! ## What a pass decides -/

/-- `outputs`: the outputs of the succeeded steps. -/
def outputs (steps : List FlowStep) (id : String) : Option String :=
  ((Rows.find FlowStep.stepId id steps).filter fun s => s.status = .succeeded).map
    fun s => s.output.getD ""

/-- `skipped`. -/
def isSkipped (steps : List FlowStep) (id : String) : Bool :=
  (Rows.find FlowStep.stepId id steps).any fun s => s.status = .skipped

/-- The statement that closes a map parent. -/
def Agg.write (parent : String) : Agg → Write
  | .succeeded out => .finish parent .succeeded (some out)
  | .failed => .finish parent .failed (some "map_child_failed")

/-- The map parents whose children have all finished. -/
def aggregates (steps : List FlowStep) : List Write :=
  (steps.filter fun s => s.status = .expanded).filterMap fun parent =>
    (aggregateChildren steps parent.stepId).map (Agg.write parent.stepId)

/-- The children `expand` creates, one for each element. -/
def mapChildren (s : FlowStep) (items : List Value) : List MapChild :=
  items.zipIdx.map fun p =>
    { stepId := childId s.stepId p.2, scriptId := s.scriptId, input := p.1
      dependsOn := s.dependsOn }

/-- A pending step whose turn has come, with the outputs of its
dependencies. -/
structure Ready where
  step : FlowStep
  deps : Value

/-- What a pass does about one pending step. -/
inductive Action
  | wait
  | write (w : Write)
  | run (r : Ready)

def Action.write? : Action → Option Write
  | .write w => some w
  | _ => none

def Action.run? : Action → Option Ready
  | .run r => some r
  | _ => none

section Pass

variable (parse : String → Option Value) (input : Value)

/-- `expand`. -/
def expand (s : FlowStep) (deps : Value) (mapRef : String) : Write :=
  match resolveRef parse mapRef input deps with
  | some (.arr items) =>
      if items.isEmpty then .finish s.stepId .succeeded (some "[]")
      else if !fanoutWithinCap items.length then
        .finish s.stepId .failed (some "map_fanout_too_large")
      else .expand s.stepId (mapChildren s items) s.cache
  | _ => .finish s.stepId .failed (some "map_ref_not_array")

/-- `dep_ready`: every dependency is succeeded or skipped. -/
def depReady (steps : List FlowStep) (s : FlowStep) : Bool :=
  s.dependsOn.all fun d => (outputs steps d).isSome || isSkipped steps d

/-- One round of the loop over the pending steps. -/
def action (steps : List FlowStep) (s : FlowStep) : Action :=
  let deps := buildDeps s.dependsOn (outputs steps)
  if !depReady steps s then .wait
  else if s.dependsOn.any (isSkipped steps) then .write (.skip s.stepId)
  else if s.whenCond.any fun cond => !evalWhen parse cond input deps then
    .write (.skip s.stepId)
  else
    match s.mapRef with
    | some mapRef => .write (expand parse input s deps mapRef)
    | none => .run ⟨s, deps⟩

/-- The rounds of that loop. -/
def actions (steps : List FlowStep) : List Action :=
  (steps.filter fun s => s.status = .pending).map (action parse input steps)

end Pass

/-- Later completions first; a step without `finished_at` is last. -/
def finishedAfter (s t : FlowStep) : Bool :=
  match t.finishedAt, s.finishedAt with
  | none, _ => true
  | some _, none => false
  | some b, some a => b ≤ a

/-- The steps `compensate` goes through, in reverse completion order. -/
def toCompensate (steps : List FlowStep) : List FlowStep :=
  (steps.filter fun s =>
    s.status = .succeeded && !s.compensated && s.compensate.isSome).insertionSort
      fun s t => finishedAfter s t = true

/-! ## Points of the driver and its tasks -/

/-- The point a call of `run_step` has reached. -/
inductive TaskPc
  /-- before `get_script` -/
  | script
  /-- before `find_cached_run` -/
  | cache
  /-- before `last_stdout` of the cached run -/
  | recalled (runId : Nat)
  /-- before `insert_run` -/
  | insert (attempt : Nat)
  | setRunning (attempt runId : Nat)
  /-- waiting for a permit, or inside `Executor::run` -/
  | exec (attempt runId : Nat)
  /-- before `run_status`, with what the row says -/
  | status (attempt : Nat) (row : RunStatus)
  /-- before `last_stdout` -/
  | stdout
  /-- before the `finish_step` that succeeds -/
  | succeed (output : Option String)
  /-- before the `finish_step` that fails -/
  | fail (reason : String)
  | done

/-- A call of `run_step`. -/
structure Task where
  step : FlowStep
  deps : Value
  pc : TaskPc

/-- The task spawned for a step. -/
def Ready.task (r : Ready) : Task :=
  { step := r.step, deps := r.deps, pc := .script }

/-- The step id of a task. -/
def Task.id (t : Task) : String := t.step.stepId

def Task.isDone (t : Task) : Bool :=
  match t.pc with
  | .done => true
  | _ => false

/-- The point of `compensate` within one step. -/
inductive CompStage
  /-- before `get_script` -/
  | script
  /-- before `insert_run` -/
  | insert
  /-- waiting for a permit, or inside `Executor::run` -/
  | exec (runId : Nat)
  /-- before `run_status`, with what the row says -/
  | status (row : RunStatus)
  /-- before `mark_step_compensated` -/
  | mark (ok : Bool)

/-- The point the driver has reached. -/
inductive DriverPc
  /-- no driver is alive -/
  | off
  /-- the head of the loop, before `flow_steps` -/
  | top
  /-- carrying out the decisions of a pass over the snapshot `snap` -/
  | writing (snap : List FlowStep) (ws : List Write) (toRun : List Ready)
      (progressed : Bool)
  /-- waiting for the step tasks of the pass -/
  | await (snap : List FlowStep) (tasks : List Task)
  /-- inside the idle sleep -/
  | idle
  /-- inside `compensate`, at the head of `todo` -/
  | compensate (todo : List FlowStep) (failed : Nat) (stage : CompStage)
  /-- before `finish_flow_run` -/
  | finish (status : FlowStatus)
  /-- `drive` returned an error, not yet recorded -/
  | errored

/-- `drive_inner` between reading the ledger and its first statement. -/
def pass (parse : String → Option Value) (input : Value) (steps : List FlowStep) :
    DriverPc :=
  if steps.any fun s => s.status = .failed then
    .compensate (toCompensate steps) 0 .script
  else if !steps.any fun s => s.status.active then .finish .succeeded
  else
    match aggregates steps with
    | w :: ws => .writing steps (w :: ws) [] false
    | [] =>
        let acts := actions parse input steps
        .writing steps (acts.filterMap Action.write?) (acts.filterMap Action.run?) false

/-- After the last statement of the loop over the pending steps. -/
def afterWrites (snap : List FlowStep) (toRun : List Ready) (progressed : Bool) :
    DriverPc :=
  if !toRun.isEmpty then .await snap (toRun.map Ready.task)
  else if progressed then .top
  else .idle

/-! ## The machine -/

/-- One flow run. -/
structure Flow where
  now : Nat
  status : FlowStatus
  input : Value
  steps : List FlowStep
  pc : DriverPc
  /-- steps with a compensation run that ended succeeded -/
  undone : List String

/-- The answer to one statement. -/
inductive Reply
  | ok
  /-- the statement failed and had no effect -/
  | err (msg : String)
  /-- the statement took effect, its answer was an error -/
  | lost
  /-- `get_script`: the runtime of the script, if it exists -/
  | script (runtime : Option String)
  /-- `insert_run` -/
  | run (id : Nat)
  /-- `find_cached_run` -/
  | hit (runId : Option Nat)
  /-- `Executor::run` returned and left the row with this status -/
  | ran (status : RunStatus)
  /-- `last_stdout` -/
  | stdout (line : Option String)

/-- The statement went through. -/
def Reply.isOk : Reply → Bool
  | .ok => true
  | _ => false

/-- The answer is a database error. -/
def Reply.isError : Reply → Bool
  | .err _ => true
  | .lost => true
  | _ => false

inductive Label
  /-- time passes -/
  | tick (d : Nat)
  /-- `claim_flow_run` -/
  | claim
  /-- `reap_orphan_flow_runs` -/
  | reap
  /-- the process of the driver dies -/
  | crash
  /-- the next statement of the driver -/
  | drive (reply : Reply)
  /-- the next statement of its `i`-th step task -/
  | task (i : Nat) (reply : Reply)

/-- A fresh flow run of a spec. -/
def start (spec input : Value) : Flow :=
  { now := 0, status := .pending, input, steps := ledgerRows spec, pc := .off
    undone := [] }

/-- `exec::runtime_spec`: the image and the interpreter. -/
def runtimeSpec (runtime : String) : Option (String × String) :=
  if ["python", "python3", "python3.12"].contains runtime then
    some ("python:3.12-slim", "python")
  else if ["node", "nodejs", "javascript"].contains runtime then
    some ("node:22-slim", "node")
  else if ["bash", "sh", "shell"].contains runtime then some ("alpine:3.20", "sh")
  else none

/-- The head of the attempt loop after `k` attempts. -/
def nextAttempt (step : FlowStep) (k : Nat) : TaskPc :=
  if k < stepAttempts step.retries then .insert (k + 1)
  else .fail "exhausted retries"

/-- The next statement of `run_step`. -/
def taskStep (step : FlowStep) : TaskPc → Reply → Option (TaskPc × Option Write)
  | .script, .script (some runtime) =>
      if (runtimeSpec runtime).isNone then some (.fail "unknown_runtime", none)
      else if step.cache then some (.cache, none)
      else some (nextAttempt step 0, none)
  | .script, .script none => some (.fail "script_not_found", none)
  | .script, .err _ => some (.fail "script_not_found", none)
  | .cache, .hit (some runId) => some (.recalled runId, none)
  | .cache, .hit none => some (nextAttempt step 0, none)
  | .cache, .err _ => some (nextAttempt step 0, none)
  | .recalled _, .stdout line => some (.succeed line, none)
  | .recalled _, .err _ => some (.succeed none, none)
  | .insert k, .run runId => some (.setRunning k runId, none)
  | .insert _, .err msg => some (.fail msg, none)
  | .setRunning k runId, .ok =>
      some (.exec k runId, some (.setRunning step.stepId runId))
  | .setRunning k runId, .err _ => some (.exec k runId, none)
  | .exec k _, .ran status => some (.status k status, none)
  | .status k row, .ok =>
      if row = .succeeded then some (.stdout, none) else some (nextAttempt step k, none)
  -- an unreadable status counts as failed
  | .status k _, .err _ => some (nextAttempt step k, none)
  | .stdout, .stdout line => some (.succeed line, none)
  | .stdout, .err _ => some (.succeed none, none)
  | .succeed output, .ok => some (.done, some (.finish step.stepId .succeeded output))
  | .succeed _, .err _ => some (.done, none)
  | .fail reason, .ok =>
      some (.done, some (.finish step.stepId .failed (some reason)))
  | .fail _, .err _ => some (.done, none)
  | _, _ => none

/-- Move the driver. -/
def Flow.goto (s : Flow) (pc : DriverPc) : Flow := { s with pc }

/-- Carry a statement out, then move the driver. -/
def Flow.write (s : Flow) (w : Write) (pc : DriverPc) : Flow :=
  { s with steps := w.apply s.now s.steps, pc }

/-- The next statement of `compensate` at the step `x`. -/
def compStep (s : Flow) (x : FlowStep) (todo : List FlowStep) (failed : Nat) :
    CompStage → Reply → Option Flow
  | .script, .script (some runtime) =>
      if (runtimeSpec runtime).isNone then some (s.goto (.compensate todo failed .script))
      else some (s.goto (.compensate (x :: todo) failed .insert))
  | .script, .script none => some (s.goto (.compensate todo failed .script))
  | .script, .err _ => some (s.goto (.compensate todo failed .script))
  | .insert, .run runId => some (s.goto (.compensate (x :: todo) failed (.exec runId)))
  | .insert, .err _ => some (s.goto (.compensate todo failed .script))
  | .exec _, .ran row =>
      some { s with
        pc := .compensate (x :: todo) failed (.status row)
        undone := if row = .succeeded then x.stepId :: s.undone else s.undone }
  | .status row, .ok =>
      some (s.goto (.compensate (x :: todo) failed (.mark (row = .succeeded))))
  | .status _, .err _ => some (s.goto (.compensate (x :: todo) failed (.mark false)))
  | .mark ok, .ok =>
      some (s.write (.compensated x.stepId)
        (.compensate todo (if ok then failed else failed + 1) .script))
  | .mark ok, .err _ =>
      some (s.goto (.compensate todo (if ok then failed else failed + 1) .script))
  | _, _ => none

/-- The next statement of the driver itself. -/
def driveStep (parse : String → Option Value) (s : Flow) (reply : Reply) :
    Option Flow :=
  match s.pc, reply with
  | .top, .ok => some (s.goto (pass parse s.input s.steps))
  | .top, .err _ => some (s.goto .errored)
  | .writing snap (w :: ws) toRun _, .ok => some (s.write w (.writing snap ws toRun true))
  | .writing snap (_ :: ws) toRun _, .err _ => some (s.goto (.writing snap ws toRun true))
  | .writing snap [] toRun progressed, .ok =>
      some (s.goto (afterWrites snap toRun progressed))
  | .await _ tasks, .ok => if tasks.all Task.isDone then some (s.goto .top) else none
  | .idle, .ok => some (s.goto .top)
  | .compensate [] failed _, .ok =>
      some (s.goto (.finish (if failed > 0 then .compensationFailed else .failed)))
  | .compensate (x :: todo) failed stage, reply => compStep s x todo failed stage reply
  | .finish status, .ok => some { s with status, pc := .off }
  | .finish _, .err _ => some (s.goto .errored)
  | .finish status, .lost => some { s with status, pc := .errored }
  | .errored, .ok => some { s with status := .failed, pc := .off }
  | .errored, .err _ => some (s.goto .off)
  | _, _ => none

/-- One step of a flow run. -/
def step (parse : String → Option Value) (s : Flow) : Label → Option Flow
  | .tick d => some { s with now := s.now + d }
  | .claim =>
      match s.pc, s.status with
      | .off, .pending => some { s with status := .running, pc := .top }
      | _, _ => none
  | .reap =>
      match s.pc, s.status with
      | .off, .running => some { s with status := .pending }
      | _, _ => none
  | .crash =>
      match s.pc with
      | .off => none
      | _ => some (s.goto .off)
  | .drive reply => driveStep parse s reply
  | .task i reply =>
      match s.pc with
      | .await snap tasks =>
          match tasks[i]? with
          | none => none
          | some t =>
              match taskStep t.step t.pc reply with
              | none => none
              | some (pc, w) =>
                  let next := .await snap (tasks.set i { t with pc })
                  match w with
                  | some w => some (s.write w next)
                  | none => some (s.goto next)
      | _ => none

end Dokan.Ports.FlowDriver
