import Dokan.Verified.Machine
import Dokan.Ports.FlowRow
import Dokan.Ports.ExecJob

/-!
# The run queue and everything that executes from it

One state for the tables `runs` and `flow_runs` and for every task of every
process that works on them: worker tasks (`Worker::spawn`), the tasks of
`FlowEngine::run_step` and `FlowEngine::compensate`, flow drivers, and calls
of the `cancel` tool.  A label is one SQL statement, one answer of the
outside world to one task, one tick of the shared clock, or the death of a
process; statements succeed.

`log` and `spawned` record the history that statements about whole runs speak
of; no step reads them.

Of a script the queue reads its runtime and its timeout; what else
`claim_run` returns is handed to the container and comes back as the world's
answers.  The permits of the concurrency limit only delay steps and are left
out.
-/

namespace Dokan.Ports.RunQueue

open Dokan.Verified.Json
open Dokan.Ports.RunRow
open Dokan.Ports.FlowRow
open Dokan.Ports.ExecJob

/-- Ids: rows of `runs`, rows of `flow_runs`, tasks, processes. -/
abbrev RunId := Nat
abbrev FlowId := Nat
abbrev TaskId := Nat
abbrev Proc := Nat

/-- What the queue reads of a row of `scripts`. -/
structure Script where
  runtime : String
  timeoutSecs : Option Int

/-- What `claim_run` returns of the row and its script. -/
structure ClaimedJob where
  runId : RunId
  captureOutput : Bool
  timeoutSecs : Option Int

/-! ## Tasks -/

/-- The point a worker task has reached. -/
inductive WorkerPc
  /-- claimed, before `mark_attempt` -/
  | mark
  /-- inside `Executor::run` -/
  | exec (attempt : Nat) (pc : ExecPc)
  /-- before `run_outcome` -/
  | outcome (attempt : Nat)
  /-- a retry is due unless `run_error` reads `timeout` -/
  | errorRead
  /-- before `requeue` -/
  | requeue

structure WorkerTask where
  proc : Proc
  job : ClaimedJob
  pc : WorkerPc
  /-- the last statement that stamped the row for this task -/
  beatAt : Nat

/-- A call of the flow engine that inserts rows and executes them itself. -/
inductive FlowCall
  /-- `run_step` on a step with these `retries` -/
  | runStep (n : NewRun) (retries : Option Int)
  /-- `compensate`, one row for each script it runs -/
  | compensate (rows : List NewRun)

/-- The rows a call may insert, in order. -/
def FlowCall.rows : FlowCall → List NewRun
  | .runStep n retries => List.replicate (stepAttempts retries) n
  | .compensate rows => rows

inductive FlowPc
  /-- the head of the loop -/
  | next
  /-- the row is inserted; waiting for a permit -/
  | wait (r : RunId)
  | exec (r : RunId) (pc : ExecPc)
  /-- before `run_status` -/
  | status (r : RunId)

structure FlowTask where
  proc : Proc
  call : FlowCall
  /-- rows not inserted yet -/
  todo : List NewRun
  pc : FlowPc

inductive DriverPc
  /-- inside `drive` -/
  | drive
  /-- the terminal status is written, `drive` not yet left -/
  | finished
  /-- `drive` returned an error, not yet recorded -/
  | failing

structure Driver where
  proc : Proc
  flow : FlowId
  pc : DriverPc
  beatAt : Nat

/-- A call of the `cancel` tool past its kill. -/
structure Cancel where
  proc : Proc
  run : RunId
  reason : String

/-- Who executes. -/
inductive Caller
  | worker (t : TaskId)
  | flow (t : TaskId)
deriving DecidableEq, Repr

/-- What the history records. -/
inductive Entry
  /-- a flow task inserted the row -/
  | inserted (r : RunId) (t : TaskId)
  /-- `Executor::run` was called -/
  | called (r : RunId) (who : Caller)
  /-- `start_exec` went through -/
  | started (r : RunId) (who : Caller)
  /-- `cancel_run` returned true -/
  | canceled (r : RunId)
deriving DecidableEq, Repr

/-! ## The state -/

structure Queue where
  now : Nat
  runs : RunId → Option Run
  nextRun : RunId
  scripts : Int → Option Script
  flowRuns : FlowId → Option FlowRun
  nextFlow : FlowId
  workers : TaskId → Option WorkerTask
  flows : TaskId → Option FlowTask
  drivers : TaskId → Option Driver
  cancels : TaskId → Option Cancel
  nextTask : TaskId
  /-- `Executor::active` of each process -/
  active : Proc → RunId → Option Cid
  killed : Cid → Bool
  /-- newest first -/
  log : List Entry
  spawned : TaskId → Option FlowCall

/-- An empty database and no process at work. -/
def init (now : Nat) : Queue where
  now
  runs := fun _ => none
  nextRun := 0
  scripts := fun _ => none
  flowRuns := fun _ => none
  nextFlow := 0
  workers := fun _ => none
  flows := fun _ => none
  drivers := fun _ => none
  cancels := fun _ => none
  nextTask := 0
  active := fun _ _ => none
  killed := fun _ => false
  log := []
  spawned := fun _ => none

/-! ## Table updates -/

/-- The rows of `runs` after appending `rows` under the ids from `next` on. -/
def appendRows (runs : RunId → Option Run) (next : RunId) (rows : List Run) :
    RunId → Option Run :=
  fun r => if r < next then runs r else rows[r - next]?

/-- One statement on one row of `runs`. -/
def Queue.onRun (q : Queue) (r : RunId) (f : Run → Run) : Queue :=
  { q with runs := Function.update q.runs r ((q.runs r).map f) }

/-- One statement on every row of `runs`. -/
def Queue.onRuns (q : Queue) (f : Run → Run) : Queue :=
  { q with runs := fun r => (q.runs r).map f }

/-- Rows appended to `runs` under the next ids. -/
def Queue.addRuns (q : Queue) (rows : List Run) : Queue :=
  { q with
    runs := appendRows q.runs q.nextRun rows
    nextRun := q.nextRun + rows.length }

/-- One statement on one row of `flow_runs`. -/
def Queue.onFlow (q : Queue) (f : FlowId) (g : FlowRun → FlowRun) : Queue :=
  { q with flowRuns := Function.update q.flowRuns f ((q.flowRuns f).map g) }

def Queue.setWorker (q : Queue) (t : TaskId) (w : Option WorkerTask) : Queue :=
  { q with workers := Function.update q.workers t w }

def Queue.setFlow (q : Queue) (t : TaskId) (w : Option FlowTask) : Queue :=
  { q with flows := Function.update q.flows t w }

def Queue.setDriver (q : Queue) (t : TaskId) (w : Option Driver) : Queue :=
  { q with drivers := Function.update q.drivers t w }

def Queue.record (q : Queue) (e : Entry) : Queue := { q with log := e :: q.log }

/-- `active` after an insert or a remove in one process. -/
def activeAt (active : Proc → RunId → Option Cid) (p : Proc) (r : RunId)
    (c : Option Cid) : Proc → RunId → Option Cid :=
  Function.update active p (Function.update (active p) r c)

/-- The killed containers after `kill_container`, if there is one to kill. -/
def kill (killed : Cid → Bool) : Option Cid → Cid → Bool
  | some cid => Function.update killed cid true
  | none => killed

/-! ## Executing a row -/

/-- What one step of an execution of `r` does to everything but its task. -/
def Queue.apply (q : Queue) (p : Proc) (r : RunId) (who : Caller) (out : ExecOut) :
    Queue :=
  { q with
    runs := appendRows (Function.update q.runs r ((q.runs r).map out.write)) q.nextRun
      (out.fired.map (insertRunWithBlobs q.now))
    nextRun := q.nextRun + out.fired.length
    active := if out.register.isSome then activeAt q.active p r out.register else q.active
    killed := kill q.killed out.kill
    log := if out.started then .started r who :: q.log else q.log }

/-! ## Worker tasks -/

/-- The row `claim_run` selects: the oldest pending one of a runtime in `caps`
that no concurrent claim holds locked. -/
def Queue.claimable (q : Queue) (caps : List String) (locked : RunId → Bool)
    (r : RunId) : Bool :=
  !locked r &&
    match q.runs r with
    | some row =>
        row.status = .pending &&
          match q.scripts row.scriptId with
          | some s => caps.contains s.runtime
          | none => false
    | none => false

def Queue.claimed (q : Queue) (caps : List String) (locked : RunId → Bool) :
    Option RunId :=
  (List.range q.nextRun).find? (q.claimable caps locked)

/-- The job `claim_run` returns for `r`. -/
def Queue.job (q : Queue) (r : RunId) : Option ClaimedJob := do
  let row ← q.runs r
  let s ← q.scripts row.scriptId
  return { runId := r, captureOutput := row.captureOutput, timeoutSecs := s.timeoutSecs }

/-- `claim_run` by a worker of process `p`, and the task it spawns. -/
def Queue.claim (q : Queue) (p : Proc) (caps : List String)
    (locked : RunId → Bool) : Option Queue := do
  let r ← q.claimed caps locked
  let job ← q.job r
  let q := (q.onRun r (claimRun q.now)).setWorker q.nextTask
    (some { proc := p, job, pc := .mark, beatAt := q.now })
  return { q with nextTask := q.nextTask + 1 }

/-- The retry decision on what `run_outcome` reads. -/
def retries (row : Run) (attempt : Nat) : Bool :=
  row.status = .failed && row.exitCode.isNone && attempt < maxAttempts

/-- The next step of worker task `t`. -/
def Queue.stepWorker (q : Queue) (t : TaskId) (reply : Reply) : Option Queue := do
  let w ← q.workers t
  let r := w.job.runId
  let goto (pc : WorkerPc) : Option WorkerTask := some { w with pc }
  match w.pc with
  | .mark =>
      let row ← q.runs r
      let q := (q.onRun r markAttempt).setWorker t (goto (.exec (row.attempts + 1) .acquire))
      return q.record (.called r (.worker t))
  | .exec attempt .returned =>
      return { q.setWorker t (goto (.outcome attempt)) with
        active := activeAt q.active w.proc r none }
  | .exec attempt pc =>
      let out ← execStep q.now w.job.captureOutput q.killed pc reply
      return (q.apply w.proc r (.worker t) out).setWorker t (goto (.exec attempt out.pc))
  | .outcome attempt =>
      let row ← q.runs r
      if retries row attempt then
        if w.job.timeoutSecs.isSome then return q.setWorker t (goto .errorRead)
        else return q.setWorker t (goto .requeue)
      else return q.setWorker t none
  | .errorRead =>
      let row ← q.runs r
      if row.error = some "timeout" then return q.setWorker t none
      else return q.setWorker t (goto .requeue)
  | .requeue => return (q.onRun r requeue).setWorker t none

/-! ## Flow tasks -/

/-- The engine spawns a call that inserts and executes rows. -/
def Queue.spawnFlow (q : Queue) (p : Proc) (call : FlowCall) : Queue :=
  let q := q.setFlow q.nextTask
    (some { proc := p, call, todo := call.rows, pc := .next })
  { q with
    nextTask := q.nextTask + 1
    spawned := Function.update q.spawned q.nextTask (some call) }

/-- What is left to insert after a row ended with `st`: `run_step` stops at a
success, `compensate` goes through its whole list. -/
def FlowCall.rest (call : FlowCall) (st : RunStatus) (todo : List NewRun) :
    List NewRun :=
  match call with
  | .runStep _ _ => if st = .succeeded then [] else todo
  | .compensate _ => todo

/-- The next step of flow task `t`. -/
def Queue.stepFlow (q : Queue) (t : TaskId) (reply : Reply) : Option Queue := do
  let w ← q.flows t
  match w.pc with
  | .next =>
      match w.todo with
      | [] => return q.setFlow t none
      | n :: rest =>
          let r := q.nextRun
          let q := (q.addRuns [insertRunWithBlobs q.now n]).setFlow t
            (some { w with todo := rest, pc := .wait r })
          return q.record (.inserted r t)
  | .wait r =>
      return (q.setFlow t (some { w with pc := .exec r .acquire })).record
        (.called r (.flow t))
  | .exec r .returned =>
      return { q.setFlow t (some { w with pc := .status r }) with
        active := activeAt q.active w.proc r none }
  | .exec r pc =>
      let out ← execStep q.now false q.killed pc reply
      return (q.apply w.proc r (.flow t) out).setFlow t
        (some { w with pc := .exec r out.pc })
  | .status r =>
      let row ← q.runs r
      return q.setFlow t
        (some { w with todo := w.call.rest row.status w.todo, pc := .next })

/-! ## Flow drivers -/

/-- The row `claim_flow_run` selects. -/
def Queue.claimedFlow (q : Queue) (locked : FlowId → Bool) : Option FlowId :=
  (List.range q.nextFlow).find? fun f =>
    !locked f && (q.flowRuns f).any fun row => row.status = .pending

/-- `claim_flow_run` by an engine of process `p`, and the driver it spawns. -/
def Queue.claimFlow (q : Queue) (p : Proc) (locked : FlowId → Bool) :
    Option Queue := do
  let f ← q.claimedFlow locked
  let q := (q.onFlow f (claimFlowRun q.now)).setDriver q.nextTask
    (some { proc := p, flow := f, pc := .drive, beatAt := q.now })
  return { q with nextTask := q.nextTask + 1 }

/-- What a driver does next. -/
inductive DriverMove
  | touch
  /-- `drive_inner` writes a terminal status -/
  | finish (status : FlowStatus)
  /-- `drive_inner` returns an error -/
  | error
  /-- `drive` is left, or the `failed` of `start` is written -/
  | done

def Queue.stepDriver (q : Queue) (t : TaskId) (m : DriverMove) : Option Queue := do
  let d ← q.drivers t
  match d.pc, m with
  | .drive, .touch =>
      return (q.onFlow d.flow (touchFlowRun q.now)).setDriver t
        (some { d with beatAt := q.now })
  | .finished, .touch =>
      return (q.onFlow d.flow (touchFlowRun q.now)).setDriver t
        (some { d with beatAt := q.now })
  | .drive, .finish status =>
      if status = .pending ∨ status = .running then none
      else
        return (q.onFlow d.flow (finishFlowRun q.now status)).setDriver t
          (some { d with pc := .finished })
  | .drive, .error => return q.setDriver t (some { d with pc := .failing })
  | .finished, .done => return q.setDriver t none
  | .failing, .done =>
      return (q.onFlow d.flow (finishFlowRun q.now .failed)).setDriver t none
  | _, _ => none

/-! ## The heartbeat, cancels and crashes -/

/-- `touch_run` by the heartbeat of an execution. -/
def Queue.beat (q : Queue) (who : Caller) : Option Queue :=
  match who with
  | .worker t => do
      let w ← q.workers t
      match w.pc with
      | .exec _ _ =>
          return (q.onRun w.job.runId (touchRun q.now)).setWorker t
            (some { w with beatAt := q.now })
      | _ => none
  | .flow t => do
      let w ← q.flows t
      match w.pc with
      | .exec r _ => return q.onRun r (touchRun q.now)
      | _ => none

/-- `Executor::cancel` in process `p`, the first half of the `cancel` tool. -/
def Queue.cancelCall (q : Queue) (p : Proc) (r : RunId) (reason : String) : Queue :=
  { q with
    killed := kill q.killed (q.active p r)
    cancels := Function.update q.cancels q.nextTask (some { proc := p, run := r, reason })
    nextTask := q.nextTask + 1 }

/-- `Db::cancel_run`, its second half. -/
def Queue.cancelWrite (q : Queue) (t : TaskId) : Option Queue := do
  let c ← q.cancels t
  let done (q : Queue) : Queue :=
    { q with cancels := Function.update q.cancels t none }
  match q.runs c.run with
  | some row =>
      if cancelTakes row then
        return done ((q.onRun c.run (cancelRun q.now c.reason)).record (.canceled c.run))
      else return done q
  | none => return done q

/-- Process `p` dies with all its tasks. -/
def Queue.crash (q : Queue) (p : Proc) : Queue :=
  { q with
    workers := fun t => (q.workers t).filter fun w => w.proc ≠ p
    flows := fun t => (q.flows t).filter fun w => w.proc ≠ p
    drivers := fun t => (q.drivers t).filter fun d => d.proc ≠ p
    cancels := fun t => (q.cancels t).filter fun c => c.proc ≠ p
    active := Function.update q.active p fun _ => none }

/-! ## The machine -/

inductive Label
  | tick (d : Nat)
  | putScript (id : Int) (s : Script)
  /-- any enqueue outside the flow engine -/
  | enqueue (rows : List NewRun)
  | refuse (n : NewRun) (reason : String)
  | claim (p : Proc) (caps : List String) (locked : RunId → Bool)
  | worker (t : TaskId) (reply : Reply)
  | spawnFlow (p : Proc) (call : FlowCall)
  | flow (t : TaskId) (reply : Reply)
  | beat (who : Caller)
  | cancelCall (p : Proc) (r : RunId) (reason : String)
  | cancelWrite (t : TaskId)
  | reapRuns
  | failStale (maxAge : Nat)
  | enqueueFlow (input : Option Value)
  | claimFlow (p : Proc) (locked : FlowId → Bool)
  | driver (t : TaskId) (m : DriverMove)
  | reapFlows
  | crash (p : Proc)

def step (q : Queue) : Label → Option Queue
  | .tick d => some { q with now := q.now + d }
  | .putScript id s => some { q with scripts := Function.update q.scripts id (some s) }
  | .enqueue rows => some (q.addRuns (rows.map (insertRunWithBlobs q.now)))
  | .refuse n reason => some (q.addRuns [insertRefusedRun q.now n reason])
  | .claim p caps locked => q.claim p caps locked
  | .worker t reply => q.stepWorker t reply
  | .spawnFlow p call => some (q.spawnFlow p call)
  | .flow t reply => q.stepFlow t reply
  | .beat who => q.beat who
  | .cancelCall p r reason => some (q.cancelCall p r reason)
  | .cancelWrite t => q.cancelWrite t
  | .reapRuns => some (q.onRuns (reapOrphanRun q.now runLease))
  | .failStale maxAge => some (q.onRuns (failStalePending q.now maxAge))
  | .enqueueFlow input =>
      some
        { q with
          flowRuns := Function.update q.flowRuns q.nextFlow (some (insertFlowRun input))
          nextFlow := q.nextFlow + 1 }
  | .claimFlow p locked => q.claimFlow p locked
  | .driver t m => q.stepDriver t m
  | .reapFlows =>
      some
        { q with
          flowRuns := fun f => (q.flowRuns f).map (reapOrphanFlowRun q.now flowLease) }
  | .crash p => some (q.crash p)

end Dokan.Ports.RunQueue
