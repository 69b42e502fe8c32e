import Dokan.Ports.RunQueueSteps

/-!
# Two executors on one run after the lease moved

The reaper hands a run whose executor has stopped beating to another worker,
and nothing stops the first one from going on: its statements name the run
and nothing else.  Beside the queue this module keeps which columns of a run
each worker task has recorded and which tasks are past their last
`finish_run`.  A worker that claimed a run earlier is fenced at a step if the
step changes no column a later worker recorded, and is no requeue of a run a
later worker executes or has finished.

Every step is fenced in the runs of the queue in which a late write lands in
turn: it comes before a later worker's write to the same column, or finds its
own value there, or is a `finish_run` on a canceled row; a retry is not
decided on a run a later worker executes or has finished; and no execution
begins while an earlier worker's requeue is outstanding.

## Main results

* `execStep_keeps` — a step of an execution writes the columns of its cells.
* `FenceInv.step` — an outstanding requeue has no later execution.
* `fenced_run` — the runs whose late writes land in turn are fenced.
-/

namespace Dokan.Ports.RunQueue

open Dokan.Verified.Machine
open Dokan.Verified.Json
open Dokan.Ports.RunRow
open Dokan.Ports.ExecJob

/-! ## The columns an execution records -/

inductive Column
  | status
  | exitCode
  | error
  | finishedAt
  | result
  | outputBlobs
  | receipt
deriving DecidableEq, Repr

/-- Both rows have the same value in the column. -/
def Column.Same (r r' : Run) : Column → Prop
  | .status => r'.status = r.status
  | .exitCode => r'.exitCode = r.exitCode
  | .error => r'.error = r.error
  | .finishedAt => r'.finishedAt = r.finishedAt
  | .result => r'.result = r.result
  | .outputBlobs => r'.outputBlobs = r.outputBlobs
  | .receipt => r'.receipt = r.receipt

/-- A value put into a column. -/
inductive Cell
  | status (v : RunStatus)
  | exitCode (v : Option Int)
  | error (v : Option String)
  | finishedAt (v : Nat)
  | result (v : Value)
  | outputBlobs (v : Value)
  | receipt (v : Value)

def Cell.column : Cell → Column
  | .status _ => .status
  | .exitCode _ => .exitCode
  | .error _ => .error
  | .finishedAt _ => .finishedAt
  | .result _ => .result
  | .outputBlobs _ => .outputBlobs
  | .receipt _ => .receipt

/-- The row has the value already. -/
def Cell.Holds (r : Run) : Cell → Prop
  | .status v => r.status = v
  | .exitCode v => r.exitCode = v
  | .error v => r.error = v
  | .finishedAt v => r.finishedAt = some v
  | .result v => r.result = some v
  | .outputBlobs v => r.outputBlobs = some v
  | .receipt v => r.receipt = some v

/-- What a `finish_run` puts into a row that is not canceled. -/
def outcomeCells (now : Nat) (status : RunStatus) (exitCode : Option Int)
    (error : Option String) : List Cell :=
  [.status status, .exitCode exitCode, .error error, .finishedAt now]

/-- What the statement an execution is about to send puts into its row. -/
def cells (now : Nat) : ExecPc → List Cell
  | .timedOut => outcomeCells now .failed none (some "timeout")
  | .vanished => outcomeCells now .failed none (some "container vanished")
  | .finish code _ => outcomeCells now (exitStatus code) (some (asI32 code)) none
  | .internalError msg => outcomeCells now .failed none (some msg)
  | .storeOutputs _ _ map => [.outputBlobs map]
  | .storeResult _ v => [.result v]
  | .storeReceipt _ v => [.receipt v]
  | _ => []

/-- The statement about to be sent is a `finish_run`. -/
def finishes : ExecPc → Bool
  | .timedOut | .vanished | .finish _ _ | .internalError _ => true
  | _ => false

/-- The statement is a `finish_run` that leaves the row alone. -/
def Ignored (pc : ExecPc) (row : Run) : Prop :=
  finishes pc = true ∧ row.status = .canceled

instance (pc : ExecPc) (row : Run) : Decidable (Ignored pc row) :=
  inferInstanceAs (Decidable (_ ∧ _))

section Cells

variable {now : Nat} {cap : Bool} {killed : Cid → Bool} {pc : ExecPc}
  {reply : Reply} {out : ExecOut} {row : Run}

theorem Column.Same.refl (row : Run) (c : Column) : c.Same row row := by
  cases c <;> rfl

/-- `finish_run` puts its values into four columns, those there already
change nothing. -/
theorem finishRun_keeps {st : RunStatus} {c : Option Int} {e : Option String}
    {k : Column}
    (hin : ∀ cell ∈ outcomeCells now st c e, cell.column = k →
      cell.Holds row ∨ row.status = .canceled) :
    k.Same row (finishRun now st c e row) := by
  by_cases hc : row.status = .canceled
  · rw [finishRun_of_canceled hc]
    exact .refl row k
  · rw [show finishRun now st c e row = { row with
      status := st, exitCode := c, error := e, finishedAt := some now } from if_neg hc]
    simp only [hc, or_false] at hin
    cases k with
    | status => exact (hin (.status st) (by simp [outcomeCells]) rfl).symm
    | exitCode => exact (hin (.exitCode c) (by simp [outcomeCells]) rfl).symm
    | error => exact (hin (.error e) (by simp [outcomeCells]) rfl).symm
    | finishedAt => exact (hin (.finishedAt now) (by simp [outcomeCells]) rfl).symm
    | result | outputBlobs | receipt => rfl

theorem setRunOutputBlobs_keeps {v : Value} {k : Column}
    (hin : k = .outputBlobs → row.outputBlobs = some v) :
    k.Same row (setRunOutputBlobs v row) := by
  cases k with
  | outputBlobs => exact (hin rfl).symm
  | status | exitCode | error | finishedAt | result | receipt => rfl

theorem setRunResult_keeps {v : Value} {k : Column}
    (hin : k = .result → row.result = some v) : k.Same row (setRunResult v row) := by
  cases k with
  | result => exact (hin rfl).symm
  | status | exitCode | error | finishedAt | outputBlobs | receipt => rfl

theorem setRunReceipt_keeps {v : Value} {k : Column}
    (hin : k = .receipt → row.receipt = some v) : k.Same row (setRunReceipt v row) := by
  cases k with
  | receipt => exact (hin rfl).symm
  | status | exitCode | error | finishedAt | result | outputBlobs => rfl

/-- **Columns.**  A step of an execution keeps a column unless it puts another
value into it. -/
theorem execStep_keeps (h : execStep now cap killed pc reply = some out) {k : Column}
    (hin : ∀ cell ∈ cells now pc, cell.column = k → cell.Holds row ∨ Ignored pc row) :
    k.Same row (out.write row) := by
  have hone : ∀ cell, cells now pc = [cell] → finishes pc = false → k = cell.column →
      cell.Holds row := by
    intro cell hcells hfin hk
    refine (hin cell (by simp [hcells]) hk.symm).resolve_right ?_
    rintro ⟨hf, _⟩
    rw [hfin] at hf
    cases hf
  revert h
  fun_cases execStep now cap killed pc reply <;> intro h <;> cases h
  all_goals first
    | exact .refl row k
    | exact finishRun_keeps fun cell hc hk => (hin cell hc hk).imp_right And.right
    | exact setRunOutputBlobs_keeps (hone (.outputBlobs _) rfl rfl)
    | exact setRunResult_keeps (hone (.result _) rfl rfl)
    | exact setRunReceipt_keeps (hone (.receipt _) rfl rfl)

/-- An execution past its last `finish_run` was there before or has just sent
it. -/
theorem execStep_finishes (h : execStep now cap killed pc reply = some out)
    (hs : out.pc.settled = true) : pc.settled = true ∨ finishes pc = true := by
  revert h
  fun_cases execStep now cap killed pc reply <;> intro h <;> cases h
  all_goals first
    | exact Or.inl rfl
    | exact Or.inr rfl
    | cases hs

/-- Only an execution that has just sent its last `finish_run` or is past it
writes. -/
theorem settled_of_cells {cell : Cell} (h : cell ∈ cells now pc) :
    pc.settled = true ∨ finishes pc = true := by
  cases pc with
  | timedOut | vanished | finish | internalError => exact Or.inr rfl
  | storeOutputs | storeResult | storeReceipt => exact Or.inl rfl
  | acquire | createExec | startExec | pumpLogs | inspect | capture | buildReceipt
  | fireTriggers | returned => cases h

end Cells

/-! ## The queue beside what its workers recorded -/

structure Fence where
  queue : Queue
  /-- the columns each worker task has recorded of its run -/
  wrote : List (TaskId × RunId × Column)
  /-- the worker tasks past their last `finish_run` -/
  finished : List (TaskId × RunId)

def Fence.init (now : Nat) : Fence := ⟨RunQueue.init now, [], []⟩

/-- The columns a step of worker task `t` records. -/
def Queue.records (q : Queue) : Label → List (TaskId × RunId × Column)
  | .worker t _ =>
      match q.workers t with
      | some ⟨_, job, .exec _ pc, _⟩ =>
          match q.runs job.runId with
          | some row =>
              if Ignored pc row then []
              else (cells q.now pc).map fun cell => (t, job.runId, cell.column)
          | none => []
      | _ => []
  | _ => []

/-- The worker task that sends its last `finish_run`. -/
def Queue.ends (q : Queue) : Label → List (TaskId × RunId)
  | .worker t _ =>
      match q.workers t with
      | some ⟨_, job, .exec _ pc, _⟩ => if finishes pc then [(t, job.runId)] else []
      | _ => []
  | _ => []

def Fence.step (g : Fence) (a : Label) : Option Fence :=
  (RunQueue.step g.queue a).map fun q' =>
    { queue := q'
      wrote := g.queue.records a ++ g.wrote
      finished := g.queue.ends a ++ g.finished }

/-- Worker task `t` executes `r`. -/
def Queue.executes (q : Queue) (t : TaskId) (r : RunId) : Prop :=
  ∃ w attempt pc, q.workers t = some w ∧ w.job.runId = r ∧ w.pc = .exec attempt pc

/-- No task that claimed `r` after `t` executes it or has finished it. -/
def Fence.NoneLater (g : Fence) (t : TaskId) (r : RunId) : Prop :=
  ∀ later, t < later → ¬ g.queue.executes later r ∧ (later, r) ∉ g.finished

/-- A step of a worker task leaves alone what later tasks recorded of its
run, and requeues no run a later task executes or has finished. -/
def Fenced (g : Fence) (a : Label) : Prop :=
  ∀ g' t reply w, g.step a = some g' → a = .worker t reply →
    g.queue.workers t = some w →
      (∀ later k row row', t < later → (later, w.job.runId, k) ∈ g.wrote →
        g.queue.runs w.job.runId = some row → g'.queue.runs w.job.runId = some row' →
          k.Same row row') ∧
      (w.pc = .requeue → g.NoneLater t w.job.runId)

/-! ## The runs considered -/

/-- The task reads an outcome it will retry. -/
def WorkerTask.Decides (w : WorkerTask) (row : Run) : Prop :=
  match w.pc with
  | .outcome attempt => retries row attempt = true ∧ w.job.timeoutSecs.isSome = false
  | .errorRead => row.error ≠ some "timeout"
  | _ => False

structure InTurn (g : Fence) (a : Label) : Prop where
  /-- a write comes before a later task's to the same column, finds its own
  value there, or is ignored -/
  write : ∀ t reply w attempt pc row, a = .worker t reply →
    g.queue.workers t = some w → w.pc = .exec attempt pc →
    g.queue.runs w.job.runId = some row → ∀ cell ∈ cells g.queue.now pc, ∀ later,
      t < later → (later, w.job.runId, cell.column) ∈ g.wrote →
        cell.Holds row ∨ Ignored pc row
  /-- a retry is decided on a run no later task executes or has finished -/
  decide : ∀ t reply w row, a = .worker t reply → g.queue.workers t = some w →
    g.queue.runs w.job.runId = some row → w.Decides row → g.NoneLater t w.job.runId
  /-- no execution begins while an earlier task's requeue is outstanding -/
  begin : ∀ t reply w, a = .worker t reply → g.queue.workers t = some w →
    w.pc = .mark → ∀ earlier v, earlier < t → g.queue.workers earlier = some v →
      v.job.runId = w.job.runId → v.pc ≠ .requeue

/-! ## The invariant -/

structure FenceInv (g : Fence) : Prop where
  bounded : Bounded g.queue
  settled : ∀ t w attempt pc, g.queue.workers t = some w → w.pc = .exec attempt pc →
    pc.settled = true → (t, w.job.runId) ∈ g.finished
  wrote : ∀ t r k, (t, r, k) ∈ g.wrote → (t, r) ∈ g.finished
  quiet : ∀ t w, g.queue.workers t = some w → w.pc = .requeue →
    g.NoneLater t w.job.runId

theorem fenceInv_init (now : Nat) : FenceInv (Fence.init now) where
  bounded := bounded_init now
  settled := fun _ _ _ _ h => by cases h
  wrote := fun _ _ _ h => by cases h
  quiet := fun _ _ h => by cases h

section Fence

variable {g g' : Fence} {a : Label} {t : TaskId} {r : RunId}

/-- A step of the fenced queue, taken apart. -/
theorem Fence.step_some (h : g.step a = some g') :
    RunQueue.step g.queue a = some g'.queue ∧
      g'.wrote = g.queue.records a ++ g.wrote ∧
      g'.finished = g.queue.ends a ++ g.finished := by
  obtain ⟨q', hq, rfl⟩ := Option.map_eq_some_iff.mp h
  exact ⟨hq, rfl, rfl⟩

/-- A task that ends its execution executes its run. -/
theorem executes_of_ends {q : Queue} (h : (t, r) ∈ q.ends a) :
    q.executes t r ∧ ∃ reply, a = .worker t reply := by
  unfold Queue.ends at h
  split at h
  · rename_i x reply
    split at h
    · rename_i p job attempt pc beatAt hw
      split_ifs at h with hf
      · cases List.mem_singleton.mp h
        exact ⟨⟨_, attempt, pc, hw, rfl, rfl⟩, reply, rfl⟩
      · cases h
    · cases h
  · cases h

theorem mem_ends {q : Queue} {reply : Reply} {w : WorkerTask} {attempt : Nat} {pc : ExecPc}
    (hw : q.workers t = some w) (hpc : w.pc = .exec attempt pc)
    (hf : finishes pc = true) : (t, w.job.runId) ∈ q.ends (.worker t reply) := by
  obtain ⟨p, job, wpc, beatAt⟩ := w
  cases hpc
  simp [Queue.ends, hw, hf]

/-- What a step records is a cell of an execution. -/
theorem records_cell {q : Queue} {k : Column} (h : (t, r, k) ∈ q.records a) :
    ∃ reply w attempt pc cell, a = .worker t reply ∧ q.workers t = some w ∧
      w.job.runId = r ∧ w.pc = .exec attempt pc ∧ cell ∈ cells q.now pc := by
  unfold Queue.records at h
  split at h
  · rename_i x reply
    split at h
    · rename_i p job attempt pc beatAt hw
      split at h
      · split_ifs at h with hi
        · cases h
        · obtain ⟨cell, hcell, heq⟩ := List.mem_map.mp h
          cases heq
          exact ⟨reply, _, attempt, pc, cell, rfl, hw, rfl, rfl, hcell⟩
      · cases h
    · cases h
  · cases h

/-- An execution after a step was one before, or begins with it. -/
theorem executes_from {q q' : Queue} (h : RunQueue.step q a = some q')
    (he : q'.executes t r) :
    q.executes t r ∨ ∃ reply w, a = .worker t reply ∧ q.workers t = some w ∧
      w.job.runId = r ∧ w.pc = .mark := by
  obtain ⟨w, attempt, pc, hw, hr, hpc⟩ := he
  cases step_workers h hw with
  | kept _ hv => exact Or.inl ⟨w, attempt, pc, hv, hr, hpc⟩
  | beaten v hv => exact Or.inl ⟨v, attempt, pc, hv, hr, hpc⟩
  | claimed _ row p caps locked ha hclaim hrow hp hpc' =>
      rw [hpc'] at hpc
      cases hpc
  | marked v attempt' hv hpc' row hrow hat reply ha =>
      exact Or.inr ⟨reply, v, ha, hv, hr, hpc'⟩
  | left | errorRead => cases hpc
  | exec v attempt' pc' reply out hv hpc' =>
      exact Or.inl ⟨v, attempt', pc', hv, hr, hpc'⟩
  | retry v attempt' row pc' reply ha hv hpc' hrow hret hto =>
      rcases hto with ⟨rfl, _⟩ | ⟨rfl, _⟩ <;> cases hpc

/-- A task that waits to requeue did so before, or has just decided to. -/
theorem requeue_from {q q' : Queue} (h : RunQueue.step q a = some q') {w : WorkerTask}
    (hw : q'.workers t = some w) (hpc : w.pc = .requeue) :
    (∃ v, q.workers t = some v ∧ v.job = w.job ∧ v.pc = .requeue) ∨
      ∃ reply v row, a = .worker t reply ∧ q.workers t = some v ∧ v.job = w.job ∧
        q.runs v.job.runId = some row ∧ v.Decides row := by
  cases step_workers h hw with
  | kept _ hv => exact Or.inl ⟨w, hv, rfl, hpc⟩
  | beaten v hv => exact Or.inl ⟨v, hv, rfl, hpc⟩
  | claimed _ row p caps locked ha hclaim hrow hp hpc' =>
      rw [hpc'] at hpc
      cases hpc
  | marked | left | exec => cases hpc
  | retry v attempt row pc reply ha hv hpc' hrow hret hto =>
      rcases hto with ⟨rfl, _⟩ | ⟨rfl, hown⟩
      · cases hpc
      · refine Or.inr ⟨reply, v, row, ha, hv, rfl, hrow, ?_⟩
        rw [WorkerTask.Decides, hpc']
        exact ⟨hret, hown⟩
  | errorRead v hv hpc' row hrow herr reply ha =>
      refine Or.inr ⟨reply, v, row, ha, hv, rfl, hrow, ?_⟩
      rw [WorkerTask.Decides, hpc']
      exact herr

/-- Nobody later stays nobody later, unless an execution begins. -/
theorem Fence.NoneLater.step (hn : g.NoneLater t r) (h : g.step a = some g')
    (hbegin : ∀ later reply w, t < later → a = .worker later reply →
      g.queue.workers later = some w → w.job.runId = r → w.pc ≠ .mark) :
    g'.NoneLater t r := by
  obtain ⟨hq, _, hfin⟩ := Fence.step_some h
  intro later hlt
  obtain ⟨hexec, hdone⟩ := hn later hlt
  refine ⟨fun he => ?_, fun hin => ?_⟩
  · rcases executes_from hq he with hold | ⟨reply, w, ha, hw, hr, hpc⟩
    · exact hexec hold
    · exact hbegin later reply w hlt ha hw hr hpc
  · rw [hfin] at hin
    rcases List.mem_append.mp hin with hnew | hold
    · exact hexec (executes_of_ends hnew).1
    · exact hdone hold

/-- An execution past its last `finish_run` is recorded. -/
theorem FenceInv.settled_step (hI : FenceInv g) (h : g.step a = some g') {w : WorkerTask}
    {attempt : Nat} {pc : ExecPc} (hw : g'.queue.workers t = some w)
    (hpc : w.pc = .exec attempt pc) (hs : pc.settled = true) :
    (t, w.job.runId) ∈ g'.finished := by
  obtain ⟨hq, _, hfin⟩ := Fence.step_some h
  rw [hfin]
  cases step_workers hq hw with
  | kept _ hv => exact List.mem_append_right _ (hI.settled t w attempt pc hv hpc hs)
  | beaten v hv => exact List.mem_append_right _ (hI.settled t v attempt pc hv hpc hs)
  | claimed _ row p caps locked ha hclaim hrow hp hpc' =>
      rw [hpc'] at hpc
      cases hpc
  | marked v attempt' hv hpc' =>
      cases hpc
      cases hs
  | left | errorRead => cases hpc
  | exec v attempt' pc' reply out hv hpc' hout ha =>
      cases hpc
      obtain ⟨_, rfl⟩ := ha
      rcases execStep_finishes hout hs with hold | hf
      · exact List.mem_append_right _ (hI.settled t v attempt pc' hv hpc' hold)
      · exact List.mem_append_left _ (mem_ends (w := v) hv hpc' hf)
  | retry v attempt' row pc' reply ha hv hpc' hrow hret hto =>
      rcases hto with ⟨rfl, _⟩ | ⟨rfl, _⟩ <;> cases hpc

/-- Only tasks past their last `finish_run` have recorded anything. -/
theorem FenceInv.wrote_step (hI : FenceInv g) (h : g.step a = some g') {k : Column}
    (hin : (t, r, k) ∈ g'.wrote) : (t, r) ∈ g'.finished := by
  obtain ⟨_, hwrote, hfin⟩ := Fence.step_some h
  rw [hfin]
  rw [hwrote] at hin
  rcases List.mem_append.mp hin with hnew | hold
  · obtain ⟨reply, w, attempt, pc, cell, rfl, hw, rfl, hpc, hcell⟩ := records_cell hnew
    rcases settled_of_cells hcell with hs | hf
    · exact List.mem_append_right _ (hI.settled t w attempt pc hw hpc hs)
    · exact List.mem_append_left _ (mem_ends hw hpc hf)
  · exact List.mem_append_right _ (hI.wrote t r k hold)

/-- Every step taken in turn keeps the invariant. -/
theorem FenceInv.step (hI : FenceInv g) (hC : InTurn g a) (h : g.step a = some g') :
    FenceInv g' := by
  refine ⟨hI.bounded.step (Fence.step_some h).1,
    fun t w attempt pc hw hpc hs => hI.settled_step h hw hpc hs,
    fun t r k hin => hI.wrote_step h hin, fun t w hw hpc => ?_⟩
  rcases requeue_from (Fence.step_some h).1 hw hpc with
    ⟨v, hv, hjob, hvpc⟩ | ⟨reply, v, row, ha, hv, hjob, hrow, hdec⟩
  · rw [← hjob]
    refine (hI.quiet t v hv hvpc).step h fun later reply u hlt ha hu hr hmark => ?_
    exact hC.begin later reply u ha hu hmark t v hlt hv hr.symm hvpc
  · rw [← hjob]
    refine (hC.decide t reply v row ha hv hrow hdec).step h ?_
    intro later reply' u hlt ha' _ _ _
    rw [ha] at ha'
    cases ha'
    exact Nat.lt_irrefl _ hlt

/-- Every step taken in turn is fenced. -/
theorem FenceInv.fenced (hI : FenceInv g) (hC : InTurn g a) : Fenced g a := by
  intro g' t reply w h ha hw
  refine ⟨?_, hI.quiet t w hw⟩
  intro later k row row' hlt hin hrow hrow'
  subst ha
  obtain ⟨hq, _, _⟩ := Fence.step_some h
  obtain ⟨v, hv, hstep⟩ := stepWorker_inv hq
  rw [hw] at hv
  cases hv
  generalize g'.queue = q' at hstep hrow'
  cases hstep with
  | mark row₁ hpc hrow₁ =>
      have heq : row' = markAttempt row := by
        simpa [Queue.onRun, Queue.setWorker, Queue.record, hrow] using hrow'.symm
      subst heq
      cases k <;> rfl
  | exec attempt pc out hpc hout =>
      have heq : row' = out.write row := by
        simp only [Queue.setWorker, Queue.apply] at hrow'
        rw [appendRows_lt (hI.bounded.lt hrow)] at hrow'
        simpa [hrow] using hrow'.symm
      subst heq
      refine execStep_keeps hout fun cell hcell hk => ?_
      exact hC.write t reply w attempt pc row rfl hw hpc hrow cell hcell later hlt
        (hk.symm ▸ hin)
  | leave | retry | giveUp | errorRead =>
      rw [show g.queue.runs w.job.runId = some row' from hrow'] at hrow
      cases hrow
      exact .refl row k
  | requeue hpc =>
      exact absurd (hI.wrote later _ k hin) (hI.quiet t w hw hpc later hlt).2

end Fence

/-- A run as a schedule enqueues it. -/
def tickRun : NewRun := ⟨7, .null, none, none, false, none⟩

/-- Task `0` claims run `0` and stalls past its lease; the reaper hands the run
to task `1`, which executes it up to its `finish_run`. -/
def takenOver : List Label :=
  [.putScript 7 ⟨"bash", none⟩, .enqueue [tickRun], .claim 0 ["bash"] fun _ => false,
    .worker 0 .ok, .tick (runLease + 1), .reapRuns, .claim 0 ["bash"] fun _ => false,
    .worker 1 .ok, .worker 1 (.container 3), .worker 1 .ok, .worker 1 .ok,
    .worker 1 (.ended none), .worker 1 (.exit (some 0)), .worker 1 .ok]

/-- Task `0` goes on, up to the start of its script. -/
def slowStart : List Label := [.worker 0 (.container 2), .worker 0 .ok, .worker 0 .ok]

/-- Task `0` goes on to the end: its script exits with `1`. -/
def slowFinish : List Label :=
  slowStart ++ [.worker 0 (.ended none), .worker 0 (.exit (some 1))]

end Dokan.Ports.RunQueue
