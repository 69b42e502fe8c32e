import Dokan.Ports.ExecPublish
import Dokan.Ports.PumpLogs
import Dokan.Ports.RunQueue

/-!
# A job that ran to completion

One worker execution of a job whose container works: it prints what it
prints, exits with a code, and every statement succeeds but for text with
U+0000, which Postgres refuses.  Where the refused text is an output map, a
result or a receipt the error is logged; where it is a log line the pump
fails, the run ends without its exit code, and the worker retries it.

## Main results

* `execJob_runs` — the row `execJob` computes is the one the statement-wise
  execution ends with.
* `completes_iff` — the jobs whose exit code becomes the outcome of the run.
-/

namespace Dokan.Ports.RunCompletes

open Dokan.Verified.Json
open Dokan.Verified.Machine
open Dokan.Ports.RunRow
open Dokan.Ports.ExecJob
open Dokan.Ports.ExecPublish
open Dokan.Ports.PumpLogs
open Dokan.Ports.RunQueue (retries)

/-! ## What Postgres refuses -/

mutual
/-- `jsonb` takes no string with U+0000. -/
def jsonStorable : Value → Bool
  | .null | .bool _ | .num _ => true
  | .str s => storable s.toList
  | .arr a => elemsStorable a
  | .obj m => membersStorable m

def elemsStorable : List Value → Bool
  | [] => true
  | v :: vs => jsonStorable v && elemsStorable vs

def membersStorable : List (String × Value) → Bool
  | [] => true
  | (k, v) :: ms => storable k.toList && jsonStorable v && membersStorable ms
end

/-! ## One execution -/

/-- A job and its container. -/
structure Job where
  cid : Cid
  secrets : List Text
  chunks : List Chunk
  /-- the container was gone before the stream ended -/
  torn : Bool
  /-- the exit code Docker reports -/
  exitCode : Int
  /-- what `/output` held, if it was captured -/
  captured : Option Value
  receipt : Value
  fired : List NewRun

section Exec

-- `serde_json::from_str`, and the log rows the run has from before
variable (fromStr : Text → Option Value) (logs : List LogRow)

/-- The result line, parsed; anything but JSON is taken as a string. -/
def structured (raw : Text) : Value := (fromStr raw).getD (.str (String.ofList raw))

/-- A write that is only logged when Postgres refuses it, and whether it went
through. -/
def provenance (write : Value → Run → Run) (v : Option Value) (row : Run) : Run × Bool :=
  match v with
  | some v => if jsonStorable v then (write v row, true) else (row, false)
  | none => (row, true)

/-- `exec_job` from its terminal `finish_run` on. -/
def publish (job : Job) (now : Nat) (result : Option Value) (row : Run) : Run :=
  let row := finishRun now (exitStatus job.exitCode) (some (asI32 job.exitCode)) none row
  let outputs := provenance setRunOutputBlobs
    (if row.captureOutput then job.captured else none) row
  let stored := provenance setRunResult result outputs.1
  if outputs.2 && stored.2 then (provenance setRunReceipt (some job.receipt) stored.1).1
  else stored.1

/-- `Executor::run`: what the execution leaves in the row. -/
def execJob (job : Job) (now : Nat) (row : Run) : Run :=
  match pumpLogs job.secrets logs (itemsOf job.chunks job.torn) with
  | .ok p => publish job now (p.result.map (structured fromStr)) row
  | .error msg => finishRun now .failed none (some msg) row

/-- The task `Worker::spawn` starts for a claimed run: the row in the end, and
whether it was requeued. -/
def workerTask (job : Job) (now : Nat) (timeoutSecs : Option Int) (row : Run) : Run × Bool :=
  let row := markAttempt row
  let after := execJob fromStr logs job now row
  if retries after row.attempts &&
      !(timeoutSecs.isSome && decide (after.error = some "timeout")) then
    (requeue after, true)
  else (after, false)

/-! ## The same execution, statement by statement -/

/-- The outside world of the job. -/
def Job.world (job : Job) : World where
  acquire := .ok job.cid
  createExec := .ok ()
  startExec := .ok ()
  stream :=
    match pumpLogs job.secrets logs (itemsOf job.chunks job.torn) with
    | .ok p => .ended (p.result.map (structured fromStr))
    | .error msg => .error msg
  inspect := .exit (some job.exitCode)
  captured := job.captured
  receipt := job.receipt
  fired := job.fired

/-- Nothing the execution publishes is refused. -/
def Job.Accepted (job : Job) : Prop :=
  (∀ m, job.captured = some m → jsonStorable m = true) ∧ jsonStorable job.receipt = true ∧
    ∀ p v, pumpLogs job.secrets logs (itemsOf job.chunks job.torn) = .ok p →
      p.result.map (structured fromStr) = some v → jsonStorable v = true

end Exec

section Facts

variable {fromStr : Text → Option Value} {logs : List LogRow} {job : Job} {now : Nat}

theorem provenance_accepted {write : Value → Run → Run} {v : Option Value} {row : Run}
    (h : ∀ x, v = some x → jsonStorable x = true) :
    provenance write v row = (v.elim row fun x => write x row, true) := by
  cases v with
  | none => rfl
  | some x => simp [provenance, h x rfl]

/-- The execution gets from `s` to `s'` on its own. -/
def Runs (w : World) (s s' : Publish) : Prop :=
  ∃ n, run (step w) s (List.replicate n .exec) = some s'

theorem Runs.refl (w : World) (s : Publish) : Runs w s s := ⟨0, rfl⟩

theorem Runs.head {w : World} {s s₁ s' : Publish} (h : step w s .exec = some s₁)
    (hrest : Runs w s₁ s') : Runs w s s' := by
  obtain ⟨n, hn⟩ := hrest
  refine ⟨n + 1, ?_⟩
  rw [List.replicate_succ, run_cons, h]
  exact hn

variable {w : World} {code : Int} {result : Option Value} {s' : Publish}

/-- From the receipt on. -/
theorem runs_receipt (row : Run) :
    Runs w ⟨now, row, some (.buildReceipt code result)⟩
      ⟨now, setRunReceipt w.receipt row, some .returned⟩ := by
  refine .head rfl (.head rfl ?_)
  cases result with
  | none => exact .refl _ _
  | some v => exact .head rfl (.refl _ _)

/-- From the result on. -/
theorem runs_result (row : Run) :
    Runs w ⟨now, row, some (afterOutputs code result)⟩
      ⟨now, setRunReceipt w.receipt (result.elim row fun v => setRunResult v row),
        some .returned⟩ := by
  cases result with
  | none => exact runs_receipt row
  | some v => exact .head rfl (runs_receipt _)

/-- From the output map on. -/
theorem runs_capture (row : Run) :
    Runs w ⟨now, row, some (.capture code result)⟩
      ⟨now, setRunReceipt w.receipt (result.elim
        ((if row.captureOutput then w.captured else none).elim row
          fun m => setRunOutputBlobs m row) fun v => setRunResult v
        ((if row.captureOutput then w.captured else none).elim row
          fun m => setRunOutputBlobs m row)), some .returned⟩ := by
  cases hmap : if row.captureOutput then w.captured else none with
  | none =>
      have hstep : step w ⟨now, row, some (.capture code result)⟩ .exec =
          some ⟨now, row, some (afterOutputs code result)⟩ := by
        simp [step, World.answer, hmap, execStep]
      exact .head hstep (runs_result row)
  | some m =>
      have hflag : row.captureOutput = true := by
        by_contra hno
        rw [if_neg hno] at hmap
        cases hmap
      rw [hflag, if_pos rfl] at hmap
      have hstep : step w ⟨now, row, some (.capture code result)⟩ .exec =
          some ⟨now, row, some (.storeOutputs code result m)⟩ := by
        simp [step, World.answer, hmap, execStep, hflag]
      exact .head hstep (.head rfl (runs_result _))

/-- **The statements of an execution** end with the row `execJob` computes,
when nothing it publishes is refused. -/
theorem execJob_runs (row : Run) (hacc : job.Accepted fromStr logs) :
    Runs (job.world fromStr logs) (start now row)
      ⟨now, execJob fromStr logs job now row, some .returned⟩ := by
  obtain ⟨hcap, hrec, hres⟩ := hacc
  unfold execJob
  cases hpump : pumpLogs job.secrets logs (itemsOf job.chunks job.torn) with
  | error msg =>
      have hstream : (job.world fromStr logs).stream = .error msg := by
        simp [Job.world, hpump]
      have hpumped : step (job.world fromStr logs) ⟨now, row, some (.pumpLogs job.cid)⟩
          .exec = some ⟨now, row, some (.internalError msg)⟩ := by
        simp [step, World.answer, hstream, execStep]
      exact .head rfl (.head rfl (.head rfl (.head hpumped (.head rfl (.refl _ _)))))
  | ok p =>
      have hstream : (job.world fromStr logs).stream =
          .ended (p.result.map (structured fromStr)) := by
        simp [Job.world, hpump]
      have hcapture : (finishRun now (exitStatus job.exitCode) (some (asI32 job.exitCode))
          none row).captureOutput = row.captureOutput := by
        unfold finishRun
        split <;> rfl
      have hrec' : ∀ x, some job.receipt = some x → jsonStorable x = true := by
        rintro _ ⟨⟩
        exact hrec
      have hout : ∀ x, (if row.captureOutput then job.captured else none) = some x →
          jsonStorable x = true := by
        intro x hx
        split at hx
        · exact hcap x hx
        · cases hx
      simp only [publish, hcapture, provenance_accepted hout,
        provenance_accepted (hres p · hpump), provenance_accepted hrec', Bool.and_self,
        if_true]
      have hpumped : step (job.world fromStr logs) ⟨now, row, some (.pumpLogs job.cid)⟩
          .exec = some ⟨now, row, some (.inspect (p.result.map (structured fromStr)))⟩ := by
        simp [step, World.answer, hstream, execStep]
      refine .head rfl (.head rfl (.head rfl (.head hpumped (.head rfl (.head rfl ?_)))))
      have hruns := @runs_capture now (job.world fromStr logs) job.exitCode
        (p.result.map (structured fromStr))
        (finishRun now (exitStatus job.exitCode) (some (asI32 job.exitCode)) none row)
      rw [hcapture] at hruns
      exact hruns

/-! ## When the exit code becomes the outcome -/

/-- The run has the exit code `c` and the status it calls for, and is not
retried. -/
def Completed (c : Int) (r : Run × Bool) : Prop :=
  r.1.exitCode = some c ∧ (r.1.status = .succeeded ↔ c = 0) ∧ r.2 = false

/-- Every line the job prints is a control line, or may be stored. -/
def Job.Printable (job : Job) : Prop :=
  ∀ s, ∀ line ∈ printed s job.chunks, loggable job.secrets s line = true

/-- The exit code is an `i32`. -/
def FitsI32 (c : Int) : Prop := -2 ^ 31 ≤ c ∧ c < 2 ^ 31

theorem asI32_eq_iff {c : Int} : asI32 c = c ↔ FitsI32 c := by
  unfold asI32 FitsI32
  omega

theorem provenance_keeps {write : Value → Run → Run} {v : Option Value} {row : Run}
    (hw : ∀ x r, (write x r).exitCode = r.exitCode ∧ (write x r).status = r.status) :
    (provenance write v row).1.exitCode = row.exitCode ∧
      (provenance write v row).1.status = row.status := by
  unfold provenance
  split
  · split
    · exact hw _ _
    · exact ⟨rfl, rfl⟩
  · exact ⟨rfl, rfl⟩

/-- After `finish_run` neither the exit code nor the status changes. -/
theorem publish_outcome (row : Run) (hlive : row.status ≠ .canceled) :
    (publish job now result row).exitCode = some (asI32 job.exitCode) ∧
      (publish job now result row).status = exitStatus job.exitCode := by
  have hfin : finishRun now (exitStatus job.exitCode) (some (asI32 job.exitCode)) none row =
      { row with
        status := exitStatus job.exitCode, exitCode := some (asI32 job.exitCode)
        error := none, finishedAt := some now } := if_neg hlive
  have hout := fun v r => @provenance_keeps setRunOutputBlobs v r fun _ _ => ⟨rfl, rfl⟩
  have hres := fun v r => @provenance_keeps setRunResult v r fun _ _ => ⟨rfl, rfl⟩
  have hrec := fun v r => @provenance_keeps setRunReceipt v r fun _ _ => ⟨rfl, rfl⟩
  unfold publish
  rw [hfin]
  simp only [apply_ite Run.exitCode, apply_ite Run.status, fun v r => (hrec v r).1,
    fun v r => (hrec v r).2, fun v r => (hres v r).1, fun v r => (hres v r).2,
    fun v r => (hout v r).1, fun v r => (hout v r).2, ite_self, and_self]

theorem exitStatus_succeeded {c : Int} : exitStatus c = .succeeded ↔ c = 0 := by
  unfold exitStatus
  split
  · simp [*]
  · simp [*]

/-- If the pump fails, the run ends without an exit code. -/
theorem not_completed_of_error {msg : String} (claimedAt : Nat) (timeoutSecs : Option Int)
    (row : Run) (hp : pumpLogs job.secrets logs (itemsOf job.chunks job.torn) = .error msg) :
    ¬ Completed job.exitCode
      (workerTask fromStr logs job now timeoutSecs (claimRun claimedAt row)) := by
  unfold workerTask execJob
  rw [hp]
  rintro ⟨hcode, _, _⟩
  have hnone : ∀ b : Bool, (if b then
      (requeue (finishRun now .failed none (some msg)
        (markAttempt (claimRun claimedAt row))), true)
      else (finishRun now .failed none (some msg)
        (markAttempt (claimRun claimedAt row)), false)).1.exitCode = none := by
    intro b
    cases b <;> rfl
  rw [hnone] at hcode
  cases hcode

/-- If all its lines may be stored, the exit code of the job decides. -/
theorem completed_iff_of_printable (claimedAt : Nat) (timeoutSecs : Option Int) (row : Run)
    (hall : job.Printable) :
    Completed job.exitCode
        (workerTask fromStr logs job now timeoutSecs (claimRun claimedAt row)) ↔
      FitsI32 job.exitCode := by
  obtain ⟨p, hp⟩ := (@pumpLogs_ok job.secrets logs job.chunks job.torn).mpr hall
  unfold workerTask execJob
  rw [hp]
  obtain ⟨hcode, hstatus⟩ := @publish_outcome job now
    (p.result.map (structured fromStr)) (markAttempt (claimRun claimedAt row))
    RunStatus.noConfusion
  have hkeep : ∀ attempt, retries (publish job now (p.result.map (structured fromStr))
      (markAttempt (claimRun claimedAt row))) attempt = false := by
    intro attempt
    simp [retries, hcode]
  simp only [hkeep, Bool.false_and, Bool.false_eq_true, if_false, Completed, hcode,
    hstatus, exitStatus_succeeded, Option.some.injEq, asI32_eq_iff, and_true]

/-- **A job that ran to completion** gives the run its exit code and status
and is not retried exactly if every line it prints may be stored and its exit
code is an `i32`. -/
theorem completes_iff (fromStr : Text → Option Value) (logs : List LogRow) (job : Job)
    (claimedAt now : Nat) (timeoutSecs : Option Int) (row : Run) :
    Completed job.exitCode
        (workerTask fromStr logs job now timeoutSecs (claimRun claimedAt row)) ↔
      job.Printable ∧ FitsI32 job.exitCode := by
  by_cases hall : job.Printable
  · rw [completed_iff_of_printable claimedAt timeoutSecs row hall, and_iff_right hall]
  · cases hp : pumpLogs job.secrets logs (itemsOf job.chunks job.torn) with
    | error msg =>
        exact iff_of_false (not_completed_of_error claimedAt timeoutSecs row hp)
          fun h => hall h.1
    | ok p =>
        have hok := (@pumpLogs_ok job.secrets logs job.chunks job.torn).mp ⟨p, hp⟩
        exact absurd hok hall

/-- A job that prints no byte `0` completes. -/
theorem completes_of_no_nul (claimedAt : Nat) (timeoutSecs : Option Int) (row : Run)
    (hno : ∀ c ∈ job.chunks, (0 : UInt8) ∉ c.2) (hfits : FitsI32 job.exitCode) :
    Completed job.exitCode
      (workerTask fromStr logs job now timeoutSecs (claimRun claimedAt row)) :=
  (completed_iff_of_printable claimedAt timeoutSecs row fun _ _ hline =>
    loggable_of_no_nul hno hline).mpr hfits

end Facts

/-- A job that prints `a`, U+0000 and a newline, and exits with `0`. -/
def nulJob : Job where
  cid := 1
  secrets := []
  chunks := [(.stdOut, [0x61, 0x00, 0x0A])]
  torn := false
  exitCode := 0
  captured := none
  receipt := .null
  fired := []

/-- `nulJob` ran to completion and is requeued. -/
theorem not_completes :
    ¬ ∀ fromStr logs (job : Job) claimedAt now timeoutSecs row, Completed job.exitCode
      (workerTask fromStr logs job now timeoutSecs (claimRun claimedAt row)) := by
  intro hclaim
  have hdone := hclaim (fun _ => none) [] nulJob 0 0 none (insertRun 0 7 .null none)
  exact absurd hdone.2.2 (by decide +kernel)

end Dokan.Ports.RunCompletes
