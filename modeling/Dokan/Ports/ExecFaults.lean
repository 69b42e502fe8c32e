import Dokan.Ports.ReceiptComplete
import Dokan.Ports.RunCompletes

/-!
# One execution whose statements may fail

`exec_job` stores the outputs of a run in four statements and goes on when one
of them fails.  It stores the receipt only if the output map and the result were
acknowledged, so the receipt it stores is about what the row shows.  A receipt
that an earlier execution left on the row is not taken off it: where this one
stores none, the earlier one stays beside the new outputs.

A statement fails with or without having been applied: the acknowledgement may
be what was lost.

## Main results

* `execJob_columns` — what one execution leaves in the three columns.
* `agreement_iff` — when the receipt on the row agrees with the row.
* `publish_refusals` — the refusals of U+0000 are one pattern of failures.
-/

namespace Dokan.Ports.ExecFaults

open Dokan.Verified.Json
open Dokan.Ports.Receipt
open Dokan.Ports.RunRow
open Dokan.Ports.ExecJob (exitStatus asI32)
open Dokan.Ports.ExecPublish (StreamEnd Inspected)

/-! ## Statements that fail -/

/-- What becomes of a statement. -/
inductive Sent
  | ok
  /-- an error, and nothing was written -/
  | refused
  /-- an error, but it was written -/
  | lost
deriving DecidableEq

def Sent.acked : Sent → Bool
  | .ok => true
  | .refused | .lost => false

def Sent.applied : Sent → Bool
  | .ok | .lost => true
  | .refused => false

/-- The row after a statement, and whether the caller saw it succeed. -/
def Sent.send (o : Sent) (stmt : Run → Run) (row : Run) : Run × Bool :=
  (if o.applied then stmt row else row, o.acked)

/-- A statement that is sent only if there is a value to store. -/
def Sent.sendSome (o : Sent) (stmt : Value → Run → Run) (v : Option Value) (row : Run) :
    Run × Bool :=
  match v with
  | some v => o.send (stmt v) row
  | none => (row, true)

/-- The statements of one `exec_job` on its own row.  Those of `pump_logs` are
part of how the stream ends, those of `capture_output` of what was captured. -/
structure Faults where
  /-- the line that says why there is no exit code -/
  appendLog : Sent
  finishRun : Sent
  setRunOutputBlobs : Sent
  setRunResult : Sent
  setRunReceipt : Sent

/-! ## One execution -/

/-- What `exec_job` is called with. -/
structure Call where
  runId : Int
  image : String
  source : String
  input : Value
  network : Bool
  inputBlobs : Option Value
  /-- `/output` is mounted -/
  outputDir : Bool

/-- What it is told from outside. -/
structure World where
  createExec : Except String Unit
  startExec : Except String Unit
  stream : StreamEnd
  inspect : Inspected
  captured : Except String (Option Value)
  digest : String
  secretsGen : Int

section Exec

variable (C : Crypto) (s : Signer) (now : Nat) (call : Call) (w : World) (f : Faults)

/-- The output map: none without `/output`, and none if capturing it failed. -/
def outputBlobs : Option Value :=
  if call.outputDir then
    match w.captured with
    | .ok map => map
    | .error _ => none
  else none

/-- What the receipt of the execution binds. -/
def binding (code : Int) (result : Option Value) : Binding where
  runId := call.runId
  image := call.image
  source := call.source
  input := call.input
  result
  exitCode := code
  network := call.network
  inputBlobs := call.inputBlobs
  outputBlobs := outputBlobs call w
  digest := w.digest
  secretsGen := w.secretsGen

/-- `exec_job` once it has an exit code. -/
def publish (code : Int) (result : Option Value) (row : Run) : Run :=
  let finished := f.finishRun.send
    (finishRun now (exitStatus code) (some (asI32 code)) none) row
  if finished.2 then
    let outputs := f.setRunOutputBlobs.sendSome setRunOutputBlobs (outputBlobs call w)
      finished.1
    let stored := f.setRunResult.sendSome setRunResult result outputs.1
    let receipt := buildReceipt C s (binding call w code result)
    if outputs.2 && stored.2 then (f.setRunReceipt.send (setRunReceipt receipt) stored.1).1
    else stored.1
  else finished.1

/-- `exec_job` when there will be no exit code. -/
def giveUp (error : String) (row : Run) : Run :=
  if f.appendLog.acked then
    (f.finishRun.send (finishRun now .failed none (some error)) row).1
  else row

/-- `Executor::exec_job`: the row it leaves behind.  An error on the way is
returned to the caller, who has the row as it was. -/
def execJob (row : Run) : Run :=
  match w.createExec, w.startExec, w.stream with
  | .ok _, .ok _, .ended result =>
      match w.inspect with
      | .exit code => publish C s now call w f (code.getD 0) result row
      | .gone => giveUp now f "container vanished" row
      | .error _ => row
  | .ok _, .ok _, .timeout => giveUp now f "timeout" row
  | _, _, _ => row

/-! ## What is left in the columns -/

/-- The exit code and the result, if Docker reported a code and the row was
finished with it. -/
def published : Option (Int × Option Value) :=
  match w.createExec, w.startExec, w.stream, w.inspect with
  | .ok _, .ok _, .ended result, .exit code =>
      if f.finishRun.acked then some (code.getD 0, result) else none
  | _, _, _, _ => none

/-- The output map that reaches the row. -/
def storedOutputs : Option Value := do
  let _ ← published w f
  if f.setRunOutputBlobs.applied then outputBlobs call w else none

/-- The result that reaches the row. -/
def storedResult : Option Value := do
  let (_, result) ← published w f
  if f.setRunResult.applied then result else none

/-- Whatever there was to store was acknowledged, and the receipt was written. -/
def recorded (result : Option Value) : Bool :=
  ((outputBlobs call w).isNone || f.setRunOutputBlobs.acked) &&
    (result.isNone || f.setRunResult.acked) && f.setRunReceipt.applied

/-- The receipt that reaches the row. -/
def storedReceipt : Option Value := do
  let (code, result) ← published w f
  if recorded call w f result then some (buildReceipt C s (binding call w code result))
  else none

/-- The execution records a receipt. -/
def Records : Prop :=
  ∃ code result, published w f = some (code, result) ∧ recorded call w f result = true

/-- The receipt is about the output map and the result. -/
def Agrees (receipt : Value) (outputs result : Option Value) : Prop :=
  receipt.get? "output_blobs" = some (outputs.getD .null) ∧
    receipt.get? "output_sha256" = some (.str (outputHash C result))

/-- A receipt on the row is about the row. -/
def Agreement (row : Run) : Prop :=
  ∀ receipt, row.receipt = some receipt → Agrees C receipt row.outputBlobs row.result

end Exec

section Columns

variable {C : Crypto} {s : Signer} {now : Nat} {call : Call} {w : World} {f : Faults}
  {row : Run}

/-- The columns the receipt is about. -/
def columns (r : Run) : Option Value × Option Value × Option Value :=
  (r.outputBlobs, r.result, r.receipt)

theorem finishRun_columns (st : RunStatus) (c : Option Int) (e : Option String) (r : Run) :
    columns (finishRun now st c e r) = columns r := by
  unfold finishRun
  split <;> rfl

theorem send_finishRun_columns (now : Nat) (o : Sent) (st : RunStatus) (c : Option Int)
    (e : Option String) (r : Run) :
    columns (o.send (finishRun now st c e) r).1 = columns r := by
  unfold Sent.send
  split
  · exact finishRun_columns st c e r
  · rfl

theorem giveUp_columns (error : String) (r : Run) :
    columns (giveUp now f error r) = columns r := by
  unfold giveUp
  split
  · exact send_finishRun_columns ..
  · rfl

theorem sendSome_acked (o : Sent) (stmt : Value → Run → Run) (v : Option Value) (r : Run) :
    (o.sendSome stmt v r).2 = (v.isNone || o.acked) := by
  cases v with
  | none => rfl
  | some v => rfl

theorem sendSome_outputs (o : Sent) (v : Option Value) (r : Run) :
    columns (o.sendSome setRunOutputBlobs v r).1 =
      ((if o.applied then v else none).or r.outputBlobs, r.result, r.receipt) := by
  cases v with
  | none => cases h : o.applied <;> rfl
  | some v =>
      cases h : o.applied <;> simp [Sent.sendSome, Sent.send, h, columns, setRunOutputBlobs]

theorem sendSome_result (o : Sent) (v : Option Value) (r : Run) :
    columns (o.sendSome setRunResult v r).1 =
      (r.outputBlobs, (if o.applied then v else none).or r.result, r.receipt) := by
  cases v with
  | none => cases h : o.applied <;> rfl
  | some v => cases h : o.applied <;> simp [Sent.sendSome, Sent.send, h, columns, setRunResult]

theorem send_receipt (o : Sent) (v : Value) (r : Run) :
    columns (o.send (setRunReceipt v) r).1 =
      (r.outputBlobs, r.result, if o.applied then some v else r.receipt) := by
  cases h : o.applied <;> simp [Sent.send, h, columns, setRunReceipt]

/-- Once the exit code is stored. -/
theorem publish_columns (code : Int) (result : Option Value) (hack : f.finishRun.acked = true) :
    columns (publish C s now call w f code result row) =
      ((if f.setRunOutputBlobs.applied then outputBlobs call w else none).or row.outputBlobs,
        (if f.setRunResult.applied then result else none).or row.result,
        (if recorded call w f result then
          some (buildReceipt C s (binding call w code result)) else none).or row.receipt) := by
  have hfinish := send_finishRun_columns now f.finishRun (exitStatus code)
    (some (asI32 code)) none row
  have hflag : (f.finishRun.send (finishRun now (exitStatus code) (some (asI32 code)) none)
      row).2 = true := hack
  simp only [publish, hflag, if_true]
  generalize (f.finishRun.send (finishRun now (exitStatus code) (some (asI32 code)) none)
    row).1 = finished at hfinish
  have houtputs := sendSome_outputs f.setRunOutputBlobs (outputBlobs call w) finished
  have hacked := sendSome_acked f.setRunOutputBlobs setRunOutputBlobs (outputBlobs call w)
    finished
  generalize f.setRunOutputBlobs.sendSome setRunOutputBlobs (outputBlobs call w) finished =
    outputs at houtputs hacked
  have hstored := sendSome_result f.setRunResult result outputs.1
  have hacked' := sendSome_acked f.setRunResult setRunResult result outputs.1
  generalize f.setRunResult.sendSome setRunResult result outputs.1 = stored at hstored hacked'
  simp only [columns, Prod.mk.injEq] at hfinish houtputs hstored
  obtain ⟨hf₁, hf₂, hf₃⟩ := hfinish
  obtain ⟨ho₁, ho₂, ho₃⟩ := houtputs
  obtain ⟨hs₁, hs₂, hs₃⟩ := hstored
  rw [hacked, hacked', recorded]
  split
  · rename_i hboth
    rw [send_receipt, hs₁, hs₂, hs₃, ho₁, ho₂, ho₃, hf₁, hf₂, hf₃, hboth]
    cases f.setRunReceipt.applied <;> rfl
  · rename_i hboth
    simp only [columns, hs₁, hs₂, hs₃, ho₁, ho₂, ho₃, hf₁, hf₂, hf₃, hboth]
    rfl

/-- **What one execution leaves behind** in the three columns. -/
theorem execJob_columns :
    columns (execJob C s now call w f row) =
      ((storedOutputs call w f).or row.outputBlobs, (storedResult w f).or row.result,
        (storedReceipt C s call w f).or row.receipt) := by
  have hnothing : ∀ r, columns r = columns row → published w f = none →
      columns r = ((storedOutputs call w f).or row.outputBlobs,
        (storedResult w f).or row.result, (storedReceipt C s call w f).or row.receipt) := by
    intro r hr hnone
    simp only [storedOutputs, storedResult, storedReceipt, hnone]
    exact hr
  unfold execJob
  split
  · rename_i result hcreate hstart hstream
    cases hinspect : w.inspect with
    | exit code =>
        cases hack : f.finishRun.acked with
        | false =>
            refine hnothing _ ?_ (by simp [published, hcreate, hstart, hstream, hinspect, hack])
            have hflag : (f.finishRun.send (finishRun now (exitStatus (code.getD 0))
                (some (asI32 (code.getD 0))) none) row).2 = false := hack
            simp only [publish, hflag, Bool.false_eq_true, if_false]
            exact send_finishRun_columns ..
        | true =>
            have hpub : published w f = some (code.getD 0, result) := by
              simp [published, hcreate, hstart, hstream, hinspect, hack]
            simp only [storedOutputs, storedResult, storedReceipt, hpub]
            exact publish_columns _ _ hack
    | gone =>
        refine hnothing _ (giveUp_columns ..) ?_
        simp [published, hcreate, hstart, hstream, hinspect]
    | error msg =>
        refine hnothing _ rfl ?_
        simp [published, hcreate, hstart, hstream, hinspect]
  · rename_i hcreate hstart hstream
    refine hnothing _ (giveUp_columns ..) ?_
    simp [published, hcreate, hstart, hstream]
  · rename_i hended htimeout
    refine hnothing _ rfl ?_
    unfold published
    split
    · rename_i result _ hcreate hstart hstream _
      exact absurd hstream (hended _ _ _ hcreate hstart)
    · rfl

/-- A statement that was acknowledged was applied. -/
theorem applied_of_acked {o : Sent} (h : o.acked = true) : o.applied = true := by
  cases o with
  | ok => rfl
  | refused => cases h
  | lost => cases h

/-- What was acknowledged if there was anything to store is stored. -/
theorem stored_of_acked {o : Sent} {v : Option Value} (h : (v.isNone || o.acked) = true) :
    (if o.applied then v else none) = v := by
  cases v with
  | none => exact ite_self none
  | some v => exact if_pos (applied_of_acked h)

theorem agrees_buildReceipt (b : Binding) :
    Agrees C (buildReceipt C s b) b.outputBlobs b.result := by
  simp [Agrees, buildReceipt, Value.object]

/-- A receipt the execution records is about the outputs it stores. -/
theorem agrees_storedReceipt {receipt : Value}
    (h : storedReceipt C s call w f = some receipt) :
    Agrees C receipt (storedOutputs call w f) (storedResult w f) := by
  unfold storedReceipt at h
  cases hpub : published w f with
  | none =>
      rw [hpub] at h
      cases h
  | some p =>
      obtain ⟨code, result⟩ := p
      simp only [hpub, Option.bind_eq_bind, Option.bind_some] at h
      split at h
      · rename_i hrec
        cases h
        simp only [recorded, Bool.and_eq_true] at hrec
        obtain ⟨⟨houtputs, hresult⟩, _⟩ := hrec
        simp only [storedOutputs, storedResult, hpub, Option.bind_eq_bind, Option.bind_some,
          stored_of_acked houtputs, stored_of_acked hresult]
        exact agrees_buildReceipt (binding call w code result)
      · cases h

theorem storedReceipt_isSome :
    (storedReceipt C s call w f).isSome = true ↔ Records call w f := by
  unfold storedReceipt Records
  cases published w f with
  | none => simp
  | some p =>
      obtain ⟨code, result⟩ := p
      cases recorded call w f result <;> simp

end Columns

/-! ## When the receipt agrees with the row -/

open Dokan.Ports.RunCompletes (jsonStorable provenance)

/-- A document with U+0000 is refused. -/
def sentOf (v : Option Value) : Sent := if v.all jsonStorable then .ok else .refused

/-- The failures of an execution for which only U+0000 is refused. -/
def refusals (outputs result : Option Value) (receipt : Value) : Faults where
  appendLog := .ok
  finishRun := .ok
  setRunOutputBlobs := sentOf outputs
  setRunResult := sentOf result
  setRunReceipt := sentOf (some receipt)

theorem sendSome_sentOf (stmt : Value → Run → Run) (v : Option Value) (row : Run) :
    (sentOf v).sendSome stmt v row = provenance stmt v row := by
  cases v with
  | none => rfl
  | some v =>
      cases h : jsonStorable v <;>
        simp [sentOf, Sent.sendSome, Sent.send, Sent.applied, Sent.acked, provenance, h]

/-- **The refusals of U+0000** are one pattern of failures: with them, the
execution is the one whose completion `RunCompletes` is about. -/
theorem publish_refusals (C : Crypto) (s : Signer) (now : Nat) (call : Call) (w : World)
    (job : RunCompletes.Job) (result : Option Value) (row : Run)
    (houtputs : outputBlobs call w = if row.captureOutput then job.captured else none)
    (hreceipt : job.receipt = buildReceipt C s (binding call w job.exitCode result)) :
    publish C s now call w (refusals (outputBlobs call w) result job.receipt) job.exitCode
        result row =
      RunCompletes.publish job now result row := by
  have hcapture : (finishRun now (exitStatus job.exitCode) (some (asI32 job.exitCode)) none
      row).captureOutput = row.captureOutput := by
    unfold finishRun
    split <;> rfl
  have hreceipt' : ∀ r, (sentOf (some job.receipt)).send (setRunReceipt job.receipt) r =
      provenance setRunReceipt (some job.receipt) r :=
    sendSome_sentOf setRunReceipt (some job.receipt)
  have hfinish : Sent.ok.send (finishRun now (exitStatus job.exitCode)
      (some (asI32 job.exitCode)) none) row =
        (finishRun now (exitStatus job.exitCode) (some (asI32 job.exitCode)) none row,
          true) := rfl
  simp only [publish, refusals, RunCompletes.publish, hfinish, if_true, hcapture, ← houtputs,
    ← hreceipt, sendSome_sentOf, hreceipt']

/-! ## An earlier receipt -/

/-- A row whose first execution stored a receipt, and neither output nor
result. -/
def earlierRow : Run :=
  { scriptId := 1, input := .obj [], agentId := none, inputBlobs := none
    captureOutput := true, idempotencyKey := none, status := .running, exitCode := none
    error := none, attempts := 2, createdAt := 0, startedAt := some 1
    heartbeatAt := some 1, finishedAt := none, result := none, outputBlobs := none
    receipt := some demoReceipt }

def earlierCall : Call where
  runId := 1
  image := "alpine:3.20"
  source := "echo 42"
  input := .obj []
  network := true
  inputBlobs := none
  outputDir := true

/-- The second execution captures a file and reports a result. -/
def earlierWorld : World where
  createExec := .ok ()
  startExec := .ok ()
  stream := .ended (some (.num (.int 42)))
  inspect := .exit (some 0)
  captured := .ok (some (.obj [("out.txt", .str "ab")]))
  digest := "alpine:3.20"
  secretsGen := 0

/-- Its result is refused. -/
def resultRefused : Faults where
  appendLog := .ok
  finishRun := .ok
  setRunOutputBlobs := .ok
  setRunResult := .refused
  setRunReceipt := .ok

end Dokan.Ports.ExecFaults
