import Dokan.Ports.ExecFaults

/-!
# A run that is recorded as succeeded

`exec_job` reads the output of the job until the stream ends, which a 404 in the
middle of it does too, and then asks Docker for the exit code.  An answer without
an exit code, as of an exec that is still running, counts as exit code zero.

## Main results

* `pumpLogs_gone` — a 404 ends the stream as its end would.
* `success_reported_iff` — a success is recorded without a reported zero exactly
  on an answer without an exit code.
-/

namespace Dokan.Ports.ExecSuccess

open Dokan.Verified.Json
open Dokan.Ports.Receipt
open Dokan.Ports.RunRow
open Dokan.Ports.ExecJob (exitStatus asI32)
open Dokan.Ports.ExecPublish (StreamEnd Inspected)
open Dokan.Ports.ExecFaults
open Dokan.Ports.PumpLogs (Text LogRow Item Pump pumpLogs)
open Dokan.Ports.RunCompletes (structured)

/-! ## What Docker answers -/

/-- What Docker answers to one `exec_job`. -/
structure Docker where
  createExec : Except String Unit
  startExec : Except String Unit
  items : List Item
  /-- the stream is read to its end before the timeout -/
  inTime : Bool
  inspect : Inspected

section Answers

variable (fromStr : Text → Option Value) (secrets : List Text) (logs : List LogRow)

/-- How reading the output ends. -/
def Docker.stream (d : Docker) : StreamEnd :=
  if d.inTime then
    match pumpLogs secrets logs d.items with
    | .ok p => .ended (p.result.map (structured fromStr))
    | .error msg => .error msg
  else .timeout

/-- The world of an execution, with what was captured and what its receipt is
given. -/
def Docker.world (d : Docker) (captured : Except String (Option Value)) (digest : String)
    (secretsGen : Int) : World where
  createExec := d.createExec
  startExec := d.startExec
  stream := d.stream fromStr secrets logs
  inspect := d.inspect
  captured
  digest
  secretsGen

/-- The output was read to its end, and its lines were stored. -/
def Docker.Read (d : Docker) : Prop :=
  d.inTime = true ∧ ∃ p, pumpLogs secrets logs d.items = .ok p

end Answers

section Facts

variable {fromStr : Text → Option Value} {secrets : List Text} {logs : List LogRow}
  {d : Docker}

/-- Reading the items up to the first 404. -/
theorem items_gone (items rest : List Item) :
    ∀ p : Pump, p.items secrets (items ++ .gone :: rest) = p.items secrets items := by
  induction items with
  | nil => exact fun p => rfl
  | cons item items ih =>
      intro p
      cases item with
      | output kind message =>
          simp only [List.cons_append, PumpLogs.Pump.items, ih]
      | gone => rfl
      | error msg => rfl

/-- **404 mid-stream.**  What comes after a 404 is not read, and the 404 itself is
the end of the stream. -/
theorem pumpLogs_gone (items rest : List Item) :
    pumpLogs secrets logs (items ++ .gone :: rest) = pumpLogs secrets logs items := by
  unfold pumpLogs
  rw [items_gone]

theorem stream_eq_ended :
    (∃ result, d.stream fromStr secrets logs = .ended result) ↔ d.Read secrets logs := by
  unfold Docker.stream Docker.Read
  cases d.inTime with
  | false => simp
  | true => cases pumpLogs secrets logs d.items <;> simp

/-! ## The status in the end -/

variable {C : Crypto} {s : Signer} {now : Nat} {call : Call} {w : World} {f : Faults}
  {row : Run}

/-- A statement on another column leaves the status. -/
theorem send_status (o : Sent) {stmt : Run → Run} (hstmt : ∀ r, (stmt r).status = r.status)
    (r : Run) : (o.send stmt r).1.status = r.status := by
  unfold Sent.send
  split
  · exact hstmt r
  · rfl

theorem sendSome_status (o : Sent) (stmt : Value → Run → Run)
    (hstmt : ∀ v r, (stmt v r).status = r.status) (v : Option Value) (r : Run) :
    (o.sendSome stmt v r).1.status = r.status := by
  cases v with
  | none => rfl
  | some v => exact send_status o (hstmt v) r

/-- `finish_run` sets the status unless it fails or the row is canceled. -/
theorem send_finishRun_status (o : Sent) (st : RunStatus) (c : Option Int)
    (e : Option String) :
    (o.send (finishRun now st c e) row).1.status =
      if o.applied = true ∧ row.status ≠ .canceled then st else row.status := by
  unfold Sent.send finishRun
  cases o.applied with
  | false => simp
  | true => by_cases hc : row.status = .canceled <;> simp [hc]

/-- What follows the terminal `finish_run` leaves the status. -/
theorem publish_status (code : Int) (result : Option Value) :
    (publish C s now call w f code result row).status =
      if f.finishRun.applied = true ∧ row.status ≠ .canceled then exitStatus code
      else row.status := by
  have hfinish : (f.finishRun.send (finishRun now (exitStatus code) (some (asI32 code)) none)
      row).1.status = _ := send_finishRun_status f.finishRun (exitStatus code) _ none
  rw [← hfinish]
  unfold publish
  generalize f.finishRun.send (finishRun now (exitStatus code) (some (asI32 code)) none)
    row = finished
  have houtputs := sendSome_status f.setRunOutputBlobs setRunOutputBlobs (fun _ _ => rfl)
    (outputBlobs call w) finished.1
  have hstored := sendSome_status f.setRunResult setRunResult (fun _ _ => rfl)
    result (f.setRunOutputBlobs.sendSome setRunOutputBlobs (outputBlobs call w)
      finished.1).1
  have hreceipt : ∀ v r, (setRunReceipt v r).status = r.status := fun _ _ => rfl
  simp only
  split_ifs
  · rw [send_status f.setRunReceipt (hreceipt _), hstored, houtputs]
  · rw [hstored, houtputs]
  · rfl

/-- Without an exit code the run fails, or its row is left alone. -/
theorem giveUp_status (error : String) :
    (giveUp now f error row).status = .failed ∨
      (giveUp now f error row).status = row.status := by
  unfold giveUp
  split_ifs
  · rw [send_finishRun_status]
    split_ifs
    · exact .inl rfl
    · exact .inr rfl
  · exact .inr rfl

/-- The execution records a success. -/
def RecordsSuccess (before after : Run) : Prop :=
  before.status ≠ .succeeded ∧ after.status = .succeeded

theorem not_recordsSuccess_giveUp (error : String) :
    ¬ RecordsSuccess row (giveUp now f error row) := by
  rintro ⟨hbefore, hafter⟩
  have hgive : (giveUp now f error row).status = .failed ∨
      (giveUp now f error row).status = row.status := giveUp_status error
  rcases hgive with h | h
  · rw [h] at hafter
    cases hafter
  · exact hbefore (h ▸ hafter)

/-- **A recorded success** needs an exit code that is zero or absent, read after the
whole output, and a row the statement still finishes. -/
theorem recordsSuccess_iff :
    RecordsSuccess row (execJob C s now call w f row) ↔
      w.createExec = .ok () ∧ w.startExec = .ok () ∧ (∃ result, w.stream = .ended result) ∧
        (w.inspect = .exit none ∨ w.inspect = .exit (some 0)) ∧
        f.finishRun.applied = true ∧ row.status ≠ .succeeded ∧ row.status ≠ .canceled := by
  have hsame : ¬ RecordsSuccess row row := fun h => h.1 h.2
  unfold execJob
  split
  · rename_i result hcreate hstart hstream
    cases hinspect : w.inspect with
    | exit code =>
        have hcode : exitStatus (code.getD 0) = .succeeded ↔ code = none ∨ code = some 0 := by
          cases code with
          | none => simp [exitStatus]
          | some c => simp [exitStatus]
        simp only [RecordsSuccess, publish_status, hcreate, hstart, hstream,
          Inspected.exit.injEq, StreamEnd.ended.injEq, exists_eq', true_and]
        constructor
        · rintro ⟨hbefore, hafter⟩
          split_ifs at hafter with hwrite
          · exact ⟨hcode.mp hafter, hwrite.1, hbefore, hwrite.2⟩
          · exact (hbefore hafter).elim
        · rintro ⟨hzero, happlied, hbefore, hcanceled⟩
          rw [if_pos ⟨happlied, hcanceled⟩]
          exact ⟨hbefore, hcode.mpr hzero⟩
    | gone => exact iff_of_false (not_recordsSuccess_giveUp _) (by simp)
    | error msg => exact iff_of_false hsame (by simp)
  · rename_i hcreate hstart hstream
    exact iff_of_false (not_recordsSuccess_giveUp _) (by simp [hstream])
  · rename_i hended htimeout
    refine iff_of_false hsame ?_
    rintro ⟨hcreate, hstart, ⟨result, hstream⟩, _⟩
    exact hended _ _ _ hcreate hstart hstream

end Facts

/-! ## Success needs a reported zero -/

/-- Docker's answers lead to the exit code, the answer has none, and the row takes
the status. -/
structure Unreported (secrets : List Text) (logs : List LogRow) (d : Docker) (f : Faults)
    (row : Run) : Prop where
  created : d.createExec = .ok ()
  started : d.startExec = .ok ()
  read : d.Read secrets logs
  inspect : d.inspect = .exit none
  applied : f.finishRun.applied = true
  notSucceeded : row.status ≠ .succeeded
  notCanceled : row.status ≠ .canceled

/-- **Success.**  However the output ends and whatever `inspect_exec` answers: the
execution records a success only on a reported exit code of zero, exactly unless
the answer it gets to has no exit code. -/
theorem success_reported_iff (C : Crypto) (s : Signer) (now : Nat) (call : Call)
    (fromStr : Text → Option Value) (secrets : List Text) (logs : List LogRow) (d : Docker)
    (captured : Except String (Option Value)) (digest : String) (secretsGen : Int)
    (f : Faults) (row : Run) :
    (RecordsSuccess row (execJob C s now call
        (d.world fromStr secrets logs captured digest secretsGen) f row) →
      d.inspect = .exit (some 0)) ↔
    ¬ Unreported secrets logs d f row := by
  have hread : (∃ result, (d.world fromStr secrets logs captured digest secretsGen).stream =
      .ended result) ↔ d.Read secrets logs := stream_eq_ended
  rw [recordsSuccess_iff, hread]
  constructor
  · intro h hno
    have hzero := h ⟨hno.created, hno.started, hno.read, .inl hno.inspect, hno.applied,
      hno.notSucceeded, hno.notCanceled⟩
    rw [hno.inspect] at hzero
    cases hzero
  · rintro h ⟨hcreate, hstart, hdone, hinspect | hinspect, happlied, hbefore, hcanceled⟩
    · exact (h ⟨hcreate, hstart, hdone, hinspect, happlied, hbefore, hcanceled⟩).elim
    · exact hinspect

/-- The container is gone in the middle of the stream and the exec has not
ended. -/
def tornDocker : Docker where
  createExec := .ok ()
  startExec := .ok ()
  items := [.gone]
  inTime := true
  inspect := .exit none

/-- Every statement goes through. -/
def noFaults : Faults where
  appendLog := .ok
  finishRun := .ok
  setRunOutputBlobs := .ok
  setRunResult := .ok
  setRunReceipt := .ok

/-- The run succeeds with exit code zero, which nobody reported. -/
theorem success_unreported :
    ¬ ∀ (C : Crypto) (s : Signer) (now : Nat) (call : Call) (fromStr : Text → Option Value)
        (secrets : List Text) (logs : List LogRow) (d : Docker)
        (captured : Except String (Option Value)) (digest : String) (secretsGen : Int)
        (f : Faults) (row : Run),
      RecordsSuccess row (execJob C s now call
        (d.world fromStr secrets logs captured digest secretsGen) f row) →
      d.inspect = .exit (some 0) := by
  intro hall
  have hzero := hall demo devSigner 2 earlierCall (fun _ => none) [] [] tornDocker (.ok none)
    "" 0 noFaults earlierRow ⟨by decide, rfl⟩
  cases hzero

end Dokan.Ports.ExecSuccess
