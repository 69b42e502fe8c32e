import Dokan.Verified.Machine
import Dokan.Ports.ExecJob

/-!
# What readers see while an execution publishes its outcome

`exec_job` writes the terminal status first and the output map, the result
and the receipt afterwards, each in a statement of its own.  This module runs
one execution against a fixed outside world (`World`), with cancels, clock
ticks and a crash falling anywhere between its statements, and asks what the
three consumers that poll on the status find in the row.

## Main results

* `inv_of_not_reportsExit` — without an exit code from Docker no exit code is
  ever stored.
* `publishLast_iff` — the row is complete whenever its terminal status is
  visible exactly when the execution never gets to publish an exit code.
-/

namespace Dokan.Ports.ExecPublish

open Dokan.Verified.Json
open Dokan.Verified.Machine
open Dokan.Ports.RunRow
open Dokan.Ports.ExecJob

/-! ## The outside world of one execution -/

/-- How `pump_logs` ends. -/
inductive StreamEnd
  | ended (result : Option Value)
  | timeout
  | error (msg : String)

/-- What `inspect_exec` answers. -/
inductive Inspected
  | exit (code : Option Int)
  | gone
  | error (msg : String)

/-- Everything one execution is told from outside. -/
structure World where
  acquire : Except String Cid
  createExec : Except String Unit
  startExec : Except String Unit
  stream : StreamEnd
  inspect : Inspected
  captured : Option Value
  receipt : Value
  fired : List NewRun

/-- An answer that carries nothing but success. -/
def done : Except String Unit → Reply
  | .ok _ => .ok
  | .error msg => .error msg

/-- The world's answer to an execution at `pc`. -/
def World.answer (w : World) (captureOutput : Bool) : ExecPc → Reply
  | .acquire =>
      match w.acquire with
      | .ok cid => .container cid
      | .error msg => .error msg
  | .createExec _ => done w.createExec
  | .startExec _ => done w.startExec
  | .pumpLogs _ =>
      match w.stream with
      | .ended result => .ended result
      | .timeout => .timeout
      | .error msg => .error msg
  | .inspect _ =>
      match w.inspect with
      | .exit code => .exit code
      | .gone => .gone
      | .error msg => .error msg
  | .capture _ _ => .captured (if captureOutput then w.captured else none)
  | .buildReceipt _ _ => .receipt w.receipt
  | .fireTriggers _ => .fired w.fired
  | _ => .ok

/-- The job emitted this result line. -/
def World.result (w : World) : Option Value :=
  match w.stream with
  | .ended result => result
  | _ => none

/-- The execution gets an exit code out of Docker. -/
def World.reportsExit (w : World) : Bool :=
  match w.acquire, w.createExec, w.startExec, w.stream, w.inspect with
  | .ok _, .ok _, .ok _, .ended _, .exit _ => true
  | _, _, _, _, _ => false

/-! ## The execution beside its readers -/

/-- One row and the execution that owns it; `none` is a dead process. -/
structure Publish where
  now : Nat
  row : Run
  pc : Option ExecPc

/-- What can happen next. -/
inductive Event
  | tick (d : Nat)
  | exec
  | crash
  | cancel (reason : String)

/-- One step of the execution or of its surroundings. -/
def step (w : World) (s : Publish) : Event → Option Publish
  | .tick d => some { s with now := s.now + d }
  | .exec => do
      let pc ← s.pc
      let out ← execStep s.now s.row.captureOutput (fun _ => false) pc
        (w.answer s.row.captureOutput pc)
      some { s with row := out.write s.row, pc := some out.pc }
  | .crash => some { s with pc := none }
  | .cancel reason => some { s with row := cancelRun s.now reason s.row }

/-- `Executor::run` is called on `row`. -/
def start (now : Nat) (row : Run) : Publish := ⟨now, row, some .acquire⟩

/-! ## The consumers -/

/-- `Db::find_cached_run` on the row that holds the key: exit code and
result. -/
def findCachedRun (r : Run) : Option (Option Int × Option Value) :=
  if r.status = .succeeded then some (r.exitCode, r.result) else none

/-- `wait_for`, once it stops polling: status, result and output map. -/
def waitFor (r : Run) : Option (RunStatus × Option Value × Option Value) :=
  if r.status = .succeeded ∨ r.status = .failed ∨ r.status = .canceled then
    some (r.status, r.result, r.outputBlobs)
  else none

/-- `reproduce_run` on its re-run: the receipt it compares. -/
def reproduceRun (r : Run) : Option (Option Value) :=
  if r.status = .succeeded ∨ r.status = .failed then some r.receipt else none

/-- The status is visible as succeeded or failed, with an exit code. -/
def Visible (r : Run) : Prop :=
  (r.status = .succeeded ∨ r.status = .failed) ∧ r.exitCode.isSome

/-- The result line, and the output map when captured, are stored. -/
def ResultStored (w : World) (r : Run) : Prop :=
  ∀ v, w.result = some v → r.result = some v ∧
    (r.captureOutput = true → ∀ m, w.captured = some m → r.outputBlobs = some m)

/-- No consumer that sees a visible status misses a part of the outcome. -/
structure Observed (w : World) (r : Run) : Prop where
  cached : ∀ e v, findCachedRun r = some (e, v) → v = w.result
  waited : ∀ st v m, waitFor r = some (st, v, m) → v = w.result ∧
    m = if r.captureOutput then w.captured else none
  reproduced : ∀ rc, reproduceRun r = some rc → rc = some w.receipt

/-- The result is in the row whenever the status is visible. -/
def ResultFirst (w : World) (s₀ : Publish) : Prop :=
  ∀ l s, run (step w) s₀ l = some s → Visible s.row → ResultStored w s.row

/-- The status is published last: whenever it is visible, the result is
stored and every consumer finds the whole outcome. -/
def PublishLast (w : World) (s₀ : Publish) : Prop :=
  ∀ l s, run (step w) s₀ l = some s → Visible s.row →
    ResultStored w s.row ∧ Observed w s.row

/-- The row no execution has finished yet: nothing of an outcome is stored. -/
structure Fresh (r : Run) : Prop where
  exitCode : r.exitCode = none
  result : r.result = none
  outputBlobs : r.outputBlobs = none
  receipt : r.receipt = none

theorem fresh_insertRunWithBlobs (now : Nat) (n : NewRun) :
    Fresh (insertRunWithBlobs now n) := ⟨rfl, rfl, rfl, rfl⟩

theorem Fresh.claimRun {r : Run} (h : Fresh r) (now : Nat) :
    Fresh (claimRun now r) := ⟨h.exitCode, h.result, h.outputBlobs, h.receipt⟩

theorem Fresh.markAttempt {r : Run} (h : Fresh r) : Fresh (markAttempt r) :=
  ⟨h.exitCode, h.result, h.outputBlobs, h.receipt⟩

/-! ## Without an exit code nothing becomes visible -/

/-- What the world must have answered for the execution to be at `pc`. -/
def Reached (w : World) : ExecPc → Prop
  | .acquire | .timedOut | .vanished | .internalError _ | .returned => True
  | .createExec _ => ∃ cid, w.acquire = .ok cid
  | .startExec _ => (∃ cid, w.acquire = .ok cid) ∧ w.createExec = .ok ()
  | .pumpLogs _ =>
      (∃ cid, w.acquire = .ok cid) ∧ w.createExec = .ok () ∧ w.startExec = .ok ()
  | .inspect _ =>
      (∃ cid, w.acquire = .ok cid) ∧ w.createExec = .ok () ∧
        w.startExec = .ok () ∧ ∃ r, w.stream = .ended r
  | _ => False

/-- An execution that gets no exit code stays on the points of `Reached` and
stores none. -/
structure NoExit (w : World) (s : Publish) : Prop where
  exitCode : s.row.exitCode = none
  reached : ∀ pc, s.pc = some pc → Reached w pc

section Steps

variable {w : World} {s s' : Publish}

/-- The step of the execution itself, taken apart. -/
theorem step_exec (h : step w s .exec = some s') :
    ∃ pc out, s.pc = some pc ∧
      execStep s.now s.row.captureOutput (fun _ => false) pc
        (w.answer s.row.captureOutput pc) = some out ∧
      s' = { s with row := out.write s.row, pc := some out.pc } := by
  simp only [step, Option.bind_eq_bind, Option.bind_eq_some_iff] at h
  obtain ⟨pc, hpc, out, hout, hs'⟩ := h
  exact ⟨pc, out, hpc, hout, (Option.some.inj hs').symm⟩

theorem finishRun_exitCode_none {r : Run} (h : r.exitCode = none) (now : Nat)
    (st : RunStatus) (e : Option String) :
    (finishRun now st none e r).exitCode = none := by
  unfold finishRun
  split
  · exact h
  · rfl

theorem cancelRun_exitCode (now : Nat) (m : String) (r : Run) :
    (cancelRun now m r).exitCode = r.exitCode := by
  unfold cancelRun
  split <;> rfl

/-- From a point of `Reached` an execution that gets no exit code moves to
another such point, writing nothing or a failure without an exit code. -/
theorem reached_execStep (hno : w.reportsExit = false) {now : Nat} {cap : Bool}
    {pc : ExecPc} {out : ExecOut} (hpc : Reached w pc)
    (h : execStep now cap (fun _ => false) pc (w.answer cap pc) = some out) :
    Reached w out.pc ∧
      (out.write = id ∨ ∃ e, out.write = finishRun now .failed none e) := by
  cases pc with
  | acquire =>
      cases hw : w.acquire <;> simp only [World.answer, hw, execStep] at h <;> cases h
      · exact ⟨trivial, Or.inl rfl⟩
      · exact ⟨⟨_, hw⟩, Or.inl rfl⟩
  | createExec cid =>
      cases hw : w.createExec <;>
        simp [World.answer, done, hw, execStep] at h <;> cases h
      · exact ⟨trivial, Or.inl rfl⟩
      · exact ⟨⟨hpc, hw⟩, Or.inl rfl⟩
  | startExec cid =>
      cases hw : w.startExec <;>
        simp [World.answer, done, hw, execStep] at h <;> cases h
      · exact ⟨trivial, Or.inl rfl⟩
      · exact ⟨⟨hpc.1, hpc.2, hw⟩, Or.inl rfl⟩
  | pumpLogs cid =>
      cases hw : w.stream <;> simp only [World.answer, hw, execStep] at h <;> cases h
      · exact ⟨⟨hpc.1, hpc.2.1, hpc.2.2, _, hw⟩, Or.inl rfl⟩
      · exact ⟨trivial, Or.inl rfl⟩
      · exact ⟨trivial, Or.inl rfl⟩
  | inspect result =>
      obtain ⟨⟨cid, hacq⟩, hcreate, hstart, r, hstream⟩ := hpc
      cases hw : w.inspect with
      | exit code => simp [World.reportsExit, hacq, hcreate, hstart, hstream, hw] at hno
      | gone =>
          simp only [World.answer, hw, execStep] at h
          cases h
          exact ⟨trivial, Or.inl rfl⟩
      | error msg =>
          simp only [World.answer, hw, execStep] at h
          cases h
          exact ⟨trivial, Or.inl rfl⟩
  | timedOut | vanished | internalError msg =>
      cases h
      exact ⟨trivial, Or.inr ⟨_, rfl⟩⟩
  | returned => cases h
  | finish | capture | storeOutputs | storeResult | buildReceipt | storeReceipt
  | fireTriggers => exact hpc.elim

/-- Every step keeps `NoExit`. -/
theorem NoExit.step (hno : w.reportsExit = false) (hI : NoExit w s) {ev : Event}
    (h : step w s ev = some s') : NoExit w s' := by
  cases ev with
  | tick d =>
      cases h
      exact ⟨hI.exitCode, hI.reached⟩
  | exec =>
      obtain ⟨pc, out, hpc, hout, rfl⟩ := step_exec h
      obtain ⟨hreach, hwrite⟩ := reached_execStep hno (hI.reached pc hpc) hout
      refine ⟨?_, ?_⟩
      · rcases hwrite with hid | ⟨e, hfin⟩
        · simpa only [hid, id] using hI.exitCode
        · simpa only [hfin] using finishRun_exitCode_none hI.exitCode _ _ _
      · intro pc' hpc'
        cases hpc'
        exact hreach
  | crash =>
      cases h
      exact ⟨hI.exitCode, fun pc hpc => by cases hpc⟩
  | cancel reason =>
      cases h
      exact ⟨(cancelRun_exitCode _ _ _).trans hI.exitCode, hI.reached⟩

/-- Without an exit code from Docker no exit code is ever stored. -/
theorem inv_of_not_reportsExit (hno : w.reportsExit = false) {now : Nat}
    {row : Run} (hrow : row.exitCode = none) {l : List Event}
    (hrun : run (step w) (start now row) l = some s) : s.row.exitCode = none := by
  have hstart : NoExit w (start now row) := by
    refine ⟨hrow, ?_⟩
    intro pc hpc
    cases hpc
    trivial
  have hstep : ∀ a ev b, NoExit w a → True → ExecPublish.step w a ev = some b →
      NoExit w b := fun _ _ _ hI _ h => hI.step hno h
  have halong : Along (step w) (fun _ _ => True) (start now row) l :=
    along_of_forall fun _ _ => trivial
  exact (inv_run hstep hstart halong hrun).exitCode

end Steps

/-! ## With an exit code the status is visible too early -/

section Published

variable {w : World} {now : Nat} {row : Run}

/-- The six steps up to and including the terminal `finish_run`. -/
def untilFinish : List Event := List.replicate 6 .exec

/-- The exit code Docker reports, absent meaning `0`. -/
def World.exitCode (w : World) : Int :=
  match w.inspect with
  | .exit code => code.getD 0
  | _ => 0

/-- Right after the terminal `finish_run`, with the output map, the result
and the receipt still to be written. -/
theorem run_untilFinish (hexit : w.reportsExit = true) :
    run (step w) (start now row) untilFinish =
      some
        { now
          row := finishRun now (exitStatus w.exitCode) (some (asI32 w.exitCode)) none row
          pc := some (.capture w.exitCode w.result) } := by
  obtain ⟨acquire, createExec, startExec, stream, inspect, captured, receipt, fired⟩ := w
  cases acquire <;> cases createExec <;> cases startExec <;> cases stream <;>
    cases inspect <;> first | rfl | exact absurd hexit Bool.false_ne_true

/-- The row is visible there, with whatever outcome it had before. -/
theorem visible_untilFinish (now : Nat) (hlive : row.status ≠ .canceled) (c : Int) :
    let r := finishRun now (exitStatus c) (some (asI32 c)) none row
    Visible r ∧ r.result = row.result ∧ r.receipt = row.receipt := by
  intro r
  have hr : r = { row with
      status := exitStatus c, exitCode := some (asI32 c), error := none
      finishedAt := some now } := if_neg hlive
  rw [hr]
  exact ⟨⟨exitStatus_terminal c, rfl⟩, rfl, rfl⟩

/-- An execution that publishes an exit code shows a terminal status to a
reader that then finds no receipt. -/
theorem not_publishLast (hrow : Fresh row) (hlive : row.status ≠ .canceled)
    (hexit : w.reportsExit = true) : ¬ PublishLast w (start now row) := by
  intro hlast
  obtain ⟨hvis, _, hreceipt⟩ := visible_untilFinish now hlive w.exitCode
  have hobs := (hlast untilFinish _ (run_untilFinish hexit) hvis).2
  have hread := hobs.reproduced _ (if_pos hvis.1)
  rw [hreceipt, hrow.receipt] at hread
  cases hread

/-- The same for the result line alone. -/
theorem not_resultFirst (hrow : Fresh row) (hlive : row.status ≠ .canceled)
    (hexit : w.reportsExit = true) (hres : w.result.isSome) :
    ¬ ResultFirst w (start now row) := by
  intro hfirst
  obtain ⟨v, hv⟩ := Option.isSome_iff_exists.mp hres
  obtain ⟨hvis, hresult, _⟩ := visible_untilFinish now hlive w.exitCode
  have hstored := (hfirst untilFinish _ (run_untilFinish hexit) hvis v hv).1
  rw [hresult, hrow.result] at hstored
  cases hstored

end Published

/-! ## A canceled row shows nothing -/

theorem Writes.canceled {now : Nat} {f : Run → Run} (hf : Writes now f) {r : Run}
    (hr : r.status = .canceled) : (f r).status = .canceled := by
  cases hf with
  | nothing => exact hr
  | finish st hst c e => rw [finishRun_of_canceled hr]; exact hr
  | outputs v => exact hr
  | result v => exact hr
  | receipt v => exact hr

/-- A row canceled before the execution begins stays canceled. -/
theorem canceled_run {w : World} {now : Nat} {row : Run}
    (hrow : row.status = .canceled) {l : List Event} {s : Publish}
    (hrun : run (step w) (start now row) l = some s) : s.row.status = .canceled := by
  have hstep : ∀ (a : Publish) ev b, a.row.status = .canceled → True →
      step w a ev = some b → b.row.status = .canceled := by
    intro a ev b ha _ h
    cases ev with
    | exec =>
        obtain ⟨pc, out, _, hout, rfl⟩ := step_exec h
        exact Writes.canceled (execStep_writes hout) ha
    | tick d => cases h; exact ha
    | crash => cases h; exact ha
    | cancel reason =>
        cases h
        rw [cancelRun_status, if_neg]
        rw [ha]
        exact RunStatus.noConfusion
  exact inv_run (C := fun _ _ => True) hstep hrow
    (along_of_forall fun _ _ => trivial) hrun

/-! ## When the status is published last -/

/-- No row becomes visible when there is no exit code or no live row. -/
theorem not_visible {w : World} {now : Nat} {row : Run} (hrow : Fresh row)
    (hno : ¬ (w.reportsExit = true ∧ row.status ≠ .canceled)) {l : List Event}
    {s : Publish} (hrun : run (step w) (start now row) l = some s) :
    ¬ Visible s.row := by
  rintro ⟨hst, hcode⟩
  by_cases hcan : row.status = .canceled
  · rw [canceled_run hcan hrun] at hst
    rcases hst with h | h <;> cases h
  · have hexit : w.reportsExit = false := by
      by_contra h
      exact hno ⟨by simpa using h, hcan⟩
    rw [inv_of_not_reportsExit hexit hrow.exitCode hrun] at hcode
    cases hcode

/-- **Publish-last, exactly.**  The whole outcome is stored whenever the
status is visible iff the execution gets no exit code to publish or the row
was canceled before it began; and for the result line alone iff, besides,
the job emitted none. -/
theorem publishLast_iff (w : World) (now : Nat) (row : Run) (hrow : Fresh row) :
    (PublishLast w (start now row) ↔
        ¬ (w.reportsExit = true ∧ row.status ≠ .canceled)) ∧
      (ResultFirst w (start now row) ↔
        ¬ (w.reportsExit = true ∧ row.status ≠ .canceled ∧ w.result.isSome)) := by
  refine ⟨⟨?_, ?_⟩, ⟨?_, ?_⟩⟩
  · rintro hlast ⟨hexit, hlive⟩
    exact not_publishLast hrow hlive hexit hlast
  · intro hno l s hrun hvis
    exact (not_visible hrow hno hrun hvis).elim
  · rintro hfirst ⟨hexit, hlive, hres⟩
    exact not_resultFirst hrow hlive hexit hres hfirst
  · intro hno l s hrun hvis v hv
    have hquiet : ¬ (w.reportsExit = true ∧ row.status ≠ .canceled) := by
      rintro ⟨hexit, hlive⟩
      exact hno ⟨hexit, hlive, Option.isSome_iff_exists.mpr ⟨v, hv⟩⟩
    exact (not_visible hrow hquiet hrun hvis).elim

/-- A job that exits `0` after printing one result line. -/
def plainWorld : World where
  acquire := .ok 1
  createExec := .ok ()
  startExec := .ok ()
  stream := .ended (some (.bool true))
  inspect := .exit (some 0)
  captured := none
  receipt := .null
  fired := []

/-- A run a worker has just claimed. -/
def claimedRow : Run :=
  claimRun 1 (insertRun 0 7 (.object []) none)

theorem fresh_claimedRow : Fresh claimedRow := (fresh_insertRunWithBlobs _ _).claimRun _

theorem publishLast_iff_plainWorld :
    Fresh claimedRow ∧
      ((PublishLast plainWorld (start 1 claimedRow) ↔
          ¬ (plainWorld.reportsExit = true ∧ claimedRow.status ≠ .canceled)) ∧
        (ResultFirst plainWorld (start 1 claimedRow) ↔
          ¬ (plainWorld.reportsExit = true ∧ claimedRow.status ≠ .canceled ∧
            plainWorld.result.isSome))) :=
  ⟨fresh_claimedRow, publishLast_iff plainWorld 1 claimedRow fresh_claimedRow⟩

/-- The plain job breaks both halves. -/
theorem plainWorld_not_publishLast :
    ¬ PublishLast plainWorld (start 1 claimedRow) ∧
      ¬ ResultFirst plainWorld (start 1 claimedRow) :=
  ⟨not_publishLast fresh_claimedRow (by decide) rfl,
    not_resultFirst fresh_claimedRow (by decide) rfl rfl⟩

end Dokan.Ports.ExecPublish
