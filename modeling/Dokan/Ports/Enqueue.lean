import Dokan.Verified.KeyedInsert
import Dokan.Ports.FlowSpec

/-!
# Enqueueing runs and flow runs

The inserts into `runs` and `flow_runs` as two tables of
`Verified.KeyedInsert`, each with its own partial unique index on
`idempotency_key`.  A call of `insert_run_idempotent` or
`insert_flow_run_idempotent` that meets a row of its key recalls it; one of
`insert_refused_run` does nothing; the plain inserts carry no key.  The
children of a flow run are the rows of its ledger, written in the same
transaction.  Rows are not deleted, and what the driver later does to a ledger
is not part of this machine.

A tick's key is shared between `insert_run_idempotent` and
`insert_refused_run`, so the call that creates the row of a key need not be
one that returns `created`.

## Main results

* `enqueued_once` — one row a key, one creating call, every returned id is the
  row's id, and every visible ledger is whole.
* `not_created_once` — the creating call need not return `created = true`.
-/

namespace Dokan.Ports.Enqueue

open Dokan.Verified
open Dokan.Verified.KeyedInsert
open Dokan.Verified.Json
open Dokan.Ports.RunRow
open Dokan.Ports.FlowRow
open Dokan.Ports.FlowSpec

/-! ## The two tables -/

/-- The inserts into `runs`. -/
inductive RunRequest
  | insertRunWithBlobs (n : NewRun)
  | insertRunIdempotent (n : NewRun) (idemKey : String)
  | insertRefusedRun (n : NewRun) (reason : String) (idemKey : Option String)

/-- The columns a request supplies. -/
def RunRequest.columns : RunRequest → NewRun
  | .insertRunWithBlobs n => { n with idempotencyKey := none }
  | .insertRunIdempotent n k => { n with idempotencyKey := some k }
  | .insertRefusedRun n _ k =>
      { n with inputBlobs := none, captureOutput := false, idempotencyKey := k }

/-- Only `insert_run_idempotent` reads the row it collided with. -/
def RunRequest.recalls : RunRequest → Bool
  | .insertRunWithBlobs _ => false
  | .insertRunIdempotent _ _ => true
  | .insertRefusedRun _ _ _ => false

/-- `runs`, with `uq_runs_idempotency`. -/
def runsTable : Table RunRequest String Empty Empty where
  key q := q.columns.idempotencyKey
  recalls := RunRequest.recalls
  children _ := []
  childId := id

/-- `insert_flow_run`, and with a key `insert_flow_run_idempotent`. -/
structure FlowRequest where
  flowId : Int
  spec : Value
  input : Value
  idemKey : Option String

/-- `flow_runs`, with `uq_flow_runs_idempotency` and the ledger's
`UNIQUE (flow_run_id, step_id)`. -/
def flowRunsTable : Table FlowRequest String FlowStep String where
  key := FlowRequest.idemKey
  recalls q := q.idemKey.isSome
  children q := ledgerRows q.spec
  childId := FlowStep.stepId

/-- The calls on `runs`. -/
abbrev Runs := KeyedInsert.State RunRequest Nat Empty

/-- The calls on `flow_runs`. -/
abbrev FlowRuns := KeyedInsert.State FlowRequest Nat FlowStep

/-- Both tables. -/
structure Tables where
  runs : Runs
  flowRuns : FlowRuns

/-- No rows and no calls. -/
def Tables.empty : Tables :=
  { runs := .empty, flowRuns := .empty }

/-- A step of a call on either table. -/
inductive Label
  | runs (a : KeyedInsert.Label RunRequest Nat)
  | flowRuns (a : KeyedInsert.Label FlowRequest Nat)

/-- The two tables share nothing. -/
def step (t : Tables) : Label → Option Tables
  | .runs a => (KeyedInsert.step runsTable t.runs a).map fun r => { t with runs := r }
  | .flowRuns a =>
      (KeyedInsert.step flowRunsTable t.flowRuns a).map fun f => { t with flowRuns := f }

/-! ## Exactly once -/

/-- The invariant of both tables. -/
structure TablesInv (t : Tables) : Prop where
  runs : Inv runsTable t.runs
  flowRuns : Inv flowRunsTable t.flowRuns

theorem TablesInv.step {t t' : Tables} {a : Label} (hI : TablesInv t)
    (h : step t a = some t') : TablesInv t' := by
  cases a with
  | runs a =>
      obtain ⟨r, hr, rfl⟩ := Option.map_eq_some_iff.mp h
      exact ⟨hI.runs.step hr, hI.flowRuns⟩
  | flowRuns a =>
      obtain ⟨f, hf, rfl⟩ := Option.map_eq_some_iff.mp h
      exact ⟨hI.runs, hI.flowRuns.step hf⟩

/-- Every reachable pair of tables meets the invariant. -/
theorem tablesInv_run {t : Tables} {l : List Label}
    (h : Machine.run step .empty l = some t) : TablesInv t :=
  Machine.inv_run (C := fun _ _ => True) (fun _ _ _ hI _ hs => hI.step hs)
    ⟨inv_empty, inv_empty⟩ (Machine.along_of_forall fun _ _ => trivial) h

/-- Some call of the key has returned `Ok`. -/
def SomeOk {Q D I : Type} (T : Table Q String D I)
    (s : KeyedInsert.State Q Nat D) (k : String) : Prop :=
  ∃ c call, s.calls c = some call ∧ T.key call.request = some k ∧
    call.phase.isOk = true

/-- **Exactly-once enqueue.**  After any interleaving of inserts, in either
table: once a call of a key has returned `Ok` there is exactly one row of the
key, exactly one call put it there, and every call of the key that returns an
id returns that row's id.  Every visible flow run has the rows of its spec's
ledger, each step id once, whatever transactions were aborted. -/
theorem enqueued_once {t : Tables} {l : List Label}
    (hrun : Machine.run step .empty l = some t) :
    (∀ k, SomeOk runsTable t.runs k → ∃ id, Once runsTable t.runs k id) ∧
      (∀ k, SomeOk flowRunsTable t.flowRuns k →
        ∃ id, Once flowRunsTable t.flowRuns k id) ∧
      ∀ id r, t.flowRuns.rows id = some r → r.committed = true →
        r.children = ledgerRows r.request.spec ∧
          (r.children.map FlowStep.stepId).Nodup := by
  have hI := tablesInv_run hrun
  refine ⟨?_, ?_, ?_⟩
  · rintro k ⟨c, call, hc, hk, hok⟩
    obtain ⟨id, hv⟩ := hI.runs.ok_visible hc hk hok
    exact ⟨id, hI.runs.once hv⟩
  · rintro k ⟨c, call, hc, hk, hok⟩
    obtain ⟨id, hv⟩ := hI.flowRuns.ok_visible hc hk hok
    exact ⟨id, hI.flowRuns.once hv⟩
  · exact fun id r hr hcom => hI.flowRuns.children_whole hr hcom

/-! ## Who creates the row -/

/-- A run of script 1 with an empty input. -/
def sampleRun : NewRun :=
  { scriptId := 1, input := .object [], agentId := some "a", inputBlobs := none
    captureOutput := false, idempotencyKey := none }

/-- One daemon is refused the tick `k`, another enqueues it. -/
def refusedTick : List Label :=
  [ .runs (.begin 0 (.insertRefusedRun sampleRun "quota" (some "k")))
  , .runs (.insert 0)
  , .runs (.begin 1 (.insertRunIdempotent sampleRun "k"))
  , .runs (.commit 0)
  , .runs (.insert 1)
  , .runs (.readBack 1) ]

/-- The creating call never hears of its commit. -/
def lostReply : List Label :=
  [ .runs (.begin 0 (.insertRunIdempotent sampleRun "k"))
  , .runs (.insert 0)
  , .runs (.commitLost 0)
  , .runs (.begin 1 (.insertRunIdempotent sampleRun "k"))
  , .runs (.insert 1)
  , .runs (.readBack 1) ]

/-- After `l`, exactly one `insert_run_idempotent` call of a key returned
`created = true` if any call of it returned `Ok`. -/
def CreatedOnce (l : List Label) : Prop :=
  ∀ t, Machine.run step .empty l = some t → ∀ k,
    (∃ c n phase, t.runs.calls c = some ⟨.insertRunIdempotent n k, phase⟩ ∧
      phase.isOk = true) →
    ∃! c, ∃ n id, t.runs.calls c = some ⟨.insertRunIdempotent n k, .inserted id⟩

/-- The refused tick holds the key, and the other daemon is told
`created = false`. -/
theorem not_createdOnce_refusedTick : ¬ CreatedOnce refusedTick := by
  intro h
  obtain ⟨c, ⟨n, id, hc⟩, _⟩ := h _ rfl "k" ⟨1, sampleRun, .recalled 0, rfl, rfl⟩
  match c with
  | 0 => cases hc
  | 1 => cases hc
  | c + 2 => cases hc

/-- The row is there, and the retry is told `created = false`. -/
theorem not_createdOnce_lostReply : ¬ CreatedOnce lostReply := by
  intro h
  obtain ⟨c, ⟨n, id, hc⟩, _⟩ := h _ rfl "k" ⟨1, sampleRun, .recalled 0, rfl, rfl⟩
  match c with
  | 0 => cases hc
  | 1 => cases hc
  | c + 2 => cases hc

/-- The call that creates the row need not be one that returns
`created = true`. -/
theorem not_created_once : ¬ CreatedOnce refusedTick ∧ ¬ CreatedOnce lostReply :=
  ⟨not_createdOnce_refusedTick, not_createdOnce_lostReply⟩

/-- `enqueued_once` after the refused tick: both calls came back, and row 0 is
the only one of the key. -/
theorem enqueued_once_refusedTick :
    ∃ t, Machine.run step .empty refusedTick = some t ∧
      SomeOk runsTable t.runs "k" ∧ ∃ id, Once runsTable t.runs "k" id := by
  refine ⟨_, rfl, ⟨1, _, rfl, rfl, rfl⟩, ?_⟩
  exact (enqueued_once (l := refusedTick) rfl).1 "k" ⟨1, _, rfl, rfl, rfl⟩

end Dokan.Ports.Enqueue
