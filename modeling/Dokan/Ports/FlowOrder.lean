import Dokan.Ports.FlowMoves

/-!
# The order of the ledger

What the ledger shows in any reachable state of a flow run, whatever crashes,
resumes and database errors came before.

## Main results

* `ledger_order` — a step that has begun has all its dependencies succeeded,
  and a succeeded or skipped step keeps its status and output from then on.
-/

namespace Dokan.Ports.FlowOrder

open Dokan.Verified
open Dokan.Verified.Json
open Dokan.Ports.FlowRow
open Dokan.Ports.FlowSpec
open Dokan.Ports.FlowDriver
open Dokan.Ports.FlowLedger
open Dokan.Ports.FlowMoves

/-- **Ledger order.**  In every reachable state of a flow run of a validated
spec, each step or map child that is running, expanded or succeeded has every
id in its `depends_on` succeeded; and from there on a step that is succeeded or
skipped keeps its status and its output. -/
theorem ledger_order {it : Iteration} {spec : Value}
    (hvalid : validateSpec it spec = .ok ()) {parse : String → Option Value}
    {input : Value} {l : List Label} {s : Flow}
    (hrun : Machine.run (step parse) (start spec input) l = some s) :
    (s.steps.map FlowStep.stepId).Nodup ∧
      (∀ x ∈ s.steps, x.status.ran = true → ∀ d ∈ x.dependsOn,
        ∃ t ∈ s.steps, t.stepId = d ∧ t.status = .succeeded) ∧
      ∀ l' s', Machine.run (step parse) s l' = some s' →
        ∀ x ∈ s.steps, x.status.settled = true →
          ∃ t ∈ s'.steps, t.stepId = x.stepId ∧ t.status = x.status ∧
            t.output = x.output := by
  have hI := inv_run hvalid hrun
  refine ⟨hI.ledger.nodup, hI.ledger.ordered, ?_⟩
  intro l' s' hrun'
  exact settled_run (validateSpec_ledger hvalid).noHash hI hrun'

/-! ## A flow of two steps -/

/-- Entries in the order of the spec. -/
def inOrder : Iteration := { order := id, perm := fun _ => .refl _ }

/-- Step `a`, and a fan-out `b` over `xs` that depends on it. -/
def twoSteps : Value :=
  .obj [("steps", .arr
    [ .obj [("id", .str "a"), ("script_id", .num (.int 1))]
    , .obj
        [ ("depends_on", .arr [.str "a"]), ("id", .str "b")
        , ("map", .str "flow_input.xs"), ("script_id", .num (.int 2)) ] ])]

/-- Two elements. -/
def twoItems : Value :=
  .obj [("xs", .arr [.num (.int 1), .num (.int 2)])]

/-- `a` runs and succeeds, the driver dies, another one expands `b` and begins
its first child. -/
def resumed : List Label :=
  [ .claim, .drive .ok, .drive .ok
  , .task 0 (.script (some "bash")), .task 0 (.run 0), .task 0 .ok
  , .task 0 (.ran .succeeded), .task 0 .ok, .task 0 (.stdout (some "1")), .task 0 .ok
  , .crash, .reap, .claim, .drive .ok, .drive .ok, .drive .ok
  , .drive .ok, .drive .ok
  , .task 0 (.script (some "bash")), .task 0 (.run 1), .task 0 .ok ]

/-- `ledger_order` in a state with a succeeded step, an expanded one and a
running child. -/
theorem ledger_order_resumed :
    ∃ s, Machine.run (step fun _ => none) (start twoSteps twoItems) resumed = some s ∧
      s.steps.map FlowStep.status = [.succeeded, .expanded, .running, .pending] ∧
      ∀ x ∈ s.steps, x.status.ran = true → ∀ d ∈ x.dependsOn,
        ∃ t ∈ s.steps, t.stepId = d ∧ t.status = .succeeded := by
  have hview : (Machine.run (step fun _ => none) (start twoSteps twoItems) resumed).map
      (fun s => s.steps.map FlowStep.status) =
        some [.succeeded, .expanded, .running, .pending] := by decide +kernel
  obtain ⟨s, hs, hstatus⟩ := Option.map_eq_some_iff.mp hview
  have hvalid : validateSpec inOrder twoSteps = .ok () := by rfl
  exact ⟨s, hs, hstatus, (ledger_order hvalid hs).2.1⟩

end Dokan.Ports.FlowOrder
