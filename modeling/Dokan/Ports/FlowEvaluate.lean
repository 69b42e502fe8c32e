import Dokan.Ports.FlowOutcome

/-!
# What a flow is meant to compute

A spec is a graph of steps, and a verdict for every step follows from the
verdicts of its dependencies.  This is a statement of what the driver is for:
there is no ledger here, no pass and no order in which steps finish.

`within` says how many elements a map step may have; `fanout_within_cap` is the
driver's.

## Main results

* `exists_evaluation`, `evaluation_unique` — the steps of an accepted spec have
  one evaluation.
-/

namespace Dokan.Ports.FlowEvaluate

open Dokan.Verified
open Dokan.Verified.Json
open Dokan.Ports.FlowRow
open Dokan.Ports.FlowSpec
open Dokan.Ports.FlowEval
open Dokan.Ports.FlowOutcome

/-- What becomes of a step. -/
inductive Verdict
  | skipped
  | succeeded (output : Option String)
  | failed
  /-- not reached: a step it depends on has failed, or was not reached -/
  | blocked
deriving DecidableEq, Repr

def Verdict.isSucceeded : Verdict → Bool
  | .succeeded _ => true
  | _ => false

/-- What a step that has succeeded hands to the steps that depend on it. -/
def Verdict.output? : Verdict → Option String
  | .succeeded output => some (output.getD "")
  | _ => none

/-- How a step ends that runs once. -/
def Outcome.verdict : Outcome → Verdict
  | .succeeded output => .succeeded output
  | .failed => .failed

/-- The slot of an element in the output of a map step. -/
def Outcome.slot : Outcome → Value
  | .succeeded (some o) => .str o
  | _ => .null

/-- A map step fails with one of its elements. -/
def gather (outs : List Outcome) : Verdict :=
  if outs.any fun o => o = .failed then .failed
  else .succeeded (some (Value.print (.arr (outs.map Outcome.slot))))

section Evaluate

variable (within : Nat → Bool) (parse : String → Option Value) (input : Value)
  (outcome : String → Value → Outcome)

/-- `deps`: exactly the outputs of the dependencies. -/
def depsOf (v : String → Verdict) (s : FlowStep) : Value :=
  buildDeps s.dependsOn fun d => (v d).output?

/-- How the step ends when it runs once on its input. -/
def runOf (v : String → Verdict) (s : FlowStep) : Outcome :=
  outcome s.stepId (stepInput input (depsOf v s) s.input)

/-- How the elements of a map step end. -/
def elementsOf (v : String → Verdict) (s : FlowStep) (items : List Value) :
    List Outcome :=
  items.zipIdx.map fun x =>
    outcome (childId s.stepId x.2) (stepInput input (depsOf v s) x.1)

/-- The verdict on a step whose turn comes. -/
def turnOf (v : String → Verdict) (s : FlowStep) : Verdict :=
  match s.mapRef with
  | none => Outcome.verdict (runOf input outcome v s)
  | some mapRef =>
      match resolveRef parse mapRef input (depsOf v s) with
      | some (.arr items) =>
          if within items.length then gather (elementsOf input outcome v s items)
          else .failed
      | _ => .failed

/-- The verdict on a step, from those on its dependencies. -/
def verdictOf (v : String → Verdict) (s : FlowStep) : Verdict :=
  if ∃ d ∈ s.dependsOn, v d = .skipped then .skipped
  else if ∃ d ∈ s.dependsOn, (v d).isSucceeded = false then .blocked
  else if s.whenCond.any fun cond => !evalWhen parse cond input (depsOf v s) then .skipped
  else turnOf within parse input outcome v s

/-- The topological evaluation of a flow. -/
def Evaluation (rows : List FlowStep) (v : String → Verdict) : Prop :=
  ∀ s ∈ rows, v s.stepId = verdictOf within parse input outcome v s

end Evaluate

/-- No step fails. -/
def NoFailure (rows : List FlowStep) (v : String → Verdict) : Prop :=
  ∀ s ∈ rows, v s.stepId ≠ .failed

/-! ## The steps of an accepted spec have one evaluation -/

variable {within : Nat → Bool} {parse : String → Option Value} {input : Value}
  {outcome : String → Value → Outcome} {rows : List FlowStep} {v v' : String → Verdict}

theorem depsOf_congr {s : FlowStep} (h : ∀ d ∈ s.dependsOn, v d = v' d) :
    depsOf v s = depsOf v' s := by
  unfold depsOf buildDeps
  congr 1
  refine List.filterMap_congr fun d hd => ?_
  simp only [h d hd]

/-- The verdict on a step depends on those on its dependencies. -/
theorem verdictOf_congr {s : FlowStep} (h : ∀ d ∈ s.dependsOn, v d = v' d) :
    verdictOf within parse input outcome v s =
      verdictOf within parse input outcome v' s := by
  have hdeps := depsOf_congr h
  have hsome : ∀ P : Verdict → Prop,
      (∃ d ∈ s.dependsOn, P (v d)) ↔ ∃ d ∈ s.dependsOn, P (v' d) := by
    refine fun P => exists_congr fun d => and_congr_right fun hd => ?_
    rw [h d hd]
  simp only [verdictOf, turnOf, runOf, elementsOf, hdeps, hsome fun x => x = .skipped,
    hsome fun x => x.isSucceeded = false]

/-- **An evaluation exists.** -/
theorem exists_evaluation (within : Nat → Bool) (parse : String → Option Value)
    (input : Value) (outcome : String → Value → Outcome) (hvalid : ValidLedger rows) :
    ∃ v, Evaluation within parse input outcome rows v := by
  obtain ⟨order, hall, htopo⟩ := hvalid.topo
  let F : (String → Verdict) → String → Verdict := fun v id =>
    match rows.find? fun s => s.stepId == id with
    | some s => verdictOf within parse input outcome v s
    | none => .blocked
  have hlocal : Dag.Local (fun id => ((rows.find? fun s => s.stepId == id).map
      FlowStep.dependsOn).getD []) F := by
    intro v v' id h
    simp only [F]
    cases hs : rows.find? fun s => s.stepId == id with
    | none => rfl
    | some s =>
        simp only [hs, Option.map_some, Option.getD_some] at h
        exact verdictOf_congr h
  refine ⟨Dag.solve F .blocked order, fun s hs => ?_⟩
  have hfind : (rows.find? fun t => t.stepId == s.stepId) = some s :=
    Rows.find_of_mem hvalid.nodup hs
  rw [htopo.solve_eq hlocal s.stepId (hall s hs)]
  simp only [F, hfind]

/-- **There is only one.** -/
theorem evaluation_unique (hvalid : ValidLedger rows)
    (hv : Evaluation within parse input outcome rows v)
    (hv' : Evaluation within parse input outcome rows v') :
    ∀ s ∈ rows, v s.stepId = v' s.stepId := by
  obtain ⟨order, hall, htopo⟩ := hvalid.topo
  by_contra hne
  push Not at hne
  obtain ⟨s, hs, hne⟩ := hne
  -- the first step in topological order on which they differ
  obtain ⟨_, _, ⟨t, ht, rfl, htne⟩, hmin⟩ := htopo.exists_minimal
    (fun id => ∃ t ∈ rows, t.stepId = id ∧ v t.stepId ≠ v' t.stepId)
    ⟨s.stepId, hall s hs, s, hs, rfl, hne⟩
  refine htne ?_
  rw [hv t ht, hv' t ht]
  refine verdictOf_congr fun d hd => ?_
  obtain ⟨u, hu, rfl⟩ := hvalid.known t ht d hd
  by_contra hne
  refine hmin u.stepId ?_ ⟨u, hu, rfl, hne⟩
  have hfind : (rows.find? fun u => u.stepId == t.stepId) = some t :=
    Rows.find_of_mem hvalid.nodup ht
  rw [hfind]
  exact hd

end Dokan.Ports.FlowEvaluate
