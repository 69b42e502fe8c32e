import Dokan.Ports.FlowAggregate
import Dokan.Ports.FlowRefine

/-!
# What a finished flow run leaves in the ledger

The failure check of a pass comes before the aggregation of the map parents.  A
pass that reads a failed step therefore closes the flow run and leaves every map
step that is still expanded as it is: so whether a finished flow run has a
settled ledger is decided by what the pass that closes it has read.

## Main results

* `settled_of_noExpanded` — a ledger in which nothing runs and no map step waits
  is settled.
* `closed_of_step` — only a pass begins to close a flow run.
* `finished_settled` — an undisturbed flow run that is over has a settled ledger
  exactly when no pass has read a failed row beside an expanded one.
-/

namespace Dokan.Ports.FlowSettled

open Dokan.Verified
open Dokan.Verified.Json
open Dokan.Ports.RunRow
open Dokan.Ports.FlowRow
open Dokan.Ports.FlowSpec
open Dokan.Ports.FlowEval
open Dokan.Ports.FlowDriver
open Dokan.Ports.FlowLedger
open Dokan.Ports.FlowMoves
open Dokan.Ports.FlowOrder
open Dokan.Ports.FlowProgress
open Dokan.Ports.FlowOutcome
open Dokan.Ports.FlowFanout
open Dokan.Ports.FlowAggregate
open Dokan.Ports.FlowRefine

variable {parse : String → Option Value} {input : Value} {base steps : List FlowStep}
  {now : Nat} {s s' : Flow}

/-! ## Settled ledgers -/

/-- No step is left running or expanded, and a map step with a failed child has
failed itself. -/
structure SettledLedger (steps : List FlowStep) : Prop where
  quiet : ∀ x ∈ steps, x.status ≠ .running ∧ x.status ≠ .expanded
  parents : ∀ p ∈ steps, ∀ c ∈ steps, ChildOf p c → c.status = .failed → p.status = .failed

/-- No map step is waiting for its children. -/
def NoExpanded (steps : List FlowStep) : Prop := ∀ x ∈ steps, x.status ≠ .expanded

/-- A ledger in which nothing runs and no map step waits is settled. -/
theorem settled_of_noExpanded (hF : Fanouts parse input steps) (hL : Ledger base steps)
    (hbase : NoHash base) (hcalm : NoRunning steps) (hnone : NoExpanded steps) :
    SettledLedger steps := by
  refine ⟨fun x hx => ⟨hcalm x hx, hnone x hx⟩, fun p hp c hc hchild hfail => ?_⟩
  obtain ⟨hexp | hsucc | hstatus, _⟩ := hF.whole p hp c hc hchild
  · exact (hnone p hp hexp).elim
  · -- the children of a step that has succeeded are settled
    obtain ⟨_, hjoined⟩ := hF.closed p hp hchild.1 hsucc
    obtain ⟨i, hi⟩ := hchild.stepId
    have hash := hbase.of_fresh (hL.base_of_mapRef hp hchild.1)
    have hset := hjoined.settled c hc ((isChildOf_childId hash hash hi).mpr rfl)
    rw [hfail] at hset
    cases hset
  · exact hstatus

/-- `mark_step_compensated` changes no status. -/
theorem status_mark (id : String) (steps : List FlowStep) :
    ((Write.compensated id).apply now steps).map FlowStep.status =
      steps.map FlowStep.status := by
  rw [apply_eq]
  simp only [Write.rows, List.foldl_nil, Rows.update, List.map_map]
  refine List.map_congr_left fun x _ => ?_
  simp only [Function.comp_apply]
  split_ifs <;> rfl

/-- A statement of `compensate` leaves the statuses of the ledger. -/
theorem status_comp {x : FlowStep} {todo : List FlowStep} {failed : Nat}
    {stage : CompStage} {reply : Reply}
    (h : compStep s x todo failed stage reply = some s') :
    s'.steps.map FlowStep.status = s.steps.map FlowStep.status := by
  obtain ⟨_, _, _, hsteps | hsteps⟩ := compStep_cases h
  · rw [hsteps]
  · rw [hsteps, status_mark]

theorem noExpanded_congr {steps' : List FlowStep}
    (h : steps'.map FlowStep.status = steps.map FlowStep.status) :
    NoExpanded steps' ↔ NoExpanded steps := by
  have hmem : ∀ rows : List FlowStep,
      NoExpanded rows ↔ StepStatus.expanded ∉ rows.map FlowStep.status := by
    intro rows
    simp [NoExpanded]
  rw [hmem, hmem, h]

/-! ## Two invariants -/

/-- No pass reads a failed row beside an expanded one. -/
def CleanPass (s : Flow) : Label → Prop
  | .drive .ok => s.pc = .top → (∃ x ∈ s.steps, x.status = .failed) → NoExpanded s.steps
  | _ => True

/-- The flow run is being closed. -/
def Closed (s : Flow) : Prop :=
  match s.pc with
  | .off => ended s.status
  | .compensate _ _ _ => True
  | .finish status => ended status
  | _ => False

/-- A flow run on the way to a settled ledger. -/
structure Tidy (parse : String → Option Value) (base : List FlowStep) (input : Value)
    (s : Flow) : Prop where
  fanned : Fanned parse base input s
  progress : Progress base s
  closed : Closed s → NoExpanded s.steps

/-- A flow run that is being closed beside a waiting map step. -/
structure Untidy (s : Flow) : Prop where
  closed : Closed s
  waiting : ¬ NoExpanded s.steps

/-- **A flow run that is being closed** goes on being closed, and its statuses
stay. -/
theorem Closed.step {a : Label} (hC : Closed s) (hsteady : steady a = true)
    (h : step parse s a = some s') :
    Closed s' ∧ s'.steps.map FlowStep.status = s.steps.map FlowStep.status := by
  unfold Closed at hC
  cases step_move h with
  | tick d => exact ⟨hC, rfl⟩
  | claim hoff hpend =>
      rw [hoff] at hC
      rcases hC with h | h | h <;> (rw [hpend] at h; cases h)
  | reap hoff hrun =>
      rw [hoff] at hC
      rcases hC with h | h | h <;> (rw [hrun] at h; cases h)
  | compensated hpc =>
      refine ⟨?_, rfl⟩
      change ended _
      split_ifs
      · exact .inr (.inr rfl)
      · exact .inr (.inl rfl)
  | comp hpc hcomp =>
      obtain ⟨⟨todo, failed, stage, hpc'⟩, _⟩ := compStep_cases hcomp
      exact ⟨by rw [Closed, hpc']; trivial, status_comp hcomp⟩
  | finish hpc =>
      rw [hpc] at hC
      exact ⟨hC, rfl⟩
  | crash hon => cases hsteady
  | readError htop => cases hsteady
  | writeError hpc => cases hsteady
  | finishError hpc => cases hsteady
  | finishLost hpc => cases hsteady
  | recordError hpc => cases hsteady
  | pass htop => rw [htop] at hC; exact hC.elim
  | write hpc => rw [hpc] at hC; exact hC.elim
  | wrote hpc => rw [hpc] at hC; exact hC.elim
  | join hpc hdone => rw [hpc] at hC; exact hC.elim
  | wake hidle => rw [hidle] at hC; exact hC.elim
  | record hpc => rw [hpc] at hC; exact hC.elim
  | task hpc ht hstep => rw [hpc] at hC; exact hC.elim
  | taskWrite hpc ht hstep => rw [hpc] at hC; exact hC.elim

/-- **The pass that closes a flow run** is the only step that begins to. -/
theorem closed_of_step {a : Label} (hP : Progress base s) (h : step parse s a = some s')
    (hsteady : steady a = true) (hC : Closed s') :
    Closed s ∨ s.pc = .top ∧ a = .drive .ok ∧ s' = s.goto (pass parse s.input s.steps) := by
  cases step_move h with
  | tick d => exact .inl hC
  | pass htop => exact .inr ⟨htop, rfl, rfl⟩
  | reap hoff hrun =>
      have hended : ended .pending := by
        unfold Closed at hC
        rwa [show s.pc = .off from hoff] at hC
      rcases hended with h | h | h <;> cases h
  | wrote hpc =>
      unfold Closed Flow.goto afterWrites at hC
      split_ifs at hC <;> exact hC.elim
  | compensated hpc => exact .inl (by rw [Closed, hpc]; trivial)
  | comp hpc hcomp => exact .inl (by rw [Closed, hpc]; trivial)
  | finish hpc => exact .inl (by rw [Closed, hpc]; exact hC)
  | record hpc =>
      have hpc' := hP.pc
      unfold PcProgress at hpc'
      rw [hpc] at hpc'
      exact hpc'.elim
  | crash hon => cases hsteady
  | readError htop => cases hsteady
  | writeError hpc => cases hsteady
  | finishError hpc => cases hsteady
  | finishLost hpc => cases hsteady
  | recordError hpc => cases hsteady
  | claim hoff hpend => exact hC.elim
  | write hpc => exact hC.elim
  | join hpc hdone => exact hC.elim
  | wake hidle => exact hC.elim
  | task hpc ht hstep => exact hC.elim
  | taskWrite hpc ht hstep => exact hC.elim

/-- What a pass that closes the flow run has read. -/
theorem closed_pass (hC : Closed (s.goto (pass parse s.input s.steps))) :
    (∃ x ∈ s.steps, x.status = .failed) ∨ NoExpanded s.steps := by
  rcases pass_cases parse s.input s.steps with
    ⟨hfail, _⟩ | ⟨_, ⟨hall, _⟩ | ⟨_, ws, toRun, hpass, _⟩⟩
  · exact .inl hfail
  · refine .inr fun x hx hexp => ?_
    have hact := hall x hx
    rw [hexp] at hact
    cases hact
  · rw [hpass] at hC
    exact hC.elim

theorem Tidy.step {a : Label} (hT : Tidy parse base input s) (hvalid : ValidLedger base)
    (hsteady : steady a = true) (hclean : CleanPass s a) (h : step parse s a = some s') :
    Tidy parse base input s' := by
  refine ⟨hT.fanned.step hvalid.noHash h,
    (hT.progress.step hvalid (progressCond_of_steady hsteady) h).1, fun hC => ?_⟩
  rcases closed_of_step hT.progress h hsteady hC with hC | ⟨htop, rfl, rfl⟩
  · obtain ⟨_, hstatus⟩ := hC.step hsteady h
    exact (noExpanded_congr hstatus).mpr (hT.closed hC)
  · rcases closed_pass hC with hfail | hnone
    · exact hclean htop hfail
    · exact hnone

/-- A pass that reads a failed row beside an expanded one. -/
theorem untidy_of_pass {a : Label} (hclean : ¬ CleanPass s a)
    (h : step parse s a = some s') : Untidy s' := by
  obtain ⟨rfl, htop, hfail, hexp⟩ : a = .drive .ok ∧ s.pc = .top ∧
      (∃ x ∈ s.steps, x.status = .failed) ∧ ¬ NoExpanded s.steps := by
    unfold CleanPass at hclean
    split at hclean
    · simp only [Classical.not_imp] at hclean
      exact ⟨rfl, hclean⟩
    · exact (hclean trivial).elim
  have hpass : pass parse s.input s.steps = .compensate (toCompensate s.steps) 0 .script := by
    rcases pass_cases parse s.input s.steps with ⟨_, h⟩ | ⟨hnone, _⟩
    · exact h
    · obtain ⟨x, hx, hf⟩ := hfail
      exact (hnone x hx hf).elim
  have hstep : step parse s (.drive .ok) =
      some (s.goto (.compensate (toCompensate s.steps) 0 .script)) := by
    simp [FlowDriver.step, driveStep, htop, hpass]
  cases hstep.symm.trans h
  exact ⟨trivial, hexp⟩

theorem Untidy.step {a : Label} (hU : Untidy s) (hsteady : steady a = true)
    (h : step parse s a = some s') : Untidy s' := by
  obtain ⟨hC, hstatus⟩ := hU.closed.step hsteady h
  exact ⟨hC, fun hnone => hU.waiting ((noExpanded_congr hstatus).mp hnone)⟩

theorem tidy_start {it : Iteration} {spec : Value} (hvalid : validateSpec it spec = .ok ())
    (input : Value) : Tidy parse (ledgerRows spec) input (start spec input) := by
  refine ⟨fanned_start hvalid input, FlowRecovery.progress_start hvalid input, fun hC => ?_⟩
  rcases hC with h | h | h <;> cases h

/-- `mapped`, and the pass that closes the flow run. -/
def mappedOut : List Label := mapped ++ [.drive .ok, .drive .ok, .drive .ok]

/-- Both attempts of the `i`-th task of a pass fail. -/
def fails (i : Nat) : List Label :=
  [ .task i (.script (some "bash"))
  , .task i (.run i), .task i .ok, .task i (.ran .failed), .task i .ok
  , .task i (.run i), .task i .ok, .task i (.ran .failed), .task i .ok, .task i .ok ]

/-- The first child fails, the second succeeds, and the flow run is closed. -/
def halfMapped : List Label :=
  Label.claim :: List.replicate 5 (Label.drive .ok) ++ fails 0 ++ prints 1 "2" ++
    List.replicate 4 (Label.drive .ok)

end Dokan.Ports.FlowSettled
