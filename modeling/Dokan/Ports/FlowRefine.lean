import Dokan.Ports.FlowAgree
import Dokan.Ports.FlowMeasure
import Dokan.Ports.FlowRecovery

/-!
# The driver computes the evaluation

An undisturbed driver takes the steps of a flow in batches, as their turns come;
which task of a batch finishes first is up to the world.  Whatever it is, the
driver comes to an end, and what it leaves behind is what the evaluation says.

## Main results

* `Follows.step` — one step of the driver, of a task or of `compensate`.
* `flow_refines` — every undisturbed run of an accepted spec is finite, and ends
  with the evaluation or, if a step fails, as a failure.
* `not_flow_refines` — a map step over more elements than the cap is a failure
  that its elements do not account for.
-/

namespace Dokan.Ports.FlowRefine

open Dokan.Verified
open Dokan.Verified.Json
open Dokan.Ports.RunRow
open Dokan.Ports.FlowRow
open Dokan.Ports.FlowSpec
open Dokan.Ports.FlowEval
open Dokan.Ports.FlowDriver
open Dokan.Ports.FlowLedger
open Dokan.Ports.FlowMoves
open Dokan.Ports.FlowOrder
open Dokan.Ports.FlowProgress
open Dokan.Ports.FlowOutcome
open Dokan.Ports.FlowEvaluate
open Dokan.Ports.FlowAgree
open Dokan.Ports.FlowMeasure

/-! ## What a run has to do -/

/-- A step of the spec fails. -/
def Fails (base : List FlowStep) (v : String → Verdict) : Prop :=
  ∃ b ∈ base, v b.stepId = .failed

/-- The driver has written a terminal status and is gone. -/
def Done (s : Flow) : Prop := s.pc = .off ∧ ended s.status

/-- The flow run is closed as the evaluation says. -/
structure ClosedAs (base : List FlowStep) (v : String → Verdict) (s : Flow) : Prop where
  succeeded : NoFailure base v → s.status = .succeeded ∧
    ∀ b ∈ base, ∃ x ∈ s.steps, x.stepId = b.stepId ∧
      Verdict.Is (v b.stepId) x.status x.output
  failed : ¬ NoFailure base v → s.status = .failed ∨ s.status = .compensationFailed

/-- Every undisturbed run is finite, can go on until it is done, and is then
closed as the evaluation says. -/
def Refines (parse : String → Option Value) (outcome : String → Value → Outcome)
    (base : List FlowStep) (v : String → Verdict) (s₀ : Flow) : Prop :=
  ∃ n, ∀ l s, Machine.Along (step parse) (fun s a => faithful outcome s a = true) s₀ l →
    Machine.run (step parse) s₀ l = some s →
      (l.filter moves).length ≤ n ∧
        (¬ Done s → ∃ a s', faithful outcome s a = true ∧ moves a = true ∧
          step parse s a = some s') ∧
        (Done s → ClosedAs base v s)

/-! ## The invariant -/

/-- The status a flow run is closed with. -/
def Closes (base steps : List FlowStep) (v : String → Verdict) (status : FlowStatus) :
    Prop :=
  status = .succeeded ∧
      (∀ x ∈ steps, x.status.active = false ∧ x.status ≠ .failed) ∨
    (status = .failed ∨ status = .compensationFailed) ∧ Fails base v

section Invariant

variable (parse : String → Option Value) (input : Value)
  (outcome : String → Value → Outcome) (v : String → Verdict) (base : List FlowStep)

/-- A task on the way to the outcome of its step. -/
structure TaskRight (steps : List FlowStep) (t : Task) : Prop where
  runs : Runs input outcome v base steps t.step t.deps
  way : TaskOk t.step (runOf input outcome v t.step) t.pc

/-- What the driver is about to do is right. -/
def PcRight (s : Flow) : Prop :=
  match s.pc with
  | .off => s.status = .pending ∨ Closes base s.steps v s.status
  | .writing _ ws toRun _ =>
      (∀ w ∈ ws, Right parse input outcome v base s.steps w) ∧
        ∀ r ∈ toRun, Runs input outcome v base s.steps r.step r.deps
  | .await _ tasks => ∀ t ∈ tasks, TaskRight input outcome v base s.steps t
  | .compensate _ _ _ => Fails base v
  | .finish status => Closes base s.steps v status
  | _ => True

/-- The flow run is on the way to its evaluation. -/
structure Follows (s : Flow) : Prop where
  progress : Progress base s
  reads : s.input = input
  agrees : Agrees parse input outcome v base s.steps
  pc : PcRight parse input outcome v base s

end Invariant

variable {parse : String → Option Value} {input : Value}
  {outcome : String → Value → Outcome} {v : String → Verdict} {base : List FlowStep}
  {s s' : Flow}

/-- Every row is attempted at least once. -/
theorem attempts_pos {steps : List FlowStep} (hL : Ledger base steps)
    (hatt : ∀ b ∈ base, stepAttempts b.retries ≠ 0) {x : FlowStep} (hx : x ∈ steps) :
    0 < stepAttempts x.retries := by
  rcases hL.origin x hx with hxb | ⟨p, _, _, ⟨_, i, item, hchild⟩, _⟩
  · exact Nat.pos_of_ne_zero (hatt (fresh x) hxb)
  · have hnone : x.retries = none := by
      simpa [fresh, childOf, childRow] using congrArg FlowStep.retries hchild
    rw [hnone]
    decide

theorem TaskRight.mono {steps : List FlowStep} {t : Task} {w : Write} {now : Nat}
    (h : TaskRight input outcome v base steps t) (hL : Ledger base steps)
    (hbase : NoHash base) (hw : Legal base steps w) :
    TaskRight input outcome v base (w.apply now steps) t :=
  ⟨h.runs.mono hL hbase hw, h.way⟩

/-- What a pass over a ledger on the way decides. -/
theorem pcRight_pass (hvalid : ValidLedger base)
    (hv : Evaluation fanoutWithinCap parse input outcome base v)
    (hL : Ledger base s.steps) (hA : Agrees parse input outcome v base s.steps)
    (hinput : s.input = input) :
    PcRight parse input outcome v base (s.goto (pass parse s.input s.steps)) := by
  obtain ⟨hagg, hwrites, hruns⟩ := decisions_right hvalid hv hL hA
  unfold PcRight
  rw [hinput]
  rcases pass_cases parse input s.steps with
    ⟨⟨x, hx, hfail⟩, heq⟩ |
      ⟨hnot, ⟨hinactive, heq⟩ | ⟨_, ws, toRun, heq, ⟨rfl, rfl, _⟩ | ⟨_, rfl, rfl⟩⟩⟩
  · rw [heq]
    exact failed_row hvalid hv hL hA hx hfail
  · rw [heq]
    exact .inl ⟨rfl, fun x hx => ⟨hinactive x hx, hnot x hx⟩⟩
  · rw [heq]
    exact ⟨hagg, fun r hr => by cases hr⟩
  · rw [heq]
    exact ⟨hwrites, hruns⟩

/-- A task that ends as its step does. -/
theorem TaskRight.finish {steps : List FlowStep} {t : Task} {status : StepStatus}
    {output : Option String} (h : TaskRight input outcome v base steps t)
    (hst : status = .succeeded ∨ status = .failed)
    (hout : (runOf input outcome v t.step).Is status output) :
    Right parse input outcome v base steps (.finish t.step.stepId status output) := by
  obtain ⟨x, hx, hfresh⟩ := h.runs.row
  refine .inr ⟨x, hx, stepId_of_fresh hfresh, ?_⟩
  refine RightAt.congr (s := t.step) ⟨fun _ => hout, fun hb => ?_⟩ hfresh
  rw [h.runs.verdict hb]
  rcases hst with rfl | rfl
  · have ho : runOf input outcome v t.step = .succeeded output := hout
    rw [ho]
    rfl
  · have ho : runOf input outcome v t.step = .failed := hout
    rw [ho]
    rfl

/-- What a faithful answer does to a task on the way. -/
theorem TaskRight.answered (parse : String → Option Value) {steps : List FlowStep}
    {t : Task} {pc : TaskPc} {reply : Reply} {w : Option Write}
    (h : TaskRight input outcome v base steps t) (hL : Ledger base steps)
    (hatt : ∀ b ∈ base, stepAttempts b.retries ≠ 0)
    (hans : answers t.step (outcome t.id (stepInput input t.deps t.step.input)) t.pc reply =
      true) (hstep : taskStep t.step t.pc reply = some (pc, w)) :
    TaskRight input outcome v base steps { t with pc } ∧
      ∀ w', w = some w' → Right parse input outcome v base steps w' := by
  obtain ⟨x, hx, hfresh⟩ := h.runs.row
  have hsome : 0 < stepAttempts t.step.retries := by
    have hretries : x.retries = t.step.retries := by
      simpa [fresh] using congrArg FlowStep.retries hfresh
    exact hretries ▸ attempts_pos hL hatt hx
  rw [h.runs.deps] at hans
  obtain ⟨hway, hfinish⟩ := answered_step h.way hsome hans hstep
  refine ⟨⟨h.runs, hway⟩, ?_⟩
  rintro w' rfl
  obtain ⟨_, heq | ⟨k, r, rfl, heq⟩ | ⟨status, output, rfl, hst, heq⟩⟩ :=
    taskStep_cases hstep
  · cases heq
  · cases heq
    exact .inr ⟨x, hx, stepId_of_fresh hfresh, trivial⟩
  · cases heq
    exact h.finish hst (hfinish _ _ _ rfl)

/-- **One step of the driver, of a task or of `compensate`.** -/
theorem Follows.step {a : Label} (hF : Follows parse input outcome v base s)
    (hvalid : ValidLedger base)
    (hv : Evaluation fanoutWithinCap parse input outcome base v)
    (hatt : ∀ b ∈ base, stepAttempts b.retries ≠ 0) (ha : faithful outcome s a = true)
    (h : step parse s a = some s') : Follows parse input outcome v base s' := by
  have hbase : NoHash base := hvalid.noHash
  have hL := hF.progress.inv.ledger
  have hA := hF.agrees
  have hP' : Progress base s' :=
    (hF.progress.step hvalid (progressCond_of_steady (steady_of_faithful ha)) h).1
  have hok := hF.progress.inv.pc
  have hprogress := hF.progress.pc
  have hpc := hF.pc
  unfold PcProgress at hprogress
  unfold PcRight at hpc
  -- a step that leaves the ledger alone
  have hquiet : s'.steps = s.steps → s'.input = s.input →
      PcRight parse input outcome v base s' → Follows parse input outcome v base s' :=
    fun hsteps hinput hpc' => ⟨hP', hinput.trans hF.reads, hsteps ▸ hA, hpc'⟩
  -- a step that carries out one right statement
  have hwrite : ∀ w, s'.steps = w.apply s.now s.steps → s'.input = s.input →
      Legal base s.steps w → Right parse input outcome v base s.steps w →
      PcRight parse input outcome v base s' → Follows parse input outcome v base s' :=
    fun w hsteps hinput hw hr hpc' =>
      ⟨hP', hinput.trans hF.reads, hsteps ▸ hA.write hL hbase hw hr, hpc'⟩
  cases step_move h with
  | tick d => exact hquiet rfl rfl hF.pc
  | claim hoff hpend => exact hquiet rfl rfl trivial
  | reap hoff hrun =>
      rw [hoff, hrun] at hpc
      rcases hpc with h | ⟨h, _⟩ | ⟨h | h, _⟩ <;> cases h
  | crash hon => cases ha
  | pass htop => exact hquiet rfl rfl (pcRight_pass hvalid hv hL hA hF.reads)
  | readError htop => cases ha
  | @write snap w ws toRun p hpc' =>
      rw [hpc'] at hpc hok
      obtain ⟨hws, hruns⟩ := hpc
      have hlegal := (Writing.tail hok).1
      refine hwrite w rfl rfl hlegal (hws w List.mem_cons_self) ⟨?_, ?_⟩
      · exact fun w' hw' => (hws w' (List.mem_cons_of_mem _ hw')).mono hL hbase hlegal
      · exact fun r hr => (hruns r hr).mono hL hbase hlegal
  | writeError hpc' => cases ha
  | @wrote snap toRun p hpc' =>
      rw [hpc'] at hpc
      refine hquiet rfl rfl ?_
      unfold PcRight
      simp only [Flow.goto, afterWrites]
      split_ifs
      · intro t ht
        obtain ⟨r, hr, rfl⟩ := List.mem_map.mp ht
        exact ⟨hpc.2 r hr, trivial⟩
      · trivial
      · trivial
  | join hpc' hdone => exact hquiet rfl rfl trivial
  | wake hidle => exact hquiet rfl rfl trivial
  | compensated hpc' =>
      rw [hpc'] at hpc
      refine hquiet rfl rfl (.inr ⟨?_, hpc⟩)
      split_ifs
      · exact .inr rfl
      · exact .inl rfl
  | comp hpc' hcomp =>
      rw [hpc'] at hpc
      obtain ⟨⟨todo, failed, stage, hpc''⟩, _, hinput, hsteps⟩ := compStep_cases hcomp
      have hright : PcRight parse input outcome v base s' := by
        unfold PcRight
        rw [hpc'']
        exact hpc
      rcases hsteps with hsteps | hsteps
      · exact hquiet hsteps hinput hright
      · exact hwrite _ hsteps hinput (.inl ⟨_, rfl⟩) (.inl ⟨_, rfl⟩) hright
  | finish hpc' =>
      rw [hpc'] at hpc
      exact hquiet rfl rfl (.inr hpc)
  | finishError hpc' => cases ha
  | finishLost hpc' => cases ha
  | record hpc' =>
      rw [hpc'] at hprogress
      exact hprogress.elim
  | recordError hpc' => cases ha
  | @task i reply snap tasks t pc hpc' ht hstep =>
      rw [hpc'] at hpc hok
      have htask := hpc t (List.mem_of_getElem? ht)
      simp only [faithful, hpc', ht, Option.any_some, hF.reads] at ha
      obtain ⟨hright, _⟩ := htask.answered parse hL hatt ha hstep
      refine hquiet rfl rfl ?_
      intro t' ht'
      rcases List.mem_or_eq_of_mem_set ht' with ht' | rfl
      · exact hpc t' ht'
      · exact hright
  | @taskWrite i reply snap tasks t pc w hpc' ht hstep =>
      rw [hpc'] at hpc hok
      have htask := hpc t (List.mem_of_getElem? ht)
      simp only [faithful, hpc', ht, Option.any_some, hF.reads] at ha
      obtain ⟨hright, hw⟩ := htask.answered parse hL hatt ha hstep
      have hlegal : Legal base s.steps w := by
        have hrun :=
          Awaiting.runnable hok t (List.mem_of_getElem? ht) (isDone_of_step hstep)
        obtain ⟨_, heq | ⟨k, r, rfl, heq⟩ | ⟨status, output, rfl, hst, heq⟩⟩ :=
          taskStep_cases hstep
        · cases heq
        · cases heq
          exact hrun.setRunning r
        · cases heq
          exact hrun.finish hst output
      refine hwrite w rfl rfl hlegal (hw w rfl) ?_
      intro t' ht'
      rcases List.mem_or_eq_of_mem_set ht' with ht' | rfl
      · exact (hpc t' ht').mono hL hbase hlegal
      · exact hright.mono hL hbase hlegal

/-! ## The end -/

/-- A flow run on the way that is done is closed as the evaluation says. -/
theorem Follows.closedAs (hF : Follows parse input outcome v base s) (hdone : Done s) :
    ClosedAs base v s := by
  obtain ⟨hoff, hended⟩ := hdone
  have hL := hF.progress.inv.ledger
  have hpc := hF.pc
  unfold PcRight at hpc
  rw [hoff] at hpc
  rcases hpc with hpend | ⟨hstatus, hrows⟩ | ⟨hstatus, b, hb, hfail⟩
  · rw [hpend] at hended
    rcases hended with h | h | h <;> cases h
  · -- every step is over, and none has failed
    have hverdict : ∀ b ∈ base, ∃ x ∈ s.steps, x.stepId = b.stepId ∧ x.status ≠ .failed ∧
        Verdict.Is (v b.stepId) x.status x.output := by
      intro b hb
      obtain ⟨x, hx, rfl⟩ := hL.kept b hb
      exact ⟨x, hx, rfl, (hrows x hx).2, hF.agrees.verdict x hx hb (hrows x hx).1⟩
    refine ⟨fun _ => ⟨hstatus, fun b hb => ?_⟩,
      fun hnot => (hnot fun b hb hfail => ?_).elim⟩
    · obtain ⟨x, hx, hid, _, his⟩ := hverdict b hb
      exact ⟨x, hx, hid, his⟩
    · obtain ⟨x, _, _, hne, his⟩ := hverdict b hb
      rw [hfail] at his
      cases hx : x.status with
      | failed => exact hne hx
      | succeeded => rw [hx] at his; cases his
      | skipped => rw [hx] at his; cases his
      | pending => rw [hx] at his; exact his
      | running => rw [hx] at his; exact his
      | expanded => rw [hx] at his; exact his
  · exact ⟨fun hnone => (hnone b hb hfail).elim, fun _ => hstatus⟩

/-- A flow run on the way that is not done can go on. -/
theorem Follows.goes_on (hF : Follows parse input outcome v base s)
    (hnot : ¬ Done s) : ∃ a s', faithful outcome s a = true ∧ moves a = true ∧
      FlowDriver.step parse s a = some s' := by
  have hpc := hF.pc
  unfold PcRight at hpc
  by_cases hoff : s.pc = .off
  · rw [hoff] at hpc
    rcases hpc with hpend | ⟨hstatus, _⟩ | ⟨hstatus, _⟩
    · have hclaim : FlowDriver.step parse s .claim =
          some { s with status := .running, pc := .top } := by
        simp only [FlowDriver.step, hoff, hpend]
      exact ⟨.claim, _, rfl, rfl, hclaim⟩
    · exact absurd ⟨hoff, .inl hstatus⟩ hnot
    · exact absurd ⟨hoff, .inr hstatus⟩ hnot
  · obtain ⟨a, s', hs, hmoves, _, hfaithful⟩ :=
      FlowOutcome.exists_move parse outcome hF.progress hoff
    refine ⟨a, s', hfaithful ?_, hmoves, hs⟩
    intro snap tasks hat t ht
    rw [hat] at hpc
    have htask := hpc t ht
    rw [hF.reads, htask.runs.deps]
    exact htask.way

/-- A fresh flow run is on the way. -/
theorem follows_start {it : Iteration} {spec : Value}
    (hvalid : validateSpec it spec = .ok ()) (input : Value) :
    Follows parse input outcome v (ledgerRows spec) (start spec input) := by
  have hpend : ∀ x ∈ ledgerRows spec, x.status = .pending := by
    intro x hx
    rw [← fresh_ledgerRows hx]
    rfl
  have hL := (inv_start hvalid input).ledger
  refine ⟨FlowRecovery.progress_start hvalid input, rfl, ⟨?_, ?_, ?_, ?_⟩, .inl rfl⟩
  · intro x hx _ hstatus
    rw [hpend x hx] at hstatus
    rcases hstatus with h | h <;> cases h
  · intro x hx _ hinactive
    rw [hpend x hx] at hinactive
    cases hinactive
  · intro x hx hstatus
    rw [hpend x hx] at hstatus
    cases hstatus
  · intro p _ c hc hchild
    have hcb : fresh c ∈ ledgerRows spec := (fresh_ledgerRows hc).symm ▸ hc
    exact absurd hcb (hchild.not_base (validateSpec_ledger hvalid).noHash)

/-- **The driver computes the evaluation.**  Whatever the outcomes of the steps
of an accepted spec are, its steps have one evaluation, with map steps cut off
at the cap, and every undisturbed run ends as it says, whichever step of a batch
finishes first.  No step may have as many retries that their number of attempts
wraps to none. -/
theorem flow_refines {it : Iteration} {spec : Value}
    (hvalid : validateSpec it spec = .ok ())
    (hatt : ∀ b ∈ ledgerRows spec, stepAttempts b.retries ≠ 0)
    (parse : String → Option Value) (input : Value) (outcome : String → Value → Outcome) :
    ∃ v, Evaluation fanoutWithinCap parse input outcome (ledgerRows spec) v ∧
      (∀ v', Evaluation fanoutWithinCap parse input outcome (ledgerRows spec) v' →
        ∀ b ∈ ledgerRows spec, v' b.stepId = v b.stepId) ∧
      Refines parse outcome (ledgerRows spec) v (start spec input) := by
  have hledger := validateSpec_ledger hvalid
  obtain ⟨v, hv⟩ := exists_evaluation fanoutWithinCap parse input outcome hledger
  refine ⟨v, hv, fun v' hv' => evaluation_unique hledger hv' hv, ?_⟩
  have hstart : Follows parse input outcome v (ledgerRows spec) (start spec input) :=
    follows_start hvalid input
  let B := roomSum (start spec input).steps + 4
  refine ⟨movesLeft B (start spec input), fun l s halong hrun => ?_⟩
  have hstep : ∀ s a s', Follows parse input outcome v (ledgerRows spec) s →
      faithful outcome s a = true → step parse s a = some s' →
      Follows parse input outcome v (ledgerRows spec) s' :=
    fun s a s' hF ha h => hF.step hledger hv hatt ha h
  have hF := Machine.inv_run hstep hstart halong hrun
  refine ⟨?_, hF.goes_on, hF.closedAs⟩
  have hcount := Machine.count_run_le
    (I := fun s => Follows parse input outcome v (ledgerRows spec) s ∧
      roomSum s.steps + 4 ≤ B) moves (movesLeft B) ?_ ⟨hstart, Nat.le_refl _⟩ halong hrun
  · exact Nat.le_trans (Nat.le_add_left _ _) hcount
  · rintro s a s' ⟨hF, hB⟩ ha h
    have hoff : s.pc = .off → s.status ≠ .running := by
      intro hoff hrunning
      have hpc := hF.pc
      unfold PcRight at hpc
      rw [hoff, hrunning] at hpc
      rcases hpc with h | ⟨h, _⟩ | ⟨h | h, _⟩ <;> cases h
    obtain ⟨hB', hle⟩ :=
      movesLeft_step hF.progress hledger hoff hB (steady_of_faithful ha) h
    exact ⟨⟨hstep s a s' hF ha h, hB'⟩, hle⟩

/-! ## A flow with a fan-out -/

/-- A step, and a map step over what it prints. -/
def fanSpec : Value :=
  .obj [("steps", .arr
    [ .obj [("id", .str "list"), ("script_id", .num (.int 1))]
    , .obj [("depends_on", .arr [.str "list"]), ("id", .str "each"),
        ("map", .str "deps.list"), ("script_id", .num (.int 2))] ])]

/-- `serde_json::from_str`, on the texts the steps print. -/
def parseList : String → Option Value
  | "[1,2]" => some (.arr [.num (.int 1), .num (.int 2)])
  | _ => none

/-- The first step prints a list, the others nothing. -/
def listOutcome : String → Value → Outcome
  | "list", _ => .succeeded (some "[1,2]")
  | _, _ => .succeeded none

theorem flow_refines_fanSpec :
    ∃ v, Evaluation fanoutWithinCap parseList (.obj []) listOutcome (ledgerRows fanSpec) v ∧
      (∀ v', Evaluation fanoutWithinCap parseList (.obj []) listOutcome
          (ledgerRows fanSpec) v' →
        ∀ b ∈ ledgerRows fanSpec, v' b.stepId = v b.stepId) ∧
      Refines parseList listOutcome (ledgerRows fanSpec) v (start fanSpec (.obj [])) :=
  flow_refines (show validateSpec inOrder fanSpec = .ok () by rfl) (by decide) parseList
    (.obj []) listOutcome

/-! ## A map step over too many elements -/

/-- One map step, over a list in the flow input. -/
def wideSpec : Value :=
  .obj [("steps", .arr
    [.obj [("id", .str "each"), ("map", .str "flow_input.items"),
      ("script_id", .num (.int 1))]])]

/-- One element more than the cap. -/
def wideInput : Value :=
  .obj [("items", .arr (List.replicate (maxMapFanout + 1) (.num (.int 0))))]

/-- Every step succeeds. -/
def allSucceed : String → Value → Outcome := fun _ _ => .succeeded none

/-- A claim, a pass that closes the map step, and one that compensates. -/
def wideRun : List Label :=
  [ .claim, .drive .ok, .drive .ok, .drive .ok, .drive .ok, .drive .ok, .drive .ok ]

/-- The driver is gone. -/
def isOff : DriverPc → Bool
  | .off => true
  | _ => false

theorem isOff_iff {pc : DriverPc} : isOff pc = true ↔ pc = .off := by
  cases pc <;> simp [isOff]

/-- A map step runs once for each element, and all of them succeed; the driver
does not run it, and closes the flow run as failed. -/
theorem not_flow_refines :
    validateSpec inOrder wideSpec = .ok () ∧
      ∃ v, Evaluation (fun _ => true) (fun _ => none) wideInput allSucceed
          (ledgerRows wideSpec) v ∧
        NoFailure (ledgerRows wideSpec) v ∧
        ∃ s, Machine.Along (step fun _ => none)
            (fun s a => faithful allSucceed s a = true) (start wideSpec wideInput) wideRun ∧
          Machine.run (step fun _ => none) (start wideSpec wideInput) wideRun = some s ∧
          Done s ∧ s.status = .failed := by
  have hview : (Machine.run (step fun _ => none) (start wideSpec wideInput) wideRun).map
      (fun s => (isOff s.pc, s.status)) = some (true, .failed) := by decide +kernel
  have halong : Machine.Along (step fun _ => none)
      (fun s a => faithful allSucceed s a = true) (start wideSpec wideInput) wideRun := by
    decide +kernel
  obtain ⟨s, hs, hs'⟩ := Option.map_eq_some_iff.mp hview
  obtain ⟨hoff, hstatus⟩ := Prod.mk.inj hs'
  have hvalid : validateSpec inOrder wideSpec = .ok () := by rfl
  obtain ⟨v, hv⟩ := exists_evaluation (fun _ => true) (fun _ => none) wideInput allSucceed
    (validateSpec_ledger hvalid)
  refine ⟨hvalid, v, hv, ?_, s, halong, hs, ⟨isOff_iff.mp hoff, .inr (.inl hstatus)⟩,
    hstatus⟩
  intro b hb
  have hall : ∀ b ∈ ledgerRows wideSpec, b.dependsOn = [] ∧
      verdictOf (fun _ => true) (fun _ => none) wideInput allSucceed
        (fun _ => .blocked) b ≠ .failed := by decide +kernel
  obtain ⟨hdeps, hne⟩ := hall b hb
  have hsame : verdictOf (fun _ => true) (fun _ => none) wideInput allSucceed v b =
      verdictOf (fun _ => true) (fun _ => none) wideInput allSucceed (fun _ => .blocked) b :=
    verdictOf_congr fun d hd => by rw [hdeps] at hd; cases hd
  rw [hv b hb, hsame]
  exact hne

end Dokan.Ports.FlowRefine
