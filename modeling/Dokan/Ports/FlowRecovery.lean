import Dokan.Ports.FlowOutcome

/-!
# Crash recovery

What becomes of a flow run whose driver dies and is replaced, any number of
times.

## Main results

* `crash_recovery_progress` — as long as no driver dies between
  `set_step_running` and `finish_step`, every pass ends, with a terminal status
  or with a step whose status has changed.
* `stalled_run` — a ledger in which a pass finds nothing to do stays as it is,
  whatever happens.
* `not_crash_recovery_progress` — a crash between those two statements leaves
  such a ledger.
-/

namespace Dokan.Ports.FlowRecovery

open Dokan.Verified
open Dokan.Verified.Json
open Dokan.Ports.FlowRow
open Dokan.Ports.FlowSpec
open Dokan.Ports.FlowDriver
open Dokan.Ports.FlowLedger
open Dokan.Ports.FlowMoves
open Dokan.Ports.FlowOrder
open Dokan.Ports.FlowRank
open Dokan.Ports.FlowProgress
open Dokan.Ports.FlowOutcome

variable {base : List FlowStep} {parse : String → Option Value} {s s' : Flow}

/-! ## One pass -/

/-- A label of a pass that is not over, is not cut short and is answered. -/
def InPass (s : Flow) (a : Label) : Prop := inPass s.pc = true ∧ steady a = true

instance (s : Flow) (a : Label) : Decidable (InPass s a) :=
  inferInstanceAs (Decidable (_ ∧ _))

/-- The pass that starts in `s` comes to an end, with a terminal status or with
a step whose status has changed. -/
def MovesOn (parse : String → Option Value) (s : Flow) : Prop :=
  ∀ l s', Machine.Along (step parse) InPass (s.goto (pass parse s.input s.steps)) l →
    Machine.run (step parse) (s.goto (pass parse s.input s.steps)) l = some s' →
      (l.filter moves).length ≤ rank (pass parse s.input s.steps) ∧
        (inPass s'.pc = true → ∃ a s'', InPass s' a ∧ moves a = true ∧
          step parse s' a = some s'') ∧
        (inPass s'.pc = false →
          s'.pc = .off ∧ ended s'.status ∨ s'.pc = .top ∧ Changed s.steps s'.steps)

/-- Where the pass over `snap` can be. -/
def OfPass (snap : List FlowStep) (s : Flow) : Prop :=
  match s.pc with
  | .writing snap' _ _ _ => snap' = snap
  | .await snap' _ => snap' = snap
  | .compensate _ _ _ => True
  | .finish _ => True
  | .off => ended s.status
  | .top => Changed snap s.steps
  | .idle => False
  | .errored => False

/-- A pass starts out as one over the ledger it has read. -/
theorem ofPass_pass : OfPass s.steps (s.goto (pass parse s.input s.steps)) := by
  unfold OfPass
  rcases pass_cases parse s.input s.steps with
    ⟨_, hpass⟩ | ⟨_, ⟨_, hpass⟩ | ⟨_, ws, toRun, hpass, _⟩⟩
  · rw [hpass]
    trivial
  · rw [hpass]
    trivial
  · rw [hpass]
    rfl

/-- **One statement of a pass.** -/
theorem OfPass.step {snap : List FlowStep} {a : Label} (hO : OfPass snap s)
    (hP : Progress base s) (hvalid : ValidLedger base) (hin : InPass s a)
    (h : step parse s a = some s') : Progress base s' ∧ OfPass snap s' := by
  obtain ⟨hpass, hsteady⟩ := hin
  obtain ⟨hP', htop⟩ := hP.step hvalid (progressCond_of_steady hsteady) h
  refine ⟨hP', ?_⟩
  have hpc' := hP'.pc
  have hpc := hP.pc
  unfold OfPass at hO
  unfold PcProgress at hpc hpc'
  cases step_move h with
  | tick d =>
      unfold OfPass
      cases hat : s.pc with
      | off =>
          rw [hat] at hpass
          cases hpass
      | top =>
          rw [hat] at hpass
          cases hpass
      | writing snap' ws toRun p =>
          rw [hat] at hO
          exact hO
      | await snap' tasks =>
          rw [hat] at hO
          exact hO
      | idle =>
          rw [hat] at hpass
          cases hpass
      | compensate todo failed stage => trivial
      | finish status => trivial
      | errored =>
          rw [hat] at hO
          exact hO
  | claim hoff hpend =>
      rw [hoff] at hpass
      cases hpass
  | reap hoff hrun =>
      rw [hoff] at hpass
      cases hpass
  | crash hon => cases hsteady
  | pass hat =>
      rw [hat] at hpass
      cases hpass
  | readError hat => cases hsteady
  | write hat =>
      rw [hat] at hO
      exact hO
  | writeError hat => cases hsteady
  | @wrote snap' toRun p hat =>
      rw [hat] at hO htop
      cases hO
      unfold OfPass
      simp only [Flow.goto, afterWrites] at hpc' htop ⊢
      split_ifs at hpc' htop ⊢
      · rfl
      · exact htop _ rfl rfl
      · exact hpc'.elim
  | join hat hdone =>
      rw [hat] at hO htop
      cases hO
      exact htop _ rfl rfl
  | wake hat =>
      rw [hat] at hpass
      cases hpass
  | compensated hat => trivial
  | comp hat hcomp =>
      obtain ⟨⟨todo, failed, stage, hat'⟩, _⟩ := compStep_cases hcomp
      unfold OfPass
      rw [hat']
      trivial
  | finish hat =>
      rw [hat] at hpc
      exact hpc.2
  | finishError hat => cases hsteady
  | finishLost hat => cases hsteady
  | record hat =>
      rw [hat] at hO
      exact hO.elim
  | recordError hat => cases hsteady
  | task hat ht hstep =>
      rw [hat] at hO
      exact hO
  | taskWrite hat ht hstep =>
      rw [hat] at hO
      exact hO

/-- An undisturbed pass ends, with a terminal status or with a change. -/
theorem movesOn (hP : Progress base s) (hvalid : ValidLedger base) (htop : s.pc = .top) :
    MovesOn parse s := by
  intro l s' halong hrun
  have hstart : Progress base (s.goto (pass parse s.input s.steps)) := by
    have hread : FlowDriver.step parse s (.drive .ok) =
        some (s.goto (pass parse s.input s.steps)) := by simp [FlowDriver.step, driveStep, htop]
    exact (hP.step hvalid (a := .drive .ok) rfl hread).1
  have hI := Machine.inv_run
    (I := fun m => Progress base m ∧ OfPass s.steps m)
    (fun _ _ _ hI hin hs => hI.2.step hI.1 hvalid hin hs) ⟨hstart, ofPass_pass⟩ halong hrun
  obtain ⟨hP', hO⟩ := hI
  refine ⟨?_, ?_, ?_⟩
  · -- every statement lowers the rank
    have hcount := Machine.count_run_le (I := fun _ => True) moves
      (fun m : Flow => rank m.pc) ?_ trivial halong hrun
    · exact Nat.le_trans (Nat.le_add_left _ _) hcount
    · intro m a m' _ hin hs
      refine ⟨trivial, ?_⟩
      cases a with
      | tick d =>
          cases hs
          exact Nat.le_refl _
      | claim =>
          cases step_move hs with
          | claim hoff hpend =>
              rw [InPass, hoff] at hin
              cases hin.1
      | reap =>
          cases step_move hs with
          | reap hoff hrun =>
              rw [InPass, hoff] at hin
              cases hin.1
      | crash => cases hin.2
      | drive reply => exact rank_lt hs hin.1 (.inl ⟨reply, rfl⟩)
      | task i reply => exact rank_lt hs hin.1 (.inr ⟨i, reply, rfl⟩)
  · intro hpass
    have hon : s'.pc ≠ .off := by
      intro hoff
      rw [hoff] at hpass
      cases hpass
    obtain ⟨a, s'', hs, hmoves, hsteady, _⟩ :=
      exists_move parse (fun _ _ => .failed) hP' hon
    exact ⟨a, s'', ⟨hpass, hsteady⟩, hmoves, hs⟩
  · intro hout
    unfold OfPass at hO
    cases hat : s'.pc with
    | off =>
        rw [hat] at hO
        exact .inl ⟨rfl, hO⟩
    | top =>
        rw [hat] at hO
        exact .inr ⟨rfl, hO⟩
    | idle =>
        rw [hat] at hO
        exact hO.elim
    | writing snap ws toRun p =>
        rw [hat] at hout
        cases hout
    | await snap tasks =>
        rw [hat] at hout
        cases hout
    | compensate todo failed stage =>
        rw [hat] at hout
        cases hout
    | finish status =>
        rw [hat] at hout
        cases hout
    | errored =>
        rw [hat] at hout
        cases hout

/-! ## Every pass of a run -/

theorem progress_start {it : Iteration} {spec : Value}
    (hvalid : validateSpec it spec = .ok ()) (input : Value) :
    Progress (ledgerRows spec) (start spec input) := by
  refine ⟨inv_start hvalid input, fun x hx => ?_⟩
  rw [← fresh_ledgerRows hx]
  exact fun h => by cases h

/-- **Crash recovery.**  Along every run of a validated spec whose crashes
leave no running step, the driver never falls into the idle sleep, and every
pass moves on. -/
theorem crash_recovery_progress {it : Iteration} {spec : Value}
    (hvalid : validateSpec it spec = .ok ()) {input : Value} {l : List Label}
    (hcond : Machine.Along (step parse) ProgressCond (start spec input) l)
    (hrun : Machine.run (step parse) (start spec input) l = some s) :
    s.pc ≠ .idle ∧ (s.pc = .top → MovesOn parse s) := by
  have hledger := validateSpec_ledger hvalid
  have hP : Progress (ledgerRows spec) s :=
    Machine.inv_run (fun _ _ _ hP hc hs => (Progress.step hP hledger hc hs).1)
      (progress_start hvalid input) hcond hrun
  refine ⟨fun hidle => ?_, movesOn hP hledger⟩
  have hpc := hP.pc
  unfold PcProgress at hpc
  rw [hidle] at hpc
  exact hpc

/-! ## A ledger nobody touches any more -/

/-- The database answers. -/
def answered : Label → Bool
  | .drive reply => !reply.isError
  | .task _ reply => !reply.isError
  | _ => true

/-- A pass found nothing to do, and is not over. -/
def stalls : DriverPc → Bool
  | .writing _ [] [] false => true
  | _ => false

/-- The points of a driver that finds nothing to do, again and again. -/
def stalledPc : DriverPc → Bool
  | .off => true
  | .top => true
  | .idle => true
  | pc => stalls pc

/-- A flow run whose ledger no pass will ever change. -/
structure Stalled (parse : String → Option Value) (steps : List FlowStep) (s : Flow) :
    Prop where
  steps : s.steps = steps
  nothing : stalls (pass parse s.input s.steps) = true
  pc : stalledPc s.pc = true
  unended : ¬ ended s.status

theorem not_over_of_eq {status : FlowStatus} (h : status = .pending ∨ status = .running) :
    ¬ ended status := by
  rcases h with rfl | rfl
  · rintro (h | h | h) <;> cases h
  · rintro (h | h | h) <;> cases h

/-- **One step of a stalled flow run.** -/
theorem Stalled.step {steps : List FlowStep} {a : Label} (hS : Stalled parse steps s)
    (ha : answered a = true) (h : step parse s a = some s') : Stalled parse steps s' := by
  obtain ⟨hsteps, hpass, hpc, hover⟩ := hS
  cases step_move h with
  | tick d => exact ⟨hsteps, hpass, hpc, hover⟩
  | claim hoff hpend => exact ⟨hsteps, hpass, rfl, not_over_of_eq (.inr rfl)⟩
  | reap hoff hrun => exact ⟨hsteps, hpass, hpc, not_over_of_eq (.inl rfl)⟩
  | crash hon => exact ⟨hsteps, hpass, rfl, hover⟩
  | pass htop =>
      refine ⟨hsteps, hpass, ?_, hover⟩
      show stalledPc (pass parse s.input s.steps) = true
      rcases pass_cases parse s.input s.steps with
        ⟨_, heq⟩ | ⟨_, ⟨_, heq⟩ | ⟨_, ws, toRun, heq, _⟩⟩
      · rw [heq] at hpass
        cases hpass
      · rw [heq] at hpass
        cases hpass
      · rw [heq] at hpass ⊢
        exact hpass
  | @wrote snap toRun p hat =>
      refine ⟨hsteps, hpass, ?_, hover⟩
      rw [hat] at hpc
      cases toRun with
      | cons r toRun => cases hpc
      | nil =>
          cases p with
          | true => rfl
          | false => rfl
  | wake hidle => exact ⟨hsteps, hpass, rfl, hover⟩
  | readError htop => cases ha
  | writeError hat => cases ha
  | finishError hat => cases ha
  | finishLost hat => cases ha
  | recordError hat => cases ha
  -- the other points of the driver are not reached
  | write hat =>
      rw [hat] at hpc
      cases hpc
  | join hat hdone =>
      rw [hat] at hpc
      cases hpc
  | compensated hat =>
      rw [hat] at hpc
      cases hpc
  | comp hat hcomp =>
      rw [hat] at hpc
      cases hpc
  | finish hat =>
      rw [hat] at hpc
      cases hpc
  | record hat =>
      rw [hat] at hpc
      cases hpc
  | task hat ht hstep =>
      rw [hat] at hpc
      cases hpc
  | taskWrite hat ht hstep =>
      rw [hat] at hpc
      cases hpc

/-- **Stalled for good.**  Whatever is claimed, reclaimed or crashes, the ledger
stays as it is and the flow run does not end. -/
theorem stalled_run {steps : List FlowStep} {l : List Label} (hS : Stalled parse steps s)
    (ha : ∀ a ∈ l, answered a = true) (h : Machine.run (step parse) s l = some s') :
    Stalled parse steps s' :=
  Machine.inv_run (C := fun _ a => answered a = true) (fun _ _ _ hS ha hs => hS.step ha hs) hS
    (Machine.along_of_forall ha) h

/-! ## A crash between the two statements -/

/-- A single step. -/
def oneStep : Value :=
  .obj [("steps", .arr [.obj [("id", .str "a"), ("script_id", .num (.int 1))]])]

/-- The driver dies as soon as the step is running, and another one takes
over. -/
def diesRunning : List Label :=
  [ .claim, .drive .ok, .drive .ok
  , .task 0 (.script (some "bash")), .task 0 (.run 0), .task 0 .ok
  , .crash, .reap, .claim ]

/-- At the head of the loop, with an unfinished step. -/
def unfinishedTop (s : Flow) : Bool :=
  (match s.pc with
    | .top => true
    | _ => false) && s.steps.any fun x => x.status.active

theorem unfinishedTop_iff :
    unfinishedTop s = true ↔ s.pc = .top ∧ ∃ x ∈ s.steps, x.status.active = true := by
  rw [unfinishedTop, Bool.and_eq_true, List.any_eq_true]
  cases s.pc <;> simp

/-- A stalled pass does not move on. -/
theorem Stalled.not_movesOn {steps : List FlowStep} (hS : Stalled parse steps s) :
    ¬ MovesOn parse s := by
  intro h
  have hpass : ∃ snap, pass parse s.input s.steps = .writing snap [] [] false := by
    have hs := hS.nothing
    unfold stalls at hs
    split at hs
    · next heq => exact ⟨_, heq⟩
    · cases hs
  obtain ⟨snap, hpass⟩ := hpass
  unfold MovesOn at h
  rw [hpass] at h
  obtain ⟨_, _, hend⟩ := h [.drive .ok] _ ⟨⟨rfl, rfl⟩, fun _ _ => trivial⟩ rfl
  rcases hend rfl with ⟨hoff, _⟩ | ⟨htop, _⟩
  · cases hoff
  · cases htop

/-- A step that was running when its driver died is never touched again: the
next pass falls into the idle sleep, and so do all that follow. -/
theorem not_crash_recovery_progress :
    validateSpec inOrder oneStep = .ok () ∧
      ∃ s, Machine.run (step fun _ => none) (start oneStep (.obj [])) diesRunning = some s ∧
        (s.pc = .top ∧ ∃ x ∈ s.steps, x.status.active = true) ∧
        ¬ MovesOn (fun _ => none) s ∧
        ∀ l s', (∀ a ∈ l, answered a = true) →
          Machine.run (step fun _ => none) s l = some s' →
            s'.steps = s.steps ∧ ¬ ended s'.status := by
  have hview : (Machine.run (step fun _ => none) (start oneStep (.obj [])) diesRunning).map
      (fun s => (unfinishedTop s, stalls (pass (fun _ => none) s.input s.steps), s.status)) =
        some (true, true, .running) := by decide +kernel
  obtain ⟨s, hs, hs'⟩ := Option.map_eq_some_iff.mp hview
  obtain ⟨htop, hrest⟩ := Prod.mk.inj hs'
  obtain ⟨hpass, hstatus⟩ := Prod.mk.inj hrest
  have hpc := unfinishedTop_iff.mp htop
  have hS : Stalled (fun _ => none) s.steps s :=
    ⟨rfl, hpass, by rw [hpc.1]; rfl, not_over_of_eq (.inr hstatus)⟩
  refine ⟨by rfl, s, hs, hpc, hS.not_movesOn, fun l s' ha hrun => ?_⟩
  have hend := stalled_run hS ha hrun
  exact ⟨hend.steps, hend.unended⟩

/-- The driver dies before the step is running. -/
def diesPending : List Label :=
  [ .claim, .drive .ok, .drive .ok
  , .task 0 (.script (some "bash")), .task 0 (.run 0)
  , .crash, .reap, .claim ]

/-- `crash_recovery_progress` after a crash that leaves the step pending. -/
theorem crash_recovery_progress_diesPending :
    ∃ s, Machine.run (step fun _ => none) (start oneStep (.obj [])) diesPending = some s ∧
      (∃ x ∈ s.steps, x.status.active = true) ∧ MovesOn (fun _ => none) s := by
  have hview : (Machine.run (step fun _ => none) (start oneStep (.obj [])) diesPending).map
      unfinishedTop = some true := by decide +kernel
  have hcond : Machine.Along (step fun _ => none) ProgressCond (start oneStep (.obj []))
      diesPending := by decide +kernel
  have hvalid : validateSpec inOrder oneStep = .ok () := by rfl
  obtain ⟨s, hs, htop⟩ := Option.map_eq_some_iff.mp hview
  obtain ⟨hpc, hactive⟩ := unfinishedTop_iff.mp htop
  exact ⟨s, hs, hactive, (crash_recovery_progress hvalid hcond hs).2 hpc⟩

end Dokan.Ports.FlowRecovery
