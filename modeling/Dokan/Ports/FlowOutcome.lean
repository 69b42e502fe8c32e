import Dokan.Ports.FlowProgress

/-!
# What a flow run is answered

`steady` labels are those of an undisturbed driver: it does not die and the
database answers.  `faithful` labels also give every step one outcome, a
function of its id and its input: whatever its script, a cached run and its
attempts report is consistent with that outcome.  An attempt may fail when
another one is left.

## Main results

* `answered_step` — a task that is answered faithfully finishes its step with
  its outcome.
* `exists_move` — inside a pass there is always a steady statement to issue,
  and a faithful one when the tasks are on the way to their outcomes.
-/

namespace Dokan.Ports.FlowOutcome

open Dokan.Verified
open Dokan.Verified.Json
open Dokan.Ports.RunRow
open Dokan.Ports.FlowRow
open Dokan.Ports.FlowEval
open Dokan.Ports.FlowDriver
open Dokan.Ports.FlowMoves
open Dokan.Ports.FlowRank
open Dokan.Ports.FlowProgress

/-! ## Labels -/

/-- Anything but the passing of time. -/
def moves : Label → Bool
  | .tick _ => false
  | _ => true

/-- The driver lives and the database answers. -/
def steady : Label → Bool
  | .crash => false
  | .drive reply => !reply.isError
  | .task _ reply => !reply.isError
  | _ => true

/-- How a step ends. -/
inductive Outcome
  | succeeded (output : Option String)
  | failed
deriving DecidableEq, Repr

/-- The output of a step that ends so. -/
def Outcome.output : Outcome → Option String
  | .succeeded output => output
  | .failed => none

/-- The answers to a step task that fit the outcome of its step. -/
def answers (step : FlowStep) (o : Outcome) : TaskPc → Reply → Bool
  | .script, .script runtime =>
      o = .failed || runtime.any fun r => (runtimeSpec r).isSome
  | .cache, .hit (some _) => o ≠ .failed
  | .cache, .hit none => true
  | .recalled _, .stdout line => o = .succeeded line
  | .insert _, .run _ => true
  | .exec k _, .ran status =>
      if status = .succeeded then o ≠ .failed
      else o = .failed || k < stepAttempts step.retries
  | .stdout, .stdout line => o = .succeeded line
  | _, .ok => true
  | _, _ => false

/-- Steady labels that fit the outcomes of the steps. -/
def faithful (outcome : String → Value → Outcome) (s : Flow) : Label → Bool
  | .crash => false
  | .drive reply => !reply.isError
  | .task i reply =>
      match s.pc with
      | .await _ tasks => (tasks[i]?).any fun t =>
          answers t.step (outcome t.id (stepInput s.input t.deps t.step.input)) t.pc reply
      | _ => false
  | _ => true

variable {parse : String → Option Value} {base : List FlowStep} {s s' : Flow}
  {outcome : String → Value → Outcome}

theorem isError_of_answers {step : FlowStep} {o : Outcome} {pc : TaskPc} {reply : Reply}
    (h : answers step o pc reply = true) : reply.isError = false := by
  cases reply with
  | err msg => cases pc <;> cases h
  | lost => cases pc <;> cases h
  | ok => rfl
  | script runtime => rfl
  | run id => rfl
  | hit runId => rfl
  | ran status => rfl
  | stdout line => rfl

theorem steady_of_faithful {a : Label} (h : faithful outcome s a = true) :
    steady a = true := by
  cases a with
  | crash => cases h
  | drive reply => exact h
  | task i reply =>
      simp only [faithful] at h
      split at h
      · obtain ⟨t, _, ht⟩ := (Option.any_eq_true _ _).mp h
        simp [steady, isError_of_answers ht]
      · cases h
  | tick d => rfl
  | claim => rfl
  | reap => rfl

theorem progressCond_of_steady {a : Label} (h : steady a = true) : ProgressCond s a := by
  cases a with
  | crash => cases h
  | drive reply => simpa [ProgressCond, steady] using h
  | task i reply => simpa [ProgressCond, steady] using h
  | tick d => trivial
  | claim => trivial
  | reap => trivial

/-! ## The way of a task -/

/-- The task is on the way to its outcome. -/
def TaskOk (step : FlowStep) (o : Outcome) : TaskPc → Prop
  | .recalled _ => o ≠ .failed
  | .status k row =>
      if row = .succeeded then o ≠ .failed
      else o = .failed ∨ k < stepAttempts step.retries
  | .stdout => o ≠ .failed
  | .succeed output => o = .succeeded output
  | .fail _ => o = .failed
  | _ => True

/-- A status and an output that record an outcome. -/
def Outcome.Is (o : Outcome) (status : StepStatus) (output : Option String) : Prop :=
  match status with
  | .succeeded => o = .succeeded output
  | .failed => o = .failed
  | _ => False

theorem taskOk_nextAttempt {step : FlowStep} {o : Outcome} {k : Nat}
    (h : o = .failed ∨ k < stepAttempts step.retries) :
    TaskOk step o (nextAttempt step k) := by
  unfold nextAttempt
  split_ifs with hk
  · trivial
  · rcases h with h | h
    · exact h
    · exact absurd h hk

/-- **The way of a task.**  Answered faithfully, it stays on the way to its
outcome, and the `finish_step` it ends with records that outcome. -/
theorem answered_step {step : FlowStep} {o : Outcome} {pc pc' : TaskPc} {reply : Reply}
    {w : Option Write} (hok : TaskOk step o pc) (hsome : 0 < stepAttempts step.retries)
    (hans : answers step o pc reply = true) (h : taskStep step pc reply = some (pc', w)) :
    TaskOk step o pc' ∧
      ∀ id status output, w = some (.finish id status output) → o.Is status output := by
  unfold taskStep at h
  split at h
  -- `get_script`
  · simp only [answers, Option.any_some, Bool.or_eq_true, decide_eq_true_eq] at hans
    split_ifs at h with hunknown
    · cases h
      refine ⟨hans.resolve_right fun hknown => ?_, fun _ _ _ hw => by cases hw⟩
      rw [Option.isNone_iff_eq_none.mp hunknown] at hknown
      cases hknown
    · cases h
      exact ⟨trivial, fun _ _ _ hw => by cases hw⟩
    · cases h
      exact ⟨taskOk_nextAttempt (.inr hsome), fun _ _ _ hw => by cases hw⟩
  · cases h
    exact ⟨by simpa [answers, TaskOk] using hans, fun _ _ _ hw => by cases hw⟩
  · cases hans
  -- `find_cached_run`
  · cases h
    exact ⟨by simpa [answers, TaskOk] using hans, fun _ _ _ hw => by cases hw⟩
  · cases h
    exact ⟨taskOk_nextAttempt (.inr hsome), fun _ _ _ hw => by cases hw⟩
  · cases hans
  -- `last_stdout` of the cached run
  · cases h
    exact ⟨by simpa [answers, TaskOk] using hans, fun _ _ _ hw => by cases hw⟩
  · cases hans
  -- `insert_run`
  · cases h
    exact ⟨trivial, fun _ _ _ hw => by cases hw⟩
  · cases hans
  -- `set_step_running`
  · cases h
    exact ⟨trivial, fun _ _ _ hw => by cases hw⟩
  · cases hans
  -- `Executor::run`
  · cases h
    refine ⟨?_, fun _ _ _ hw => by cases hw⟩
    simp only [answers] at hans
    simp only [TaskOk]
    split_ifs at hans ⊢ with hrow
    · simpa using hans
    · simpa using hans
  -- `run_status`
  · simp only [TaskOk] at hok
    split_ifs at h with hrow
    · cases h
      rw [if_pos hrow] at hok
      exact ⟨hok, fun _ _ _ hw => by cases hw⟩
    · cases h
      rw [if_neg hrow] at hok
      exact ⟨taskOk_nextAttempt hok, fun _ _ _ hw => by cases hw⟩
  · cases hans
  -- `last_stdout`
  · cases h
    exact ⟨by simpa [answers, TaskOk] using hans, fun _ _ _ hw => by cases hw⟩
  · cases hans
  -- `finish_step`
  · cases h
    refine ⟨trivial, fun id status output hw => ?_⟩
    cases hw
    exact hok
  · cases hans
  · cases h
    refine ⟨trivial, fun id status output hw => ?_⟩
    cases hw
    exact hok
  · cases hans
  · cases h

/-! ## Never stuck -/

/-- Every task is on the way to its outcome. -/
def TasksOk (outcome : String → Value → Outcome) (s : Flow) : Prop :=
  ∀ snap tasks, s.pc = .await snap tasks → ∀ t ∈ tasks,
    TaskOk t.step (outcome t.id (stepInput s.input t.deps t.step.input)) t.pc

/-- **A task that is not done can be answered**, and faithfully when it is on
the way to its outcome. -/
theorem exists_reply (step : FlowStep) (o : Outcome) {pc : TaskPc} (h : pc ≠ .done) :
    ∃ reply r, taskStep step pc reply = some r ∧ reply.isError = false ∧
      (TaskOk step o pc → answers step o pc reply = true) := by
  have hok : ∀ {r}, taskStep step pc .ok = some r → answers step o pc .ok = true →
      ∃ reply r, taskStep step pc reply = some r ∧ reply.isError = false ∧
        (TaskOk step o pc → answers step o pc reply = true) :=
    fun {r} hstep hans => ⟨.ok, r, hstep, rfl, fun _ => hans⟩
  have hline : o ≠ .failed → decide (o = .succeeded o.output) = true := by
    cases o with
    | succeeded output => exact fun _ => decide_eq_true rfl
    | failed => exact fun hne => absurd rfl hne
  cases pc with
  | script =>
      cases hcache : step.cache with
      | true =>
          exact ⟨.script (some "bash"), (.cache, none), by simp [taskStep, runtimeSpec, hcache],
            rfl, fun _ => by simp [answers, runtimeSpec]⟩
      | false =>
          exact ⟨.script (some "bash"), (nextAttempt step 0, none),
            by simp [taskStep, runtimeSpec, hcache], rfl, fun _ => by simp [answers, runtimeSpec]⟩
  | cache => exact ⟨.hit none, _, rfl, rfl, fun _ => rfl⟩
  | recalled runId => exact ⟨.stdout o.output, _, rfl, rfl, hline⟩
  | insert k => exact ⟨.run 0, _, rfl, rfl, fun _ => rfl⟩
  | setRunning k runId => exact hok rfl rfl
  | exec k runId =>
      refine ⟨.ran (if o = .failed then .failed else .succeeded), _, rfl, rfl, fun _ => ?_⟩
      by_cases ho : o = .failed
      · simp [answers, ho]
      · simp [answers, ho]
  | status k row =>
      by_cases hrow : row = .succeeded
      · exact hok (by rw [taskStep, if_pos hrow]) rfl
      · exact hok (by rw [taskStep, if_neg hrow]) rfl
  | stdout => exact ⟨.stdout o.output, _, rfl, rfl, hline⟩
  | succeed output => exact hok rfl rfl
  | fail reason => exact hok rfl rfl
  | done => exact absurd rfl h

/-- `compensate` can always go on. -/
theorem exists_comp (s : Flow) (x : FlowStep) (todo : List FlowStep) (failed : Nat)
    (stage : CompStage) :
    ∃ reply s', compStep s x todo failed stage reply = some s' ∧ reply.isError = false := by
  cases stage with
  | script => exact ⟨.script none, _, rfl, rfl⟩
  | insert => exact ⟨.run 0, _, rfl, rfl⟩
  | exec runId => exact ⟨.ran .succeeded, _, rfl, rfl⟩
  | status row => exact ⟨.ok, _, rfl, rfl⟩
  | mark ok => exact ⟨.ok, _, rfl, rfl⟩

/-- **Never stuck.**  A driver that is alive and undisturbed so far can issue
a statement, and a faithful one when its tasks are on the way to their
outcomes. -/
theorem exists_move (parse : String → Option Value) (outcome : String → Value → Outcome)
    (hP : Progress base s) (hon : s.pc ≠ .off) :
    ∃ a s', step parse s a = some s' ∧ moves a = true ∧ steady a = true ∧
      (TasksOk outcome s → faithful outcome s a = true) := by
  have hdrive : (driveStep parse s .ok).isSome = true →
      ∃ a s', step parse s a = some s' ∧ moves a = true ∧ steady a = true ∧
        (TasksOk outcome s → faithful outcome s a = true) := by
    intro h
    obtain ⟨s', hs'⟩ := Option.isSome_iff_exists.mp h
    exact ⟨.drive .ok, s', hs', rfl, rfl, fun _ => rfl⟩
  have hpc := hP.pc
  unfold PcProgress at hpc
  cases hat : s.pc with
  | off => exact absurd hat hon
  | top => exact hdrive (by simp [driveStep, hat])
  | writing snap ws toRun p =>
      cases ws with
      | nil => exact hdrive (by simp [driveStep, hat])
      | cons w ws => exact hdrive (by simp [driveStep, hat])
  | await snap tasks =>
      by_cases hdone : tasks.all Task.isDone = true
      · exact hdrive (by simp [driveStep, hat, hdone])
      · -- some task is not done, and can be answered
        rw [Bool.not_eq_true, List.all_eq_false] at hdone
        obtain ⟨t, ht, hnot⟩ := hdone
        obtain ⟨i, hi⟩ := List.mem_iff_getElem?.mp ht
        have hne : t.pc ≠ .done := by
          intro h
          rw [Task.isDone, h] at hnot
          exact hnot rfl
        obtain ⟨reply, ⟨pc, w⟩, hstep, herr, hans⟩ := exists_reply t.step
          (outcome t.id (stepInput s.input t.deps t.step.input)) hne
        have hsome : (step parse s (.task i reply)).isSome = true := by
          cases w with
          | none => simp [step, hat, hi, hstep]
          | some w => simp [step, hat, hi, hstep]
        obtain ⟨s', hs'⟩ := Option.isSome_iff_exists.mp hsome
        refine ⟨.task i reply, s', hs', rfl, by simp [steady, herr], fun hok => ?_⟩
        simp only [faithful, hat, hi, Option.any_some]
        exact hans (hok snap tasks hat t ht)
  | idle =>
      rw [hat] at hpc
      exact hpc.elim
  | compensate todo failed stage =>
      cases todo with
      | nil => exact hdrive (by simp [driveStep, hat])
      | cons x todo =>
          obtain ⟨reply, s', hcomp, herr⟩ := exists_comp s x todo failed stage
          exact ⟨.drive reply, s', by simp only [step, driveStep, hat, hcomp], rfl,
            by simp [steady, herr], fun _ => by simp [faithful, herr]⟩
  | finish status => exact hdrive (by simp [driveStep, hat])
  | errored =>
      rw [hat] at hpc
      exact hpc.elim

end Dokan.Ports.FlowOutcome
