import Dokan.Ports.FlowMoves

/-!
# How long a pass can last

`rank` bounds the statements that are left of a pass: those still to be
written, those of the step tasks with all their attempts, and those of
`compensate`.

## Main results

* `rank_lt` — every statement of a driver inside a pass lowers the rank.
-/

namespace Dokan.Ports.FlowRank

open Dokan.Verified
open Dokan.Verified.Json
open Dokan.Ports.FlowRow
open Dokan.Ports.FlowDriver
open Dokan.Ports.FlowMoves

/-- The statements left of `run_step`; every attempt takes five. -/
def taskRank (step : FlowStep) : TaskPc → Nat
  | .script => 5 * stepAttempts step.retries + 8
  | .cache => 5 * stepAttempts step.retries + 7
  | .insert k => 5 * (stepAttempts step.retries - k) + 6
  | .setRunning k _ => 5 * (stepAttempts step.retries - k) + 5
  | .exec k _ => 5 * (stepAttempts step.retries - k) + 4
  | .status k _ => 5 * (stepAttempts step.retries - k) + 3
  | .recalled _ => 2
  | .stdout => 2
  | .succeed _ => 1
  | .fail _ => 1
  | .done => 0

/-- The statements left of the step tasks. -/
def tasksRank (tasks : List Task) : Nat :=
  (tasks.map fun t => taskRank t.step t.pc).sum

/-- The statements left of `compensate` for the step at the head. -/
def stageRank : CompStage → Nat
  | .script => 5
  | .insert => 4
  | .exec _ => 3
  | .status _ => 2
  | .mark _ => 1

/-- The statements left of a pass. -/
def rank : DriverPc → Nat
  | .off => 0
  | .top => 0
  | .idle => 0
  | .writing _ ws toRun _ => ws.length + tasksRank (toRun.map Ready.task) + 2
  | .await _ tasks => tasksRank tasks + 1
  | .compensate [] _ _ => 3
  | .compensate (_ :: todo) _ stage => 6 * todo.length + stageRank stage + 3
  | .finish _ => 2
  | .errored => 1

/-- The driver has read the ledger and is not through with the pass. -/
def inPass : DriverPc → Bool
  | .off => false
  | .top => false
  | .idle => false
  | _ => true

variable {parse : String → Option Value} {s s' : Flow}

theorem taskRank_nextAttempt (step : FlowStep) (k : Nat) :
    taskRank step (nextAttempt step k) ≤
      5 * (stepAttempts step.retries - k) + 1 := by
  unfold nextAttempt
  split_ifs
  · simp only [taskRank]
    omega
  · simp only [taskRank]
    omega

/-- Every statement of `run_step` lowers its rank. -/
theorem taskRank_lt {step : FlowStep} {pc pc' : TaskPc} {reply : Reply} {w : Option Write}
    (h : taskStep step pc reply = some (pc', w)) :
    taskRank step pc' < taskRank step pc := by
  have hnext := taskRank_nextAttempt step
  unfold taskStep at h
  split at h <;> try cases h
  all_goals first
    | (simp only [taskRank]; omega)
    | (refine Nat.lt_of_le_of_lt (hnext _) ?_; simp only [taskRank]; omega)
    | skip
  -- the two statements whose answer is looked at
  · split_ifs at h
    · cases h
      simp only [taskRank]
      omega
    · cases h
      simp only [taskRank]
      omega
    · cases h
      refine Nat.lt_of_le_of_lt (hnext _) ?_
      simp only [taskRank]
      omega
  · split_ifs at h
    · cases h
      simp only [taskRank]
      omega
    · cases h
      refine Nat.lt_of_le_of_lt (hnext _) ?_
      simp only [taskRank]
      omega

theorem tasksRank_set {tasks : List Task} {i : Nat} {t : Task} {pc : TaskPc}
    (ht : tasks[i]? = some t) (hlt : taskRank t.step pc < taskRank t.step t.pc) :
    tasksRank (tasks.set i { t with pc }) < tasksRank tasks := by
  induction tasks generalizing i with
  | nil => cases ht
  | cons t' tasks ih =>
      cases i with
      | zero =>
          cases ht
          simp only [tasksRank, List.set_cons_zero, List.map_cons, List.sum_cons]
          omega
      | succ i =>
          have hrest := ih (i := i) (by simpa using ht)
          simp only [tasksRank, List.set_cons_succ, List.map_cons, List.sum_cons] at hrest ⊢
          omega

theorem rank_compensate_le (todo : List FlowStep) (failed : Nat) :
    rank (.compensate todo failed .script) ≤ 6 * todo.length + 3 := by
  cases todo with
  | nil => exact Nat.le_refl _
  | cons x todo =>
      simp only [rank, stageRank, List.length_cons]
      omega

/-- Every statement of `compensate` lowers the rank. -/
theorem rank_comp {x : FlowStep} {todo : List FlowStep} {failed : Nat}
    {stage : CompStage} {reply : Reply}
    (h : compStep s x todo failed stage reply = some s') :
    rank s'.pc < rank (.compensate (x :: todo) failed stage) := by
  have hle := rank_compensate_le todo
  unfold compStep at h
  split at h <;> try cases h
  all_goals first
    | (simp only [Flow.goto, rank, stageRank]; omega)
    | (refine Nat.lt_of_le_of_lt (hle _) ?_; simp only [rank, stageRank]; omega)
    | skip
  split_ifs at h
  · cases h
    refine Nat.lt_of_le_of_lt (hle _) ?_
    simp only [rank, stageRank]
    omega
  · cases h
    simp only [Flow.goto, rank, stageRank]
    omega

/-- **Inside a pass, every statement of the driver or of a task lowers the
rank.** -/
theorem rank_lt {a : Label} (h : step parse s a = some s') (hpass : inPass s.pc = true)
    (ha : (∃ reply, a = .drive reply) ∨ ∃ i reply, a = .task i reply) :
    rank s'.pc < rank s.pc := by
  cases step_move h with
  | tick d => rcases ha with ⟨_, h⟩ | ⟨_, _, h⟩ <;> cases h
  | claim hoff hpend => rcases ha with ⟨_, h⟩ | ⟨_, _, h⟩ <;> cases h
  | reap hoff hrun => rcases ha with ⟨_, h⟩ | ⟨_, _, h⟩ <;> cases h
  | crash hon => rcases ha with ⟨_, h⟩ | ⟨_, _, h⟩ <;> cases h
  | pass htop =>
      rw [htop] at hpass
      cases hpass
  | readError htop =>
      rw [htop] at hpass
      cases hpass
  | write hpc =>
      rw [hpc]
      simp only [Flow.write, rank, List.length_cons]
      omega
  | writeError hpc =>
      rw [hpc]
      simp only [Flow.goto, rank, List.length_cons]
      omega
  | wrote hpc =>
      rw [hpc]
      simp only [Flow.goto, afterWrites]
      split_ifs
      · simp only [rank]
        omega
      · simp only [rank]
        omega
      · simp only [rank]
        omega
  | join hpc hdone =>
      rw [hpc]
      simp only [Flow.goto, rank]
      omega
  | wake hidle =>
      rw [hidle] at hpass
      cases hpass
  | compensated hpc =>
      rw [hpc]
      simp only [Flow.goto, rank]
      omega
  | comp hpc hcomp =>
      rw [hpc]
      exact rank_comp hcomp
  | finish hpc =>
      rw [hpc]
      simp only [rank]
      omega
  | finishError hpc =>
      rw [hpc]
      simp only [Flow.goto, rank]
      omega
  | finishLost hpc =>
      rw [hpc]
      simp only [rank]
      omega
  | record hpc =>
      rw [hpc]
      simp only [rank]
      omega
  | recordError hpc =>
      rw [hpc]
      simp only [Flow.goto, rank]
      omega
  | task hpc ht hstep =>
      rw [hpc]
      have hlt := tasksRank_set ht (taskRank_lt hstep)
      simp only [Flow.goto, rank]
      omega
  | taskWrite hpc ht hstep =>
      rw [hpc]
      have hlt := tasksRank_set ht (taskRank_lt hstep)
      simp only [Flow.write, rank]
      omega

end Dokan.Ports.FlowRank
