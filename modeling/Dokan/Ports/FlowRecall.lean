import Dokan.Ports.ExecJob
import Dokan.Ports.FlowDriver

/-!
# Recalled steps and the retention sweeps

A step with `cache` looks for a succeeded run of its key (`find_cached_run`)
and, in a later statement, takes that run's last stdout line as its own output
(`last_stdout`).  The run is a row of `runs`, its output a line of `logs`, and
two sweeps delete from them: `gc_old` takes old rows with their lines, `gc_logs`
takes the lines of rows that stay.

Each call of `run_step` here is a task of the flow driver (`taskStep`) whose
answers come from the two tables.  Any number of tasks of any flow runs are at
work; a process may die with its tasks.  `said` and `swept` record the history:
the last line a run had printed when it ended, and whether a sweep deleted
stdout lines of it.

## Main results

* `RecallInv.step` — until a sweep deletes its lines, a succeeded run has the
  last line it ended with.
* `recall_faithful` — a recalling step finishes succeeded with the output the
  run gave to the step that executed it, over every run in which no sweep comes
  between a run and the steps that read it.
-/

namespace Dokan.Ports.FlowRecall

open Dokan.Verified.Machine
open Dokan.Verified.Json
open Dokan.Ports.RunRow
open Dokan.Ports.ExecJob (exitStatus asI32)
open Dokan.Ports.FlowRow
open Dokan.Ports.FlowEval
open Dokan.Ports.FlowDriver

abbrev RunId := Nat
abbrev TaskId := Nat

/-! ## The tables -/

inductive Stream
  | stdout
  | stderr
deriving DecidableEq

/-- A line of `logs`. -/
structure LogLine where
  stream : Stream
  line : String

/-- A row of `runs` with its cache key. -/
structure Row where
  run : Run
  cacheKey : Option String

/-- A call of `run_step`. -/
structure StepTask extends Task where
  flowInput : Value
  /-- `run_cache_key` of a step with `cache` -/
  cacheKey : Option String := none
  /-- what `find_cached_run` returned -/
  hit : Option RunId := none
  /-- the run of the latest attempt -/
  run : Option RunId := none
  /-- before `set_run_cache_key` on that run -/
  untagged : Bool := false
  /-- `Executor::run` has returned -/
  ended : Bool := false
  /-- the last statement on the ledger -/
  wrote : Option Write := none

structure Store where
  now : Nat
  rows : RunId → Option Row
  nextRun : RunId
  /-- the lines of each run in the order of their `seq` -/
  logs : RunId → List LogLine
  tasks : TaskId → Option StepTask
  nextTask : TaskId
  said : RunId → Option (Option String)
  swept : RunId → Bool

/-- Empty tables and no task. -/
def Store.empty : Store where
  now := 0
  rows := fun _ => none
  nextRun := 0
  logs := fun _ => []
  tasks := fun _ => none
  nextTask := 0
  said := fun _ => none
  swept := fun _ => false

/-- The last stdout line. -/
def lastLine (lines : List LogLine) : Option String :=
  (lines.reverse.find? fun l => l.stream = .stdout).map LogLine.line

/-- `Db::last_stdout`. -/
def Store.lastStdout (s : Store) (r : RunId) : Option String := lastLine (s.logs r)

/-- `Db::find_cached_run`: the latest succeeded run of the key. -/
def Store.findCachedRun (s : Store) (k : String) : Option RunId :=
  (List.range s.nextRun).reverse.find? fun r =>
    (s.rows r).any fun row => row.cacheKey = some k && row.run.status = .succeeded

/-- `run_status`, a missing row counted as failed. -/
def Store.runStatus (s : Store) (r : RunId) : RunStatus :=
  ((s.rows r).map fun row => row.run.status).getD .failed

/-! ## The sweeps -/

/-- `retention_days` and `log_retention_days`; zero or less is off. -/
structure Retention where
  days : Rat
  logDays : Rat

/-- `log_days` of `main`. -/
def Retention.logSweep (c : Retention) : Rat :=
  if 0 < c.logDays then if 0 < c.days then min c.logDays c.days else c.logDays
  else c.days

/-- The `WHERE` clause of both sweeps. -/
def old (now : Nat) (days : Rat) (row : Row) : Bool :=
  row.run.finishedAt.any fun t => (t : Rat) + days * secs 86400 < now

/-- The lines of run `r` are deleted by a sweep of `days`. -/
def Store.takes (s : Store) (days : Rat) (r : RunId) : Bool :=
  (s.rows r).any (old s.now days)

/-- A sweep of `days` deletes stdout lines of run `r`. -/
def Store.silences (s : Store) (days : Rat) (r : RunId) : Bool :=
  s.takes days r && (s.lastStdout r).isSome

/-- The `DELETE` on `logs`. -/
def Store.sweepLogs (s : Store) (days : Rat) : Store :=
  { s with
    logs := fun r => if s.takes days r then [] else s.logs r
    swept := fun r => s.swept r || s.silences days r }

/-- `Db::gc_logs`. -/
def Store.gcLogs (s : Store) (days : Rat) : Store := s.sweepLogs days

/-- `Db::gc_old`, one transaction. -/
def Store.gcOld (s : Store) (days : Rat) : Store :=
  { s.sweepLogs days with rows := fun r => (s.rows r).filter fun row => !old s.now days row }

/-! ## Tasks -/

/-- What the world, or the statement itself, answers a task. -/
inductive Answer
  /-- `get_script` -/
  | script (runtime : Option String)
  /-- the key the engine computes before `find_cached_run` -/
  | key (k : String)
  /-- a batch of lines of the execution -/
  | print (lines : List LogLine)
  /-- the execution ends with this exit code -/
  | exit (code : Int)
  /-- the execution ends with an internal error -/
  | error (msg : String)
  /-- the next statement goes through -/
  | sql

def Store.setTask (s : Store) (t : TaskId) (w : StepTask) : Store :=
  { s with tasks := Function.update s.tasks t (some w) }

/-- The task after the answer `reply`. -/
def StepTask.advance (w : StepTask) (reply : Reply) : Option StepTask :=
  (taskStep w.step w.pc reply).map fun out =>
    { w with pc := out.1, wrote := out.2.or w.wrote }

/-- The execution of run `r` ends: its row is finished. -/
def Store.finish (s : Store) (t : TaskId) (w : StepTask) (r : RunId) (f : Run → Run) :
    Store :=
  { s with
    rows := Function.update s.rows r ((s.rows r).map fun row => { row with run := f row.run })
    tasks := Function.update s.tasks t (some { w with ended := true })
    said := Function.update s.said r (some (s.lastStdout r)) }

/-- The next thing task `t` does. -/
def Store.stepTask (s : Store) (t : TaskId) (answer : Answer) : Option Store := do
  let w ← s.tasks t
  match w.pc, answer with
  | .script, .script runtime => return s.setTask t (← w.advance (.script runtime))
  | .cache, .key k =>
      let hit := s.findCachedRun k
      return s.setTask t { ← w.advance (.hit hit) with cacheKey := some k, hit }
  | .recalled r, .sql => return s.setTask t (← w.advance (.stdout (s.lastStdout r)))
  | .insert _, .sql =>
      let r := s.nextRun
      let input := stepInput w.flowInput w.deps w.step.input
      let w' : StepTask := { ← w.advance (.run r) with
        run := some r, untagged := w.cacheKey.isSome, ended := false }
      return { s.setTask t w' with
        rows := Function.update s.rows r
          (some ⟨insertRun s.now w.step.scriptId input none, none⟩)
        nextRun := r + 1 }
  | .setRunning _ r, .sql =>
      if w.untagged then
        return { s.setTask t { w with untagged := false } with
          rows := Function.update s.rows r
            ((s.rows r).map fun row => { row with cacheKey := w.cacheKey }) }
      else return s.setTask t (← w.advance .ok)
  | .exec _ r, .print lines =>
      if w.ended then none
      else return { s with logs := Function.update s.logs r (s.logs r ++ lines) }
  | .exec _ r, .exit code =>
      if w.ended then none
      else return s.finish t w r (finishRun s.now (exitStatus code) (some (asI32 code)) none)
  | .exec _ r, .error msg =>
      if w.ended then none
      else return s.finish t w r (finishRun s.now .failed none (some msg))
  | .exec _ r, .sql =>
      if w.ended then return s.setTask t (← w.advance (.ran (s.runStatus r))) else none
  | .stdout, .sql =>
      let r ← w.run
      return s.setTask t (← w.advance (.stdout (s.lastStdout r)))
  | .status _ _, .sql => return s.setTask t (← w.advance .ok)
  | .succeed _, .sql => return s.setTask t (← w.advance .ok)
  | .fail _, .sql => return s.setTask t (← w.advance .ok)
  | _, _ => none

/-! ## The machine -/

inductive Label
  | tick (d : Nat)
  /-- a driver spawns `run_step` for a ready step of a flow run of this input -/
  | spawn (flowInput : Value) (r : Ready)
  | task (t : TaskId) (answer : Answer)
  /-- the process of a task that has not returned dies -/
  | die (t : TaskId)
  | gcLogs
  | gcOld

def step (c : Retention) (s : Store) : Label → Option Store
  | .tick d => some { s with now := s.now + d }
  | .spawn flowInput r =>
      some { s.setTask s.nextTask { r.task with flowInput } with nextTask := s.nextTask + 1 }
  | .task t answer => s.stepTask t answer
  | .die t =>
      if (s.tasks t).any fun w => !w.isDone then
        some { s with tasks := Function.update s.tasks t none }
      else none
  | .gcLogs => if 0 < c.logSweep then some (s.gcLogs c.logSweep) else none
  | .gcOld => if 0 < c.days then some (s.gcOld c.days) else none

/-- The output a step finished succeeded with. -/
def StepTask.output (w : StepTask) : Option (Option String) :=
  match w.wrote with
  | some (.finish _ .succeeded output) => some output
  | _ => none

/-- A recalling step goes on to finish succeeded, and with the output the run
gave to the step that executed it. -/
structure RecallFaithful (c : Retention) (s : Store) : Prop where
  succeeds : ∀ t w r, s.tasks t = some w → w.hit = some r →
    (w.isDone = true ∧ ∃ output, w.output = some output) ∨
      (w.wrote = none ∧ (step c s (.task t .sql)).isSome = true)
  same : ∀ t u w v r output output', s.tasks t = some w → s.tasks u = some v →
    w.hit = some r → w.output = some output → v.hit = none → v.run = some r →
    v.output = some output' → output = output'

/-! ## No sweep in between -/

/-- The run a statement of a task finds succeeded. -/
def Store.finds (s : Store) (w : StepTask) : Answer → Option RunId
  | .key k =>
      match w.pc with
      | .cache => s.findCachedRun k
      | _ => none
  | .sql =>
      match w.pc with
      | .exec _ r => if w.ended && s.runStatus r = .succeeded then some r else none
      | _ => none
  | _ => none

/-- The run whose last line a task is about to read. -/
def StepTask.reads (w : StepTask) : Option RunId :=
  match w.pc with
  | .recalled r => some r
  | .status _ .succeeded | .stdout => w.run
  | _ => none

/-- A run that a step finds succeeded has its lines, and no sweep deletes stdout
lines of it until the step has read the last one. -/
def Kept (c : Retention) (s : Store) : Label → Prop
  | .task t answer => ∀ w ∈ s.tasks t, ∀ r ∈ s.finds w answer, s.swept r = false
  | .gcLogs => ∀ t < s.nextTask, ∀ w ∈ s.tasks t, ∀ r ∈ w.reads,
      s.silences c.logSweep r = false
  | .gcOld => ∀ t < s.nextTask, ∀ w ∈ s.tasks t, ∀ r ∈ w.reads,
      s.silences c.days r = false
  | .tick _ | .spawn _ _ | .die _ => True

/-! ## What a task may do -/

/-- The moves of a task. -/
inductive TaskMove (s : Store) (t : TaskId) (w : StepTask) : Answer → Store → Prop
  | script (runtime : Option String) (w' : StepTask) (hpc : w.pc = .script)
      (hw : w.advance (.script runtime) = some w') :
      TaskMove s t w (.script runtime) (s.setTask t w')
  | find (k : String) (w' : StepTask) (hpc : w.pc = .cache)
      (hw : w.advance (.hit (s.findCachedRun k)) = some w') :
      TaskMove s t w (.key k)
        (s.setTask t { w' with cacheKey := some k, hit := s.findCachedRun k })
  | recalled (r : RunId) (w' : StepTask) (hpc : w.pc = .recalled r)
      (hw : w.advance (.stdout (s.lastStdout r)) = some w') :
      TaskMove s t w .sql (s.setTask t w')
  | insert (k : Nat) (w' : StepTask) (row : Row) (hpc : w.pc = .insert k)
      (hw : w.advance (.run s.nextRun) = some w') (hrow : row.run.status = .pending) :
      TaskMove s t w .sql
        { s.setTask t { w' with
            run := some s.nextRun, untagged := w.cacheKey.isSome, ended := false } with
          rows := Function.update s.rows s.nextRun (some row)
          nextRun := s.nextRun + 1 }
  | tag (k : Nat) (r : RunId) (hpc : w.pc = .setRunning k r) :
      TaskMove s t w .sql
        { s.setTask t { w with untagged := false } with
          rows := Function.update s.rows r
            ((s.rows r).map fun row => { row with cacheKey := w.cacheKey }) }
  | setRunning (k : Nat) (r : RunId) (w' : StepTask) (hpc : w.pc = .setRunning k r)
      (hw : w.advance .ok = some w') : TaskMove s t w .sql (s.setTask t w')
  | print (k : Nat) (r : RunId) (lines : List LogLine) (hpc : w.pc = .exec k r)
      (hover : w.ended = false) :
      TaskMove s t w (.print lines)
        { s with logs := Function.update s.logs r (s.logs r ++ lines) }
  | finish (answer : Answer) (k : Nat) (r : RunId) (f : Run → Run)
      (hpc : w.pc = .exec k r) (hover : w.ended = false) :
      TaskMove s t w answer (s.finish t w r f)
  | status (k : Nat) (r : RunId) (w' : StepTask) (hpc : w.pc = .exec k r)
      (hover : w.ended = true) (hw : w.advance (.ran (s.runStatus r)) = some w') :
      TaskMove s t w .sql (s.setTask t w')
  | stdout (r : RunId) (w' : StepTask) (hpc : w.pc = .stdout) (hrun : w.run = some r)
      (hw : w.advance (.stdout (s.lastStdout r)) = some w') :
      TaskMove s t w .sql (s.setTask t w')
  | goes (w' : StepTask)
      (hpc : (∃ k st, w.pc = .status k st) ∨ (∃ out, w.pc = .succeed out) ∨
        ∃ reason, w.pc = .fail reason)
      (hw : w.advance .ok = some w') : TaskMove s t w .sql (s.setTask t w')

section Inversion

variable {s s' : Store} {t : TaskId} {answer : Answer}

theorem stepTask_inv (h : s.stepTask t answer = some s') :
    ∃ w, s.tasks t = some w ∧ TaskMove s t w answer s' := by
  replace h := Option.bind_eq_some_iff.mp h
  obtain ⟨w, hw, h⟩ := h
  refine ⟨w, hw, ?_⟩
  split at h
  · rename_i runtime hpc
    obtain ⟨w', hw', h⟩ := Option.bind_eq_some_iff.mp h
    cases h
    exact .script runtime w' hpc hw'
  · rename_i k hpc
    obtain ⟨w', hw', h⟩ := Option.bind_eq_some_iff.mp h
    cases h
    exact .find k w' hpc hw'
  · rename_i r hpc
    obtain ⟨w', hw', h⟩ := Option.bind_eq_some_iff.mp h
    cases h
    exact .recalled r w' hpc hw'
  · rename_i k hpc
    obtain ⟨w', hw', h⟩ := Option.bind_eq_some_iff.mp h
    cases h
    exact .insert k w' _ hpc hw' rfl
  · rename_i k r hpc
    split at h
    · cases h
      exact .tag k r hpc
    · obtain ⟨w', hw', h⟩ := Option.bind_eq_some_iff.mp h
      cases h
      exact .setRunning k r w' hpc hw'
  · rename_i k r lines hpc
    split at h
    · cases h
    · rename_i hover
      cases h
      exact .print k r lines hpc (Bool.eq_false_iff.mpr hover)
  · rename_i k r code hpc
    split at h
    · cases h
    · rename_i hover
      cases h
      exact .finish _ k r _ hpc (Bool.eq_false_iff.mpr hover)
  · rename_i k r msg hpc
    split at h
    · cases h
    · rename_i hover
      cases h
      exact .finish _ k r _ hpc (Bool.eq_false_iff.mpr hover)
  · rename_i k r hpc
    split at h
    · rename_i hover
      obtain ⟨w', hw', h⟩ := Option.bind_eq_some_iff.mp h
      cases h
      exact .status k r w' hpc hover hw'
    · cases h
  · rename_i hpc
    obtain ⟨r, hr, h⟩ := Option.bind_eq_some_iff.mp h
    obtain ⟨w', hw', h⟩ := Option.bind_eq_some_iff.mp h
    cases h
    exact .stdout r w' hpc hr hw'
  · rename_i k st hpc
    obtain ⟨w', hw', h⟩ := Option.bind_eq_some_iff.mp h
    cases h
    exact .goes w' (Or.inl ⟨k, st, hpc⟩) hw'
  · rename_i out hpc
    obtain ⟨w', hw', h⟩ := Option.bind_eq_some_iff.mp h
    cases h
    exact .goes w' (Or.inr (Or.inl ⟨out, hpc⟩)) hw'
  · rename_i reason hpc
    obtain ⟨w', hw', h⟩ := Option.bind_eq_some_iff.mp h
    cases h
    exact .goes w' (Or.inr (Or.inr ⟨reason, hpc⟩)) hw'
  · cases h

end Inversion

/-! ## The invariant -/

/-- What the point a task has reached says of its run. -/
def StepTask.Shape (s : Store) (w : StepTask) : Prop :=
  match w.pc with
  | .script | .cache => w.hit = none ∧ w.run = none ∧ w.wrote = none
  | .recalled r =>
      w.hit = some r ∧ w.run = none ∧ w.wrote = none ∧ s.said r = some (s.lastStdout r)
  | .insert _ | .fail _ => w.hit = none ∧ w.output = none
  | .setRunning _ r =>
      w.hit = none ∧ w.output = none ∧ w.run = some r ∧ s.said r = none ∧
        s.runStatus r ≠ .succeeded ∧ w.ended = false
  | .exec _ r =>
      w.hit = none ∧ w.output = none ∧ w.run = some r ∧
        (w.ended = false → s.said r = none ∧ s.runStatus r ≠ .succeeded)
  | .status _ .succeeded | .stdout =>
      w.hit = none ∧ w.output = none ∧
        ∃ r, w.run = some r ∧ s.said r = some (s.lastStdout r)
  | .status _ _ => w.hit = none ∧ w.output = none
  | .succeed output =>
      (w.hit.isSome = true → w.run = none ∧ w.wrote = none) ∧ w.output = none ∧
        ∃ r, w.hit.or w.run = some r ∧ s.said r = some output
  | .done =>
      (w.hit.isSome = true → w.run = none ∧ w.output.isSome = true) ∧
        ∀ output, w.output = some output →
          ∃ r, w.hit.or w.run = some r ∧ s.said r = some output

structure RecallInv (s : Store) : Prop where
  rows : ∀ r, s.nextRun ≤ r → s.rows r = none ∧ s.said r = none
  tasks : ∀ t, s.nextTask ≤ t → s.tasks t = none
  ids : ∀ t w r, s.tasks t = some w → w.run = some r → r < s.nextRun
  unique : ∀ t u w v r, s.tasks t = some w → s.tasks u = some v → w.run = some r →
    v.run = some r → t = u
  kept : ∀ r, s.runStatus r = .succeeded → s.swept r = false →
    s.said r = some (s.lastStdout r)
  shape : ∀ t w, s.tasks t = some w → w.Shape s

theorem recallInv_empty : RecallInv .empty where
  rows := fun _ _ => ⟨rfl, rfl⟩
  tasks := fun _ _ => rfl
  ids := fun _ _ _ h => by cases h
  unique := fun _ _ _ _ _ h => by cases h
  kept := fun _ h => by cases h
  shape := fun _ _ h => by cases h

/-- The run a task is executing. -/
def StepTask.executes (w : StepTask) : Option RunId :=
  match w.pc with
  | .setRunning _ r => some r
  | .exec _ r => if w.ended then none else some r
  | _ => none

section Frame

variable {s s' : Store} {w : StepTask}

/-- What a task at work knows stays true where what it relies on stays. -/
theorem StepTask.Shape.frame (h : w.Shape s)
    (hsaid : ∀ r x, s.said r = some x → s'.said r = some x)
    (hreads : ∀ r, w.reads = some r → s.said r = some (s.lastStdout r) →
      s'.lastStdout r = s.lastStdout r)
    (hexec : ∀ r, w.executes = some r → w.run = some r → s.said r = none →
      s.runStatus r ≠ .succeeded → s'.said r = none ∧ s'.runStatus r ≠ .succeeded) :
    w.Shape s' := by
  unfold StepTask.Shape at h ⊢
  unfold StepTask.reads at hreads
  unfold StepTask.executes at hexec
  split at h
  · exact h
  · exact h
  · rename_i r hpc
    obtain ⟨hhit, hrun, hwrote, hlast⟩ := h
    refine ⟨hhit, hrun, hwrote, ?_⟩
    rw [hreads r (by simp [hpc]) hlast]
    exact hsaid r _ hlast
  · exact h
  · exact h
  · rename_i k r hpc
    obtain ⟨hhit, hout, hrun, hnone, hst, hover⟩ := h
    obtain ⟨hnone, hst⟩ := hexec r (by simp [hpc]) hrun hnone hst
    exact ⟨hhit, hout, hrun, hnone, hst, hover⟩
  · rename_i k r hpc
    obtain ⟨hhit, hout, hrun, hnone⟩ := h
    refine ⟨hhit, hout, hrun, fun hover => ?_⟩
    obtain ⟨hnone, hst⟩ := hnone hover
    exact hexec r (by simp [hpc, hover]) hrun hnone hst
  · rename_i k hpc
    obtain ⟨hhit, hout, r, hrun, hlast⟩ := h
    refine ⟨hhit, hout, r, hrun, ?_⟩
    rw [hreads r (by simp [hpc, hrun]) hlast]
    exact hsaid r _ hlast
  · rename_i hpc
    obtain ⟨hhit, hout, r, hrun, hlast⟩ := h
    refine ⟨hhit, hout, r, hrun, ?_⟩
    rw [hreads r (by simp [hpc, hrun]) hlast]
    exact hsaid r _ hlast
  · exact h
  · obtain ⟨hhit, hout, r, hsource, htold⟩ := h
    exact ⟨hhit, hout, r, hsource, hsaid r _ htold⟩
  · obtain ⟨hhit, htold⟩ := h
    refine ⟨hhit, fun output hout => ?_⟩
    obtain ⟨r, hsource, htold⟩ := htold output hout
    exact ⟨r, hsource, hsaid r _ htold⟩

end Frame

section Step

variable {s s' : Store} {t : TaskId} {w w' : StepTask} {answer : Answer}

theorem update_task {f : TaskId → Option StepTask} {u : TaskId} {v : StepTask}
    (h : Function.update f t (some w) u = some v) :
    (u = t ∧ v = w) ∨ (u ≠ t ∧ f u = some v) := by
  by_cases hu : u = t
  · subst hu
    rw [Function.update_self] at h
    cases h
    exact Or.inl ⟨rfl, rfl⟩
  · rw [Function.update_of_ne hu] at h
    exact Or.inr ⟨hu, h⟩

/-- Tasks after a change at task `t` that keeps its run. -/
theorem RecallInv.owners (hI : RecallInv s) (hw : s.tasks t = some w)
    (hrun : w'.run = w.run) :
    (∀ u v r, Function.update s.tasks t (some w') u = some v → v.run = some r →
      r < s.nextRun) ∧
    ∀ u x v y r, Function.update s.tasks t (some w') u = some v →
      Function.update s.tasks t (some w') x = some y → v.run = some r →
      y.run = some r → u = x := by
  -- every task has a predecessor with the same id and the same run
  have hback : ∀ u v, Function.update s.tasks t (some w') u = some v →
      ∃ v₀, s.tasks u = some v₀ ∧ v₀.run = v.run := by
    intro u v hv
    rcases update_task hv with ⟨rfl, rfl⟩ | ⟨_, hv⟩
    · exact ⟨w, hw, hrun.symm⟩
    · exact ⟨v, hv, rfl⟩
  refine ⟨fun u v r hv hr => ?_, fun u x v y r hv hy hr hr' => ?_⟩
  · obtain ⟨v₀, hv₀, heq⟩ := hback u v hv
    exact hI.ids u v₀ r hv₀ (heq.trans hr)
  · obtain ⟨v₀, hv₀, heq⟩ := hback u v hv
    obtain ⟨y₀, hy₀, heq'⟩ := hback x y hy
    exact hI.unique u x v₀ y₀ r hv₀ hy₀ (heq.trans hr) (heq'.trans hr')

theorem RecallInv.tasks_update (hI : RecallInv s) (hw : s.tasks t = some w) (u : TaskId)
    (hu : s.nextTask ≤ u) : Function.update s.tasks t (some w') u = none := by
  have hne : u ≠ t := by
    rintro rfl
    rw [hI.tasks u hu] at hw
    cases hw
  rw [Function.update_of_ne hne]
  exact hI.tasks u hu

/-- A task moves on. -/
theorem RecallInv.setTask (hI : RecallInv s) (hw : s.tasks t = some w)
    (hrun : w'.run = w.run) (hshape : w'.Shape s) : RecallInv (s.setTask t w') where
  rows := hI.rows
  tasks := fun u hu => hI.tasks_update hw u hu
  ids := (hI.owners hw hrun).1
  unique := (hI.owners hw hrun).2
  kept := hI.kept
  shape := by
    intro u v hv
    rcases update_task hv with ⟨rfl, rfl⟩ | ⟨_, hv⟩
    · exact hshape
    · exact hI.shape u v hv

/-- The latest succeeded run of a key, taken apart. -/
theorem findCachedRun_some {k : String} {r : RunId} (h : s.findCachedRun k = some r) :
    s.runStatus r = .succeeded := by
  have hfound := List.find?_some h
  obtain ⟨row, hrow, hmatch⟩ := (Option.any_eq_true _ _).mp hfound
  simp only [Bool.and_eq_true, decide_eq_true_eq] at hmatch
  simp [Store.runStatus, hrow, hmatch.2]

theorem advance_run {reply : FlowDriver.Reply} (h : w.advance reply = some w') :
    w'.run = w.run ∧ w'.hit = w.hit ∧ w'.ended = w.ended := by
  obtain ⟨out, _, rfl⟩ := Option.map_eq_some_iff.mp h
  exact ⟨rfl, rfl, rfl⟩

/-- After the head of the attempt loop. -/
theorem shape_nextAttempt (hhit : w.hit = none) (hout : w.output = none) (k : Nat) :
    StepTask.Shape s { w with pc := nextAttempt w.step k } := by
  unfold StepTask.Shape nextAttempt
  split <;> rename_i heq
  all_goals split at heq <;> cases heq
  all_goals exact ⟨hhit, hout⟩

/-- What `find_cached_run` finds is still what it said. -/
theorem RecallInv.shape_find (hI : RecallInv s) {k : String} (hw : s.tasks t = some w)
    (hpc : w.pc = .cache) (hkept : ∀ r ∈ s.findCachedRun k, s.swept r = false)
    (hadv : w.advance (.hit (s.findCachedRun k)) = some w') :
    StepTask.Shape s { w' with cacheKey := some k, hit := s.findCachedRun k } := by
  have hshape := hI.shape t w hw
  simp only [StepTask.Shape, hpc] at hshape
  obtain ⟨hhit, hrun, hwrote⟩ := hshape
  cases hfind : s.findCachedRun k with
  | some r =>
      rw [hfind] at hadv
      simp only [StepTask.advance, hpc, taskStep, Option.map_some, Option.some.injEq] at hadv
      subst hadv
      exact ⟨rfl, hrun, hwrote, hI.kept r (findCachedRun_some hfind) (hkept r hfind)⟩
  | none =>
      rw [hfind] at hadv
      simp only [StepTask.advance, hpc, taskStep, Option.map_some, Option.some.injEq] at hadv
      subst hadv
      exact shape_nextAttempt (w := { w with cacheKey := some k, hit := none }) rfl
        (by simp [StepTask.output, hwrote]) 0

/-- After `get_script`. -/
theorem RecallInv.shape_script (hI : RecallInv s) {runtime : Option String}
    (hw : s.tasks t = some w) (hpc : w.pc = .script)
    (hadv : w.advance (.script runtime) = some w') : w'.Shape s := by
  have hshape := hI.shape t w hw
  simp only [StepTask.Shape, hpc] at hshape
  obtain ⟨hhit, hrun, hwrote⟩ := hshape
  have hout : w.output = none := by simp [StepTask.output, hwrote]
  obtain ⟨out, hout', rfl⟩ := Option.map_eq_some_iff.mp hadv
  rw [hpc] at hout'
  cases runtime with
  | none =>
      cases hout'
      exact ⟨hhit, hout⟩
  | some name =>
      simp only [taskStep] at hout'
      split at hout'
      · cases hout'
        exact ⟨hhit, hout⟩
      · split at hout'
        · cases hout'
          exact ⟨hhit, hrun, hwrote⟩
        · cases hout'
          exact shape_nextAttempt hhit hout 0

/-- After a `last_stdout`: the task has what its run said. -/
theorem shape_succeed {r : RunId} (hsaid : s.said r = some (s.lastStdout r))
    (hsource : w.hit.or w.run = some r)
    (hhit : w.hit.isSome = true → w.run = none ∧ w.wrote = none) (hout : w.output = none) :
    StepTask.Shape s { w with pc := .succeed (s.lastStdout r) } :=
  ⟨hhit, hout, r, hsource, hsaid⟩

/-- After `run_status`. -/
theorem RecallInv.shape_status (hI : RecallInv s) {k : Nat} {r : RunId}
    (hw : s.tasks t = some w) (hpc : w.pc = .exec k r)
    (hkept : s.runStatus r = .succeeded → s.swept r = false)
    (hadv : w.advance (.ran (s.runStatus r)) = some w') : w'.Shape s := by
  have hshape := hI.shape t w hw
  simp only [StepTask.Shape, hpc] at hshape
  obtain ⟨hhit, hout, hrun, _⟩ := hshape
  simp only [StepTask.advance, hpc, taskStep, Option.map_some, Option.some.injEq] at hadv
  subst hadv
  cases hst : s.runStatus r with
  | succeeded => exact ⟨hhit, hout, r, hrun, hI.kept r hst (hkept hst)⟩
  | pending | running | failed | canceled => exact ⟨hhit, hout⟩

/-- After a statement that only moves the task on, or finishes its step. -/
theorem RecallInv.shape_goes (hI : RecallInv s) (hw : s.tasks t = some w)
    (hpc : (∃ k st, w.pc = .status k st) ∨ (∃ out, w.pc = .succeed out) ∨
      ∃ reason, w.pc = .fail reason)
    (hadv : w.advance .ok = some w') : w'.Shape s := by
  have hshape := hI.shape t w hw
  rcases hpc with ⟨k, st, hpc⟩ | ⟨out, hpc⟩ | ⟨reason, hpc⟩
  · simp only [StepTask.advance, hpc, taskStep] at hadv
    split at hadv
    · rename_i hst
      subst hst
      cases hadv
      simp only [StepTask.Shape, hpc] at hshape
      exact hshape
    · rename_i hst
      cases hadv
      have hplain : w.hit = none ∧ w.output = none := by
        simp only [StepTask.Shape, hpc] at hshape
        cases st with
        | succeeded => exact absurd rfl hst
        | pending | running | failed | canceled => exact hshape
      exact shape_nextAttempt hplain.1 hplain.2 k
  · simp only [StepTask.Shape, hpc] at hshape
    obtain ⟨hhit, _, r, hsource, hsaid⟩ := hshape
    simp only [StepTask.advance, hpc, taskStep, Option.map_some, Option.some.injEq] at hadv
    subst hadv
    refine ⟨fun h => ⟨(hhit h).1, rfl⟩, fun output hout => ⟨r, hsource, ?_⟩⟩
    cases hout
    exact hsaid
  · simp only [StepTask.Shape, hpc] at hshape
    simp only [StepTask.advance, hpc, taskStep, Option.map_some, Option.some.injEq] at hadv
    subst hadv
    refine ⟨fun h => ?_, fun output hout => by cases hout⟩
    rw [show ({ w with pc := .done, wrote := _ } : StepTask).hit = w.hit from rfl,
      hshape.1] at h
    cases h

/-- `insert_run`: the new row is pending and nobody else's. -/
theorem RecallInv.insert (hI : RecallInv s) (hw : s.tasks t = some w) {k : Nat}
    (hpc : w.pc = .insert k) {row : Row} (hrow : row.run.status = .pending)
    (hadv : w.advance (.run s.nextRun) = some w') :
    RecallInv { s.setTask t { w' with
        run := some s.nextRun, untagged := w.cacheKey.isSome, ended := false } with
      rows := Function.update s.rows s.nextRun (some row)
      nextRun := s.nextRun + 1 } := by
  have hshape := hI.shape t w hw
  simp only [StepTask.Shape, hpc] at hshape
  obtain ⟨hhit, hout⟩ := hshape
  simp only [StepTask.advance, hpc, taskStep, Option.map_some, Option.some.injEq] at hadv
  subst hadv
  have hstatus : ∀ r, ((Function.update s.rows s.nextRun (some row) r).map fun row =>
      row.run.status).getD .failed = .succeeded → s.runStatus r = .succeeded := by
    intro r h
    by_cases hr : r = s.nextRun
    · subst hr
      rw [Function.update_self] at h
      cases hrow.symm.trans h
    · rwa [Function.update_of_ne hr] at h
  refine
    { rows := fun r hr => ?_
      tasks := fun u hu => hI.tasks_update hw u hu
      ids := fun u v r hv hr => ?_
      unique := fun u x v y r hv hy hr hr' => ?_
      kept := fun r hst hsw => hI.kept r (hstatus r hst) hsw
      shape := fun u v hv => ?_ }
  · have hlt : s.nextRun < r := hr
    exact ⟨(Function.update_of_ne (Nat.ne_of_gt hlt) _ _).trans (hI.rows r (Nat.le_of_lt hlt)).1,
      (hI.rows r (Nat.le_of_lt hlt)).2⟩
  · rcases update_task hv with ⟨rfl, rfl⟩ | ⟨_, hv⟩
    · cases hr
      exact Nat.lt_succ_self _
    · exact Nat.lt_succ_of_lt (hI.ids u v r hv hr)
  · rcases update_task hv with ⟨rfl, rfl⟩ | ⟨_, hv₀⟩ <;>
      rcases update_task hy with ⟨rfl, rfl⟩ | ⟨_, hy₀⟩
    · rfl
    · cases hr
      exact absurd (hI.ids x y _ hy₀ hr') (Nat.lt_irrefl _)
    · cases hr'
      exact absurd (hI.ids u v _ hv₀ hr) (Nat.lt_irrefl _)
    · exact hI.unique u x v y r hv₀ hy₀ hr hr'
  · rcases update_task hv with ⟨rfl, rfl⟩ | ⟨_, hv⟩
    · refine ⟨hhit, hout, rfl, (hI.rows _ (Nat.le_refl _)).2, ?_, rfl⟩
      simp [Store.runStatus, hrow]
    · exact (hI.shape u v hv).frame (fun _ _ h => h) (fun _ _ _ => rfl)
        fun r _ _ hnone hst => ⟨hnone, fun h => hst (hstatus r h)⟩

/-- `set_run_cache_key` changes no status. -/
theorem RecallInv.tag (hI : RecallInv s) (hw : s.tasks t = some w) {k : Nat} {r : RunId}
    (hpc : w.pc = .setRunning k r) :
    RecallInv { s.setTask t { w with untagged := false } with
      rows := Function.update s.rows r
        ((s.rows r).map fun row => { row with cacheKey := w.cacheKey }) } := by
  have hstatus : ∀ x, ((Function.update s.rows r ((s.rows r).map fun row =>
      { row with cacheKey := w.cacheKey }) x).map fun row => row.run.status).getD .failed =
        s.runStatus x := by
    intro x
    by_cases hx : x = r
    · subst hx
      rw [Function.update_self, Option.map_map]
      rfl
    · rw [Function.update_of_ne hx]
      rfl
  have hshape : StepTask.Shape s { w with untagged := false } := by
    have h := hI.shape t w hw
    simp only [StepTask.Shape, hpc] at h ⊢
    exact h
  have hsame : ({ w with untagged := false } : StepTask).run = w.run := rfl
  refine
    { rows := fun x hx => ?_
      tasks := fun u hu => hI.tasks_update hw u hu
      ids := (hI.owners hw hsame).1
      unique := (hI.owners hw hsame).2
      kept := fun x hst hsw => hI.kept x ((hstatus x).symm.trans hst) hsw
      shape := fun u v hv => ?_ }
  · refine ⟨?_, (hI.rows x hx).2⟩
    by_cases hxr : x = r
    · subst hxr
      exact (Function.update_self _ _ _).trans (by rw [(hI.rows x hx).1]; rfl)
    · exact (Function.update_of_ne hxr _ _).trans (hI.rows x hx).1
  · have hv' : v.Shape s := by
      rcases update_task hv with ⟨rfl, rfl⟩ | ⟨_, hv⟩
      · exact hshape
      · exact hI.shape u v hv
    exact hv'.frame (fun _ _ h => h) (fun _ _ _ => rfl)
      fun x _ _ hnone hst => ⟨hnone, fun h => hst ((hstatus x).symm.trans h)⟩

/-- The run a task executes has said nothing yet and has not succeeded. -/
theorem RecallInv.executing (hI : RecallInv s) (hw : s.tasks t = some w) {k : Nat}
    {r : RunId} (hpc : w.pc = .exec k r) (hover : w.ended = false) :
    w.run = some r ∧ s.said r = none ∧ s.runStatus r ≠ .succeeded := by
  have hshape := hI.shape t w hw
  simp only [StepTask.Shape, hpc] at hshape
  obtain ⟨_, _, hrun, hexec⟩ := hshape
  exact ⟨hrun, hexec hover⟩

/-- Lines are printed only before their run has said its last. -/
theorem RecallInv.print (hI : RecallInv s) (hw : s.tasks t = some w) {k : Nat}
    {r : RunId} (hpc : w.pc = .exec k r) (hover : w.ended = false) (lines : List LogLine) :
    RecallInv { s with logs := Function.update s.logs r (s.logs r ++ lines) } := by
  obtain ⟨hrun, hnone, hst⟩ := hI.executing hw hpc hover
  have hlast : ∀ x, x ≠ r → lastLine (Function.update s.logs r (s.logs r ++ lines) x) =
      s.lastStdout x := by
    intro x hx
    rw [Function.update_of_ne hx]
    rfl
  refine { hI with kept := fun x hsucc hsw => ?_, shape := fun u v hv => ?_ }
  · have hx : x ≠ r := by
      rintro rfl
      exact hst hsucc
    exact (hI.kept x hsucc hsw).trans (congrArg some (hlast x hx).symm)
  · refine (hI.shape u v hv).frame (fun _ _ h => h) (fun x _ hsaid => hlast x ?_)
      fun _ _ _ hnone hst => ⟨hnone, hst⟩
    rintro rfl
    cases hnone.symm.trans hsaid

/-- A run ends once: it says its last line, and its row may be succeeded. -/
theorem RecallInv.finish (hI : RecallInv s) (hw : s.tasks t = some w) {k : Nat}
    {r : RunId} (f : Run → Run) (hpc : w.pc = .exec k r) (hover : w.ended = false) :
    RecallInv (s.finish t w r f) := by
  obtain ⟨hrun, hnone, hst⟩ := hI.executing hw hpc hover
  have hlt : r < s.nextRun := hI.ids t w r hw hrun
  have hsame : ({ w with ended := true } : StepTask).run = w.run := rfl
  have hstatus : ∀ x, x ≠ r → (s.finish t w r f).runStatus x = s.runStatus x := by
    intro x hx
    simp [Store.runStatus, Store.finish, Function.update_of_ne hx]
  have hsaid : ∀ x, x ≠ r → (s.finish t w r f).said x = s.said x :=
    fun x hx => Function.update_of_ne hx _ _
  refine
    { rows := fun x hx => ?_
      tasks := fun u hu => hI.tasks_update hw u hu
      ids := (hI.owners hw hsame).1
      unique := (hI.owners hw hsame).2
      kept := fun x hsucc hsw => ?_
      shape := fun u v hv => ?_ }
  · have hne : x ≠ r := Nat.ne_of_gt (Nat.lt_of_lt_of_le hlt hx)
    exact ⟨(Function.update_of_ne hne _ _).trans (hI.rows x hx).1,
      (hsaid x hne).trans (hI.rows x hx).2⟩
  · by_cases hx : x = r
    · subst hx
      exact Function.update_self _ _ _
    · exact (hsaid x hx).trans (hI.kept x ((hstatus x hx).symm.trans hsucc) hsw)
  · rcases update_task hv with ⟨rfl, rfl⟩ | ⟨hu, hv₀⟩
    · have hshape := hI.shape u w hw
      simp only [StepTask.Shape, hpc] at hshape ⊢
      exact ⟨hshape.1, hshape.2.1, hrun, fun h => by cases h⟩
    · refine (hI.shape u v hv₀).frame (fun x y h => ?_) (fun _ _ _ => rfl)
        fun x _ hvrun hnone' hst' => ?_
      · have hx : x ≠ r := by
          rintro rfl
          cases hnone.symm.trans h
        exact (hsaid x hx).trans h
      · have hx : x ≠ r := by
          rintro rfl
          exact hu (hI.unique u t v w x hv₀ hw hvrun hrun)
        exact ⟨(hsaid x hx).trans hnone', fun h => hst' ((hstatus x hx).symm.trans h)⟩

/-- Every move of a task that finds its run unswept keeps the invariant. -/
theorem RecallInv.stepTask (hI : RecallInv s) (hw : s.tasks t = some w)
    (hkept : ∀ r ∈ s.finds w answer, s.swept r = false)
    (hmove : TaskMove s t w answer s') : RecallInv s' := by
  have hshape := hI.shape t w hw
  cases hmove with
  | script runtime w' hpc hadv =>
      exact hI.setTask hw (advance_run hadv).1 (hI.shape_script hw hpc hadv)
  | find k w' hpc hadv =>
      refine hI.setTask hw (advance_run hadv).1 (hI.shape_find hw hpc (fun r hr => ?_) hadv)
      exact hkept r (by simpa [Store.finds, hpc] using hr)
  | recalled r w' hpc hadv =>
      refine hI.setTask hw (advance_run hadv).1 ?_
      simp only [StepTask.advance, hpc, taskStep, Option.map_some, Option.some.injEq] at hadv
      subst hadv
      simp only [StepTask.Shape, hpc] at hshape
      obtain ⟨hhit, hrun, hwrote, hlast⟩ := hshape
      exact shape_succeed hlast (by rw [hhit]; rfl) (fun _ => ⟨hrun, hwrote⟩)
        (by simp [StepTask.output, hwrote])
  | insert k w' row hpc hadv hrow => exact hI.insert hw hpc hrow hadv
  | tag k r hpc => exact hI.tag hw hpc
  | setRunning k r w' hpc hadv =>
      refine hI.setTask hw (advance_run hadv).1 ?_
      simp only [StepTask.advance, hpc, taskStep, Option.map_some, Option.some.injEq] at hadv
      subst hadv
      simp only [StepTask.Shape, hpc] at hshape
      obtain ⟨hhit, _, hrun, hnone, hst, _⟩ := hshape
      exact ⟨hhit, rfl, hrun, fun _ => ⟨hnone, hst⟩⟩
  | print k r lines hpc hover => exact hI.print hw hpc hover lines
  | finish answer k r f hpc hover => exact hI.finish hw f hpc hover
  | status k r w' hpc hover hadv =>
      refine hI.setTask hw (advance_run hadv).1 (hI.shape_status hw hpc (fun hst => ?_) hadv)
      exact hkept r (by simp [Store.finds, hpc, hover, hst])
  | stdout r w' hpc hrun hadv =>
      refine hI.setTask hw (advance_run hadv).1 ?_
      simp only [StepTask.advance, hpc, taskStep, Option.map_some, Option.some.injEq] at hadv
      subst hadv
      simp only [StepTask.Shape, hpc] at hshape
      obtain ⟨hhit, hout, r', hrun', hlast⟩ := hshape
      cases hrun.symm.trans hrun'
      exact shape_succeed hlast (by rw [hhit]; exact hrun) (fun h => by rw [hhit] at h; cases h)
        hout
  | goes w' hpc hadv =>
      exact hI.setTask hw (advance_run hadv).1 (hI.shape_goes hw hpc hadv)

/-- Where a sweep silences nothing, the last line stays. -/
theorem lastStdout_sweepLogs {days : Rat} {r : RunId} (h : s.silences days r = false) :
    (s.sweepLogs days).lastStdout r = s.lastStdout r := by
  unfold Store.silences at h
  simp only [Store.lastStdout, Store.sweepLogs]
  split
  · rename_i htakes
    rw [htakes, Bool.true_and, Option.isSome_eq_false_iff, Option.isNone_iff_eq_none] at h
    exact h.symm
  · rfl

/-- A sweep of the lines keeps the invariant when it silences no run that is
being read. -/
theorem RecallInv.sweepLogs (hI : RecallInv s) {days : Rat}
    (hkept : ∀ t < s.nextTask, ∀ w ∈ s.tasks t, ∀ r ∈ w.reads,
      s.silences days r = false) : RecallInv (s.sweepLogs days) := by
  refine { hI with kept := fun r hst hsw => ?_, shape := fun t w hw => ?_ }
  · have hboth : s.swept r = false ∧ s.silences days r = false := by
      simpa [Store.sweepLogs] using hsw
    rw [lastStdout_sweepLogs hboth.2]
    exact hI.kept r hst hboth.1
  · have hlt : t < s.nextTask := by
      by_contra hge
      cases (hI.tasks t (Nat.not_lt.mp hge)).symm.trans hw
    exact (hI.shape t w hw).frame (fun _ _ h => h)
      (fun r hr _ => lastStdout_sweepLogs (hkept t hlt w hw r hr))
      fun _ _ _ hnone hst => ⟨hnone, hst⟩

/-- Deleting rows keeps the invariant. -/
theorem RecallInv.dropRows (hI : RecallInv s) (p : Row → Bool) :
    RecallInv { s with rows := fun r => (s.rows r).filter p } := by
  have hstatus : ∀ r, (((s.rows r).filter p).map fun row => row.run.status).getD .failed =
      .succeeded → s.runStatus r = .succeeded := by
    intro r h
    cases hrow : s.rows r with
    | none =>
        rw [hrow] at h
        cases h
    | some row =>
        rw [hrow, Option.filter_some] at h
        split at h
        · simpa [Store.runStatus, hrow] using h
        · cases h
  refine { hI with
    rows := fun r hr => ⟨?_, (hI.rows r hr).2⟩
    kept := fun r hst hsw => hI.kept r (hstatus r hst) hsw
    shape := fun t w hw => ?_ }
  · change (s.rows r).filter p = none
    rw [(hI.rows r hr).1]
    rfl
  · exact (hI.shape t w hw).frame (fun _ _ h => h) (fun _ _ _ => rfl)
      fun r _ _ hnone hst => ⟨hnone, fun h => hst (hstatus r h)⟩

/-- Tasks that come without a run, or go, keep the invariant. -/
theorem RecallInv.retask (hI : RecallInv s) {tasks : TaskId → Option StepTask}
    {nextTask : TaskId} (hfree : ∀ u, nextTask ≤ u → tasks u = none)
    (hback : ∀ u v, tasks u = some v → s.tasks u = some v ∨ (v.run = none ∧ v.Shape s)) :
    RecallInv { s with tasks, nextTask } where
  rows := hI.rows
  tasks := hfree
  ids := fun u v r hv hr => by
    rcases hback u v hv with hold | ⟨hnone, _⟩
    · exact hI.ids u v r hold hr
    · cases hnone.symm.trans hr
  unique := fun u x v y r hv hy hr hr' => by
    rcases hback u v hv with hold | ⟨hnone, _⟩
    · rcases hback x y hy with hold' | ⟨hnone, _⟩
      · exact hI.unique u x v y r hold hold' hr hr'
      · cases hnone.symm.trans hr'
    · cases hnone.symm.trans hr
  kept := hI.kept
  shape := fun u v hv => by
    rcases hback u v hv with hold | ⟨_, hshape⟩
    · exact hI.shape u v hold
    · exact hshape

/-- Every step that meets the condition keeps the invariant. -/
theorem RecallInv.step {c : Retention} {a : Label} (hI : RecallInv s) (hC : Kept c s a)
    (h : step c s a = some s') : RecallInv s' := by
  cases a with
  | tick d =>
      cases h
      exact { hI with shape := fun t w hw => hI.shape t w hw }
  | spawn flowInput r =>
      cases h
      refine hI.retask (fun u hu => ?_) fun u v hv => ?_
      · have hlt : s.nextTask < u := hu
        exact (Function.update_of_ne (Nat.ne_of_gt hlt) _ _).trans
          (hI.tasks u (Nat.le_of_lt hlt))
      · rcases update_task hv with ⟨rfl, rfl⟩ | ⟨_, hv⟩
        · exact Or.inr ⟨rfl, rfl, rfl, rfl⟩
        · exact Or.inl hv
  | task t answer =>
      obtain ⟨w, hw, hmove⟩ := stepTask_inv h
      exact hI.stepTask hw (hC w hw) hmove
  | die t =>
      simp only [FlowRecall.step] at h
      split at h
      · cases h
        refine hI.retask (fun u hu => ?_) fun u v hv => Or.inl ?_
        · by_cases hut : u = t
          · subst hut
            exact Function.update_self _ _ _
          · exact (Function.update_of_ne hut _ _).trans (hI.tasks u hu)
        · by_cases hut : u = t
          · subst hut
            rw [Function.update_self] at hv
            cases hv
          · rwa [Function.update_of_ne hut] at hv
      · cases h
  | gcLogs =>
      simp only [FlowRecall.step] at h
      split at h
      · cases h
        exact hI.sweepLogs hC
      · cases h
  | gcOld =>
      simp only [FlowRecall.step] at h
      split at h
      · cases h
        exact (hI.sweepLogs hC).dropRows _
      · cases h

end Step

/-! ## Recall -/

/-- A step finished succeeded with what its run said. -/
theorem RecallInv.told {s : Store} (hI : RecallInv s) {t : TaskId} {w : StepTask}
    {output : Option String} (hw : s.tasks t = some w) (hout : w.output = some output) :
    ∃ r, w.hit.or w.run = some r ∧ s.said r = some output := by
  have hshape := hI.shape t w hw
  have hwrote : w.wrote ≠ none := by
    intro hnone
    rw [StepTask.output, hnone] at hout
    cases hout
  have hnot : w.output ≠ none := by
    rw [hout]
    exact Option.some_ne_none _
  unfold StepTask.Shape at hshape
  split at hshape
  case h_12 => exact hshape.2 output hout
  case h_1 | h_2 => exact absurd hshape.2.2 hwrote
  case h_3 => exact absurd hshape.2.2.1 hwrote
  case h_4 | h_5 | h_10 => exact absurd hshape.2 hnot
  case h_6 | h_7 | h_8 | h_9 | h_11 => exact absurd hshape.2.1 hnot

/-- The invariant gives the claim in every state. -/
theorem RecallInv.faithful {s : Store} (hI : RecallInv s) (c : Retention) :
    RecallFaithful c s where
  succeeds := by
    intro t w r hw hhit
    have hshape := hI.shape t w hw
    unfold StepTask.Shape at hshape
    split at hshape
    case h_3 r' hpc =>
      refine Or.inr ⟨hshape.2.2.1, ?_⟩
      obtain ⟨⟨step, deps, pc⟩, _⟩ := w
      obtain rfl : pc = _ := hpc
      rw [FlowRecall.step, Store.stepTask, hw]
      rfl
    case h_11 output hpc =>
      refine Or.inr ⟨(hshape.1 (by rw [hhit]; rfl)).2, ?_⟩
      obtain ⟨⟨step, deps, pc⟩, _⟩ := w
      obtain rfl : pc = _ := hpc
      rw [FlowRecall.step, Store.stepTask, hw]
      rfl
    case h_12 hpc =>
      refine Or.inl ⟨by simp [Task.isDone, hpc], ?_⟩
      exact Option.isSome_iff_exists.mp (hshape.1 (by rw [hhit]; rfl)).2
    all_goals
      rw [hhit] at hshape
      cases hshape.1
  same := by
    intro t u w v r output output' hw hv hhit hout hvhit hvrun hvout
    obtain ⟨x, hx, hsaid⟩ := hI.told hw hout
    obtain ⟨y, hy, hsaid'⟩ := hI.told hv hvout
    rw [hhit] at hx
    rw [hvhit, Option.none_or, hvrun] at hy
    cases hx
    cases hy
    exact Option.some.inj (hsaid.symm.trans hsaid')

/-- **Recall returns the recalled output**, over every run of flow steps and
sweeps in which no sweep comes between a run and the steps that read it. -/
theorem recall_faithful (c : Retention) (l : List Label) (s : Store)
    (hkept : Along (step c) (Kept c) .empty l)
    (hrun : run (step c) .empty l = some s) : RecallFaithful c s :=
  (inv_run (fun _ _ _ hI hC h => hI.step hC h) recallInv_empty hkept hrun).faithful c

/-! ## Both sides on concrete runs -/

instance (c : Retention) (s : Store) : ∀ a, Decidable (Kept c s a)
  | .task t answer => inferInstanceAs (Decidable (∀ w ∈ s.tasks t, ∀ r ∈ s.finds w answer, _))
  | .gcLogs => inferInstanceAs
      (Decidable (∀ t < s.nextTask, ∀ w ∈ s.tasks t, ∀ r ∈ w.reads, _))
  | .gcOld => inferInstanceAs
      (Decidable (∀ t < s.nextTask, ∀ w ∈ s.tasks t, ∀ r ∈ w.reads, _))
  | .tick _ | .spawn _ _ | .die _ => .isTrue trivial

/-- Rows for thirty days, lines for one. -/
def shortLogs : Retention := { days := 30, logDays := 1 }

/-- A step of script 1 that opted into the cache. -/
def cachedStep : Ready where
  step :=
    { stepId := "a", scriptId := 1, input := .null, dependsOn := [], status := .pending
      output := none, whenCond := none, mapRef := none, compensate := none
      compensated := false, retries := none, finishedAt := none, cache := true
      runId := none }
  deps := .obj []

/-- The step executes: its run prints `42` and exits with `0`. -/
def executes : List Label :=
  [.spawn (.obj []) cachedStep, .task 0 (.script (some "bash")), .task 0 (.key "k"),
    .task 0 .sql, .task 0 .sql, .task 0 .sql, .task 0 (.print [⟨.stdout, "42"⟩]),
    .task 0 (.exit 0), .task 0 .sql, .task 0 .sql, .task 0 .sql, .task 0 .sql]

/-- The same step of another flow run recalls. -/
def recalls : List Label :=
  [.spawn (.obj []) cachedStep, .task 1 (.script (some "bash")), .task 1 (.key "k"),
    .task 1 .sql, .task 1 .sql]

/-- What a step recalled, executed and finished with. -/
structure Ending where
  hit : Option RunId
  run : Option RunId
  output : Option (Option String)
deriving DecidableEq

/-- How the two steps ended. -/
def ends (l : List Label) : Option (List (Option Ending)) :=
  (run (step shortLogs) .empty l).map fun s =>
    [0, 1].map fun t => (s.tasks t).map fun w => ⟨w.hit, w.run, w.output⟩

/-- Two days later a log sweep has passed, and the row is recalled without its
lines. -/
def recallsSwept : List Label :=
  executes ++ [.tick (secs 172800), .gcLogs] ++ recalls

theorem not_recall_faithful :
    ¬ ∀ c l s, run (step c) .empty l = some s → RecallFaithful c s := by
  intro hclaim
  have hends : ends recallsSwept =
      some [some ⟨none, some 0, some (some "42")⟩, some ⟨some 0, none, some none⟩] := by
    decide +kernel
  obtain ⟨s, hs, htasks⟩ := Option.map_eq_some_iff.mp hends
  simp only [List.map_cons, List.map_nil, List.cons.injEq, and_true, Option.map_eq_some_iff,
    Ending.mk.injEq] at htasks
  obtain ⟨⟨v, hv, hvhit, hvrun, hvout⟩, w, hw, hhit, _, hout⟩ := htasks
  cases (hclaim shortLogs recallsSwept s hs).same 1 0 w v 0 none (some "42") hw hv hhit
    hout hvhit hvrun hvout

/-- Within the day the sweeps find nothing, and the step recalls `42`. -/
def recallsFresh : List Label :=
  executes ++ [.tick (secs 3600), .gcLogs, .gcOld] ++ recalls

theorem recall_faithful_recallsFresh :
    Along (step shortLogs) (Kept shortLogs) .empty recallsFresh ∧
      ends recallsFresh =
        some [some ⟨none, some 0, some (some "42")⟩,
          some ⟨some 0, none, some (some "42")⟩] ∧
      ∀ s, run (step shortLogs) .empty recallsFresh = some s →
        RecallFaithful shortLogs s := by
  have hkept : Along (step shortLogs) (Kept shortLogs) .empty recallsFresh := by
    decide +kernel
  exact ⟨hkept, by decide +kernel, fun s hs => recall_faithful shortLogs _ s hkept hs⟩

end Dokan.Ports.FlowRecall
