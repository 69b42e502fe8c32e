import Dokan.Ports.RunQueueSteps

/-!
# Who executes a row the flow engine inserts

`run_step` and `compensate` insert their row with `insert_run`, as `pending`,
and then execute it themselves.  `claim_run` selects any `pending` row, so a
worker may take the same row in the meantime; nothing in the row tells the two
kinds apart.  The results here are about runs of the queue without crashes,
reaps, requeues and cancels, and hold as long as no `claim_run` selects such a
row.

## Main results

* `OnceInv.step` — the invariant behind both parts.
* `executed_once` — every such row is passed to `Executor::run` once, by its
  inserter, and a step without retries starts its script at most once.
-/

namespace Dokan.Ports.RunQueue

open Dokan.Verified.Machine
open Dokan.Ports.RunRow
open Dokan.Ports.FlowRow
open Dokan.Ports.ExecJob

/-! ## Reading the history -/

/-- Who called `Executor::run` on `r`, latest first. -/
def callers (log : List Entry) (r : RunId) : List Caller :=
  log.filterMap fun e =>
    match e with
    | .called r' who => if r' = r then some who else none
    | _ => none

/-- The starts of scripts in rows that flow task `t` inserted. -/
def startsOf (log : List Entry) (t : TaskId) : List Entry :=
  log.filter fun e =>
    match e with
    | .started r _ => decide (.inserted r t ∈ log)
    | _ => false

/-- The entry is a start by flow task `t`. -/
def Entry.startBy (t : TaskId) : Entry → Bool
  | .started _ (.flow t') => t' = t
  | _ => false

/-- The call has inserted `r` and waits to execute it. -/
def FlowPc.waitsFor (r : RunId) : FlowPc → Bool
  | .wait r' => r' = r
  | _ => false

/-- Task `t` has inserted `r` and not called `Executor::run` on it yet. -/
def Queue.waits (q : Queue) (r : RunId) (t : TaskId) : Bool :=
  (q.flows t).any fun w => w.pc.waitsFor r

/-- Every row a flow task inserted has been passed to `Executor::run` exactly
once, by that task — or not yet, while the task waits for its permit; and a
step without retries has started its script at most once. -/
structure ExecutedOnce (q : Queue) : Prop where
  once : ∀ r t, .inserted r t ∈ q.log →
    callers q.log r = if q.waits r t then [] else [.flow t]
  retries : ∀ t n, q.spawned t = some (.runStep n (some 0)) →
    (startsOf q.log t).length ≤ 1

/-! ## The runs considered -/

/-- No crash, no reap, no requeue, no cancel. -/
def Calm (q : Queue) : Label → Prop
  | .crash _ | .reapRuns | .cancelCall _ _ _ | .cancelWrite _ => False
  | .worker t _ => ∀ w, q.workers t = some w → w.pc ≠ .requeue
  | _ => True

/-- The row this `claim_run` selects was not inserted by the flow engine. -/
def SparesFlowRows (q : Queue) : Label → Prop
  | .claim _ caps locked => ∀ r t, q.claimed caps locked = some r → .inserted r t ∉ q.log
  | _ => True

/-! ## The invariant -/

/-- Starts a flow task may still make. -/
def FlowTask.left (w : FlowTask) : Nat :=
  w.todo.length +
    match w.pc with
    | .wait _ => 1
    | .exec _ pc => if pc.beforeStart then 1 else 0
    | .next | .status _ => 0

def leftOf : Option FlowTask → Nat
  | some w => w.left
  | none => 0

/-- The rows a call may insert; none before it is spawned. -/
def budgetOf : Option FlowCall → Nat
  | some call => call.rows.length
  | none => 0

/-- The row an entry of the history is about. -/
def Entry.row : Entry → RunId
  | .inserted r _ | .called r _ | .started r _ | .canceled r => r

structure OnceInv (q : Queue) : Prop where
  bounded : Bounded q
  past : ∀ e ∈ q.log, e.row < q.nextRun
  spawned : ∀ t, q.nextTask ≤ t → q.spawned t = none
  unclaimed : ∀ r t, .inserted r t ∈ q.log → ∀ x w, q.workers x = some w →
    w.job.runId ≠ r
  unique : ∀ r t t', .inserted r t ∈ q.log → .inserted r t' ∈ q.log → t = t'
  calls : ∀ r t, .inserted r t ∈ q.log →
    callers q.log r = if q.waits r t then [] else [.flow t]
  starters : ∀ r t who, .inserted r t ∈ q.log → .started r who ∈ q.log → who = .flow t
  budget : ∀ t, q.log.countP (Entry.startBy t) + leftOf (q.flows t) ≤
    budgetOf (q.spawned t)

theorem onceInv_init (now : Nat) : OnceInv (init now) where
  bounded := bounded_init now
  past := fun _ h => by cases h
  spawned := fun _ _ => rfl
  unclaimed := fun _ _ h => by cases h
  unique := fun _ _ _ h => by cases h
  calls := fun _ _ h => by cases h
  starters := fun _ _ _ h => by cases h
  budget := fun _ => Nat.le_refl _

theorem callers_cons_called (log : List Entry) (r r' : RunId) (who : Caller) :
    callers (.called r' who :: log) r =
      if r' = r then who :: callers log r else callers log r := by
  unfold callers
  by_cases h : r' = r
  · simp [h]
  · simp [h]

section Once

variable {q q' : Queue} {a : Label}

/-- The invariant reads off the property. -/
theorem OnceInv.executedOnce (hI : OnceInv q) : ExecutedOnce q where
  once := hI.calls
  retries := by
    intro t n hspawn
    have hbudget := hI.budget t
    rw [hspawn] at hbudget
    have hsub : (startsOf q.log t).length ≤ q.log.countP (Entry.startBy t) := by
      rw [startsOf, ← List.countP_eq_length_filter]
      refine List.countP_mono_left ?_
      intro e he hstart
      cases e with
      | started r who =>
          have hin : .inserted r t ∈ q.log := by simpa using hstart
          rw [hI.starters r t who hin he]
          simp [Entry.startBy]
      | inserted | called | canceled => cases hstart
    have hone : budgetOf (some (.runStep n (some 0))) = 1 := rfl
    omega

/-- A worker task holds the row it held before, or an existing one the flow
engine did not insert. -/
theorem worker_row (hb : Bounded q) (hspare : SparesFlowRows q a)
    (h : step q a = some q') {x : TaskId} {w : WorkerTask} (hw : q'.workers x = some w) :
    (∃ v, q.workers x = some v ∧ v.job.runId = w.job.runId) ∨
      (w.job.runId < q.nextRun ∧ ∀ t, .inserted w.job.runId t ∉ q.log) := by
  cases step_workers h hw with
  | claimed _ row p caps locked ha hclaim hrow hp hpc =>
      subst ha
      exact Or.inr ⟨hb.lt hrow, fun t => hspare _ t hclaim⟩
  | kept _ hv => exact Or.inl ⟨_, hv, rfl⟩
  | marked v _ hv => exact Or.inl ⟨v, hv, rfl⟩
  | left v _ hv => exact Or.inl ⟨v, hv, rfl⟩
  | exec v _ _ _ _ hv => exact Or.inl ⟨v, hv, rfl⟩
  | retry v _ _ _ _ _ hv => exact Or.inl ⟨v, hv, rfl⟩
  | errorRead v hv => exact Or.inl ⟨v, hv, rfl⟩
  | beaten v hv => exact Or.inl ⟨v, hv, rfl⟩

/-- Rows of worker tasks stay disjoint from rows of the flow engine. -/
theorem OnceInv.unclaimed_step (hI : OnceInv q) (hspare : SparesFlowRows q a)
    (h : step q a = some q') {r : RunId} {t : TaskId} (hin : .inserted r t ∈ q'.log)
    {x : TaskId} {w : WorkerTask} (hw : q'.workers x = some w) : w.job.runId ≠ r := by
  have hrow := worker_row hI.bounded hspare h hw
  have hlt : w.job.runId < q.nextRun := by
    rcases hrow with ⟨v, hv, hjob⟩ | ⟨hlt, _⟩
    · rw [← hjob]
      exact hI.bounded.workers x v hv
    · exact hlt
  rcases inserted_log h hin with hold | ⟨_, _, rfl, _⟩
  · rcases hrow with ⟨v, hv, hjob⟩ | ⟨_, hfree⟩
    · rw [← hjob]
      exact hI.unclaimed r t hold x v hv
    · rintro rfl
      exact hfree t hold
  · exact Nat.ne_of_lt hlt

/-- The history speaks of rows that exist. -/
theorem OnceInv.past_step (hI : OnceInv q) (h : step q a = some q') {e : Entry}
    (he : e ∈ q'.log) : e.row < q'.nextRun := by
  have hle := (step_ids h hI.bounded).1
  have hflow : ∀ t w r, q.flows t = some w → w.pc.row = some r → r < q.nextRun :=
    fun t w r hw hr => (hI.bounded.inserted r t (hI.bounded.owns t w r hw hr)).1
  have hlogged := step_log h
  generalize q'.log = log at hlogged he
  cases hlogged with
  | nothing => exact Nat.lt_of_lt_of_le (hI.past e he) hle
  | inserted t w hw hpc hnext =>
      rcases List.mem_cons.mp he with rfl | hold
      · exact hnext
      · exact Nat.lt_of_lt_of_le (hI.past e hold) hle
  | calledWorker t w hw hpc =>
      rcases List.mem_cons.mp he with rfl | hold
      · exact Nat.lt_of_lt_of_le (hI.bounded.workers t w hw) hle
      · exact Nat.lt_of_lt_of_le (hI.past e hold) hle
  | calledFlow t w r hw hpc =>
      rcases List.mem_cons.mp he with rfl | hold
      · exact Nat.lt_of_lt_of_le (hflow t w r hw (by rw [hpc]; rfl)) hle
      · exact Nat.lt_of_lt_of_le (hI.past e hold) hle
  | startedWorker t w attempt cid hw hpc hlive =>
      rcases List.mem_cons.mp he with rfl | hold
      · exact Nat.lt_of_lt_of_le (hI.bounded.workers t w hw) hle
      · exact Nat.lt_of_lt_of_le (hI.past e hold) hle
  | startedFlow t w r cid hw hpc hlive =>
      rcases List.mem_cons.mp he with rfl | hold
      · exact Nat.lt_of_lt_of_le (hflow t w r hw (by rw [hpc]; rfl)) hle
      · exact Nat.lt_of_lt_of_le (hI.past e hold) hle
  | canceled t c row ha hc hrow htakes =>
      rcases List.mem_cons.mp he with rfl | hold
      · exact Nat.lt_of_lt_of_le (hI.bounded.lt hrow) hle
      · exact Nat.lt_of_lt_of_le (hI.past e hold) hle

/-- A row has one inserter. -/
theorem OnceInv.unique_step (hI : OnceInv q) (h : step q a = some q') {r : RunId}
    {t t' : TaskId} (hin : .inserted r t ∈ q'.log) (hin' : .inserted r t' ∈ q'.log) :
    t = t' := by
  generalize hlog : q'.log = log at hin hin'
  cases hlog ▸ step_log h with
  | nothing => exact hI.unique r t t' hin hin'
  | inserted t₀ w hw hpc hnext =>
      have hnew : ∀ {x}, Entry.inserted r x ∈ Entry.inserted q.nextRun t₀ :: q.log →
          (r = q.nextRun ∧ x = t₀) ∨ .inserted r x ∈ q.log := by
        intro x hx
        rcases List.mem_cons.mp hx with heq | hold
        · cases heq
          exact Or.inl ⟨rfl, rfl⟩
        · exact Or.inr hold
      rcases hnew hin with ⟨hr, ht⟩ | hold <;> rcases hnew hin' with ⟨hr', ht'⟩ | hold'
      · rw [ht, ht']
      · exact absurd (hI.bounded.inserted r t' hold').1 (by simp [hr])
      · exact absurd (hI.bounded.inserted r t hold).1 (by simp [hr'])
      · exact hI.unique r t t' hold hold'
  | calledWorker | calledFlow | startedWorker | startedFlow | canceled =>
      rcases List.mem_cons.mp hin with heq | hold
      · cases heq
      · rcases List.mem_cons.mp hin' with heq | hold'
        · cases heq
        · exact hI.unique r t t' hold hold'

/-- Starts of a flow row are by its inserter. -/
theorem OnceInv.starters_step (hI : OnceInv q) (h : step q a = some q') {r : RunId}
    {t : TaskId} {who : Caller} (hin : .inserted r t ∈ q'.log)
    (hstart : .started r who ∈ q'.log) : who = .flow t := by
  have hlogged := step_log h
  generalize q'.log = log at hlogged hstart hin
  cases hlogged with
  | nothing => exact hI.starters r t who hin hstart
  | inserted x w hw hpc hnext =>
      rcases List.mem_cons.mp hstart with heq | hs
      · cases heq
      · rcases List.mem_cons.mp hin with heq | hold
        · cases heq
          exact absurd (hI.past _ hs) (Nat.lt_irrefl _)
        · exact hI.starters r t who hold hs
  | calledWorker | calledFlow | canceled =>
      rcases List.mem_cons.mp hstart with heq | hs
      · cases heq
      · rcases List.mem_cons.mp hin with heq | hold
        · cases heq
        · exact hI.starters r t who hold hs
  | startedWorker x w attempt cid hw hpc hlive =>
      rcases List.mem_cons.mp hin with heq | hold
      · cases heq
      · rcases List.mem_cons.mp hstart with heq | hs
        · cases heq
          exact absurd rfl (hI.unclaimed _ t hold x w hw)
        · exact hI.starters r t who hold hs
  | startedFlow x w r' cid hw hpc hlive =>
      rcases List.mem_cons.mp hin with heq | hold
      · cases heq
      · rcases List.mem_cons.mp hstart with heq | hs
        · cases heq
          have hown := hI.bounded.owns x w r hw (by rw [hpc]; rfl)
          rw [hI.unique r t x hold hown]
        · exact hI.starters r t who hold hs

/-! ### Calls and budget -/

/-- The step leaves the flow tasks alone and logs at most a call or a start by
a worker. -/
structure FlowsKept (q q' : Queue) : Prop where
  flows : q'.flows = q.flows
  spawned : q'.spawned = q.spawned
  log : q'.log = q.log ∨ ∃ x w, q.workers x = some w ∧
    (q'.log = .called w.job.runId (.worker x) :: q.log ∨
      q'.log = .started w.job.runId (.worker x) :: q.log)

/-- Every calm step outside the flow engine keeps its tasks. -/
theorem flowsKept (hcalm : Calm q a) (h : step q a = some q')
    (hflow : ∀ t reply, a ≠ .flow t reply) (hspawn : ∀ p call, a ≠ .spawnFlow p call) :
    FlowsKept q q' := by
  cases a with
  | tick d | putScript i s | enqueueFlow input | reapFlows | enqueue rows
  | refuse n reason | failStale maxAge =>
      cases h
      exact ⟨rfl, rfl, Or.inl rfl⟩
  | reapRuns | cancelCall | cancelWrite | crash => exact hcalm.elim
  | spawnFlow p call => exact absurd rfl (hspawn p call)
  | flow t reply => exact absurd rfl (hflow t reply)
  | claim p caps locked =>
      obtain ⟨_, _, _, _, _, _, _, rfl⟩ := claim_inv h
      exact ⟨rfl, rfl, Or.inl rfl⟩
  | worker t reply =>
      obtain ⟨w, hw, hstep⟩ := stepWorker_inv h
      cases hstep with
      | mark row hpc hrow => exact ⟨rfl, rfl, Or.inr ⟨t, w, hw, Or.inl rfl⟩⟩
      | exec attempt pc out hpc hout =>
          refine ⟨rfl, rfl, ?_⟩
          cases hs : out.started with
          | false => exact Or.inl (by simp [Queue.apply, Queue.setWorker, hs])
          | true =>
              exact Or.inr ⟨t, w, hw, Or.inr (by simp [Queue.apply, Queue.setWorker, hs])⟩
      | leave | retry | giveUp | errorRead | requeue => exact ⟨rfl, rfl, Or.inl rfl⟩
  | beat who =>
      rcases beat_inv h with ⟨_, _, _, _, rfl⟩ | ⟨_, _, _, _, _, _, rfl⟩ <;>
        exact ⟨rfl, rfl, Or.inl rfl⟩
  | claimFlow p locked =>
      obtain ⟨f, row', _, _, rfl⟩ := claimFlow_inv h
      exact ⟨rfl, rfl, Or.inl rfl⟩
  | driver x m =>
      obtain ⟨d, _, hstep⟩ := stepDriver_inv h
      cases hstep <;> exact ⟨rfl, rfl, Or.inl rfl⟩

theorem waits_congr (hflows : q'.flows = q.flows) (r : RunId) (t : TaskId) :
    q'.waits r t = q.waits r t := by
  simp only [Queue.waits, hflows]

/-- Calls and budget across a step outside the flow engine. -/
theorem OnceInv.kept (hI : OnceInv q) (hk : FlowsKept q q') :
    (∀ r t, .inserted r t ∈ q'.log →
      callers q'.log r = if q'.waits r t then [] else [.flow t]) ∧
      ∀ t, q'.log.countP (Entry.startBy t) + leftOf (q'.flows t) ≤
        budgetOf (q'.spawned t) := by
  rw [hk.flows, hk.spawned]
  rcases hk.log with hlog | ⟨x, w, hw, hlog | hlog⟩
  · rw [hlog]
    refine ⟨fun r t hin => ?_, hI.budget⟩
    rw [waits_congr hk.flows]
    exact hI.calls r t hin
  · rw [hlog]
    refine ⟨?_, ?_⟩
    · intro r t hin
      have hold : .inserted r t ∈ q.log := by simpa using hin
      rw [callers_cons_called, if_neg (hI.unclaimed r t hold x w hw), waits_congr hk.flows]
      exact hI.calls r t hold
    · intro t
      simpa [Entry.startBy] using hI.budget t
  · rw [hlog]
    refine ⟨?_, ?_⟩
    · intro r t hin
      have hold : .inserted r t ∈ q.log := by simpa using hin
      rw [waits_congr hk.flows]
      exact hI.calls r t hold
    · intro t
      simpa [Entry.startBy] using hI.budget t

/-- Whether a task waits to execute `r`. -/
def waitsOf (o : Option FlowTask) (r : RunId) : Bool := o.any fun w => w.pc.waitsFor r

/-- What a step of flow task `t` does to its budget, its waiting and the
history, with `o` the task afterwards. -/
inductive FlowEffect (q : Queue) (t : TaskId) (w : FlowTask) (o : Option FlowTask) :
    List Entry → Prop
  | quiet (hleft : leftOf o ≤ w.left)
      (hwait : ∀ r, waitsOf o r = false ∧ w.pc.waitsFor r = false) :
      FlowEffect q t w o q.log
  | insert (hleft : leftOf o ≤ w.left) (hwait : ∀ r, waitsOf o r = decide (q.nextRun = r))
      (hbefore : ∀ r, w.pc.waitsFor r = false) :
      FlowEffect q t w o (.inserted q.nextRun t :: q.log)
  | call (r : RunId) (hpc : w.pc = .wait r) (hleft : leftOf o ≤ w.left)
      (hwait : ∀ r, waitsOf o r = false) :
      FlowEffect q t w o (.called r (.flow t) :: q.log)
  | start (r : RunId) (hleft : leftOf o + 1 ≤ w.left)
      (hwait : ∀ r, waitsOf o r = false ∧ w.pc.waitsFor r = false) :
      FlowEffect q t w o (.started r (.flow t) :: q.log)

theorem rest_length_le (call : FlowCall) (st : RunStatus) (todo : List NewRun) :
    (call.rest st todo).length ≤ todo.length := by
  cases call with
  | runStep n retries =>
      by_cases hst : st = .succeeded <;> simp [FlowCall.rest, hst]
  | compensate rows => exact Nat.le_refl _

/-- Every step of a flow task has one of the effects. -/
theorem flowEffect {t : TaskId} {w : FlowTask} (hstep : FlowTaskStep q t w reply q') :
    ∃ o, q'.flows = Function.update q.flows t o ∧ q'.spawned = q.spawned ∧
      FlowEffect q t w o q'.log := by
  cases hstep with
  | returns hpc htodo =>
      exact ⟨none, rfl, rfl, .quiet (Nat.zero_le _) fun r => ⟨rfl, by rw [hpc]; rfl⟩⟩
  | insert n rest hpc htodo =>
      refine ⟨_, rfl, rfl, .insert ?_ (fun r => rfl) fun r => by rw [hpc]; rfl⟩
      simp [leftOf, FlowTask.left, hpc, htodo]
  | call r hpc =>
      refine ⟨_, rfl, rfl, .call r hpc ?_ fun r => rfl⟩
      simp [leftOf, FlowTask.left, hpc, ExecPc.beforeStart]
  | leave r hpc =>
      refine ⟨_, rfl, rfl, .quiet ?_ fun r => ⟨rfl, by rw [hpc]; rfl⟩⟩
      simp [leftOf, FlowTask.left, hpc, ExecPc.beforeStart]
  | exec r pc out hpc hout =>
      refine ⟨_, rfl, rfl, ?_⟩
      have hnowait : ∀ x, waitsOf (some { w with pc := .exec r out.pc }) x = false ∧
          w.pc.waitsFor x = false := fun x => ⟨rfl, by rw [hpc]; rfl⟩
      cases hs : out.started with
      | false =>
          have hlog : ((q.apply w.proc r (.flow t) out).setFlow t
              (some { w with pc := .exec r out.pc })).log = q.log := by
            simp [Queue.apply, Queue.setFlow, hs]
          rw [hlog]
          refine .quiet ?_ hnowait
          cases hb : out.pc.beforeStart with
          | false => simp [leftOf, FlowTask.left, hb]
          | true =>
              have hbefore := (execStep_beforeStart hout hb).1
              simp [leftOf, FlowTask.left, hpc, hb, hbefore]
      | true =>
          have hlog : ((q.apply w.proc r (.flow t) out).setFlow t
              (some { w with pc := .exec r out.pc })).log =
              .started r (.flow t) :: q.log := by
            simp [Queue.apply, Queue.setFlow, hs]
          rw [hlog]
          obtain ⟨cid, rfl, _, hafter⟩ := execStep_started hout hs
          refine .start r ?_ hnowait
          have hbefore : (ExecPc.startExec cid).beforeStart = true := rfl
          simp [leftOf, FlowTask.left, hpc, hafter, hbefore]
  | status r row hpc hrow =>
      refine ⟨_, rfl, rfl, .quiet ?_ fun r => ⟨rfl, by rw [hpc]; rfl⟩⟩
      have hle := rest_length_le w.call row.status w.todo
      simpa [leftOf, FlowTask.left, hpc] using hle

/-- The rows task `t` waits for after its step. -/
theorem waits_update {t : TaskId} {o : Option FlowTask}
    (hflows : q'.flows = Function.update q.flows t o) (r : RunId) (t' : TaskId) :
    q'.waits r t' = if t' = t then waitsOf o r else q.waits r t' := by
  unfold Queue.waits waitsOf
  rw [hflows]
  by_cases ht : t' = t
  · subst ht
    simp
  · simp [ht]

theorem waits_of_some {t : TaskId} {w : FlowTask} (hw : q.flows t = some w) (r : RunId) :
    q.waits r t = w.pc.waitsFor r := by
  simp [Queue.waits, hw]

/-- Nobody has called a row that does not exist yet. -/
theorem OnceInv.callers_next (hI : OnceInv q) : callers q.log q.nextRun = [] := by
  refine List.filterMap_eq_nil_iff.mpr ?_
  intro e he
  have hlt := hI.past e he
  cases e with
  | called r who =>
      have hne : r ≠ q.nextRun := Nat.ne_of_lt hlt
      simp [hne]
  | inserted | started | canceled => rfl

/-- Calls across a step of the flow engine. -/
theorem OnceInv.calls_flow (hI : OnceInv q) {t : TaskId} {w : FlowTask}
    {o : Option FlowTask} (hw : q.flows t = some w)
    (hflows : q'.flows = Function.update q.flows t o)
    (heff : FlowEffect q t w o q'.log) {r : RunId} {t' : TaskId}
    (hin : .inserted r t' ∈ q'.log) :
    callers q'.log r = if q'.waits r t' then [] else [.flow t'] := by
  rw [waits_update hflows]
  generalize q'.log = log at heff hin
  -- a step that does not concern `r` leaves its waiting as it was
  have hsame : .inserted r t' ∈ q.log → waitsOf o r = w.pc.waitsFor r →
      callers q.log r = if (if t' = t then waitsOf o r else q.waits r t') = true
        then [] else [.flow t'] := by
    intro hold heq
    have hcalls := hI.calls r t' hold
    by_cases ht : t' = t
    · subst ht
      rw [if_pos rfl, heq, ← waits_of_some hw]
      exact hcalls
    · rw [if_neg ht]
      exact hcalls
  cases heff with
  | quiet hleft hwait => exact hsame hin ((hwait r).1.trans (hwait r).2.symm)
  | insert hleft hwait hbefore =>
      rcases List.mem_cons.mp hin with heq | hold
      · cases heq
        rw [if_pos rfl, hwait]
        simpa [callers] using hI.callers_next
      · have hne : ¬ q.nextRun = r := Nat.ne_of_gt (hI.bounded.inserted r t' hold).1
        refine hsame hold ?_
        rw [hwait, hbefore]
        exact decide_eq_false hne
  | call r₀ hpc hleft hwait =>
      have hold : .inserted r t' ∈ q.log := by simpa using hin
      rw [callers_cons_called]
      by_cases hr : r₀ = r
      · -- `r` is the row the task has just begun to execute
        subst hr
        have ht := hI.unique _ _ _ (hI.bounded.owns t w r₀ hw (by rw [hpc]; rfl)) hold
        subst ht
        have hbefore := hI.calls r₀ t hold
        rw [waits_of_some hw, hpc] at hbefore
        rw [if_pos rfl, if_pos rfl, hwait]
        simpa [FlowPc.waitsFor] using hbefore
      · rw [if_neg hr]
        refine hsame hold ?_
        rw [hwait, hpc]
        simpa [FlowPc.waitsFor] using hr
  | start r₀ hleft hwait =>
      have hold : .inserted r t' ∈ q.log := by simpa using hin
      exact hsame hold ((hwait r).1.trans (hwait r).2.symm)

/-- The budget across a step of the flow engine. -/
theorem OnceInv.budget_flow (hI : OnceInv q) {t : TaskId} {w : FlowTask}
    {o : Option FlowTask} (hw : q.flows t = some w)
    (hflows : q'.flows = Function.update q.flows t o) (hspawn : q'.spawned = q.spawned)
    (heff : FlowEffect q t w o q'.log) (t' : TaskId) :
    q'.log.countP (Entry.startBy t') + leftOf (q'.flows t') ≤
      budgetOf (q'.spawned t') := by
  have hold := hI.budget t'
  rw [hflows, hspawn]
  generalize q'.log = log at heff
  by_cases ht : t' = t
  · subst ht
    rw [Function.update_self]
    rw [hw] at hold
    simp only [leftOf] at hold
    cases heff with
    | quiet hleft => exact Nat.le_trans (Nat.add_le_add_left hleft _) hold
    | insert hleft =>
        simp only [List.countP_cons, Entry.startBy]
        exact Nat.le_trans (Nat.add_le_add_left hleft _) hold
    | call r hpc hleft =>
        simp only [List.countP_cons, Entry.startBy]
        exact Nat.le_trans (Nat.add_le_add_left hleft _) hold
    | start r hleft hwait =>
        simp only [List.countP_cons, Entry.startBy, decide_true, if_true]
        omega
  · rw [Function.update_of_ne ht]
    cases heff with
    | quiet => exact hold
    | insert | call => simpa [Entry.startBy] using hold
    | start r hleft hwait => simpa [Entry.startBy, Ne.symm ht] using hold

/-- A call is spawned with its whole budget, under a fresh id. -/
theorem OnceInv.spawn (hI : OnceInv q) (p : Proc) (call : FlowCall) :
    (∀ r t, .inserted r t ∈ (q.spawnFlow p call).log →
      callers (q.spawnFlow p call).log r =
        if (q.spawnFlow p call).waits r t then [] else [.flow t]) ∧
      ∀ t, (q.spawnFlow p call).log.countP (Entry.startBy t) +
        leftOf ((q.spawnFlow p call).flows t) ≤ budgetOf ((q.spawnFlow p call).spawned t) := by
  refine ⟨?_, ?_⟩
  · intro r t hin
    have hold : .inserted r t ∈ q.log := hin
    have hne : t ≠ q.nextTask := Nat.ne_of_lt (hI.bounded.inserted r t hold).2
    have hwaits : (q.spawnFlow p call).waits r t = q.waits r t := by
      rw [waits_update rfl, if_neg hne]
    rw [hwaits]
    exact hI.calls r t hold
  · intro t
    have hbudget := hI.budget t
    by_cases ht : t = q.nextTask
    · subst ht
      rw [hI.spawned _ (Nat.le_refl _)] at hbudget
      simp only [budgetOf] at hbudget
      simp only [Queue.spawnFlow, Queue.setFlow, Function.update_self, leftOf,
        FlowTask.left, budgetOf]
      omega
    · simpa only [Queue.spawnFlow, Queue.setFlow, Function.update_of_ne ht] using hbudget

/-- Every calm step that spares the rows of the flow engine keeps the
invariant. -/
theorem OnceInv.step (hI : OnceInv q) (hcalm : Calm q a) (hspare : SparesFlowRows q a)
    (h : step q a = some q') : OnceInv q' := by
  have hbounded := hI.bounded.step h
  have htask := (step_ids h hI.bounded).2.1
  have hcore : (∀ t, q'.nextTask ≤ t → q'.spawned t = none) ∧
      (∀ r t, .inserted r t ∈ q'.log →
        callers q'.log r = if q'.waits r t then [] else [.flow t]) ∧
      ∀ t, q'.log.countP (Entry.startBy t) + leftOf (q'.flows t) ≤
        budgetOf (q'.spawned t) := by
    by_cases hflow : ∃ t reply, a = .flow t reply
    · obtain ⟨t, reply, rfl⟩ := hflow
      obtain ⟨w, hw, hstep⟩ := stepFlow_inv h
      obtain ⟨o, hflows, hspawn, heff⟩ := flowEffect hstep
      refine ⟨?_, fun _ _ hin => hI.calls_flow hw hflows heff hin,
        hI.budget_flow hw hflows hspawn heff⟩
      intro t' ht'
      rw [hspawn]
      exact hI.spawned t' (Nat.le_trans htask ht')
    · by_cases hspawn : ∃ p call, a = .spawnFlow p call
      · obtain ⟨p, call, rfl⟩ := hspawn
        cases h
        refine ⟨?_, hI.spawn p call⟩
        intro t ht
        have hlt : q.nextTask < t := ht
        exact (Function.update_of_ne (Nat.ne_of_gt hlt) _ _).trans
          (hI.spawned t (Nat.le_of_lt hlt))
      · have hk := flowsKept hcalm h (fun t reply ha => hflow ⟨t, reply, ha⟩)
          (fun p call ha => hspawn ⟨p, call, ha⟩)
        refine ⟨?_, hI.kept hk⟩
        intro t ht
        rw [hk.spawned]
        exact hI.spawned t (Nat.le_trans htask ht)
  exact
    { bounded := hbounded
      past := fun e he => hI.past_step h he
      spawned := hcore.1
      unclaimed := fun r t hin x w hw => hI.unclaimed_step hspare h hin hw
      unique := fun r t t' hin hin' => hI.unique_step h hin hin'
      calls := hcore.2.1
      starters := fun r t who hin hs => hI.starters_step h hin hs
      budget := hcore.2.2 }

end Once

/-- **Executed once**, over every run of the queue without crashes, reaps,
requeues and cancels in which no `claim_run` selects a row of the flow
engine. -/
theorem executed_once (now : Nat) (l : List Label) (q : Queue)
    (hcalm : Along step Calm (init now) l)
    (hspare : Along step SparesFlowRows (init now) l)
    (hrun : run step (init now) l = some q) : ExecutedOnce q := by
  have hboth : Along step (fun s a => Calm s a ∧ SparesFlowRows s a) (init now) l :=
    hcalm.and hspare
  have hstep : ∀ s a s', OnceInv s → Calm s a ∧ SparesFlowRows s a →
      step s a = some s' → OnceInv s' := fun _ _ _ hI hC h => hI.step hC.1 hC.2 h
  exact (inv_run hstep (onceInv_init now) hboth hrun).executedOnce

/-- A run of script `7`, for the samples below. -/
def stepRun : NewRun := ⟨7, .null, none, none, false, none⟩

/-- A step without retries inserts its row and executes it up to the start of
its script. -/
def stepAlone : List Label :=
  [.putScript 7 ⟨"bash", none⟩, .spawnFlow 0 (.runStep stepRun (some 0)), .flow 0 .ok,
    .flow 0 .ok, .flow 0 (.container 3), .flow 0 .ok, .flow 0 .ok]

theorem executed_once_stepAlone :
    ∃ q, run step (init 0) stepAlone = some q ∧ Along step Calm (init 0) stepAlone ∧
      Along step SparesFlowRows (init 0) stepAlone ∧ .inserted 0 0 ∈ q.log ∧
      ExecutedOnce q := by
  have hcalm : Along step Calm (init 0) stepAlone := by
    repeat refine along_cons rfl trivial ?_
    trivial
  have hspare : Along step SparesFlowRows (init 0) stepAlone := by
    repeat refine along_cons rfl trivial ?_
    trivial
  exact ⟨_, rfl, hcalm, hspare, by decide, executed_once 0 _ _ hcalm hspare rfl⟩

/-- A worker claims the row between the insert and the permit, and both
execute it. -/
def stepTwice : List Label :=
  [.putScript 7 ⟨"bash", none⟩, .spawnFlow 0 (.runStep stepRun (some 0)), .flow 0 .ok,
    .claim 0 ["bash"] fun _ => false, .worker 1 .ok, .worker 1 (.container 2),
    .worker 1 .ok, .worker 1 .ok, .flow 0 .ok, .flow 0 (.container 3), .flow 0 .ok,
    .flow 0 .ok]

/-- Along `stepTwice` one row is executed twice, and the script of a step
without retries starts twice. -/
theorem not_executed_once :
    ¬ ∀ now l q, Along step Calm (init now) l → run step (init now) l = some q →
      ExecutedOnce q := by
  intro hclaim
  have hcalm : Along step Calm (init 0) stepTwice := by
    repeat' first
      | exact trivial
      | refine along_cons rfl ?_ ?_
      | exact fun w hw => by cases hw; exact WorkerPc.noConfusion
  have hq := hclaim 0 stepTwice _ hcalm rfl
  have honce := hq.once 0 0 (by decide)
  exact absurd honce (by decide)

end Dokan.Ports.RunQueue
