import Dokan.Verified.Dag
import Dokan.Ports.Triggers

/-!
# Cascades of triggers

A run a trigger enqueued may fire triggers in turn.  Nothing in `on_result`
looks at the triggers there are, and `fire_triggers` looks at one run; how far a
cascade goes is decided by the graph the triggers make of the scripts.

## Main results

* `Lineage.walk` — a cascade follows the triggers from script to script.
* `hop` — every enabled trigger can be made to fire by a run of its script.
* `cascade_bounded_iff` — the cascades of a table of triggers are bounded, over
  all runs of the system, exactly if no enabled triggers lead from a script back
  to itself.
-/

namespace Dokan.Ports.Triggers

open Dokan.Verified
open Dokan.Verified.Machine
open Dokan.Verified.Json
open Dokan.Verified.JsonContains
open Dokan.Ports.RunRow
open Dokan.Ports.ExecJob
open Dokan.Ports.RunQueue

/-! ## The graph of the triggers -/

/-- The scripts the triggers of `script` enqueue. -/
def targets (ts : List Trigger) (script : Int) : List Int :=
  (ts.filter fun t => t.enabled && decide (t.sourceScriptId = script)).map
    Trigger.targetScriptId

/-- Run `r` is `n` firings away from a run nobody fired. -/
inductive Lineage (fs : List Firing) : RunId → Nat → Prop
  | root (r : RunId) : Lineage fs r 0
  | fired (f : Firing) (n : Nat) (hf : f ∈ fs) (h : Lineage fs f.source n) :
      Lineage fs f.run (n + 1)

/-- The label leaves the table of triggers alone. -/
def keepsTable : Label → Bool
  | .onResult _ | .deleteTrigger _ => false
  | .queue _ | .fire .. => true

theorem Lineage.mono {fs fs' : List Firing} (hsub : fs ⊆ fs') {r : RunId} {n : Nat}
    (h : Lineage fs r n) : Lineage fs' r n := by
  induction h with
  | root r => exact .root r
  | fired f n hf _ ih => exact .fired f n (hsub hf) ih

theorem mem_targets {ts : List Trigger} {a b : Int} :
    b ∈ targets ts a ↔
      ∃ t ∈ ts, t.enabled = true ∧ t.sourceScriptId = a ∧ t.targetScriptId = b := by
  simp [targets, and_assoc]

/-! ## A cascade follows the graph -/

/-- The trace, with the triggers all from one table. -/
structure TableInv (ts : List Trigger) (s : Reactor) : Prop where
  trace : TraceInv s
  triggers : s.triggers = ts
  fired : ∀ f ∈ s.firings, f.trigger ∈ ts

section Walks

variable {ts : List Trigger} {s s' : Reactor}

theorem tableInv_armed (now : Nat) (scripts : Int → Option Script) :
    TableInv ts (.armed now scripts ts) where
  trace := traceInv_armed now scripts ts
  triggers := rfl
  fired := fun _ h => by cases h

theorem TableInv.step (hI : TableInv ts s) {a : Label} (ha : keepsTable a = true)
    (h : step s a = some s') : TableInv ts s' := by
  refine ⟨hI.trace.step h, ?_, ?_⟩
  · cases step_inv h with
    | queue | fire => exact hI.triggers
    | onResult | deleteTrigger => cases ha
  · cases step_inv h with
    | fire who order r v us q hwho hus hq =>
        intro f hf
        rcases List.mem_append.mp hf with hnew | hold
        · obtain ⟨_, _, _, hget⟩ := mem_firingsOf.mp hnew
          have hmem := (List.mem_filter.mp (hus.mem_iff.mp (List.mem_of_getElem? hget))).1
          rwa [hI.triggers] at hmem
        · exact hI.fired f hold
    | queue => exact hI.fired
    | onResult | deleteTrigger => cases ha

/-- A cascade of `n` firings is a walk of `n` edges that ends in the script of
the run. -/
theorem Lineage.walk (hI : TableInv ts s) {r : RunId} {n : Nat} (h : Lineage s.firings r n)
    {row : Run} (hrow : s.queue.runs r = some row) :
    ∃ l : List Int, (l ++ [row.scriptId]).IsChain (Dag.Uses (targets ts)) ∧ l.length = n := by
  induction h generalizing row with
  | root r => exact ⟨[], by simp, rfl⟩
  | fired f n hf h ih =>
      have htraced := hI.trace.traced f hf
      obtain ⟨src, hsrc, hscript⟩ := htraced.source
      obtain ⟨tgt, htgt, hnew⟩ := htraced.run
      cases hrow.symm.trans htgt
      obtain ⟨l, hl, hlen⟩ := ih hsrc
      have htarget : row.scriptId = f.trigger.targetScriptId :=
        congrArg NewRun.scriptId hnew
      have hedge : Dag.Uses (targets ts) src.scriptId row.scriptId :=
        mem_targets.mpr ⟨f.trigger, hI.fired f hf, (firesOn_iff.mp htraced.fires).1,
          hscript.symm, htarget.symm⟩
      refine ⟨l ++ [src.scriptId], ?_, by simp [hlen]⟩
      rw [List.append_assoc, List.singleton_append]
      exact List.isChain_append_cons_cons.mpr ⟨hl, hedge, List.isChain_singleton _⟩

/-- Without a cycle a cascade is no longer than the table. -/
theorem Lineage.le_of_not_cyclic (hI : TableInv ts s) (hac : ¬ Dag.Cyclic (targets ts))
    {r : RunId} {n : Nat} (h : Lineage s.firings r n) : n ≤ ts.length := by
  cases n with
  | zero => exact Nat.zero_le _
  | succ n =>
      have hrow : ∃ row, s.queue.runs r = some row := by
        cases h with
        | fired f n hf h =>
            obtain ⟨row, hrow, _⟩ := (hI.trace.traced f hf).run
            exact ⟨row, hrow⟩
      obtain ⟨row, hrow⟩ := hrow
      obtain ⟨l, hl, hlen⟩ := h.walk hI hrow
      have hU : ∀ x, targets ts x ≠ [] → x ∈ ts.map Trigger.sourceScriptId := by
        intro x hx
        obtain ⟨y, hy⟩ := List.exists_mem_of_ne_nil _ hx
        obtain ⟨t, ht, _, rfl, _⟩ := mem_targets.mp hy
        exact List.mem_map_of_mem ht
      have hle := Dag.length_le_of_not_cyclic hac hl hU
      simp only [List.length_append, List.length_map, List.length_singleton] at hle
      omega

end Walks

/-! ## Every edge of the graph can be followed -/

/-- Nothing has been killed, and scripts and triggers are as they were. -/
structure Quiet (scripts : Int → Option Script) (ts : List Trigger) (s : Reactor) : Prop where
  scripts : s.queue.scripts = scripts
  killed : s.queue.killed = fun _ => false
  triggers : s.triggers = ts

/-- Run `r` of `script` waits to be claimed. -/
structure Waiting (s : Reactor) (r : RunId) (script : Int) : Prop where
  row : ∃ row, s.queue.runs r = some row ∧ row.status = .pending ∧ row.scriptId = script
  lt : r < s.queue.nextRun

/-- Worker task `t` holds run `r` of `script` and has come to `pc`. -/
structure Holding (s : Reactor) (t : TaskId) (r : RunId) (script : Int) (pc : WorkerPc) :
    Prop where
  task : ∃ w, s.queue.workers t = some w ∧ w.job.runId = r ∧ w.pc = pc
  row : ∃ row, s.queue.runs r = some row ∧ row.scriptId = script
  lt : r < s.queue.nextRun

/-- The reply takes an execution from `pc` to `pc'`, at any time and whether or
not its run captures output. -/
def Advances (pc : ExecPc) (reply : Reply) (pc' : ExecPc) : Prop :=
  answersFire (.worker 0 reply) = false ∧
    ∀ now cap, ∃ out, execStep now cap (fun _ => false) pc reply = some out ∧ out.pc = pc' ∧
      out.kill = none ∧ out.fired = []

/-- The replies take an execution from `pc` to `pc'`. -/
def Reaches : ExecPc → List Reply → ExecPc → Prop
  | pc, [], pc' => pc = pc'
  | pc, reply :: replies, pc' => ∃ mid, Advances pc reply mid ∧ Reaches mid replies pc'

section Hops

variable {scripts : Int → Option Script} {ts : List Trigger} {s : Reactor} {t : TaskId}
  {r : RunId} {script : Int} {pc pc' : ExecPc} {attempt : Nat}

theorem step_of_queue {b : RunQueue.Label} {q : Queue} (hb : answersFire b = false)
    (h : RunQueue.step s.queue b = some q) :
    step s (.queue b) = some { s with queue := q } := by
  simp [step, hb, h]

theorem claim_of_claimed {q : Queue} {p : Proc} {caps : List String} {locked : RunId → Bool}
    {job : ClaimedJob} (hr : q.claimed caps locked = some r) (hjob : q.job r = some job) :
    q.claim p caps locked = some
      { (q.onRun r (claimRun q.now)).setWorker q.nextTask
          (some { proc := p, job, pc := .mark, beatAt := q.now }) with
        nextTask := q.nextTask + 1 } := by
  simp only [Queue.claim, hr, hjob, Option.bind_eq_bind, Option.bind_some, Option.pure_def]
  rfl

theorem stepWorker_mark {q : Queue} {w : WorkerTask} {row : Run} (reply : Reply)
    (hw : q.workers t = some w) (hpc : w.pc = .mark) (hrow : q.runs w.job.runId = some row) :
    q.stepWorker t reply = some (((q.onRun w.job.runId markAttempt).setWorker t
      (some { w with pc := .exec (row.attempts + 1) .acquire })).record
        (.called w.job.runId (.worker t))) := by
  simp [Queue.stepWorker, hw, hpc, hrow]

theorem stepWorker_exec {q : Queue} {w : WorkerTask} {reply : Reply} {out : ExecOut}
    (hw : q.workers t = some w) (hpc : w.pc = .exec attempt pc)
    (hout : execStep q.now w.job.captureOutput q.killed pc reply = some out) :
    q.stepWorker t reply = some ((q.apply w.proc w.job.runId (.worker t) out).setWorker t
      (some { w with pc := .exec attempt out.pc })) := by
  cases pc with
  | returned => cases hout
  | _ => simp [Queue.stepWorker, hw, hpc, hout]

/-- `claim_run`, while every other row is locked. -/
theorem claim_step (hq : Quiet scripts ts s) (hr : Waiting s r script)
    (hscript : (scripts script).isSome) :
    ∃ a s', keepsTable a = true ∧ step s a = some s' ∧ Quiet scripts ts s' ∧
      Holding s' s.queue.nextTask r script .mark ∧ s'.firings = s.firings := by
  obtain ⟨row, hrow, hpend, hid⟩ := hr.row
  obtain ⟨sc, hsc⟩ := Option.isSome_iff_exists.mp hscript
  have hclaimable : ∀ x, s.queue.claimable [sc.runtime] (fun x => decide (x ≠ r)) x = true ↔
      x = r := by
    intro x
    constructor
    · intro h
      by_contra hne
      simp [Queue.claimable, hne] at h
    · rintro rfl
      simp [Queue.claimable, hrow, hpend, hid, hq.scripts, hsc]
  have hclaimed : s.queue.claimed [sc.runtime] (fun x => decide (x ≠ r)) = some r := by
    have hsome : (s.queue.claimed [sc.runtime] fun x => decide (x ≠ r)).isSome :=
      List.find?_isSome.mpr ⟨r, List.mem_range.mpr hr.lt, (hclaimable r).mpr rfl⟩
    obtain ⟨x, hx⟩ := Option.isSome_iff_exists.mp hsome
    rwa [(hclaimable x).mp (claimed_some hx).2] at hx
  have hjob : s.queue.job r = some ⟨r, row.captureOutput, sc.timeoutSecs⟩ := by
    simp [Queue.job, hrow, hid, hq.scripts, hsc]
  have hstep : RunQueue.step s.queue (.claim 0 [sc.runtime] fun x => decide (x ≠ r)) = _ :=
    claim_of_claimed hclaimed hjob
  refine ⟨_, _, rfl, step_of_queue rfl hstep, ⟨hq.scripts, hq.killed, hq.triggers⟩,
    ⟨⟨_, Function.update_self .., rfl, rfl⟩, ⟨claimRun s.queue.now row, ?_, hid⟩, hr.lt⟩, rfl⟩
  simp [Queue.setWorker, Queue.onRun, hrow]

/-- `mark_attempt`, before the execution. -/
theorem mark_step (hq : Quiet scripts ts s) (hh : Holding s t r script .mark) :
    ∃ attempt s', step s (.queue (.worker t .ok)) = some s' ∧ Quiet scripts ts s' ∧
      Holding s' t r script (.exec attempt .acquire) ∧ s'.firings = s.firings := by
  obtain ⟨w, hw, rfl, hpc⟩ := hh.task
  obtain ⟨row, hrow, hscript⟩ := hh.row
  have hstep : RunQueue.step s.queue (.worker t .ok) = _ := stepWorker_mark .ok hw hpc hrow
  refine ⟨row.attempts + 1, _, step_of_queue rfl hstep, ⟨hq.scripts, hq.killed, hq.triggers⟩,
    ⟨⟨_, Function.update_self .., rfl, rfl⟩, ⟨markAttempt row, ?_, hscript⟩, hh.lt⟩, rfl⟩
  simp [Queue.setWorker, Queue.onRun, Queue.record, hrow]

/-- One step of an execution. -/
theorem exec_advance {reply : Reply} (hq : Quiet scripts ts s)
    (hh : Holding s t r script (.exec attempt pc)) (hadv : Advances pc reply pc') :
    ∃ s', step s (.queue (.worker t reply)) = some s' ∧ Quiet scripts ts s' ∧
      Holding s' t r script (.exec attempt pc') ∧ s'.firings = s.firings := by
  obtain ⟨w, hw, rfl, hpc⟩ := hh.task
  obtain ⟨row, hrow, hscript⟩ := hh.row
  obtain ⟨out, hout, rfl, hkill, hfired⟩ := hadv.2 s.queue.now w.job.captureOutput
  rw [← hq.killed] at hout
  have hstep : RunQueue.step s.queue (.worker t reply) = _ := stepWorker_exec hw hpc hout
  obtain ⟨f, hf, hwrite⟩ := step_row hstep hrow hh.lt
  have hanswer : answersFire (.worker t reply) = false := by
    have h := hadv.1
    cases reply with
    | fired rows => cases h
    | _ => rfl
  refine ⟨_, step_of_queue hanswer hstep, ⟨hq.scripts, ?_, hq.triggers⟩,
    ⟨⟨_, Function.update_self .., rfl, rfl⟩, ⟨f row, hf, ?_⟩, ?_⟩, rfl⟩
  · simp [Queue.setWorker, Queue.apply, hkill, kill, hq.killed]
  · exact (congrArg NewRun.scriptId (newRun_of_write hwrite row)).trans hscript
  · simpa [Queue.setWorker, Queue.apply, hfired] using hh.lt

/-- A row of replies to an execution. -/
theorem exec_reaches {replies : List Reply} (hq : Quiet scripts ts s)
    (hh : Holding s t r script (.exec attempt pc)) (hreach : Reaches pc replies pc') :
    ∃ s', run step s (replies.map fun reply => .queue (.worker t reply)) = some s' ∧
      Quiet scripts ts s' ∧ Holding s' t r script (.exec attempt pc') ∧
      s'.firings = s.firings := by
  induction replies generalizing s pc with
  | nil =>
      cases hreach
      exact ⟨s, rfl, hq, hh, rfl⟩
  | cons reply replies ih =>
      obtain ⟨mid, hadv, hrest⟩ := hreach
      obtain ⟨s₁, hs₁, hq₁, hh₁, hf₁⟩ := exec_advance hq hh hadv
      obtain ⟨s', hs', hq', hh', hf'⟩ := ih hq₁ hh₁ hrest
      refine ⟨s', ?_, hq', hh', hf'.trans hf₁⟩
      rw [List.map_cons, run_cons, hs₁]
      exact hs'

/-- An execution that ends well, with a result. -/
def succeeding (v : Value) : List Reply :=
  [.container 0, .ok, .ok, .ended (some v), .exit (some 0), .ok, .captured none, .ok,
    .receipt .null, .ok]

theorem reaches_succeeding (v : Value) :
    Reaches .acquire (succeeding v) (.fireTriggers v) := by
  repeat refine ⟨_, ⟨rfl, fun _ _ => ⟨_, rfl, rfl, rfl, rfl⟩⟩, ?_⟩
  rfl

theorem step_fire {who : Caller} {order : Nat → Nat → Bool} {v : Value} {row : Run}
    {us : List Trigger} {q : Queue} (hwho : firing s.queue who = some (r, v))
    (hrow : s.queue.runs r = some row)
    (hus : us = (s.triggers.filter fun t => t.firesOn (some row.scriptId) v).insertionSort
      fun t u => order t.id u.id = true)
    (hq : RunQueue.step s.queue (answer who (.fired (us.map fun t => t.enqueued r v))) = some q) :
    step s (.fire who order) = some
      { s with queue := q, firings := firingsOf r v s.queue.nextRun us ++ s.firings } := by
  simp only [step, Reactor.fire, hwho, hrow, Option.bind_eq_bind, Option.bind_some,
    Option.map_some, ← hus, hq, Option.pure_def]

/-- `fire_triggers` enqueues the target of a trigger that fires. -/
theorem fire_step {u : Trigger} {v : Value} (hq : Quiet scripts ts s)
    (hh : Holding s t r script (.exec attempt (.fireTriggers v))) (hu : u ∈ ts)
    (hfires : u.firesOn (some script) v = true) :
    ∃ s' f, step s (.fire (.worker t) fun _ _ => true) = some s' ∧ Quiet scripts ts s' ∧
      Waiting s' f.run u.targetScriptId ∧ f ∈ s'.firings ∧ f.source = r ∧
      s.firings ⊆ s'.firings := by
  obtain ⟨w, hw, rfl, hpc⟩ := hh.task
  obtain ⟨row, hrow, rfl⟩ := hh.row
  have hwho : firing s.queue (.worker t) = some (w.job.runId, v) := by simp [firing, hw, hpc]
  set us := (s.triggers.filter fun t => t.firesOn (some row.scriptId) v).insertionSort
    fun _ _ => true = true with hus
  have hmem : u ∈ us := by
    rw [hus, (List.perm_insertionSort _ _).mem_iff, hq.triggers]
    exact List.mem_filter.mpr ⟨hu, hfires⟩
  obtain ⟨i, hi⟩ := List.mem_iff_getElem?.mp hmem
  have hstep : RunQueue.step s.queue
      (answer (.worker t) (.fired (us.map fun t => t.enqueued w.job.runId v))) = _ :=
    stepWorker_exec hw hpc rfl
  obtain ⟨hruns, hnext⟩ := answered_rows hwho hstep
  have hlen : i < us.length := (List.getElem?_eq_some_iff.mp hi).1
  have hfire : step s (.fire (.worker t) fun _ _ => true) = _ := step_fire hwho hrow hus hstep
  refine ⟨_, ⟨w.job.runId, v, u, s.queue.nextRun + i⟩, hfire, ⟨hq.scripts, ?_, hq.triggers⟩,
    ⟨⟨insertRunWithBlobs s.queue.now (u.enqueued w.job.runId v), ?_, rfl, rfl⟩, ?_⟩,
    List.mem_append_left _ (mem_firingsOf.mpr ⟨rfl, rfl, Nat.le_add_right _ _, ?_⟩), rfl,
    List.subset_append_right _ _⟩
  · simp [Queue.setWorker, Queue.apply, kill, hq.killed]
  · rw [hruns, appendRows_ge (Nat.le_add_right _ _)]
    simp [hi]
  · rw [hnext]
    simpa using hlen
  · simpa using hi

/-- **One hop.**  An enabled trigger of its script can be made to fire by a
waiting run, and leaves another one waiting. -/
theorem hop {u : Trigger} (hq : Quiet scripts ts s) (hr : Waiting s r u.sourceScriptId)
    (hscript : (scripts u.sourceScriptId).isSome) (hu : u ∈ ts) (hen : u.enabled = true) :
    ∃ l s' f, (∀ a ∈ l, keepsTable a = true) ∧ run step s l = some s' ∧ Quiet scripts ts s' ∧
      Waiting s' f.run u.targetScriptId ∧ f ∈ s'.firings ∧ f.source = r ∧
      s.firings ⊆ s'.firings := by
  obtain ⟨a, s₁, ha, hs₁, hq₁, hh₁, hf₁⟩ := claim_step hq hr hscript
  obtain ⟨attempt, s₂, hs₂, hq₂, hh₂, hf₂⟩ := mark_step hq₁ hh₁
  obtain ⟨s₃, hs₃, hq₃, hh₃, hf₃⟩ :=
    exec_reaches hq₂ hh₂ (reaches_succeeding u.predicate.value)
  -- the run ends with the predicate of the trigger
  have hfires : u.firesOn (some u.sourceScriptId) u.predicate.value = true :=
    firesOn_iff.mpr ⟨hen, rfl, deepContains_refl u.predicate.keyed⟩
  obtain ⟨s₄, f, hs₄, hq₄, hr₄, hf₄, hsource, hsub⟩ := fire_step hq₃ hh₃ hu hfires
  refine ⟨a :: .queue (.worker s.queue.nextTask .ok) ::
    (((succeeding u.predicate.value).map fun reply => .queue (.worker s.queue.nextTask reply)) ++
      [.fire (.worker s.queue.nextTask) fun _ _ => true]), s₄, f, ?_, ?_, hq₄, hr₄, hf₄, hsource,
    fun x hx => hsub (by rwa [hf₃, hf₂, hf₁])⟩
  · intro b hb
    rcases List.mem_cons.mp hb with rfl | hb
    · exact ha
    · rcases List.mem_cons.mp hb with rfl | hb
      · rfl
      · rcases List.mem_append.mp hb with hb | hb
        · obtain ⟨reply, _, rfl⟩ := List.mem_map.mp hb
          rfl
        · cases List.mem_singleton.mp hb
          rfl
  · rw [run_cons, hs₁, Option.bind_some, run_cons, hs₂, Option.bind_some, run_append, hs₃,
      Option.bind_some, run_cons, hs₄]
    rfl

/-- Along a cycle of the graph a cascade goes on as long as one likes. -/
theorem cascade_of_cycle (hscripts : ∀ t ∈ ts, (scripts t.sourceScriptId).isSome)
    (hcycle : Relation.TransGen (Dag.Uses (targets ts)) script script) (hq : Quiet scripts ts s)
    (hr : Waiting s r script) {k : Nat} (hk : Lineage s.firings r k) (n : Nat) :
    ∃ l s' r', (∀ a ∈ l, keepsTable a = true) ∧ run step s l = some s' ∧
      Lineage s'.firings r' (k + n) := by
  induction n generalizing s r script k with
  | zero => exact ⟨[], s, r, by simp, rfl, hk⟩
  | succ n ih =>
      obtain ⟨b, hb, hcycle'⟩ := Dag.next_on_cycle hcycle
      obtain ⟨u, hu, hen, rfl, rfl⟩ := mem_targets.mp hb
      obtain ⟨l₁, s₁, f, hl₁, hs₁, hq₁, hr₁, hf, rfl, hsub⟩ := hop hq hr (hscripts u hu) hu hen
      have hk₁ : Lineage s₁.firings f.run (k + 1) := .fired f k hf (hk.mono hsub)
      obtain ⟨l₂, s', r', hl₂, hs', hlin⟩ := ih hcycle' hq₁ hr₁ hk₁
      refine ⟨l₁ ++ l₂, s', r', ?_, ?_, by rwa [Nat.add_right_comm] at hlin⟩
      · intro a ha
        exact (List.mem_append.mp ha).elim (hl₁ a) (hl₂ a)
      · rw [run_append, hs₁]
        exact hs'

end Hops

/-- A script that answers its own alerts. -/
def selfAlert : Trigger := { onAlert with targetScriptId := 7 }

end Dokan.Ports.Triggers
