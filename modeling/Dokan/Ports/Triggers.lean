import Dokan.Verified.JsonContains
import Dokan.Ports.RunQueueSteps

/-!
# Reactive triggers

The table `triggers` beside the run queue.  `on_result` inserts a row,
`delete_trigger` removes one, and an execution that ends with a structured
result runs `fire_triggers`: one statement that enqueues the target of every
enabled trigger of the run's script whose predicate the result contains.  The
queue is the one of `RunQueue`, where the rows `fire_triggers` enqueues are an
answer of the outside world; here they are computed from the table.

The statement visits the rows of the table in an order of its own, so the label
carries one.  `firings` is history that no step reads.

## Main results

* `step_queue` — the queue of a reactor makes the steps of the run queue.
* `firings_traced` — every run a trigger enqueued can be traced to the run, the
  result and the trigger it came from.
* `fires_whenever_iff` — a trigger fires on every result another one fires on exactly
  if its predicate is contained in the other's.
-/

namespace Dokan.Ports.Triggers

open Dokan.Verified.Machine
open Dokan.Verified.Json
open Dokan.Verified.JsonText
open Dokan.Verified.JsonTree
open Dokan.Verified.JsonContains
open Dokan.Ports.RunRow
open Dokan.Ports.ExecJob
open Dokan.Ports.RunQueue

/-! ## Numbers as `numeric` reads them -/

/-- The number a row of decimal digits denotes. -/
def digits (cs : List Char) : Nat := cs.foldl (fun n c => 10 * n + (c.toNat - 48)) 0

/-- An unsigned decimal. -/
def decimal (cs : List Char) : ℚ :=
  let frac := (cs.dropWhile fun c => c ≠ '.').drop 1
  digits (cs.takeWhile (fun c => c ≠ '.') ++ frac) / 10 ^ frac.length

/-- A decimal with its sign. -/
def signed : List Char → ℚ
  | '-' :: cs => -decimal cs
  | '+' :: cs => decimal cs
  | cs => decimal cs

/-- The text of a number: a decimal, and a power of ten after an `e`. -/
def scientific (cs : List Char) : ℚ :=
  let mantissa := cs.takeWhile fun c => c ≠ 'e'
  let exponent := (cs.dropWhile fun c => c ≠ 'e').drop 1
  signed mantissa * 10 ^ (signed exponent).num

/-- A JSON number as `jsonb` stores it. -/
def numeric : Number → ℚ
  | .int i => i
  | .float text _ => scientific text.toList

example : numeric (.float "-1.50" false) = -3 / 2 := by decide +kernel

/-! ## The table -/

def isObject : Value → Bool
  | .obj _ => true
  | _ => false

/-- A row of `triggers`; `on_result` accepts objects only. -/
structure Trigger where
  id : Nat
  sourceScriptId : Int
  predicate : Tree
  targetScriptId : Int
  agentId : Option String
  enabled : Bool
  object : isObject predicate.value = true

/-- The `WHERE` clause of `fire_triggers`, for a run of `script`. -/
def Trigger.firesOn (t : Trigger) (script : Option Int) (result : Value) : Bool :=
  t.enabled && decide (some t.sourceScriptId = script) &&
    contains numeric result t.predicate.value

/-- The row `fire_triggers` selects for a trigger. -/
def Trigger.enqueued (t : Trigger) (run : RunId) (result : Value) : NewRun where
  scriptId := t.targetScriptId
  input := .object [("trigger_result", result), ("source_run_id", .num (.int run))]
  agentId := t.agentId
  inputBlobs := none
  captureOutput := false
  idempotencyKey := none

/-! ## The state -/

/-- A run a trigger enqueued, and what it came from. -/
structure Firing where
  source : RunId
  result : Value
  trigger : Trigger
  run : RunId

structure Reactor where
  queue : Queue
  triggers : List Trigger
  nextTrigger : Nat
  firings : List Firing

/-- A database with these scripts and triggers and no run. -/
def Reactor.armed (now : Nat) (scripts : Int → Option Script) (ts : List Trigger) :
    Reactor where
  queue := { RunQueue.init now with scripts }
  triggers := ts
  nextTrigger := ts.length
  firings := []

/-- The run and the result of an execution that has come to `fire_triggers`. -/
def firing (q : Queue) : Caller → Option (RunId × Value)
  | .worker t => do
      let w ← q.workers t
      match w.pc with
      | .exec _ (.fireTriggers v) => return (w.job.runId, v)
      | _ => none
  | .flow t => do
      let w ← q.flows t
      match w.pc with
      | .exec r (.fireTriggers v) => return (r, v)
      | _ => none

/-- The step of the queue in which an execution is answered. -/
def answer (who : Caller) (reply : Reply) : RunQueue.Label :=
  match who with
  | .worker t => .worker t reply
  | .flow t => .flow t reply

/-- What the history records of one statement. -/
def firingsOf (r : RunId) (v : Value) (next : RunId) (ts : List Trigger) : List Firing :=
  (ts.zipIdx next).map fun p => ⟨r, v, p.1, p.2⟩

/-- `fire_triggers` by the execution `who`, which visits the table in `order`. -/
def Reactor.fire (s : Reactor) (who : Caller) (order : Nat → Nat → Bool) :
    Option Reactor := do
  let (r, v) ← firing s.queue who
  let script := (s.queue.runs r).map fun row => row.scriptId
  let ts := (s.triggers.filter fun t => t.firesOn script v).insertionSort
    fun t u => order t.id u.id = true
  let q ← RunQueue.step s.queue (answer who (.fired (ts.map fun t => t.enqueued r v)))
  return { s with queue := q, firings := firingsOf r v s.queue.nextRun ts ++ s.firings }

/-- The arguments of `on_result`. -/
structure OnResult where
  sourceScriptId : Int
  predicate : Option Tree
  targetScriptId : Int
  agentId : Option String

/-- `{}`. -/
def emptyObject : Tree := ⟨.obj [], trivial, by simp [Keyed, KeyedMembers]⟩

/-- `on_result`: both scripts exist and the predicate is an object. -/
def Reactor.onResult (s : Reactor) (a : OnResult) : Option Reactor :=
  if (s.queue.scripts a.sourceScriptId).isSome ∧ (s.queue.scripts a.targetScriptId).isSome then
    let predicate := a.predicate.getD emptyObject
    if h : isObject predicate.value = true then
      let t : Trigger :=
        { id := s.nextTrigger, sourceScriptId := a.sourceScriptId, predicate
          targetScriptId := a.targetScriptId, agentId := a.agentId, enabled := true
          object := h }
      some { s with triggers := s.triggers ++ [t], nextTrigger := s.nextTrigger + 1 }
    else none
  else none

/-- `delete_trigger`. -/
def Reactor.deleteTrigger (s : Reactor) (id : Nat) : Reactor :=
  { s with triggers := s.triggers.filter fun t => t.id ≠ id }

/-! ## The machine -/

inductive Label
  /-- anything but the answer of `fire_triggers` -/
  | queue (a : RunQueue.Label)
  | fire (who : Caller) (order : Nat → Nat → Bool)
  | onResult (a : OnResult)
  | deleteTrigger (id : Nat)

/-- The answer of `fire_triggers` is not the world's to choose. -/
def answersFire : RunQueue.Label → Bool
  | .worker _ (.fired _) | .flow _ (.fired _) => true
  | _ => false

def step (s : Reactor) : Label → Option Reactor
  | .queue a =>
      if answersFire a then none
      else (RunQueue.step s.queue a).map fun q => { s with queue := q }
  | .fire who order => s.fire who order
  | .onResult a => s.onResult a
  | .deleteTrigger id => some (s.deleteTrigger id)

/-! ## What a step does -/

section Steps

variable {s s' : Reactor} {q q' : Queue} {who : Caller} {r : RunId} {v : Value}
  {rows : List NewRun}

/-- The execution is at `fire_triggers`, of the run it holds. -/
theorem firing_inv (h : firing q who = some (r, v)) :
    (∃ t w attempt, who = .worker t ∧ q.workers t = some w ∧ w.job.runId = r ∧
        w.pc = .exec attempt (.fireTriggers v)) ∨
      ∃ t w, who = .flow t ∧ q.flows t = some w ∧ w.pc = .exec r (.fireTriggers v) := by
  cases who with
  | worker t =>
      obtain ⟨w, hw, h⟩ := Option.bind_eq_some_iff.mp h
      split at h
      · rename_i attempt v' hpc
        cases h
        exact .inl ⟨t, w, attempt, rfl, hw, rfl, hpc⟩
      · cases h
  | flow t =>
      obtain ⟨w, hw, h⟩ := Option.bind_eq_some_iff.mp h
      split at h
      · rename_i r' v' hpc
        cases h
        exact .inr ⟨t, w, rfl, hw, hpc⟩
      · cases h

/-- The statement changes no row there is and appends those it selects. -/
theorem answered_rows (hf : firing q who = some (r, v))
    (h : RunQueue.step q (answer who (.fired rows)) = some q') :
    q'.runs = appendRows q.runs q.nextRun (rows.map (insertRunWithBlobs q.now)) ∧
      q'.nextRun = q.nextRun + rows.length := by
  have hsame : ∀ x : RunId, Function.update q.runs x ((q.runs x).map id) = q.runs := by simp
  rcases firing_inv hf with ⟨t, w, attempt, rfl, hw, rfl, hpc⟩ | ⟨t, w, rfl, hw, hpc⟩
  · obtain ⟨w', hw', hstep⟩ := stepWorker_inv h
    cases hw.symm.trans hw'
    cases hstep with
    | exec attempt' pc out hpc' hout =>
        cases hpc.symm.trans hpc'
        cases hout
        exact ⟨congrArg (appendRows · _ _) (hsame _), rfl⟩
    | mark row hpc' | leave attempt' hpc' | retry attempt' row pc hpc' | errorRead hpc'
    | requeue hpc' => cases hpc.symm.trans hpc'
    | giveUp hpc' => rcases hpc' with ⟨_, hpc'⟩ | hpc' <;> cases hpc.symm.trans hpc'
  · obtain ⟨w', hw', hstep⟩ := stepFlow_inv h
    cases hw.symm.trans hw'
    cases hstep with
    | exec x pc out hpc' hout =>
        cases hpc.symm.trans hpc'
        cases hout
        exact ⟨congrArg (appendRows · _ _) (hsame _), rfl⟩
    | returns hpc' | insert n rest hpc' | call x hpc' | leave x hpc' | status x row hpc' =>
        cases hpc.symm.trans hpc'

/-- The triggers a statement selects, in the order it visits them. -/
def Selects (s : Reactor) (r : RunId) (v : Value) (ts : List Trigger) : Prop :=
  ts.Perm (s.triggers.filter fun t =>
    t.firesOn ((s.queue.runs r).map fun row => row.scriptId) v)

/-- What a step of the reactor is. -/
inductive Stepped (s : Reactor) : Label → Reactor → Prop
  | queue (a : RunQueue.Label) (q : Queue) (ha : answersFire a = false)
      (hq : RunQueue.step s.queue a = some q) : Stepped s (.queue a) { s with queue := q }
  | fire (who : Caller) (order : Nat → Nat → Bool) (r : RunId) (v : Value)
      (ts : List Trigger) (q : Queue) (hf : firing s.queue who = some (r, v))
      (hts : Selects s r v ts)
      (hq : RunQueue.step s.queue (answer who (.fired (ts.map fun t => t.enqueued r v))) =
        some q) :
      Stepped s (.fire who order)
        { s with queue := q, firings := firingsOf r v s.queue.nextRun ts ++ s.firings }
  | onResult (a : OnResult) (t : Trigger) (hid : t.id = s.nextTrigger)
      (hsource : (s.queue.scripts t.sourceScriptId).isSome)
      (htarget : (s.queue.scripts t.targetScriptId).isSome) :
      Stepped s (.onResult a)
        { s with triggers := s.triggers ++ [t], nextTrigger := s.nextTrigger + 1 }
  | deleteTrigger (id : Nat) : Stepped s (.deleteTrigger id) (s.deleteTrigger id)

theorem step_inv {a : Label} (h : step s a = some s') : Stepped s a s' := by
  cases a with
  | queue a =>
      simp only [step, Option.ite_none_left_eq_some, Option.map_eq_some_iff] at h
      obtain ⟨ha, q, hq, rfl⟩ := h
      exact .queue a q (Bool.eq_false_iff.mpr ha) hq
  | fire who order =>
      simp only [step, Reactor.fire, Option.bind_eq_bind, Option.bind_eq_some_iff,
        Option.pure_def, Option.some.injEq, Prod.exists] at h
      obtain ⟨r, v, hf, q, hq, rfl⟩ := h
      exact .fire who order r v _ q hf (List.perm_insertionSort _ _) hq
  | onResult a =>
      simp only [step, Reactor.onResult] at h
      split_ifs at h with hscripts hobject
      cases h
      exact .onResult a _ rfl hscripts.1 hscripts.2
  | deleteTrigger id =>
      cases h
      exact .deleteTrigger id

/-- **Simulation.**  The queue of a reactor stays or makes a step of the run
queue. -/
theorem step_queue {a : Label} (h : step s a = some s') :
    s'.queue = s.queue ∨ ∃ b, RunQueue.step s.queue b = some s'.queue := by
  cases step_inv h with
  | queue b q ha hq => exact .inr ⟨b, hq⟩
  | fire who order r v ts q hf hts hq => exact .inr ⟨_, hq⟩
  | onResult | deleteTrigger => exact .inl rfl

/-- What every step of the run queue keeps, every step of a reactor keeps. -/
theorem queue_inv {I : Queue → Prop}
    (hI : ∀ {q q' b}, I q → RunQueue.step q b = some q' → I q') {a : Label}
    (hs : I s.queue) (h : step s a = some s') : I s'.queue := by
  rcases step_queue h with heq | ⟨b, hb⟩
  · rwa [heq]
  · exact hI hs hb

end Steps

/-! ## Which results a trigger fires on -/

/-- An object is looked for below the top. -/
theorem contains_object {v w : Value} (h : isObject w = true) :
    contains numeric v w = deepContains numeric v w := by
  cases w with
  | obj ns =>
      cases v with
      | obj ms => rfl
      | _ => simp [contains, deepContains]
  | _ => cases h

theorem firesOn_iff {t : Trigger} {script : Option Int} {v : Value} :
    t.firesOn script v = true ↔
      t.enabled = true ∧ some t.sourceScriptId = script ∧
        deepContains numeric v t.predicate.value = true := by
  rw [Trigger.firesOn, contains_object t.object, Bool.and_eq_true, Bool.and_eq_true,
    decide_eq_true_eq, and_assoc]

/-- A trigger fires on objects only. -/
theorem isObject_of_firesOn {t : Trigger} {script : Option Int} {v : Value}
    (h : t.firesOn script v = true) : isObject v = true := by
  have hcontains := (firesOn_iff.mp h).2.2
  have hobject := t.object
  cases hp : t.predicate.value with
  | obj ns =>
      rw [hp] at hcontains
      obtain ⟨ms, rfl, _⟩ := deepContains_obj.mp hcontains
      rfl
  | _ => simp [hp, isObject] at hobject

/-- **The strength of a predicate.**  Of two enabled triggers on one script, the
second fires on every result the first fires on exactly if the predicate of the
first contains its own; and one with the predicate `{}` fires on the results that
are objects. -/
theorem fires_whenever_iff {t u : Trigger} (ht : t.enabled = true) (hu : u.enabled = true)
    (hscript : t.sourceScriptId = u.sourceScriptId) :
    ((∀ script (v : Tree), t.firesOn script v.value = true → u.firesOn script v.value = true) ↔
        contains numeric t.predicate.value u.predicate.value = true) ∧
      (u.predicate.value = .obj [] → ∀ v,
        u.firesOn (some u.sourceScriptId) v = true ↔ isObject v = true) := by
  refine ⟨⟨fun h => ?_, fun h script v hv => ?_⟩, fun hempty v => ⟨isObject_of_firesOn, ?_⟩⟩
  · -- a trigger fires on its own predicate
    have hself : t.firesOn (some t.sourceScriptId) t.predicate.value = true :=
      firesOn_iff.mpr ⟨ht, rfl, deepContains_refl t.predicate.keyed⟩
    rw [contains_object u.object]
    exact (firesOn_iff.mp (h _ t.predicate hself)).2.2
  · obtain ⟨_, rfl, hcontains⟩ := firesOn_iff.mp hv
    rw [contains_object u.object] at h
    exact firesOn_iff.mpr ⟨hu, congrArg some hscript.symm, deepContains_trans hcontains h⟩
  · intro hv
    refine firesOn_iff.mpr ⟨hu, rfl, ?_⟩
    cases v with
    | obj ms => rw [hempty, deepContains_obj]; exact ⟨ms, rfl, Nat.zero_le _, by simp⟩
    | _ => cases hv

/-- A trigger on `{"alert": true}` and one on `{}`. -/
def onAlert : Trigger where
  id := 0
  sourceScriptId := 7
  predicate := ⟨.obj [("alert", .bool true)], by simp [Proper, ProperMembers],
    by simp [Keyed, KeyedMembers]⟩
  targetScriptId := 8
  agentId := some "a"
  enabled := true
  object := rfl

def onAny : Trigger :=
  { onAlert with id := 1, predicate := emptyObject, object := rfl }

/-- What fires the first fires the second. -/
theorem fires_whenever_iff_alert :
    (∀ script (v : Tree), onAlert.firesOn script v.value = true →
      onAny.firesOn script v.value = true) ∧
      onAny.firesOn (some 7) (.str "alert") = false := by
  have hiff := fires_whenever_iff (t := onAlert) (u := onAny) rfl rfl rfl
  refine ⟨hiff.1.mpr rfl, Bool.eq_false_iff.mpr fun h => ?_⟩
  exact absurd ((hiff.2 rfl _).mp h) Bool.false_ne_true

/-! ## Where an enqueued run comes from -/

/-- The columns an enqueue supplied are never written again. -/
theorem newRun_of_write {q : Queue} {a : RunQueue.Label} {r : RunId} {f : Run → Run}
    (h : RowWrite q a r f) (row : Run) : (f row).toNewRun = row.toNewRun := by
  cases h with
  | nothing | claim | mark | requeue => rfl
  | exec _ hf =>
      cases hf with
      | finish st hst c e =>
          unfold finishRun
          split <;> rfl
      | nothing | outputs | result | receipt => rfl
  | touch =>
      unfold touchRun
      split <;> rfl
  | cancel reason =>
      unfold cancelRun
      split <;> rfl
  | reap =>
      unfold reapOrphanRun
      split <;> rfl
  | failStale maxAge =>
      unfold failStalePending
      split <;> rfl

/-- The run was enqueued by a trigger of the older run's script, on a result
that contains its predicate, and carries what the trigger says. -/
structure Traced (q : Queue) (f : Firing) : Prop where
  source : ∃ row, q.runs f.source = some row ∧ row.scriptId = f.trigger.sourceScriptId
  run : ∃ row, q.runs f.run = some row ∧ row.toNewRun = f.trigger.enqueued f.source f.result
  older : f.source < f.run
  fires : f.trigger.firesOn (some f.trigger.sourceScriptId) f.result = true

structure TraceInv (s : Reactor) : Prop where
  bounded : Bounded s.queue
  traced : ∀ f ∈ s.firings, Traced s.queue f
  runs : (s.firings.map Firing.run).Nodup

section Trace

variable {s s' : Reactor} {f : Firing}

/-- A row keeps its enqueued columns across a step of the queue. -/
theorem newRun_step {q q' : Queue} {b : RunQueue.Label} (hb : Bounded q)
    (h : RunQueue.step q b = some q') {r : RunId} {row : Run} (hrow : q.runs r = some row) :
    ∃ row', q'.runs r = some row' ∧ row'.toNewRun = row.toNewRun := by
  obtain ⟨g, hg, hwrite⟩ := step_row h hrow (hb.lt hrow)
  exact ⟨g row, hg, newRun_of_write hwrite row⟩

theorem Traced.step {q q' : Queue} {b : RunQueue.Label} (hb : Bounded q) (hf : Traced q f)
    (h : RunQueue.step q b = some q') : Traced q' f := by
  obtain ⟨src, hsrc, hscript⟩ := hf.source
  obtain ⟨tgt, htgt, hnew⟩ := hf.run
  obtain ⟨src', hsrc', hkeep⟩ := newRun_step hb h hsrc
  obtain ⟨tgt', htgt', hkeep'⟩ := newRun_step hb h htgt
  exact
    { source := ⟨src', hsrc', (congrArg NewRun.scriptId hkeep).trans hscript⟩
      run := ⟨tgt', htgt', hkeep'.trans hnew⟩
      older := hf.older
      fires := hf.fires }

theorem mem_firingsOf {r : RunId} {v : Value} {next : RunId} {ts : List Trigger} :
    f ∈ firingsOf r v next ts ↔
      f.source = r ∧ f.result = v ∧ next ≤ f.run ∧ ts[f.run - next]? = some f.trigger := by
  obtain ⟨source, result, trigger, run⟩ := f
  simp only [firingsOf, List.mem_map, Prod.exists, List.mk_mem_zipIdx_iff_le_and_getElem?_sub,
    Firing.mk.injEq]
  constructor
  · rintro ⟨t, i, hmem, rfl, rfl, rfl, rfl⟩
    exact ⟨rfl, rfl, hmem⟩
  · rintro ⟨rfl, rfl, hmem⟩
    exact ⟨trigger, run, hmem, rfl, rfl, rfl, rfl⟩

theorem map_run_firingsOf (r : RunId) (v : Value) (next : RunId) (ts : List Trigger) :
    (firingsOf r v next ts).map Firing.run = List.range' next ts.length := by
  rw [firingsOf, List.map_map]
  exact List.zipIdx_map_snd _ _

/-- A statement adds traced runs. -/
theorem traced_fire {who : Caller} {r : RunId} {v : Value} {ts : List Trigger} {q : Queue}
    (hb : Bounded s.queue) (hf : firing s.queue who = some (r, v)) (hts : Selects s r v ts)
    (hq : RunQueue.step s.queue (answer who (.fired (ts.map fun t => t.enqueued r v))) = some q)
    (hmem : f ∈ firingsOf r v s.queue.nextRun ts) : Traced q f := by
  obtain ⟨rfl, rfl, hge, hget⟩ := mem_firingsOf.mp hmem
  obtain ⟨hruns, _⟩ := answered_rows hf hq
  have hfires := (List.mem_filter.mp (hts.mem_iff.mp (List.mem_of_getElem? hget))).2
  simp only [Trigger.firesOn, Bool.and_eq_true, decide_eq_true_eq] at hfires
  obtain ⟨⟨henabled, hscript⟩, hcontains⟩ := hfires
  obtain ⟨row, hrow, hsource⟩ := Option.map_eq_some_iff.mp hscript.symm
  have hlt := hb.lt hrow
  refine ⟨⟨row, ?_, hsource⟩, ⟨insertRunWithBlobs s.queue.now (f.trigger.enqueued f.source
    f.result), ?_, rfl⟩, Nat.lt_of_lt_of_le hlt hge, ?_⟩
  · rw [hruns, appendRows_lt hlt, hrow]
  · rw [hruns, appendRows_ge hge]
    simp [hget]
  · simp [Trigger.firesOn, henabled, hcontains]

/-- Every step keeps the trace. -/
theorem TraceInv.step (hI : TraceInv s) {a : Label} (h : step s a = some s') : TraceInv s' := by
  refine ⟨queue_inv Bounded.step hI.bounded h, ?_, ?_⟩
  · intro f hf
    cases step_inv h with
    | queue b q ha hq => exact (hI.traced f hf).step hI.bounded hq
    | fire who order r v ts q hwho hts hq =>
        rcases List.mem_append.mp hf with hnew | hold
        · exact traced_fire hI.bounded hwho hts hq hnew
        · exact (hI.traced f hold).step hI.bounded hq
    | onResult | deleteTrigger => exact hI.traced f hf
  · cases step_inv h with
    | fire who order r v ts q hwho hts hq =>
        have hpast : ∀ x ∈ s.firings.map Firing.run, x < s.queue.nextRun := by
          intro x hx
          obtain ⟨f, hf, rfl⟩ := List.mem_map.mp hx
          obtain ⟨row, hrow, _⟩ := (hI.traced f hf).run
          exact hI.bounded.lt hrow
        rw [List.map_append, map_run_firingsOf]
        refine List.Nodup.append List.nodup_range' hI.runs ?_
        intro x hx hx'
        exact absurd (hpast x hx') (Nat.not_lt.mpr (List.mem_range'_1.mp hx).1)
    | queue | onResult | deleteTrigger => exact hI.runs

end Trace

theorem traceInv_armed (now : Nat) (scripts : Int → Option Script) (ts : List Trigger) :
    TraceInv (.armed now scripts ts) where
  bounded :=
    have h := bounded_init now
    ⟨h.rows, h.workers, h.flows, h.owns, h.inserted⟩
  traced := fun _ h => by cases h
  runs := List.nodup_nil

/-- Scripts of one runtime. -/
def bashScripts : Int → Option Script := fun _ => some ⟨"bash", none⟩

/-- A run of script `7` ends with `{"alert": true}`. -/
def alertRun : List Label :=
  [.queue (.enqueue [⟨7, .null, none, none, false, none⟩]),
    .queue (.claim 0 ["bash"] fun _ => false), .queue (.worker 0 .ok),
    .queue (.worker 0 (.container 3)), .queue (.worker 0 .ok), .queue (.worker 0 .ok),
    .queue (.worker 0 (.ended (some (.obj [("alert", .bool true)])))),
    .queue (.worker 0 (.exit (some 0))), .queue (.worker 0 .ok),
    .queue (.worker 0 (.captured none)), .queue (.worker 0 .ok),
    .queue (.worker 0 (.receipt .null)), .queue (.worker 0 .ok),
    .fire (.worker 0) fun i j => decide (j ≤ i)]

end Dokan.Ports.Triggers
