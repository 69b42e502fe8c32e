import Dokan.Verified.Tally
import Dokan.Ports.RunQueueSteps

/-!
# The agent concurrency cap

`quota::check` counts the runs an agent has in flight, and `run_script` and a
schedule tick that carries an agent insert their row in a later statement.
`fire_triggers`, a webhook and `reproduce_run` insert rows that carry an agent
without the check, and a worker's `requeue` returns a failed run to the queue.

The machine here is the run queue together with the calls that enqueue on an
agent's behalf.  The compute budget is a second reason to refuse; what it
measures is an answer of the world.

## Main results

* `QuotaInv.step` — nothing but an insert, a trigger or a requeue puts a run
  of an agent in flight.
* `agent_capped` — the cap holds in every state, over every run in which the
  rows that are put in flight find room.
-/

namespace Dokan.Ports.AgentQuota

open Dokan.Verified.Machine
open Dokan.Verified.Tally
open Dokan.Ports.RunRow
open Dokan.Ports.ExecJob
open Dokan.Ports.RunQueue

/-! ## `quota.rs` -/

/-- `quota::AGENT_MAX_CONCURRENT`. -/
def agentMaxConcurrent : Nat := 25

/-- `quota::AGENT_COMPUTE_BUDGET_SECS`. -/
def agentComputeBudgetSecs : Rat := 3600

/-- Why an enqueue was refused. -/
inductive Refusal
  | concurrency (inFlight : Nat)
  | budget (spent : Rat)

/-- A number of seconds as `{:.0}` shows it, ties to even. -/
def showSeconds (s : Rat) : String :=
  let low := ⌊s⌋
  let half := s - low - 1 / 2
  toString (if half < 0 ∨ (half = 0 ∧ low % 2 = 0) then low else low + 1)

/-- The line recorded on a refused tick. -/
def Refusal.reason : Refusal → String
  | .concurrency inFlight =>
      s!"quota_exceeded: {inFlight} runs in flight (limit {agentMaxConcurrent})"
  | .budget spent =>
      s!"budget_exceeded: {showSeconds spent} s of compute in 24 h (budget " ++
        s!"{showSeconds agentComputeBudgetSecs} s)"

/-- `quota::decide`. -/
def quotaDecide (inFlight : Nat) (spent : Rat) : Option Refusal :=
  if agentMaxConcurrent ≤ inFlight then some (.concurrency inFlight)
  else if agentComputeBudgetSecs ≤ spent then some (.budget spent)
  else none

/-- Pending or running. -/
def inFlight (row : Run) : Bool := row.status = .pending || row.status = .running

/-- A row `agent_running_count` counts. -/
def inFlightOf (agent : String) (row : Run) : Bool :=
  row.agentId = some agent && inFlight row

/-- `Db::agent_running_count`. -/
def agentRunningCount (q : Queue) (agent : String) : Nat :=
  tally (fun r => (q.runs r).any (inFlightOf agent)) q.nextRun

/-- `quota::check` would not refuse for concurrency now. -/
def hasRoom (q : Queue) (agent : String) : Bool :=
  (quotaDecide (agentRunningCount q agent) 0).isNone

/-! ## The calls that enqueue -/

/-- Who checks the quota before it enqueues. -/
inductive Source
  | runScript
  | tick

/-- The point a call has reached. -/
inductive CallPc
  /-- before `agent_running_count` -/
  | count
  /-- before `agent_compute_seconds` -/
  | spent (counted : Nat)
  /-- `check` has answered -/
  | checked (counted : Nat) (answer : Option Refusal)

/-- A call of `run_script`, or of `enqueue_tick` for a schedule with an agent. -/
structure Call where
  proc : Proc
  source : Source
  agent : String
  columns : NewRun
  pc : CallPc

/-- The columns of the row a call inserts. -/
def Call.newRun (call : Call) : NewRun := { call.columns with agentId := some call.agent }

/-- The queue and the calls on their way into it. -/
structure Quota where
  queue : Queue
  calls : Nat → Option Call
  nextCall : Nat

def Quota.init (now : Nat) : Quota :=
  { queue := RunQueue.init now, calls := fun _ => none, nextCall := 0 }

/-- A row of this key is there. -/
def keyTaken (q : Queue) (idemKey : Option String) : Bool :=
  idemKey.any fun k =>
    (List.range q.nextRun).any fun r =>
      (q.runs r).any fun row => row.idempotencyKey = some k

/-- An `INSERT` of one row, with `ON CONFLICT (idempotency_key) DO NOTHING`. -/
def insertRow (q : Queue) (row : Run) : Queue :=
  if keyTaken q row.idempotencyKey then q else q.addRuns [row]

/-- A call moves to `pc`, or is over. -/
def Quota.setCall (s : Quota) (c : Nat) (call : Option Call) : Quota :=
  { s with calls := Function.update s.calls c call }

/-- The next statement of call `c`; the budget query answers `seconds`. -/
def Quota.stepCall (s : Quota) (c : Nat) (seconds : Rat) : Option Quota := do
  let call ← s.calls c
  let goto (pc : CallPc) : Quota := s.setCall c (some { call with pc })
  match call.pc with
  | .count =>
      let counted := agentRunningCount s.queue call.agent
      if agentMaxConcurrent ≤ counted then
        return goto (.checked counted (quotaDecide counted 0))
      else return goto (.spent counted)
  | .spent counted => return goto (.checked counted (quotaDecide counted seconds))
  | .checked _ none =>
      return { s.setCall c none with
        queue := insertRow s.queue (insertRunWithBlobs s.queue.now call.newRun) }
  | .checked _ (some refusal) =>
      match call.source with
      | .runScript => return s.setCall c none
      | .tick =>
          return { s.setCall c none with
            queue := insertRow s.queue
              (insertRefusedRun s.queue.now call.newRun refusal.reason) }

/-! ## The machine -/

inductive Label
  /-- `run_script` past its argument checks, or a due tick with an agent -/
  | arrive (p : Proc) (source : Source) (agent : String) (columns : NewRun)
  | call (c : Nat) (seconds : Rat)
  /-- an insert without a check: a webhook, `reproduce_run`, a tick or a page
  without an agent -/
  | enqueue (n : NewRun)
  /-- any other step of the queue -/
  | queue (a : RunQueue.Label)

/-- The steps of the queue that are not enqueues of this machine.  The flow
engine inserts its rows without an agent. -/
def ofQueue : RunQueue.Label → Bool
  | .enqueue _ | .refuse _ _ => false
  | .spawnFlow _ call => call.rows.all fun n => n.agentId.isNone
  | _ => true

/-- The calls a step of the queue leaves at work. -/
def survivors (calls : Nat → Option Call) : RunQueue.Label → Nat → Option Call
  | .crash p => fun c => (calls c).filter fun call => call.proc ≠ p
  | _ => calls

def step (s : Quota) : Label → Option Quota
  | .arrive p source agent columns =>
      some { s.setCall s.nextCall
        (some { proc := p, source, agent, columns, pc := .count }) with
          nextCall := s.nextCall + 1 }
  | .call c seconds => s.stepCall c seconds
  | .enqueue n =>
      some { s with queue := insertRow s.queue (insertRunWithBlobs s.queue.now n) }
  | .queue a =>
      if ofQueue a then
        (RunQueue.step s.queue a).map fun q =>
          { s with queue := q, calls := survivors s.calls a }
      else none

/-- No agent has more runs in flight than the cap. -/
def Capped (s : Quota) : Prop :=
  ∀ agent, agentRunningCount s.queue agent ≤ agentMaxConcurrent

/-! ## Room -/

/-- The rows `fire_triggers` is about to insert. -/
def fires (q : Queue) : RunQueue.Label → List NewRun
  | .worker t (.fired rows) =>
      match (q.workers t).map WorkerTask.pc with
      | some (.exec _ (.fireTriggers _)) => rows
      | _ => []
  | .flow t (.fired rows) =>
      match (q.flows t).map FlowTask.pc with
      | some (.exec _ (.fireTriggers _)) => rows
      | _ => []
  | _ => []

/-- The finished run a worker's `requeue` is about to return to the queue. -/
def revives (q : Queue) : RunQueue.Label → Option Run
  | .worker t _ =>
      (q.workers t).bind fun w =>
        match w.pc with
        | .requeue => (q.runs w.job.runId).filter fun row => !inFlight row
        | _ => none
  | _ => none

/-- When a call that passed its check inserts a row, the agent has no more runs
than the check counted, or still fewer than the cap. -/
def StillRoom (q : Queue) (call : Call) : CallPc → Prop
  | .checked counted none => keyTaken q call.columns.idempotencyKey = false →
      agentRunningCount q call.agent ≤ counted ∨ hasRoom q call.agent
  | _ => True

/-- What is put in flight finds room: the insert of a call that was checked, as
`StillRoom` says; an insert without a check and a requeue when the check would
pass; triggers within what is left. -/
def Room (s : Quota) : Label → Prop
  | .arrive _ _ _ _ => True
  | .call c _ => ∀ call ∈ s.calls c, StillRoom s.queue call call.pc
  | .enqueue n => keyTaken s.queue n.idempotencyKey = false →
      ∀ agent ∈ n.agentId, hasRoom s.queue agent
  | .queue a =>
      (∀ n ∈ fires s.queue a, ∀ agent ∈ n.agentId,
        agentRunningCount s.queue agent +
          (fires s.queue a).countP (fun n' => n'.agentId = some agent) ≤
            agentMaxConcurrent) ∧
      ∀ row ∈ revives s.queue a, ∀ agent ∈ row.agentId, hasRoom s.queue agent

/-! ## What one write does to the count -/

section Rows

variable {q q' : Queue} {a : RunQueue.Label} {r : RunId} {row : Run} {agent : String}

theorem hasRoom_iff :
    hasRoom q agent = true ↔ agentRunningCount q agent < agentMaxConcurrent := by
  unfold hasRoom quotaDecide
  split
  · rename_i hle
    exact ⟨fun h => (Bool.false_ne_true h).elim, fun hlt => absurd hle (Nat.not_le.mpr hlt)⟩
  · rename_i hlt
    rw [if_neg (by decide)]
    exact ⟨fun _ => Nat.not_le.mp hlt, fun _ => rfl⟩

/-- No statement changes the agent of a row. -/
theorem rowWrite_agentId {f : Run → Run} (hf : RowWrite q a r f) (row : Run) :
    (f row).agentId = row.agentId := by
  cases hf with
  | nothing | claim | mark | requeue => rfl
  | exec _ hf =>
      cases hf with
      | nothing | outputs | result | receipt => rfl
      | finish st hst c e =>
          unfold finishRun
          split <;> rfl
  | touch =>
      unfold touchRun
      split <;> rfl
  | cancel reason =>
      unfold cancelRun
      split <;> rfl
  | reap =>
      unfold reapOrphanRun
      split <;> rfl
  | failStale maxAge =>
      unfold failStalePending
      split <;> rfl

/-- Of the statements on one row only a worker's `requeue` puts a run in
flight that was not. -/
theorem rowWrite_inFlight {f : Run → Run} (hf : RowWrite q a r f)
    (hrow : q.runs r = some row) (hlive : inFlight (f row) = true) :
    inFlight row = true ∨ ∃ t reply w, a = .worker t reply ∧ q.workers t = some w ∧
      w.job.runId = r ∧ w.pc = .requeue := by
  cases hf with
  | nothing | mark => exact Or.inl hlive
  | claim p caps locked row' ha hsel hrow' hp =>
      cases hrow.symm.trans hrow'
      exact Or.inl (by simp [AgentQuota.inFlight, hp])
  | exec _ hf =>
      cases hf with
      | nothing | outputs | result | receipt => exact Or.inl hlive
      | finish st hst c e =>
          unfold finishRun at hlive
          split at hlive
          · exact Or.inl hlive
          · rcases hst with rfl | rfl <;> cases hlive
  | requeue t reply w ha hw hr hpc => exact Or.inr ⟨t, reply, w, ha, hw, hr, hpc⟩
  | touch =>
      refine Or.inl ?_
      unfold AgentQuota.inFlight at hlive
      rwa [touchRun_status] at hlive
  | cancel reason =>
      unfold cancelRun at hlive
      split at hlive
      · exact Or.inl hlive
      · cases hlive
  | reap =>
      unfold reapOrphanRun at hlive
      split at hlive
      · rename_i ho
        exact Or.inl (by simp [AgentQuota.inFlight, status_of_orphaned ho])
      · exact Or.inl hlive
  | failStale maxAge =>
      unfold failStalePending at hlive
      split at hlive
      · cases hlive
      · exact Or.inl hlive

theorem inFlightOf_eq_true :
    inFlightOf agent row = true ↔ row.agentId = some agent ∧ inFlight row = true := by
  simp [inFlightOf]

/-- A step that keeps or ends the runs there are adds what it appends. -/
theorem agentRunningCount_le {rows : List Run} (hext : Extends q q' rows)
    (hold : ∀ r < q.nextRun, (q'.runs r).any (inFlightOf agent) = true →
      (q.runs r).any (inFlightOf agent) = true) :
    agentRunningCount q' agent ≤
      agentRunningCount q agent + rows.countP (inFlightOf agent) := by
  have hnew : tally (fun i => (q'.runs (q.nextRun + i)).any (inFlightOf agent))
      rows.length = rows.countP (inFlightOf agent) := by
    rw [← tally_getElem?]
    refine tally_congr fun i _ => ?_
    rw [hext.2 _ (Nat.le_add_right _ _), Nat.add_sub_cancel_left]
  rw [agentRunningCount, hext.1, tally_add, hnew]
  exact Nat.add_le_add_right (tally_mono hold) _

/-- One row more. -/
theorem agentRunningCount_addRuns (q : Queue) (agent : String) (row : Run) :
    agentRunningCount (q.addRuns [row]) agent ≤
      agentRunningCount q agent + (inFlightOf agent row).toNat := by
  refine Nat.le_trans (agentRunningCount_le (extends_appendRows rfl rfl) ?_) ?_
  · intro r hr hlive
    rwa [show (q.addRuns [row]).runs r = q.runs r from appendRows_lt hr] at hlive
  · rw [List.countP_singleton]
    cases inFlightOf agent row <;> exact Nat.le_refl _

theorem bounded_addRun {row : Run} (hb : Bounded q)
    (hrow : (∃ n, row = insertRunWithBlobs q.now n) ∨
      ∃ n reason, row = insertRefusedRun q.now n reason) : Bounded (q.addRuns [row]) := by
  rcases hrow with ⟨n, rfl⟩ | ⟨n, reason, rfl⟩
  · exact hb.step (a := .enqueue [n]) rfl
  · exact hb.step (a := .refuse n reason) rfl

end Rows

/-! ## What one step of the queue does to the count -/

/-- The rows the flow engine has yet to insert carry no agent. -/
def Anonymous (q : Queue) : Prop :=
  ∀ t w, q.flows t = some w → ∀ n ∈ w.todo, n.agentId = none

section Queues

variable {q q' : Queue} {a : RunQueue.Label} {agent : String}

theorem Anonymous.step (hanon : Anonymous q) (hown : ofQueue a = true)
    (h : RunQueue.step q a = some q') : Anonymous q' := by
  intro t w hw n hn
  cases step_flows h hw with
  | kept _ hv => exact hanon t w hv n hn
  | spawned p call ha ht =>
      subst ha
      have hall := List.all_eq_true.mp hown n hn
      exact Option.isNone_iff_eq_none.mp hall
  | inserted v n' rest hv hpc htodo => exact hanon t v hv n (htodo ▸ List.mem_cons_of_mem _ hn)
  | called v r hv | left v r hv | exec v r pc reply out hv => exact hanon t v hv n hn
  | status v r st hv =>
      refine hanon t v hv n ?_
      cases hcall : v.call with
      | runStep m retries =>
          simp only [hcall, FlowCall.rest] at hn
          split at hn
          · cases hn
          · exact hn
      | compensate rows => simpa only [hcall, FlowCall.rest] using hn

/-- What a step appends for an agent is what its triggers fire. -/
theorem appended_countP_le (agent : String) {rows : List Run} (happ : Appended q a rows)
    (hown : ofQueue a = true) (hanon : Anonymous q) :
    rows.countP (inFlightOf agent) ≤
      (fires q a).countP fun n => n.agentId = some agent := by
  have hfired : ∀ ns : List NewRun, (ns.map (insertRunWithBlobs q.now)).countP
      (inFlightOf agent) = ns.countP fun n => n.agentId = some agent := by
    intro ns
    rw [List.countP_map]
    refine List.countP_congr fun n _ => ?_
    simp only [Function.comp_apply, inFlightOf_eq_true, decide_eq_true_eq]
    exact and_iff_left rfl
  cases happ with
  | nothing => exact Nat.zero_le _
  | enqueued rows ha | refused n reason ha =>
      subst ha
      cases hown
  | inserted t w n rest hw htodo =>
      have hnone : n.agentId = none := hanon t w hw n (htodo ▸ List.mem_cons_self)
      simp [inFlightOf, insertRunWithBlobs, hnone]
  | firedWorker t w attempt v ns ha hw hpc =>
      subst ha
      rw [hfired, show fires q (.worker t (.fired ns)) = ns by simp [fires, hw, hpc]]
  | firedFlow t w r v ns ha hw hpc =>
      subst ha
      rw [hfired, show fires q (.flow t (.fired ns)) = ns by simp [fires, hw, hpc]]

/-- A statement on row `r` moves the count with that row. -/
theorem count_onRun (agent : String) {r : RunId} (f : Run → Run) (hr : r < q.nextRun) :
    agentRunningCount (q.onRun r f) agent + ((q.runs r).any (inFlightOf agent)).toNat =
      agentRunningCount q agent +
        (((q.runs r).map f).any (inFlightOf agent)).toNat := by
  have hself : (q.onRun r f).runs r = (q.runs r).map f := by simp [Queue.onRun]
  have hrest : ∀ i, i ≠ r → (q.onRun r f).runs i = q.runs i :=
    fun i hi => Function.update_of_ne hi _ _
  rw [← hself]
  exact tally_of_ne (p := fun i => (q.runs i).any (inFlightOf agent)) hr
    fun i hi => congrArg (Option.any (inFlightOf agent)) (hrest i hi)

/-- A worker's `requeue` puts at most its own run in flight. -/
theorem requeue_capped {t : TaskId} {reply : Reply} {w : WorkerTask} (hb : Bounded q)
    (hcap : agentRunningCount q agent ≤ agentMaxConcurrent)
    (hroom : ∀ row ∈ revives q (.worker t reply), ∀ agent ∈ row.agentId,
      hasRoom q agent = true)
    (hw : q.workers t = some w) (hpc : w.pc = .requeue)
    (h : RunQueue.step q (.worker t reply) = some q') :
    agentRunningCount q' agent ≤ agentMaxConcurrent := by
  obtain ⟨w', hw', hstep⟩ := stepWorker_inv h
  cases hw.symm.trans hw'
  cases hstep with
  | requeue _ =>
      have hsum := count_onRun agent requeue (hb.workers t w hw)
      change agentRunningCount (q.onRun w.job.runId requeue) agent ≤ agentMaxConcurrent
      cases hrow : q.runs w.job.runId with
      | none =>
          rw [hrow] at hsum
          exact Nat.le_trans (Nat.le_of_eq hsum) hcap
      | some row =>
          rw [hrow, Option.map_some, Option.any_some, Option.any_some] at hsum
          by_cases hagent : row.agentId = some agent
          · by_cases hlive : inFlight row = true
            · have hbefore : inFlightOf agent row = true :=
                inFlightOf_eq_true.mpr ⟨hagent, hlive⟩
              rw [hbefore] at hsum
              have hafter := Bool.toNat_le (inFlightOf agent (requeue row))
              simp only [Bool.toNat_true] at hsum
              omega
            · have hrev : row ∈ revives q (.worker t reply) := by
                simp [revives, hw, hpc, hrow, hlive]
              have hlt := hasRoom_iff.mp (hroom row hrev agent hagent)
              have hafter := Bool.toNat_le (inFlightOf agent (requeue row))
              omega
          · have hother : inFlightOf agent (requeue row) = false := by
              simp [inFlightOf, requeue, hagent]
            rw [hother] at hsum
            simp only [Bool.toNat_false] at hsum
            omega
  | mark row hpc' | leave attempt hpc' | exec attempt pc out hpc'
  | retry attempt row pc hpc' | errorRead hpc' =>
      rw [hpc] at hpc'
      cases hpc'
  | giveUp hpc' =>
      rw [hpc] at hpc'
      rcases hpc' with ⟨_, hpc'⟩ | hpc' <;> cases hpc'

/-- **One step of the queue** keeps the cap when its triggers and its requeue
find room. -/
theorem queue_capped (hb : Bounded q) (hanon : Anonymous q) (hown : ofQueue a = true)
    (hcap : agentRunningCount q agent ≤ agentMaxConcurrent)
    (hfires : ∀ n ∈ fires q a, ∀ agent ∈ n.agentId,
      agentRunningCount q agent + (fires q a).countP (fun n' => n'.agentId = some agent) ≤
        agentMaxConcurrent)
    (hrevives : ∀ row ∈ revives q a, ∀ agent ∈ row.agentId, hasRoom q agent = true)
    (h : RunQueue.step q a = some q') :
    agentRunningCount q' agent ≤ agentMaxConcurrent := by
  by_cases hreq : ∃ t reply w, a = .worker t reply ∧ q.workers t = some w ∧ w.pc = .requeue
  · obtain ⟨t, reply, w, rfl, hw, hpc⟩ := hreq
    exact requeue_capped hb hcap hrevives hw hpc h
  · obtain ⟨rows, happ, hext⟩ := step_appended h hb
    have hold : ∀ r < q.nextRun, (q'.runs r).any (inFlightOf agent) = true →
        (q.runs r).any (inFlightOf agent) = true := by
      intro r hr hlive
      obtain ⟨row', hrow', hlive⟩ := (Option.any_eq_true _ _).mp hlive
      rcases step_new_row h hrow' with ⟨row, hrow⟩ | ⟨hge, _⟩
      · obtain ⟨f, hf, hwrite⟩ := step_row h hrow hr
        cases hrow'.symm.trans hf
        obtain ⟨hagent, hlive⟩ := inFlightOf_eq_true.mp hlive
        rw [rowWrite_agentId hwrite] at hagent
        rcases rowWrite_inFlight hwrite hrow hlive with hlive | ⟨t, reply, w, ha, hw, _, hpc⟩
        · rw [hrow]
          exact inFlightOf_eq_true.mpr ⟨hagent, hlive⟩
        · exact absurd ⟨t, reply, w, ha, hw, hpc⟩ hreq
      · exact absurd hr (Nat.not_lt.mpr hge)
    have hle := agentRunningCount_le hext hold
    have hadded := appended_countP_le agent happ hown hanon
    rcases Nat.eq_zero_or_pos ((fires q a).countP fun n => n.agentId = some agent) with
      hzero | hpos
    · omega
    · obtain ⟨n, hn, hagent⟩ := List.countP_pos_iff.mp hpos
      have hroom := hfires n hn agent (of_decide_eq_true hagent)
      omega

end Queues

/-! ## The cap -/

/-- A call that passed the check had counted fewer runs than the cap. -/
def CallPc.Passed : CallPc → Prop
  | .count => True
  | .spent counted => counted < agentMaxConcurrent
  | .checked counted answer => answer = none → counted < agentMaxConcurrent

structure QuotaInv (s : Quota) : Prop where
  bounded : Bounded s.queue
  anonymous : Anonymous s.queue
  passed : ∀ c call, s.calls c = some call → call.pc.Passed
  capped : Capped s

theorem quotaInv_init (now : Nat) : QuotaInv (Quota.init now) where
  bounded := bounded_init now
  anonymous := fun _ _ h => by cases h
  passed := fun _ _ h => by cases h
  capped := fun _ => Nat.zero_le _

theorem quotaDecide_none {counted : Nat} {seconds : Rat}
    (h : quotaDecide counted seconds = none) : counted < agentMaxConcurrent := by
  unfold quotaDecide at h
  split at h
  · cases h
  · rename_i hlt
    exact Nat.not_le.mp hlt

/-- What `decide` answers is passed. -/
theorem passed_decided (counted : Nat) (seconds : Rat) :
    (CallPc.checked counted (quotaDecide counted seconds)).Passed :=
  fun hnone => quotaDecide_none hnone

section Step

variable {s s' : Quota} {a : Label}

/-- One insert keeps the queue in order and adds at most its own row. -/
theorem QuotaInv.insert (hI : QuotaInv s) {row : Run}
    (hrow : (∃ n, row = insertRunWithBlobs s.queue.now n) ∨
      ∃ n reason, row = insertRefusedRun s.queue.now n reason)
    (hroom : keyTaken s.queue row.idempotencyKey = false → ∀ agent,
      inFlightOf agent row = true → agentRunningCount s.queue agent < agentMaxConcurrent)
    {calls : Nat → Option Call} {nextCall : Nat}
    (hpassed : ∀ c call, calls c = some call → call.pc.Passed) :
    QuotaInv { queue := insertRow s.queue row, calls, nextCall } := by
  unfold insertRow
  split
  · exact ⟨hI.bounded, hI.anonymous, hpassed, hI.capped⟩
  · rename_i hfree
    refine ⟨bounded_addRun hI.bounded hrow, hI.anonymous, hpassed, fun agent => ?_⟩
    have hle := agentRunningCount_addRuns s.queue agent row
    have hcap := hI.capped agent
    refine Nat.le_trans hle ?_
    cases hlive : inFlightOf agent row with
    | false => exact hcap
    | true => exact hroom (Bool.eq_false_iff.mpr hfree) agent hlive

/-- A call after one of its statements has passed what it says it passed. -/
theorem QuotaInv.passed_setCall (hI : QuotaInv s) {c c' : Nat} {call call' : Call}
    {pc : CallPc} (hpc : pc.Passed)
    (h : (s.setCall c (some { call with pc })).calls c' = some call') :
    call'.pc.Passed := by
  rcases update_some h with ⟨_, hnew⟩ | hold
  · cases hnew
    exact hpc
  · exact hI.passed c' call' hold

theorem QuotaInv.passed_over (hI : QuotaInv s) {c c' : Nat} {call' : Call}
    (h : (s.setCall c none).calls c' = some call') : call'.pc.Passed := by
  rcases update_some h with ⟨_, hnew⟩ | hold
  · cases hnew
  · exact hI.passed c' call' hold

/-- A statement of a call keeps the cap when its insert finds room. -/
theorem QuotaInv.stepCall (hI : QuotaInv s) {c : Nat} {seconds : Rat}
    (hC : Room s (.call c seconds)) (h : s.stepCall c seconds = some s') :
    QuotaInv s' := by
  unfold Quota.stepCall at h
  obtain ⟨call, hcall, h⟩ := Option.bind_eq_some_iff.mp h
  have hroom := hC call hcall
  have hpast := hI.passed c call hcall
  cases hpc : call.pc with
  | count =>
      simp only [hpc] at h
      split at h
      · rename_i hfull
        cases h
        refine ⟨hI.bounded, hI.anonymous, fun c' call' hc' => ?_, hI.capped⟩
        exact hI.passed_setCall (passed_decided _ 0) hc'
      · rename_i hlt
        cases h
        refine ⟨hI.bounded, hI.anonymous, fun c' call' hc' => ?_, hI.capped⟩
        have hpassed : (CallPc.spent (agentRunningCount s.queue call.agent)).Passed :=
          Nat.not_le.mp hlt
        exact hI.passed_setCall hpassed hc'
  | spent counted =>
      simp only [hpc] at h
      cases h
      refine ⟨hI.bounded, hI.anonymous, fun c' call' hc' => ?_, hI.capped⟩
      exact hI.passed_setCall (passed_decided counted seconds) hc'
  | checked counted answer =>
      rw [hpc] at hroom hpast
      cases answer with
      | none =>
          simp only [hpc] at h
          cases h
          refine hI.insert (Or.inl ⟨_, rfl⟩) (fun hfree agent hlive => ?_)
            fun c' call' hc' => hI.passed_over hc'
          have hagent : call.agent = agent :=
            Option.some.inj (inFlightOf_eq_true.mp hlive).1
          subst hagent
          rcases hroom hfree with hle | hroom
          · exact Nat.lt_of_le_of_lt hle (hpast rfl)
          · exact hasRoom_iff.mp hroom
      | some refusal =>
          simp only [hpc] at h
          split at h
          · cases h
            exact ⟨hI.bounded, hI.anonymous, fun c' call' hc' => hI.passed_over hc', hI.capped⟩
          · cases h
            refine hI.insert (Or.inr ⟨_, _, rfl⟩) (fun _ agent hlive => ?_)
              fun c' call' hc' => hI.passed_over hc'
            have hfailed := (inFlightOf_eq_true.mp hlive).2
            cases hfailed

/-- Every step that finds room keeps the invariant. -/
theorem QuotaInv.step (hI : QuotaInv s) (hC : Room s a) (h : step s a = some s') :
    QuotaInv s' := by
  cases a with
  | arrive p source agent columns =>
      cases h
      refine ⟨hI.bounded, hI.anonymous, fun c call hc => ?_, hI.capped⟩
      rcases update_some hc with ⟨_, hnew⟩ | hold
      · cases hnew
        trivial
      · exact hI.passed c call hold
  | call c seconds => exact hI.stepCall hC h
  | enqueue n =>
      cases h
      refine hI.insert (Or.inl ⟨n, rfl⟩) (fun hfree agent hlive => ?_) hI.passed
      exact hasRoom_iff.mp (hC hfree agent (inFlightOf_eq_true.mp hlive).1)
  | queue a =>
      simp only [AgentQuota.step] at h
      split at h
      · rename_i hown
        obtain ⟨q, hq, rfl⟩ := Option.map_eq_some_iff.mp h
        refine ⟨hI.bounded.step hq, hI.anonymous.step hown hq, fun c call hc => ?_,
          fun agent => queue_capped hI.bounded hI.anonymous hown (hI.capped agent) hC.1 hC.2 hq⟩
        refine hI.passed c call ?_
        cases a <;> first | exact hc | exact (Option.filter_eq_some_iff.mp hc).1
      · cases h

end Step

/-- **The agent concurrency cap**, over every run of the queue and its
enqueuers in which what is put in flight finds room. -/
theorem agent_capped (now : Nat) (l : List Label) (s : Quota)
    (hroom : Along step Room (Quota.init now) l)
    (hrun : run step (Quota.init now) l = some s) : Capped s :=
  (inv_run (fun _ _ _ hI hC h => hI.step hC h) (quotaInv_init now) hroom hrun).capped

/-! ## Both sides on concrete runs -/

instance (q : Queue) (call : Call) : ∀ pc, Decidable (StillRoom q call pc)
  | .checked _ none => inferInstanceAs (Decidable (_ → _ ∨ _))
  | .checked _ (some _) | .count | .spent _ => .isTrue trivial

instance (s : Quota) : ∀ a, Decidable (Room s a)
  | .arrive _ _ _ _ => .isTrue trivial
  | .call c _ => inferInstanceAs (Decidable (∀ call ∈ s.calls c, _))
  | .enqueue n => inferInstanceAs (Decidable (_ → ∀ agent ∈ n.agentId, _))
  | .queue a =>
      inferInstanceAs (Decidable ((∀ n ∈ fires s.queue a, ∀ agent ∈ n.agentId, _) ∧
        ∀ row ∈ revives s.queue a, ∀ agent ∈ row.agentId, _))

/-- The columns of a run of script 1. -/
def plainColumns : NewRun where
  scriptId := 1
  input := .obj []
  agentId := none
  inputBlobs := none
  captureOutput := false
  idempotencyKey := none

/-- One `run_script` of agent `a`, call `c`, alone. -/
def oneCall (c : Nat) : List Label :=
  [.arrive 0 .runScript "a" plainColumns, .call c 0, .call c 0, .call c 0]

/-- Twenty-four calls one after the other, then two whose checks both run before
either insert. -/
def twoAtOnce : List Label :=
  (List.range 24).flatMap oneCall ++
    [.arrive 0 .runScript "a" plainColumns, .arrive 0 .runScript "a" plainColumns,
      .call 24 0, .call 25 0, .call 24 0, .call 25 0, .call 24 0, .call 25 0]

/-- The same calls with the second check after the first insert, and a refused
tick. -/
def oneByOne : List Label :=
  (List.range 25).flatMap oneCall ++
    [.arrive 0 .tick "a" plainColumns, .call 25 0, .call 25 0,
      .queue (.putScript 1 { runtime := "bash", timeoutSecs := none }),
      .queue (.claim 0 ["bash"] fun _ => false), .queue (.worker 0 .ok)]

/-- The runs the agent has in flight after `l`. -/
def countAfter (l : List Label) (agent : String) : Option Nat :=
  (run step (Quota.init 0) l).map fun s => agentRunningCount s.queue agent

/-- Two checks that both counted 24 runs make 26. -/
theorem not_agent_capped :
    ¬ ∀ l s, run step (Quota.init 0) l = some s → Capped s := by
  have hcount : countAfter twoAtOnce "a" = some 26 := by decide +kernel
  intro h
  obtain ⟨s, hs, hcount⟩ := Option.map_eq_some_iff.mp hcount
  have hle := h twoAtOnce s hs "a"
  rw [hcount] at hle
  exact absurd hle (by decide)

theorem agent_capped_oneByOne :
    Along step Room (Quota.init 0) oneByOne ∧ countAfter oneByOne "a" = some 25 ∧
      ∀ s, run step (Quota.init 0) oneByOne = some s → Capped s := by
  have hroom : Along step Room (Quota.init 0) oneByOne := by decide +kernel
  exact ⟨hroom, by decide +kernel, fun s hs => agent_capped 0 oneByOne s hroom hs⟩

end Dokan.Ports.AgentQuota
