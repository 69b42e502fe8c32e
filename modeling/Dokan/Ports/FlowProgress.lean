import Dokan.Ports.FlowOrder
import Dokan.Ports.FlowRank

/-!
# Whether a resumed flow run moves on

`running` is a status only the task that wrote it takes away again, and no
pass looks at a running step.  A driver that dies between `set_step_running`
and `finish_step` therefore leaves a step nobody will ever touch; where it dies
at any other point, every pass over an unfinished ledger finds something to do.

## Main results

* `actionable` — an unfinished ledger without running and failed steps has a
  map parent to close or a pending step to act on.
* `Progress.step` — as long as no crash leaves a running step, a driver's pass
  has something to write or to execute.
-/

namespace Dokan.Ports.FlowProgress

open Dokan.Verified
open Dokan.Verified.Json
open Dokan.Ports.RunRow
open Dokan.Ports.FlowRow
open Dokan.Ports.FlowSpec
open Dokan.Ports.FlowEval
open Dokan.Ports.FlowDriver
open Dokan.Ports.FlowLedger
open Dokan.Ports.FlowMoves
open Dokan.Ports.FlowOrder
open Dokan.Ports.FlowRank

variable {base steps : List FlowStep} {parse : String → Option Value} {input : Value}

/-! ## Something to do -/

/-- No step is being executed. -/
def NoRunning (steps : List FlowStep) : Prop := ∀ x ∈ steps, x.status ≠ .running

instance (steps : List FlowStep) : Decidable (NoRunning steps) :=
  inferInstanceAs (Decidable (∀ x ∈ steps, x.status ≠ .running))

/-- A pending step whose turn has come is acted on. -/
theorem actions_ne_nil {s : FlowStep} (hs : s ∈ steps) (hpend : s.status = .pending)
    (hready : depReady steps s = true) :
    (actions parse input steps).filterMap Action.write? ≠ [] ∨
      (actions parse input steps).filterMap Action.run? ≠ [] := by
  have hmem : action parse input steps s ∈ actions parse input steps :=
    List.mem_map_of_mem (List.mem_filter.mpr ⟨hs, by simpa using hpend⟩)
  cases hact : action parse input steps s with
  | wait =>
      simp only [action, hready] at hact
      split_ifs at hact
      · rename_i hnot
        cases hnot
      · split at hact <;> cases hact
  | write w =>
      refine .inl (List.ne_nil_of_mem (a := w) ?_)
      exact List.mem_filterMap.mpr ⟨_, hmem, by rw [hact]; rfl⟩
  | run r =>
      refine .inr (List.ne_nil_of_mem (a := r) ?_)
      exact List.mem_filterMap.mpr ⟨_, hmem, by rw [hact]; rfl⟩

/-- Every dependency succeeded or skipped makes a step actionable. -/
theorem depReady_of {s : FlowStep} (hL : Ledger base steps)
    (h : ∀ d ∈ s.dependsOn, ∃ t ∈ steps, t.stepId = d ∧ t.status.settled = true) :
    depReady steps s = true := by
  refine List.all_eq_true.mpr fun d hd => ?_
  obtain ⟨t, ht, rfl, hset⟩ := h d hd
  have hfind := Rows.find_of_mem hL.nodup ht
  rw [Bool.or_eq_true]
  cases hstatus : t.status with
  | succeeded =>
      exact .inl (Option.isSome_iff_exists.mpr
        ⟨_, outputs_eq_some.mpr ⟨t, hfind, hstatus, rfl⟩⟩)
  | skipped => exact .inr (isSkipped_iff.mpr ⟨t, hfind, hstatus⟩)
  | pending => rw [hstatus] at hset; cases hset
  | running => rw [hstatus] at hset; cases hset
  | expanded => rw [hstatus] at hset; cases hset
  | failed => rw [hstatus] at hset; cases hset

theorem depReady_of_readyDeps {s : FlowStep} (hL : Ledger base steps)
    (h : ReadyDeps steps s) : depReady steps s = true := by
  refine depReady_of hL fun d hd => ?_
  obtain ⟨t, ht, hid, hstatus⟩ := h d hd
  exact ⟨t, ht, hid, by rw [hstatus]; rfl⟩

/-- An expanded parent that cannot be closed has a child to act on. -/
theorem actionable_of_expanded {p : FlowStep} (hL : Ledger base steps)
    (hbase : NoHash base) (hcalm : NoRunning steps) (hp : p ∈ steps)
    (hexp : p.status = .expanded) (hagg : aggregates steps = []) :
    (actions parse input steps).filterMap Action.write? ≠ [] ∨
      (actions parse input steps).filterMap Action.run? ≠ [] := by
  obtain ⟨hpb, c₀, hc₀, hchild₀⟩ := hL.parent p hp hexp
  have hash := hbase.of_fresh hpb
  have hnone : aggregateChildren steps p.stepId = none := by
    have hmem : p ∈ steps.filter fun s => s.status = .expanded :=
      List.mem_filter.mpr ⟨hp, by simpa using hexp⟩
    have h := List.filterMap_eq_nil_iff.mp hagg p hmem
    simpa using h
  -- some child is still active
  have hactive : ∃ c ∈ steps, isChildOf p.stepId c = true ∧ c.status.active = true := by
    obtain ⟨i, hi⟩ := hchild₀.stepId
    have hmem : c₀ ∈ steps.filter (isChildOf p.stepId) :=
      List.mem_filter.mpr ⟨hc₀, (isChildOf_childId hash hash hi).mpr rfl⟩
    simp only [aggregateChildren] at hnone
    split_ifs at hnone with hempty hact
    · rw [List.isEmpty_iff] at hempty
      rw [hempty] at hmem
      cases hmem
    · obtain ⟨c, hc, hca⟩ := List.any_eq_true.mp hact
      obtain ⟨hc, hcc⟩ := List.mem_filter.mp hc
      exact ⟨c, hc, hcc, hca⟩
  obtain ⟨c, hc, hcc, hca⟩ := hactive
  rcases hL.origin c hc with hcb | ⟨p', hp', hpb', hchild, _⟩
  · rw [isChildOf_eq_false (hbase.of_fresh hcb)] at hcc
    cases hcc
  · obtain ⟨i, hi⟩ := hchild.stepId
    have hid := (isChildOf_childId hash (hbase.of_fresh hpb') hi).mp hcc
    obtain rfl := Rows.eq_of_key_eq hL.nodup hp' hp hid
    have hdeps : ReadyDeps steps c := by
      have h := hL.ordered p' hp (by rw [hexp]; rfl)
      intro d hd
      rw [hchild.dependsOn] at hd
      exact h d hd
    cases hstatus : c.status with
    | pending => exact actions_ne_nil hc hstatus (depReady_of_readyDeps hL hdeps)
    | running => exact absurd hstatus (hcalm c hc)
    | expanded => exact absurd (hL.parent c hc hstatus).1 (hchild.not_base hbase)
    | skipped => rw [hstatus] at hca; cases hca
    | succeeded => rw [hstatus] at hca; cases hca
    | failed => rw [hstatus] at hca; cases hca

/-- **Something to do.**  An unfinished ledger without running or failed steps
has a map parent to close or a pending step to act on. -/
theorem actionable (hvalid : ValidLedger base)
    (hL : Ledger base steps) (hcalm : NoRunning steps)
    (hfail : ∀ s ∈ steps, s.status ≠ .failed)
    (hactive : ∃ s ∈ steps, s.status.active = true) (hagg : aggregates steps = []) :
    (actions parse input steps).filterMap Action.write? ≠ [] ∨
      (actions parse input steps).filterMap Action.run? ≠ [] := by
  have hbase : NoHash base := hvalid.noHash
  obtain ⟨order, hall, htopo⟩ := hvalid.topo
  -- a step of the spec is unfinished: the active one, or its parent
  let unfinished : String → Prop := fun id =>
    ∃ s ∈ steps, s.stepId = id ∧ fresh s ∈ base ∧ s.status.active = true
  have hsome : ∃ id ∈ order, unfinished id := by
    obtain ⟨s, hs, hact⟩ := hactive
    have hin : ∀ t ∈ steps, fresh t ∈ base → t.stepId ∈ order := by
      intro t _ htb
      simpa [fresh] using hall (fresh t) htb
    rcases hL.origin s hs with hsb | ⟨p, hp, hpb, _, _, hexp⟩
    · exact ⟨s.stepId, hin s hs hsb, s, hs, rfl, hsb, hact⟩
    · exact ⟨p.stepId, hin p hp hpb, p, hp, rfl, hpb, by rw [hexp hact]; rfl⟩
  -- take the first one in topological order
  obtain ⟨id, _, ⟨s, hs, rfl, hsb, hact⟩, hmin⟩ := htopo.exists_minimal unfinished hsome
  have hfind : base.find? (fun t => t.stepId == s.stepId) = some (fresh s) :=
    Rows.find_of_mem hvalid.nodup hsb
  have hdeps : ∀ d ∈ s.dependsOn, ∃ t ∈ steps, t.stepId = d ∧ t.status.settled = true := by
    intro d hd
    obtain ⟨b, hb, rfl⟩ := hvalid.known (fresh s) hsb d hd
    obtain ⟨t, ht, rfl⟩ := hL.kept b hb
    refine ⟨t, ht, rfl, ?_⟩
    have hnot : ¬ unfinished (fresh t).stepId := by
      refine hmin _ ?_
      rw [hfind]
      exact hd
    have hinactive : t.status.active = false := by
      rw [Bool.eq_false_iff]
      exact fun h => hnot ⟨t, ht, rfl, hb, h⟩
    have hnf := hfail t ht
    cases hstatus : t.status with
    | skipped => rfl
    | succeeded => rfl
    | failed => exact absurd hstatus hnf
    | pending => rw [hstatus] at hinactive; cases hinactive
    | running => rw [hstatus] at hinactive; cases hinactive
    | expanded => rw [hstatus] at hinactive; cases hinactive
  cases hstatus : s.status with
  | pending => exact actions_ne_nil hs hstatus (depReady_of hL hdeps)
  | running => exact absurd hstatus (hcalm s hs)
  | expanded => exact actionable_of_expanded hL hbase hcalm hs hstatus hagg
  | skipped => rw [hstatus] at hact; cases hact
  | succeeded => rw [hstatus] at hact; cases hact
  | failed => rw [hstatus] at hact; cases hact

/-! ## The condition and the invariant -/

/-- The database answers, and the driver dies only while no step of the ledger
is running. -/
def ProgressCond (s : Flow) : Label → Prop
  | .crash => NoRunning s.steps
  | .drive reply => reply.isError = false
  | .task _ reply => reply.isError = false
  | _ => True

instance (s : Flow) : ∀ a, Decidable (ProgressCond s a)
  | .crash => inferInstanceAs (Decidable (NoRunning s.steps))
  | .drive reply => inferInstanceAs (Decidable (reply.isError = false))
  | .task _ reply => inferInstanceAs (Decidable (reply.isError = false))
  | .tick _ => .isTrue trivial
  | .claim => .isTrue trivial
  | .reap => .isTrue trivial

/-- Some step of the snapshot has another status now. -/
def Changed (snap steps : List FlowStep) : Prop :=
  ∃ x ∈ snap, ∃ y ∈ steps, y.stepId = x.stepId ∧ y.status ≠ x.status

/-- A step has changed that is not about to be written again. -/
def ChangedFor (snap steps : List FlowStep) (ws : List Write) : Prop :=
  ∃ x ∈ snap, ∃ y ∈ steps, y.stepId = x.stepId ∧ y.status ≠ x.status ∧
    x.stepId ∉ ws.map Write.id

/-- The status of a flow run that is over. -/
def ended (status : FlowStatus) : Prop :=
  status = .succeeded ∨ status = .failed ∨ status = .compensationFailed

/-- What a pass that is writing has done, and still has to do. -/
structure Decided (snap steps : List FlowStep) (ws : List Write) (toRun : List Ready)
    (p : Bool) : Prop where
  calm : NoRunning steps
  todo : ws ≠ [] ∨ toRun ≠ [] ∨ p = true
  target : ∀ w ∈ ws, decides w = true ∧ ∃ x ∈ snap, x ∈ steps ∧ x.stepId = w.id
  pending : ∀ r ∈ toRun, ∃ x ∈ snap, x.stepId = r.step.stepId ∧ x.status = .pending
  changed : p = true → ChangedFor snap steps ws

/-- What the tasks of a pass have done, and still have to do. -/
structure Joining (snap steps : List FlowStep) (tasks : List Task) : Prop where
  nonempty : tasks ≠ []
  running : ∀ x ∈ steps, x.status = .running →
    ∃ t ∈ tasks, t.id = x.stepId ∧ t.isDone = false
  pending : ∀ t ∈ tasks, ∃ x ∈ snap, x.stepId = t.id ∧ x.status = .pending
  done : ∀ t ∈ tasks, t.isDone = true →
    ∃ y ∈ steps, y.stepId = t.id ∧ y.status.active = false

/-- The ledger the current pass has read. -/
def passOf : DriverPc → Option (List FlowStep)
  | .writing snap _ _ _ => some snap
  | .await snap _ => some snap
  | _ => none

/-- What the point of the driver says about the ledger. -/
def PcProgress (s : Flow) : Prop :=
  match s.pc with
  | .writing snap ws toRun p => Decided snap s.steps ws toRun p
  | .await snap tasks => Joining snap s.steps tasks
  | .idle => False
  | .errored => False
  | .finish status => NoRunning s.steps ∧ ended status
  | _ => NoRunning s.steps

variable {now : Nat} {w : Write} {s s' : Flow}

/-- A decision of a pass changes the status of its row, and not to
`running`. -/
theorem row_changes {x : FlowStep} (h : LegalAt base steps x w) (hd : decides w = true) :
    (Write.row now w x).status ≠ x.status ∧ (Write.row now w x).status ≠ .running := by
  cases w with
  | setRunning id runId => cases hd
  | finish id status output =>
      obtain ⟨hst, hact, _⟩ := h
      rcases hst with rfl | rfl
      · refine ⟨fun heq => ?_, fun heq => by cases heq⟩
        rw [← heq] at hact
        cases hact
      · refine ⟨fun heq => ?_, fun heq => by cases heq⟩
        rw [← heq] at hact
        cases hact
  | skip id =>
      have hpend : x.status = .pending := h
      rw [hpend]
      exact ⟨(fun heq => by cases heq), fun heq => by cases heq⟩
  | expand parent children cache =>
      rw [h.1]
      exact ⟨(fun heq => by cases heq), fun heq => by cases heq⟩
  | compensated id => cases hd

theorem noRunning_write (hL : Ledger base steps) (hbase : NoHash base)
    (hw : Legal base steps w) (hd : decides w = true) (h : NoRunning steps) :
    NoRunning (w.apply now steps) := by
  intro x hx
  rcases (mem_apply hL hbase hw).mp hx with ⟨hx, _⟩ | ⟨y, hy, hid, rfl⟩ | hx
  · exact h x hx
  · exact (row_changes (hw.target hL hy hid) hd).2
  · obtain ⟨_, _, _, _, _, hpend, _⟩ := hw.mem_rows now hx
    rw [hpend]
    decide

/-- `mark_step_compensated` changes no status. -/
theorem noRunning_mark {id : String} (h : NoRunning steps) :
    NoRunning ((Write.compensated id).apply now steps) := by
  intro x hx
  rw [apply_eq] at hx
  obtain ⟨y, hy, rfl⟩ := List.mem_map.mp hx
  split_ifs
  · exact h y hy
  · exact h y hy

/-- **The next decision of a pass.** -/
theorem Decided.write {snap : List FlowStep} {ws : List Write} {toRun : List Ready}
    {p : Bool} (h : Decided snap steps (w :: ws) toRun p)
    (hW : Writing base steps (w :: ws) toRun) (hL : Ledger base steps)
    (hbase : NoHash base) : Decided snap (w.apply now steps) ws toRun true := by
  obtain ⟨hw, _, hne, _⟩ := hW.tail
  obtain ⟨hd, x, hx, hxs, hid⟩ := h.target w List.mem_cons_self
  refine ⟨noRunning_write hL hbase hw hd h.calm, .inr (.inr rfl), ?_, h.pending, fun _ => ?_⟩
  · intro w' hw'
    obtain ⟨hd', y, hy, hys, hid'⟩ := h.target w' (List.mem_cons_of_mem _ hw')
    refine ⟨hd', y, hy, mem_apply_of_ne hL hbase hw hys ?_, hid'⟩
    rw [hid']
    exact hne w' hw'
  · refine ⟨x, hx, Write.row now w x, ?_, stepId_row w x, ?_, ?_⟩
    · exact (mem_apply hL hbase hw).mpr (.inr (.inl ⟨x, hxs, hid, rfl⟩))
    · exact (row_changes (hw.target hL hxs hid) hd).1
    · rw [hid]
      intro hmem
      obtain ⟨w', hw', hid'⟩ := List.mem_map.mp hmem
      exact hne w' hw' hid'

/-- What a pass decides, when nothing is running. -/
theorem pcProgress_pass (hvalid : ValidLedger base) (hL : Ledger base s.steps)
    (hcalm : NoRunning s.steps) : PcProgress (s.goto (pass parse s.input s.steps)) := by
  have hbase : NoHash base := hvalid.noHash
  rcases pass_cases parse s.input s.steps with
    ⟨_, hpass⟩ | ⟨hfail, ⟨_, hpass⟩ | ⟨hactive, ws, toRun, hpass, hws⟩⟩
  · rw [hpass]
    exact hcalm
  · rw [hpass]
    exact ⟨hcalm, .inl rfl⟩
  · have hsome : ws ≠ [] ∨ toRun ≠ [] := by
      rcases hws with ⟨_, _, hne⟩ | ⟨hagg, rfl, rfl⟩
      · exact .inl hne
      · exact actionable hvalid hL hcalm hfail hactive hagg
    have hdec : ∀ w ∈ ws, decides w = true := by
      rcases hws with ⟨rfl, _⟩ | ⟨_, rfl, _⟩
      · exact decides_aggregates
      · exact decides_actions
    have hlegal : Writing base s.steps ws toRun := by
      have h : PcOk base s.steps (pass parse s.input s.steps) := pass_ok hL hbase
      rw [hpass] at h
      exact h
    rw [hpass]
    refine ⟨hcalm, hsome.imp id .inl, ?_, ?_, fun h => by cases h⟩
    · intro w hw
      refine ⟨hdec w hw, ?_⟩
      rcases hlegal.legal w hw with ⟨id, rfl⟩ | ⟨x, hx, hid, _⟩
      · cases hdec _ hw
      · exact ⟨x, hx, hx, hid⟩
    · intro r hr
      rcases hws with ⟨_, rfl, _⟩ | ⟨_, _, rfl⟩
      · cases hr
      · obtain ⟨a, ha, hr⟩ := List.mem_filterMap.mp hr
        obtain ⟨x, hx, rfl⟩ := List.mem_map.mp ha
        obtain ⟨hx, hpend⟩ := List.mem_filter.mp hx
        have hpend' : x.status = .pending := by simpa using hpend
        have hrun : r.step = x ∧ Runnable base s.steps x.stepId :=
          action_run hx hpend' (action_run? hr)
        exact ⟨x, hx, by rw [hrun.1], hpend'⟩

/-- After the last decision: there are tasks to wait for, or something has
changed. -/
theorem Decided.afterWrites {snap : List FlowStep} {toRun : List Ready} {p : Bool}
    (h : Decided snap s.steps [] toRun p) :
    PcProgress (s.goto (afterWrites snap toRun p)) := by
  unfold FlowDriver.afterWrites
  split_ifs with hrun hp
  · refine ⟨?_, ?_, ?_, ?_⟩
    · cases toRun with
      | nil => cases hrun
      | cons r toRun => simp
    · exact fun x hx hstatus => absurd hstatus (h.calm x hx)
    · intro t ht
      obtain ⟨r, hr, rfl⟩ := List.mem_map.mp ht
      exact h.pending r hr
    · intro t ht hdone
      obtain ⟨r, _, rfl⟩ := List.mem_map.mp ht
      cases hdone
  · exact h.calm
  · rcases h.todo with h | h | h
    · exact h rfl
    · cases toRun with
      | nil => exact h rfl
      | cons r toRun => exact hrun rfl
    · exact hp h

/-- A statement of `run_step` without effect on the ledger, and without a
database error, does not end the task. -/
theorem quiet_not_done {x : FlowStep} {pc pc' : TaskPc} {reply : Reply}
    (h : taskStep x pc reply = some (pc', none)) (herr : reply.isError = false) :
    pc' ≠ .done := by
  have hnext : ∀ k, nextAttempt x k ≠ .done := by
    intro k
    unfold nextAttempt
    split_ifs
    · exact fun h => by cases h
    · exact fun h => by cases h
  have hpc : ∀ {pc : TaskPc} {w : Option Write},
      some (pc, w) = some (.done, none) → pc = .done :=
    fun h => (Prod.mk.inj (Option.some.inj h)).1
  rintro rfl
  unfold taskStep at h
  split at h <;> try cases h
  -- the statements that can lead to the head of the attempt loop or to the end
  · split_ifs at h
    · cases h
    · cases h
    · exact hnext _ (hpc h)
  · exact hnext _ (hpc h)
  · cases herr
  · split_ifs at h
    · cases h
    · exact hnext _ (hpc h)
  · cases herr
  · cases herr
  · cases herr

theorem isDone_eq_false {t : Task} {pc : TaskPc} (h : pc ≠ .done) :
    ({ t with pc } : Task).isDone = false := by
  unfold Task.isDone
  split
  · next heq => exact absurd heq h
  · rfl

/-- A task moves without a statement on the ledger. -/
theorem Joining.set {snap : List FlowStep} {tasks : List Task} {i : Nat} {t : Task}
    {pc : TaskPc} (h : Joining snap steps tasks) (hids : (tasks.map Task.id).Nodup)
    (ht : tasks[i]? = some t) (hdone : pc ≠ .done) :
    Joining snap steps (tasks.set i { t with pc }) := by
  have hnot := isDone_eq_false (t := t) hdone
  have hmem := List.mem_of_getElem? ht
  refine ⟨?_, ?_, ?_, ?_⟩
  · intro hnil
    have hnew : { t with pc } ∈ tasks.set i { t with pc } := Rows.mem_set_self ht
    rw [hnil] at hnew
    cases hnew
  · intro x hx hstatus
    obtain ⟨t', ht', hid, hd⟩ := h.running x hx hstatus
    by_cases heq : t'.id = t.id
    · exact ⟨_, Rows.mem_set_self ht, heq.symm.trans hid, hnot⟩
    · exact ⟨t', Rows.mem_set_of_ne ht ht' heq, hid, hd⟩
  · intro t' ht'
    rcases Rows.mem_set hids ht ht' with rfl | ⟨ht', _⟩
    · exact h.pending t hmem
    · exact h.pending t' ht'
  · intro t' ht' hd
    rcases Rows.mem_set hids ht ht' with rfl | ⟨ht', _⟩
    · rw [hnot] at hd
      cases hd
    · exact h.done t' ht' hd

/-- A task issues a statement on its own row: the row is running afterwards,
or the step is over and so is the task. -/
theorem Joining.write {snap : List FlowStep} {tasks : List Task} {i : Nat} {t : Task}
    {pc : TaskPc} (h : Joining snap steps tasks) (hids : (tasks.map Task.id).Nodup)
    (ht : tasks[i]? = some t) (hL : Ledger base steps) (hbase : NoHash base)
    (hw : Legal base steps w) (hid : w.id = t.id) (hrows : Write.rows w = [])
    (hex : ∃ x ∈ steps, x.stepId = t.id)
    (hstatus : (∀ x, (Write.row now w x).status = .running) ∧ pc ≠ .done ∨
      ∀ x, (Write.row now w x).status.active = false) :
    Joining snap (w.apply now steps) (tasks.set i { t with pc }) := by
  have hmem := List.mem_of_getElem? ht
  refine ⟨?_, ?_, ?_, ?_⟩
  · intro hnil
    have hnew : { t with pc } ∈ tasks.set i { t with pc } := Rows.mem_set_self ht
    rw [hnil] at hnew
    cases hnew
  · intro x hx hrun
    rcases (mem_apply hL hbase hw).mp hx with ⟨hx, hne⟩ | ⟨y, hy, hyid, rfl⟩ | hx
    · obtain ⟨t', ht', hid', hd⟩ := h.running x hx hrun
      have hne' : t'.id ≠ t.id := by
        rw [hid', ← hid]
        exact hne
      exact ⟨t', Rows.mem_set_of_ne ht ht' hne', hid', hd⟩
    · rcases hstatus with ⟨_, hpc⟩ | hinactive
      · refine ⟨_, Rows.mem_set_self ht, ?_, isDone_eq_false hpc⟩
        rw [stepId_row, hyid, hid]
        rfl
      · have hact := hinactive y
        rw [hrun] at hact
        cases hact
    · rw [hrows] at hx
      cases hx
  · intro t' ht'
    rcases Rows.mem_set hids ht ht' with rfl | ⟨ht', _⟩
    · exact h.pending t hmem
    · exact h.pending t' ht'
  · intro t' ht' hd
    rcases Rows.mem_set hids ht ht' with rfl | ⟨ht', hne⟩
    · rcases hstatus with ⟨_, hpc⟩ | hinactive
      · rw [isDone_eq_false hpc] at hd
        cases hd
      · obtain ⟨y, hy, hyid⟩ := hex
        refine ⟨Write.row now w y, ?_, (stepId_row w y).trans hyid, hinactive y⟩
        exact (mem_apply hL hbase hw).mpr (.inr (.inl ⟨y, hy, hyid.trans hid.symm, rfl⟩))
    · obtain ⟨y, hy, hyid, hact⟩ := h.done t' ht' hd
      refine ⟨y, mem_apply_of_ne hL hbase hw hy ?_, hyid, hact⟩
      rw [hyid, hid]
      exact hne

/-- When the tasks have joined, nothing is running and something has
changed. -/
theorem Joining.joined {snap : List FlowStep} {tasks : List Task}
    (h : Joining snap steps tasks) (hdone : tasks.all Task.isDone = true) :
    NoRunning steps ∧ Changed snap steps := by
  refine ⟨?_, ?_⟩
  · intro x hx hrun
    obtain ⟨t, ht, _, hd⟩ := h.running x hx hrun
    rw [List.all_eq_true.mp hdone t ht] at hd
    cases hd
  · obtain ⟨t, ht⟩ := List.exists_mem_of_ne_nil tasks h.nonempty
    obtain ⟨x, hx, hid, hpend⟩ := h.pending t ht
    obtain ⟨y, hy, hyid, hact⟩ := h.done t ht (List.all_eq_true.mp hdone t ht)
    refine ⟨x, hx, y, hy, hyid.trans hid.symm, ?_⟩
    intro heq
    rw [heq, hpend] at hact
    cases hact

/-- The invariant of a flow run whose crashes leave no running step. -/
structure Progress (base : List FlowStep) (s : Flow) : Prop where
  inv : Inv base s
  pc : PcProgress s

/-- What an allowed step says about the ledger, by the point of the driver. -/
theorem pcProgress_step {a : Label} (hI : Inv base s) (hpc : PcProgress s)
    (hvalid : ValidLedger base) (hcond : ProgressCond s a)
    (h : step parse s a = some s') :
    PcProgress s' ∧
      ∀ snap, passOf s.pc = some snap → s'.pc = .top → Changed snap s'.steps := by
  have hbase : NoHash base := hvalid.noHash
  have hL := hI.ledger
  have hok := hI.pc
  unfold PcProgress at hpc
  -- the driver is not inside a pass over a snapshot
  have hout : ∀ {P : Prop}, passOf s.pc = none → P →
      P ∧ ∀ snap, passOf s.pc = some snap → s'.pc = .top → Changed snap s'.steps := by
    intro P hnone hP
    refine ⟨hP, fun snap hsnap => ?_⟩
    rw [hnone] at hsnap
    cases hsnap
  cases step_move h with
  | tick d =>
      refine ⟨hpc, fun snap hsnap htop => ?_⟩
      rw [show s.pc = .top from htop] at hsnap
      cases hsnap
  | claim hoff hpend =>
      rw [hoff] at hpc
      exact hout (by rw [hoff]; rfl) hpc
  | reap hoff hrun =>
      refine hout (by rw [hoff]; rfl) ?_
      unfold PcProgress
      rw [show s.pc = .off from hoff] at hpc ⊢
      exact hpc
  | crash hon => exact ⟨hcond, fun snap _ htop => by cases htop⟩
  | pass htop =>
      rw [htop] at hpc
      exact hout (by rw [htop]; rfl) (pcProgress_pass hvalid hL hpc)
  | readError htop => cases hcond
  | @write snap w ws toRun p hpc' =>
      rw [hpc'] at hpc hok
      exact ⟨Decided.write hpc hok hL hbase, fun snap _ htop => by cases htop⟩
  | writeError hpc' => cases hcond
  | @wrote snap toRun p hpc' =>
      rw [hpc'] at hpc
      refine ⟨Decided.afterWrites hpc, fun snap' hsnap htop => ?_⟩
      rw [hpc'] at hsnap
      cases hsnap
      have hp : p = true := by
        simp only [Flow.goto, afterWrites] at htop
        split_ifs at htop with _ hp
        exact hp
      obtain ⟨x, hx, y, hy, hid, hne, _⟩ := Decided.changed hpc hp
      exact ⟨x, hx, y, hy, hid, hne⟩
  | @join snap tasks hpc' hdone =>
      rw [hpc'] at hpc
      obtain ⟨hcalm, hchanged⟩ := Joining.joined hpc hdone
      refine ⟨hcalm, fun snap' hsnap _ => ?_⟩
      rw [hpc'] at hsnap
      cases hsnap
      exact hchanged
  | wake hidle =>
      rw [hidle] at hpc
      exact hpc.elim
  | compensated hpc' =>
      rw [hpc'] at hpc
      refine hout (by rw [hpc']; rfl) ⟨hpc, ?_⟩
      split_ifs
      · exact .inr (.inr rfl)
      · exact .inr (.inl rfl)
  | comp hpc' hcomp =>
      rw [hpc'] at hpc
      refine hout (by rw [hpc']; rfl) ?_
      obtain ⟨⟨todo, failed, stage, hpc''⟩, _, _, hsteps⟩ := compStep_cases hcomp
      unfold PcProgress
      rw [hpc'']
      rcases hsteps with hsteps | hsteps
      · rw [hsteps]
        exact hpc
      · rw [hsteps]
        exact noRunning_mark hpc
  | finish hpc' =>
      rw [hpc'] at hpc
      exact hout (by rw [hpc']; rfl) hpc.1
  | finishError hpc' => cases hcond
  | finishLost hpc' => cases hcond
  | record hpc' =>
      rw [hpc'] at hpc
      exact hpc.elim
  | recordError hpc' => cases hcond
  | @task i reply snap tasks t pc hpc' ht hstep =>
      rw [hpc'] at hpc hok
      refine ⟨Joining.set hpc (Awaiting.ids hok) ht (quiet_not_done hstep hcond), ?_⟩
      exact fun snap _ htop => by cases htop
  | @taskWrite i reply snap tasks t pc w hpc' ht hstep =>
      rw [hpc'] at hpc hok
      refine ⟨?_, fun snap _ htop => by cases htop⟩
      have hrun := Awaiting.runnable hok t (List.mem_of_getElem? ht) (isDone_of_step hstep)
      have hex : ∃ x ∈ s.steps, x.stepId = t.id := by
        rcases hrun with ⟨_, heq⟩ | ⟨x, hx, hid, _⟩
        · cases heq
        · exact ⟨x, hx, hid⟩
      obtain ⟨_, heq | ⟨k, r, rfl, heq⟩ | ⟨status, output, rfl, hst, heq⟩⟩ :=
        taskStep_cases hstep
      · cases heq
      · cases heq
        have hrow : ∀ x, (Write.row s.now (.setRunning t.step.stepId r) x).status =
            .running := fun _ => rfl
        exact Joining.write hpc (Awaiting.ids hok) ht hL hbase (hrun.setRunning r) rfl rfl
          hex (.inl ⟨hrow, fun heq => by cases heq⟩)
      · cases heq
        have hrow : ∀ x, (Write.row s.now (.finish t.step.stepId status output)
            x).status.active = false := by
          intro x
          rcases hst with rfl | rfl
          · rfl
          · rfl
        exact Joining.write hpc (Awaiting.ids hok) ht hL hbase (hrun.finish hst output) rfl
          rfl hex (.inr hrow)

/-- **Every allowed step keeps the invariant**, and a pass that comes back to
the head of the loop has changed something. -/
theorem Progress.step {a : Label} (hP : Progress base s) (hvalid : ValidLedger base)
    (hcond : ProgressCond s a) (h : step parse s a = some s') :
    Progress base s' ∧
      ∀ snap, passOf s.pc = some snap → s'.pc = .top → Changed snap s'.steps := by
  obtain ⟨hpc, hchanged⟩ := pcProgress_step hP.inv hP.pc hvalid hcond h
  exact ⟨⟨(hP.inv.step hvalid.noHash h).1, hpc⟩, hchanged⟩

end Dokan.Ports.FlowProgress
