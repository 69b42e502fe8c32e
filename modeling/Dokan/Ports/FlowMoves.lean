import Dokan.Ports.FlowLedger

/-!
# What one step of a flow run may do

`Move` says once what each label does, `compStep_cases` and `taskStep_cases`
what a statement of `compensate` and of `run_step` may be.  From these comes
the invariant of a flow run: its ledger is one, and every statement the driver
is still about to issue is legal.

## Main results

* `step_move` — every step is a `Move`.
* `pass_ok` — what a pass decides is legal on the ledger it read.
* `Inv.step` — the invariant is kept, and settled rows are left alone.
-/

namespace Dokan.Ports.FlowMoves

open Dokan.Verified
open Dokan.Verified.Json
open Dokan.Ports.RunRow
open Dokan.Ports.FlowRow
open Dokan.Ports.FlowSpec
open Dokan.Ports.FlowEval
open Dokan.Ports.FlowDriver
open Dokan.Ports.FlowLedger

/-! ## Inversion -/

section Inversion

variable {parse : String → Option Value} {s s' : Flow}

/-- The steps of a flow run, by label. -/
inductive Move (parse : String → Option Value) (s : Flow) : Label → Flow → Prop
  | tick (d : Nat) : Move parse s (.tick d) { s with now := s.now + d }
  | claim (hoff : s.pc = .off) (hpend : s.status = .pending) :
      Move parse s .claim { s with status := .running, pc := .top }
  | reap (hoff : s.pc = .off) (hrun : s.status = .running) :
      Move parse s .reap { s with status := .pending }
  | crash (hon : s.pc ≠ .off) : Move parse s .crash (s.goto .off)
  | pass (htop : s.pc = .top) :
      Move parse s (.drive .ok) (s.goto (pass parse s.input s.steps))
  | readError {msg : String} (htop : s.pc = .top) :
      Move parse s (.drive (.err msg)) (s.goto .errored)
  | write {snap : List FlowStep} {w : Write} {ws : List Write} {toRun : List Ready}
      {p : Bool} (hpc : s.pc = .writing snap (w :: ws) toRun p) :
      Move parse s (.drive .ok) (s.write w (.writing snap ws toRun true))
  | writeError {msg : String} {snap : List FlowStep} {w : Write} {ws : List Write}
      {toRun : List Ready} {p : Bool} (hpc : s.pc = .writing snap (w :: ws) toRun p) :
      Move parse s (.drive (.err msg)) (s.goto (.writing snap ws toRun true))
  | wrote {snap : List FlowStep} {toRun : List Ready} {p : Bool}
      (hpc : s.pc = .writing snap [] toRun p) :
      Move parse s (.drive .ok) (s.goto (afterWrites snap toRun p))
  | join {snap : List FlowStep} {tasks : List Task} (hpc : s.pc = .await snap tasks)
      (hdone : tasks.all Task.isDone = true) : Move parse s (.drive .ok) (s.goto .top)
  | wake (hidle : s.pc = .idle) : Move parse s (.drive .ok) (s.goto .top)
  | compensated {failed : Nat} {stage : CompStage}
      (hpc : s.pc = .compensate [] failed stage) :
      Move parse s (.drive .ok)
        (s.goto (.finish (if failed > 0 then .compensationFailed else .failed)))
  | comp {x : FlowStep} {todo : List FlowStep} {failed : Nat} {stage : CompStage}
      {reply : Reply} {s' : Flow} (hpc : s.pc = .compensate (x :: todo) failed stage)
      (h : compStep s x todo failed stage reply = some s') :
      Move parse s (.drive reply) s'
  | finish {status : FlowStatus} (hpc : s.pc = .finish status) :
      Move parse s (.drive .ok) { s with status, pc := .off }
  | finishError {status : FlowStatus} {msg : String} (hpc : s.pc = .finish status) :
      Move parse s (.drive (.err msg)) (s.goto .errored)
  | finishLost {status : FlowStatus} (hpc : s.pc = .finish status) :
      Move parse s (.drive .lost) { s with status, pc := .errored }
  | record (hpc : s.pc = .errored) :
      Move parse s (.drive .ok) { s with status := .failed, pc := .off }
  | recordError {msg : String} (hpc : s.pc = .errored) :
      Move parse s (.drive (.err msg)) (s.goto .off)
  | task {i : Nat} {reply : Reply} {snap : List FlowStep} {tasks : List Task} {t : Task}
      {pc : TaskPc} (hpc : s.pc = .await snap tasks) (ht : tasks[i]? = some t)
      (h : taskStep t.step t.pc reply = some (pc, none)) :
      Move parse s (.task i reply) (s.goto (.await snap (tasks.set i { t with pc })))
  | taskWrite {i : Nat} {reply : Reply} {snap : List FlowStep} {tasks : List Task}
      {t : Task} {pc : TaskPc} {w : Write} (hpc : s.pc = .await snap tasks)
      (ht : tasks[i]? = some t) (h : taskStep t.step t.pc reply = some (pc, some w)) :
      Move parse s (.task i reply) (s.write w (.await snap (tasks.set i { t with pc })))

theorem driveStep_move {reply : Reply} (h : driveStep parse s reply = some s') :
    Move parse s (.drive reply) s' := by
  unfold driveStep at h
  split at h
  · next htop => cases h; exact .pass htop
  · next htop => cases h; exact .readError htop
  · next hpc => cases h; exact .write hpc
  · next hpc => cases h; exact .writeError hpc
  · next hpc => cases h; exact .wrote hpc
  · next hpc =>
      split_ifs at h with hdone
      cases h
      exact .join hpc hdone
  · next hidle => cases h; exact .wake hidle
  · next hpc => cases h; exact .compensated hpc
  · next hpc => exact .comp hpc h
  · next hpc => cases h; exact .finish hpc
  · next hpc => cases h; exact .finishError hpc
  · next hpc => cases h; exact .finishLost hpc
  · next hpc => cases h; exact .record hpc
  · next hpc => cases h; exact .recordError hpc
  · cases h

/-- **Every step is a `Move`.** -/
theorem step_move {a : Label} (h : step parse s a = some s') : Move parse s a s' := by
  cases a with
  | tick d => cases h; exact .tick d
  | claim =>
      simp only [FlowDriver.step] at h
      split at h
      · next hoff hpend => cases h; exact .claim hoff hpend
      · cases h
  | reap =>
      simp only [FlowDriver.step] at h
      split at h
      · next hoff hrun => cases h; exact .reap hoff hrun
      · cases h
  | crash =>
      simp only [FlowDriver.step] at h
      split at h
      · cases h
      · next hon => cases h; exact .crash hon
  | drive reply => exact driveStep_move h
  | task i reply =>
      simp only [FlowDriver.step] at h
      split at h
      · next hpc =>
          split at h
          · cases h
          · next ht =>
              split at h
              · cases h
              · next hstep =>
                  split at h
                  · cases h; exact .taskWrite hpc ht hstep
                  · cases h; exact .task hpc ht hstep
      · cases h

/-- What a statement of `compensate` may be: it leaves the status and the
input alone, and of the ledger it changes at most the flag of its step. -/
theorem compStep_cases {x : FlowStep} {todo : List FlowStep} {failed : Nat}
    {stage : CompStage} {reply : Reply}
    (h : compStep s x todo failed stage reply = some s') :
    (∃ todo' failed' stage', s'.pc = .compensate todo' failed' stage') ∧
      s'.status = s.status ∧ s'.input = s.input ∧
      (s'.steps = s.steps ∨
        s'.steps = (Write.compensated x.stepId).apply s.now s.steps) := by
  unfold compStep at h
  split at h
  · split_ifs at h <;> cases h <;> exact ⟨⟨_, _, _, rfl⟩, rfl, rfl, .inl rfl⟩
  · cases h; exact ⟨⟨_, _, _, rfl⟩, rfl, rfl, .inl rfl⟩
  · cases h; exact ⟨⟨_, _, _, rfl⟩, rfl, rfl, .inl rfl⟩
  · cases h; exact ⟨⟨_, _, _, rfl⟩, rfl, rfl, .inl rfl⟩
  · cases h; exact ⟨⟨_, _, _, rfl⟩, rfl, rfl, .inl rfl⟩
  · cases h; exact ⟨⟨_, _, _, rfl⟩, rfl, rfl, .inl rfl⟩
  · cases h; exact ⟨⟨_, _, _, rfl⟩, rfl, rfl, .inl rfl⟩
  · cases h; exact ⟨⟨_, _, _, rfl⟩, rfl, rfl, .inl rfl⟩
  · cases h; exact ⟨⟨_, _, _, rfl⟩, rfl, rfl, .inr rfl⟩
  · cases h; exact ⟨⟨_, _, _, rfl⟩, rfl, rfl, .inl rfl⟩
  · cases h

/-- What a statement of `run_step` may be: none on the ledger,
`set_step_running`, or the `finish_step` that ends it. -/
theorem taskStep_cases {x : FlowStep} {pc pc' : TaskPc} {reply : Reply}
    {w : Option Write} (h : taskStep x pc reply = some (pc', w)) :
    pc ≠ .done ∧
      (w = none ∨
        (∃ k r, pc' = .exec k r ∧ w = some (.setRunning x.stepId r)) ∨
        ∃ status output, pc' = .done ∧ (status = .succeeded ∨ status = .failed) ∧
          w = some (.finish x.stepId status output)) := by
  refine ⟨?_, ?_⟩
  · rintro rfl
    cases reply <;> cases h
  · unfold taskStep at h
    split at h <;> try cases h
    all_goals first
      | exact .inl rfl
      | exact .inr (.inl ⟨_, _, rfl, rfl⟩)
      | exact .inr (.inr ⟨_, _, rfl, .inl rfl, rfl⟩)
      | exact .inr (.inr ⟨_, _, rfl, .inr rfl, rfl⟩)
      | (split_ifs at h <;> cases h <;> exact .inl rfl)

end Inversion

/-! ## What is still to be issued -/

variable {base steps : List FlowStep} {parse : String → Option Value} {input : Value}

/-- A task that takes a step is not done. -/
theorem isDone_of_step {t : Task} {pc : TaskPc} {reply : Reply} {w : Option Write}
    (h : taskStep t.step t.pc reply = some (pc, w)) : t.isDone = false := by
  have hnot := (taskStep_cases h).1
  unfold Task.isDone
  split
  · next hdone => exact absurd hdone hnot
  · rfl

/-- A step a task may run. -/
def Runnable (base steps : List FlowStep) (id : String) : Prop :=
  Legal base steps (.setRunning id 0)

theorem Runnable.setRunning {id : String} (h : Runnable base steps id) (runId : Nat) :
    Legal base steps (.setRunning id runId) := by
  rcases h with ⟨_, h⟩ | ⟨s, hs, hid, hat⟩
  · cases h
  · exact .inr ⟨s, hs, hid, hat⟩

/-- A step without `map` has no children, so its task may finish it. -/
theorem Runnable.finish {id : String} (h : Runnable base steps id) {status : StepStatus}
    (hst : status = .succeeded ∨ status = .failed) (output : Option String) :
    Legal base steps (.finish id status output) := by
  rcases h with ⟨_, h⟩ | ⟨s, hs, hid, hat⟩
  · cases h
  · refine .inr ⟨s, hs, hid, hst, ?_, hat.2.2, fun c _ hchild => absurd hat.2.1 hchild.1⟩
    rcases hat.1 with h | h
    · rw [h]
      rfl
    · rw [h]
      rfl

/-- What is still to be written in a pass. -/
structure Writing (base steps : List FlowStep) (ws : List Write) (toRun : List Ready) :
    Prop where
  writes : (ws.map Write.id).Nodup
  runs : (toRun.map fun r => r.step.stepId).Nodup
  disjoint : ∀ w ∈ ws, ∀ r ∈ toRun, w.id ≠ r.step.stepId
  legal : ∀ w ∈ ws, Legal base steps w
  runnable : ∀ r ∈ toRun, Runnable base steps r.step.stepId

/-- What the step tasks of a pass may still do. -/
structure Awaiting (base steps : List FlowStep) (tasks : List Task) : Prop where
  ids : (tasks.map Task.id).Nodup
  runnable : ∀ t ∈ tasks, t.isDone = false → Runnable base steps t.id

/-- What the driver is about to do is legal. -/
def PcOk (base steps : List FlowStep) : DriverPc → Prop
  | .writing _ ws toRun _ => Writing base steps ws toRun
  | .await _ tasks => Awaiting base steps tasks
  | _ => True

/-! ## What a pass decides -/

/-- **A pass, by cases**: a failed step is compensated, a finished ledger is
closed, and otherwise there are map parents to close or pending steps to look
at. -/
theorem pass_cases (parse : String → Option Value) (input : Value)
    (steps : List FlowStep) :
    ((∃ x ∈ steps, x.status = .failed) ∧
      pass parse input steps = .compensate (toCompensate steps) 0 .script) ∨
    (∀ x ∈ steps, x.status ≠ .failed) ∧
      ((∀ x ∈ steps, x.status.active = false) ∧
        pass parse input steps = .finish .succeeded ∨
      (∃ x ∈ steps, x.status.active = true) ∧
        ∃ ws toRun, pass parse input steps = .writing steps ws toRun false ∧
          (ws = aggregates steps ∧ toRun = [] ∧ ws ≠ [] ∨
            aggregates steps = [] ∧
              ws = (actions parse input steps).filterMap Action.write? ∧
              toRun = (actions parse input steps).filterMap Action.run?)) := by
  unfold FlowDriver.pass
  by_cases hfail : (steps.any fun s => s.status = .failed) = true
  · rw [if_pos hfail]
    obtain ⟨x, hx, hf⟩ := List.any_eq_true.mp hfail
    exact .inl ⟨⟨x, hx, by simpa using hf⟩, rfl⟩
  · rw [if_neg hfail]
    refine .inr ⟨fun x hx hf => hfail ?_, ?_⟩
    · exact List.any_eq_true.mpr ⟨x, hx, by simpa using hf⟩
    · by_cases hact : (steps.any fun s => s.status.active) = true
      · obtain ⟨x, hx, ha⟩ := List.any_eq_true.mp hact
        rw [hact, Bool.not_true, if_neg Bool.false_ne_true]
        refine .inr ⟨⟨x, hx, ha⟩, ?_⟩
        cases hagg : aggregates steps with
        | nil => exact ⟨_, _, rfl, .inr ⟨rfl, rfl, rfl⟩⟩
        | cons w ws => exact ⟨_, _, rfl, .inl ⟨rfl, rfl, by simp⟩⟩
      · rw [Bool.not_eq_true] at hact
        rw [hact, Bool.not_false, if_pos rfl]
        refine .inl ⟨fun x hx => ?_, rfl⟩
        rw [Bool.eq_false_iff]
        exact List.any_eq_false.mp hact x hx

theorem outputs_eq_some {d o : String} :
    outputs steps d = some o ↔ ∃ t, Rows.find FlowStep.stepId d steps = some t ∧
      t.status = .succeeded ∧ t.output.getD "" = o := by
  simp only [outputs, Option.map_eq_some_iff, Option.filter_eq_some_iff]
  constructor
  · rintro ⟨t, ⟨ht, hstatus⟩, ho⟩
    exact ⟨t, ht, by simpa using hstatus, ho⟩
  · rintro ⟨t, ht, hstatus, ho⟩
    exact ⟨t, ⟨ht, by simpa using hstatus⟩, ho⟩

theorem isSkipped_iff {d : String} :
    isSkipped steps d = true ↔ ∃ t, Rows.find FlowStep.stepId d steps = some t ∧
      t.status = .skipped := by
  simp [isSkipped, Option.any_eq_true]

/-- An actionable step none of whose dependencies is skipped has all of them
succeeded. -/
theorem readyDeps_of_depReady {s : FlowStep} (hready : depReady steps s = true)
    (hskip : s.dependsOn.any (isSkipped steps) = false) : ReadyDeps steps s := by
  intro d hd
  have hnot : isSkipped steps d = false := by
    rw [Bool.eq_false_iff]
    exact List.any_eq_false.mp hskip d hd
  have hor := List.all_eq_true.mp hready d hd
  rw [hnot, Bool.or_false, Option.isSome_iff_exists] at hor
  obtain ⟨o, ho⟩ := hor
  obtain ⟨t, ht, hstatus, _⟩ := outputs_eq_some.mp ho
  exact ⟨t, Rows.mem_of_find ht, Rows.key_of_find ht, hstatus⟩

/-- A pending step has no children. -/
theorem no_children_of_pending {s c : FlowStep} (hL : Ledger base steps)
    (hbase : NoHash base) (hs : s ∈ steps) (hpend : s.status = .pending)
    (hc : c ∈ steps) : ¬ ChildOf s c := by
  intro hchild
  rcases hL.origin c hc with hcb | ⟨p, hp, _, hchild', hnp, _⟩
  · exact hchild.not_base hbase hcb
  · obtain rfl := hL.parent_unique hbase hs hp hchild hchild'
    exact hnp hpend

/-- The statement `expand` issues for a pending map step. -/
theorem expand_legal {s : FlowStep} (hL : Ledger base steps) (hbase : NoHash base)
    (hs : s ∈ steps) (hpend : s.status = .pending) (hdeps : ReadyDeps steps s)
    (hmap : s.mapRef ≠ none) (deps : Value) (mapRef : String) :
    (expand parse input s deps mapRef).id = s.stepId ∧
      Legal base steps (expand parse input s deps mapRef) := by
  have hfinish : ∀ status output, status = .succeeded ∨ status = .failed →
      Legal base steps (.finish s.stepId status output) := by
    intro status output hst
    refine .inr ⟨s, hs, rfl, hst, by rw [hpend]; rfl, hdeps, ?_⟩
    exact fun c hc hchild => absurd hchild (no_children_of_pending hL hbase hs hpend hc)
  unfold expand
  split
  · next items _ =>
      by_cases hempty : items.isEmpty = true
      · rw [if_pos hempty]
        exact ⟨rfl, hfinish _ _ (.inl rfl)⟩
      · rw [if_neg hempty]
        split_ifs with hcap
        · exact ⟨rfl, hfinish _ _ (.inr rfl)⟩
        · refine ⟨rfl, .inr ⟨s, hs, rfl, hpend, hL.base_of_mapRef hs hmap, hmap, hdeps,
            items, ?_, by simpa using hcap, rfl, rfl⟩⟩
          rintro rfl
          exact hempty rfl
  · exact ⟨rfl, hfinish _ _ (.inr rfl)⟩

/-- What the loop decides to write about a pending step is legal. -/
theorem action_write {s : FlowStep} (hL : Ledger base steps) (hbase : NoHash base)
    (hs : s ∈ steps) (hpend : s.status = .pending) {w : Write}
    (h : action parse input steps s = .write w) :
    w.id = s.stepId ∧ Legal base steps w := by
  simp only [action] at h
  split_ifs at h with hready hskip hwhen
  · cases h
    exact ⟨rfl, .inr ⟨s, hs, rfl, hpend⟩⟩
  · cases h
    exact ⟨rfl, .inr ⟨s, hs, rfl, hpend⟩⟩
  · have hdeps := readyDeps_of_depReady (by simpa using hready) (by simpa using hskip)
    split at h
    · next mapRef hmap =>
        cases h
        exact expand_legal hL hbase hs hpend hdeps (by rw [hmap]; simp) _ _
    · cases h

/-- What it queues to run is the step itself, with its dependencies
succeeded. -/
theorem action_run {s : FlowStep} (hs : s ∈ steps) (hpend : s.status = .pending)
    {r : Ready} (h : action parse input steps s = .run r) :
    r.step = s ∧ Runnable base steps s.stepId := by
  simp only [action] at h
  split_ifs at h with hready hskip hwhen
  have hdeps := readyDeps_of_depReady (by simpa using hready) (by simpa using hskip)
  split at h
  · cases h
  · next hmap =>
      cases h
      exact ⟨rfl, .inr ⟨s, hs, rfl, .inl hpend, hmap, hdeps⟩⟩

theorem action_write? {s : FlowStep} {w : Write}
    (h : (action parse input steps s).write? = some w) :
    action parse input steps s = .write w := by
  cases ha : action parse input steps s with
  | wait => rw [ha] at h; cases h
  | write w' => rw [ha] at h; cases h; rfl
  | run r => rw [ha] at h; cases h

theorem action_run? {s : FlowStep} {r : Ready}
    (h : (action parse input steps s).run? = some r) :
    action parse input steps s = .run r := by
  cases ha : action parse input steps s with
  | wait => rw [ha] at h; cases h
  | write w' => rw [ha] at h; cases h
  | run r' => rw [ha] at h; cases h; rfl

/-- What the loop over the pending steps decides. -/
theorem actions_writing (hL : Ledger base steps) (hbase : NoHash base) :
    Writing base steps ((actions parse input steps).filterMap Action.write?)
      ((actions parse input steps).filterMap Action.run?) := by
  unfold actions
  rw [List.filterMap_map, List.filterMap_map]
  have hpending : ∀ s, s ∈ steps.filter (fun s => s.status = .pending) →
      s ∈ steps ∧ s.status = .pending := by
    intro s hs
    simpa using List.mem_filter.mp hs
  have hsub : ((steps.filter fun s => s.status = .pending).map FlowStep.stepId).Nodup :=
    (List.filter_sublist.map _).nodup hL.nodup
  have hwrite : ∀ s ∈ steps.filter (fun s => s.status = .pending), ∀ w,
      (Action.write? ∘ action parse input steps) s = some w →
      w.id = s.stepId ∧ Legal base steps w := by
    intro s hs w hw
    obtain ⟨hs, hpend⟩ := hpending s hs
    exact action_write hL hbase hs hpend (action_write? hw)
  have hrun : ∀ s ∈ steps.filter (fun s => s.status = .pending), ∀ r,
      (Action.run? ∘ action parse input steps) s = some r →
      r.step = s ∧ Runnable base steps s.stepId := by
    intro s hs r hr
    obtain ⟨hs, hpend⟩ := hpending s hs
    exact action_run hs hpend (action_run? hr)
  refine ⟨?_, ?_, ?_, ?_, ?_⟩
  · exact Rows.nodup_filterMap (fun s hs w hw => (hwrite s hs w hw).1) hsub
  · refine Rows.nodup_filterMap (fun s hs r hr => ?_) hsub
    rw [(hrun s hs r hr).1]
  · -- a row is either written or run
    intro w hw r hr hid
    obtain ⟨s, hs, hw⟩ := List.mem_filterMap.mp hw
    obtain ⟨t, ht, hr⟩ := List.mem_filterMap.mp hr
    have hst : s.stepId = t.stepId := by
      rw [← (hwrite s hs w hw).1, hid, (hrun t ht r hr).1]
    obtain rfl := Rows.eq_of_key_eq hL.nodup (hpending s hs).1 (hpending t ht).1 hst
    have hw' := action_write? hw
    rw [action_run? hr] at hw'
    cases hw'
  · intro w hw
    obtain ⟨s, hs, hw⟩ := List.mem_filterMap.mp hw
    exact (hwrite s hs w hw).2
  · intro r hr
    obtain ⟨s, hs, hr⟩ := List.mem_filterMap.mp hr
    obtain ⟨hstep, h⟩ := hrun s hs r hr
    rw [hstep]
    exact h

/-- A map parent is closed only when none of its children is active. -/
theorem aggregateChildren_inactive {p : FlowStep} (hp : '#' ∉ p.stepId.toList) {a : Agg}
    (h : aggregateChildren steps p.stepId = some a) {c : FlowStep} (hc : c ∈ steps)
    (hchild : ChildOf p c) : c.status.active = false := by
  obtain ⟨i, hi⟩ := hchild.stepId
  have hmem : c ∈ steps.filter (isChildOf p.stepId) :=
    List.mem_filter.mpr ⟨hc, (isChildOf_childId hp hp hi).mpr rfl⟩
  simp only [aggregateChildren] at h
  split_ifs at h with hempty hactive hfail
  · rw [Bool.not_eq_true, List.any_eq_false] at hactive
    simpa using hactive c hmem
  · rw [Bool.not_eq_true, List.any_eq_false] at hactive
    simpa using hactive c hmem

/-- The statement that closes a map parent. -/
theorem agg_write_cases (parent : String) (a : Agg) :
    ∃ status output, (status = .succeeded ∨ status = .failed) ∧
      Agg.write parent a = .finish parent status output := by
  cases a with
  | succeeded out => exact ⟨_, _, .inl rfl, rfl⟩
  | failed => exact ⟨_, _, .inr rfl, rfl⟩

/-- What the loop over the map parents decides. -/
theorem aggregates_writing (hL : Ledger base steps) (hbase : NoHash base) :
    Writing base steps (aggregates steps) [] := by
  have hexp : ∀ p, p ∈ steps.filter (fun s => s.status = .expanded) →
      p ∈ steps ∧ p.status = .expanded := by
    intro p hp
    simpa using List.mem_filter.mp hp
  have hwrite : ∀ p ∈ steps.filter (fun s => s.status = .expanded), ∀ w,
      (aggregateChildren steps p.stepId).map (Agg.write p.stepId) = some w →
      w.id = p.stepId ∧ Legal base steps w := by
    intro p hp w hw
    obtain ⟨hp, hstatus⟩ := hexp p hp
    obtain ⟨a, ha, rfl⟩ := Option.map_eq_some_iff.mp hw
    obtain ⟨hpb, _⟩ := hL.parent p hp hstatus
    obtain ⟨status, output, hst, heq⟩ := agg_write_cases p.stepId a
    rw [heq]
    refine ⟨rfl, .inr ⟨p, hp, rfl, hst, by rw [hstatus]; rfl, ?_, ?_⟩⟩
    · exact hL.ordered p hp (by rw [hstatus]; rfl)
    · exact fun c => aggregateChildren_inactive (hbase.of_fresh hpb) ha
  refine ⟨?_, List.nodup_nil, ?_, ?_, ?_⟩
  · exact Rows.nodup_filterMap (fun p hp w hw => (hwrite p hp w hw).1)
      ((List.filter_sublist.map _).nodup hL.nodup)
  · intro w _ r hr
    cases hr
  · intro w hw
    obtain ⟨p, hp, hw⟩ := List.mem_filterMap.mp hw
    exact (hwrite p hp w hw).2
  · intro r hr
    cases hr

/-- **What a pass decides is legal** on the ledger it read. -/
theorem pass_ok (hL : Ledger base steps) (hbase : NoHash base) :
    PcOk base steps (pass parse input steps) := by
  rcases pass_cases parse input steps with ⟨_, h⟩ | ⟨_, ⟨_, h⟩ | ⟨_, ws, toRun, h, hws⟩⟩
  · rw [h]
    trivial
  · rw [h]
    trivial
  · rw [h]
    rcases hws with ⟨rfl, rfl, _⟩ | ⟨_, rfl, rfl⟩
    · exact aggregates_writing hL hbase
    · exact actions_writing hL hbase

/-- The statements a pass decides on. -/
def decides : Write → Bool
  | .finish _ _ _ => true
  | .skip _ => true
  | .expand _ _ _ => true
  | _ => false

theorem decides_expand (s : FlowStep) (deps : Value) (mapRef : String) :
    decides (expand parse input s deps mapRef) = true := by
  unfold expand
  split
  · split_ifs <;> rfl
  · rfl

theorem decides_aggregates : ∀ w ∈ aggregates steps, decides w = true := by
  intro w hw
  obtain ⟨parent, _, hw⟩ := List.mem_filterMap.mp hw
  obtain ⟨a, _, rfl⟩ := Option.map_eq_some_iff.mp hw
  obtain ⟨status, output, _, heq⟩ := agg_write_cases parent.stepId a
  rw [heq]
  rfl

theorem decides_actions :
    ∀ w ∈ (actions parse input steps).filterMap Action.write?, decides w = true := by
  intro w hw
  obtain ⟨a, ha, hw⟩ := List.mem_filterMap.mp hw
  obtain ⟨y, _, rfl⟩ := List.mem_map.mp ha
  have hact := action_write? hw
  simp only [action] at hact
  split_ifs at hact
  · cases hact
    rfl
  · cases hact
    rfl
  · split at hact
    · cases hact
      exact decides_expand _ _ _
    · cases hact

/-! ## The invariant of a flow run -/

/-- The ledger is one, and what the driver is about to do is legal. -/
structure Inv (base : List FlowStep) (s : Flow) : Prop where
  ledger : Ledger base s.steps
  pc : PcOk base s.steps s.pc

section Invariant

variable {s s' : Flow} {now : Nat}

/-- The next write of a pass, and what remains. -/
theorem Writing.tail {w : Write} {ws : List Write} {toRun : List Ready}
    (h : Writing base steps (w :: ws) toRun) :
    Legal base steps w ∧ Writing base steps ws toRun ∧
      (∀ w' ∈ ws, w'.id ≠ w.id) ∧ ∀ r ∈ toRun, r.step.stepId ≠ w.id := by
  obtain ⟨hws, hruns, hdis, hlegal, hrunnable⟩ := h
  rw [List.map_cons, List.nodup_cons] at hws
  refine ⟨hlegal w List.mem_cons_self, ⟨hws.2, hruns, ?_, ?_, hrunnable⟩, ?_, ?_⟩
  · exact fun w' hw' => hdis w' (List.mem_cons_of_mem _ hw')
  · exact fun w' hw' => hlegal w' (List.mem_cons_of_mem _ hw')
  · intro w' hw' hid
    exact hws.1 (hid ▸ List.mem_map_of_mem hw')
  · exact fun r hr => (hdis w List.mem_cons_self r hr).symm

/-- After the next write of a pass, the rest is still legal. -/
theorem Writing.write {w : Write} {ws : List Write} {toRun : List Ready}
    (h : Writing base steps (w :: ws) toRun) (hL : Ledger base steps)
    (hbase : NoHash base) : Writing base (w.apply now steps) ws toRun := by
  obtain ⟨hw, hrest, hne, hne'⟩ := h.tail
  refine ⟨hrest.writes, hrest.runs, hrest.disjoint, ?_, ?_⟩
  · exact fun w' hw' => hw.frame hL hbase (hrest.legal w' hw') (hne w' hw')
  · exact fun r hr => hw.frame hL hbase (hrest.runnable r hr) (hne' r hr)

/-- The tasks of a pass after its last write. -/
theorem afterWrites_ok {snap : List FlowStep} {toRun : List Ready} {p : Bool}
    (h : Writing base steps [] toRun) : PcOk base steps (afterWrites snap toRun p) := by
  unfold afterWrites
  split_ifs
  · refine ⟨?_, ?_⟩
    · rw [List.map_map]
      exact h.runs
    · intro t ht _
      obtain ⟨r, hr, rfl⟩ := List.mem_map.mp ht
      exact h.runnable r hr
  · trivial
  · trivial

/-- One task moves without a statement on the ledger. -/
theorem Awaiting.set {tasks : List Task} {i : Nat} {t : Task} {pc : TaskPc}
    (h : Awaiting base steps tasks) (ht : tasks[i]? = some t)
    (hrun : t.isDone = false) : Awaiting base steps (tasks.set i { t with pc }) := by
  refine ⟨?_, ?_⟩
  · have hids : (tasks.set i { t with pc }).map Task.id = tasks.map Task.id :=
      Rows.map_set ht rfl
    rw [hids]
    exact h.ids
  · intro t' ht' hdone
    rcases List.mem_or_eq_of_mem_set ht' with ht' | rfl
    · exact h.runnable t' ht' hdone
    · exact h.runnable t (List.mem_of_getElem? ht) hrun

/-- One task issues a statement on its own row, after which it is done or may
still run. -/
theorem Awaiting.write {tasks : List Task} {i : Nat} {t : Task} {pc : TaskPc} {w : Write}
    (h : Awaiting base steps tasks) (ht : tasks[i]? = some t) (hid : w.id = t.id)
    (hw : Legal base steps w) (hL : Ledger base steps) (hbase : NoHash base)
    (hrun : pc = .done ∨ Runnable base (w.apply now steps) t.id) :
    Awaiting base (w.apply now steps) (tasks.set i { t with pc }) := by
  refine ⟨?_, ?_⟩
  · have hids : (tasks.set i { t with pc }).map Task.id = tasks.map Task.id :=
      Rows.map_set ht rfl
    rw [hids]
    exact h.ids
  · intro t' ht' hdone
    rcases Rows.mem_set h.ids ht ht' with rfl | ⟨ht', hne⟩
    · rcases hrun with rfl | hrun
      · cases hdone
      · exact hrun
    · refine hw.frame hL hbase (h.runnable t' ht' hdone) ?_
      rw [hid]
      exact hne

/-- After `set_step_running` its task may still run. -/
theorem Runnable.after_setRunning {id : String} {runId : Nat}
    (h : Runnable base steps id) (hL : Ledger base steps) (hbase : NoHash base) :
    Runnable base ((Write.setRunning id runId).apply now steps) id := by
  have hw := h.setRunning runId
  have hset := settled_write now hL hbase hw
  rcases h with ⟨_, h⟩ | ⟨s, hs, hid, _, hmap, hdeps⟩
  · cases h
  · refine .inr ⟨_, (mem_apply hL hbase hw).mpr (.inr (.inl ⟨s, hs, hid, rfl⟩)), hid,
      .inr rfl, hmap, hdeps.mono hset rfl⟩

/-- **Every step keeps the invariant** and leaves settled rows alone. -/
theorem Inv.step {a : Label} (hI : Inv base s) (hbase : NoHash base)
    (h : step parse s a = some s') : Inv base s' ∧ Settled s.steps s'.steps := by
  have hL := hI.ledger
  have hpcok := hI.pc
  -- a step that leaves the ledger alone
  have hquiet : s'.steps = s.steps → PcOk base s.steps s'.pc →
      Inv base s' ∧ Settled s.steps s'.steps := by
    intro hsteps hpc
    rw [hsteps]
    exact ⟨⟨hsteps ▸ hL, hsteps ▸ hpc⟩, Settled.refl _⟩
  -- a step that carries out one legal statement
  have hwrite : ∀ w, s'.steps = w.apply s.now s.steps → Legal base s.steps w →
      PcOk base (w.apply s.now s.steps) s'.pc →
      Inv base s' ∧ Settled s.steps s'.steps := by
    intro w hsteps hw hpc
    rw [hsteps]
    exact ⟨⟨hsteps ▸ hL.write hbase hw, hsteps ▸ hpc⟩, settled_write _ hL hbase hw⟩
  cases step_move h with
  | tick d => exact hquiet rfl hpcok
  | claim hoff hpend => exact hquiet rfl trivial
  | reap hoff hrun => exact hquiet rfl hpcok
  | crash hon => exact hquiet rfl trivial
  | pass htop => exact hquiet rfl (pass_ok hL hbase)
  | readError htop => exact hquiet rfl trivial
  | write hpc =>
      rw [hpc] at hpcok
      exact hwrite _ rfl hpcok.tail.1 (Writing.write hpcok hL hbase)
  | writeError hpc =>
      rw [hpc] at hpcok
      exact hquiet rfl (Writing.tail hpcok).2.1
  | wrote hpc =>
      rw [hpc] at hpcok
      exact hquiet rfl (afterWrites_ok hpcok)
  | join hpc hdone => exact hquiet rfl trivial
  | wake hidle => exact hquiet rfl trivial
  | compensated hpc => exact hquiet rfl trivial
  | comp hpc hcomp =>
      obtain ⟨⟨todo, failed, stage, hpc'⟩, _, _, hsteps | hsteps⟩ := compStep_cases hcomp
      · exact hquiet hsteps (by rw [hpc']; trivial)
      · exact hwrite _ hsteps (.inl ⟨_, rfl⟩) (by rw [hpc']; trivial)
  | finish hpc => exact hquiet rfl trivial
  | finishError hpc => exact hquiet rfl trivial
  | finishLost hpc => exact hquiet rfl trivial
  | record hpc => exact hquiet rfl trivial
  | recordError hpc => exact hquiet rfl trivial
  | task hpc ht hstep =>
      rw [hpc] at hpcok
      exact hquiet rfl (Awaiting.set hpcok ht (isDone_of_step hstep))
  | @taskWrite i reply snap tasks t pc w hpc ht hstep =>
      rw [hpc] at hpcok
      have hrun := Awaiting.runnable hpcok t (List.mem_of_getElem? ht) (isDone_of_step hstep)
      obtain ⟨_, heq | ⟨k, r, rfl, heq⟩ | ⟨status, output, rfl, hst, heq⟩⟩ :=
        taskStep_cases hstep
      · cases heq
      · cases heq
        have hw := hrun.setRunning r
        exact hwrite _ rfl hw
          (Awaiting.write hpcok ht rfl hw hL hbase (.inr (hrun.after_setRunning hL hbase)))
      · cases heq
        have hw := hrun.finish hst output
        exact hwrite _ rfl hw (Awaiting.write hpcok ht rfl hw hL hbase (.inl rfl))

/-- A fresh ledger of a validated spec. -/
theorem ledger_start {rows : List FlowStep} (hvalid : ValidLedger rows)
    (hfresh : ∀ s ∈ rows, fresh s = s) : Ledger rows rows := by
  have hpend : ∀ s ∈ rows, s.status = .pending := by
    intro s hs
    rw [← hfresh s hs]
    rfl
  refine ⟨hvalid.nodup, ?_, ?_, ?_, ?_⟩
  · exact fun b hb => ⟨b, hb, hfresh b hb⟩
  · intro s hs
    rw [hfresh s hs]
    exact .inl hs
  · intro p hp hexp
    rw [hpend p hp] at hexp
    cases hexp
  · intro s hs hran
    rw [hpend s hs] at hran
    cases hran

/-- The rows an insert writes are fresh. -/
theorem fresh_ledgerRows {spec : Value} {s : FlowStep} (hs : s ∈ ledgerRows spec) :
    fresh s = s := by
  obtain ⟨st, _, rfl⟩ := List.mem_map.mp hs
  rfl

/-- A fresh flow run of a validated spec meets the invariant. -/
theorem inv_start {it : Iteration} {spec : Value} (hvalid : validateSpec it spec = .ok ())
    (input : Value) : Inv (ledgerRows spec) (start spec input) :=
  ⟨ledger_start (validateSpec_ledger hvalid) fun _ => fresh_ledgerRows, trivial⟩

/-- **Every reachable flow run** of a validated spec meets the invariant. -/
theorem inv_run {it : Iteration} {spec : Value} (hvalid : validateSpec it spec = .ok ())
    {l : List Label} (h : Machine.run (FlowDriver.step parse) (start spec input) l = some s) :
    Inv (ledgerRows spec) s :=
  Machine.inv_run (C := fun _ _ => True)
    (fun _ _ _ hI _ hs => (hI.step (validateSpec_ledger hvalid).noHash hs).1)
    (inv_start hvalid input) (Machine.along_of_forall fun _ _ => trivial) h

/-- From a reachable flow run on, settled rows are left alone. -/
theorem settled_run {base : List FlowStep} (hbase : NoHash base) {l : List Label}
    (hI : Inv base s) (h : Machine.run (FlowDriver.step parse) s l = some s') :
    Settled s.steps s'.steps :=
  Machine.rel_run (C := fun _ _ => True) (R := fun s s' : Flow => Settled s.steps s'.steps)
    (fun _ => Settled.refl _) (fun _ _ _ => Settled.trans)
    (fun _ _ _ hI _ hs => hI.step hbase hs) hI
    (Machine.along_of_forall fun _ _ => trivial) h

end Invariant

end Dokan.Ports.FlowMoves
