import Dokan.Verified.Machine
import Dokan.Ports.FlowSpec

/-!
# Deleting a script

The rows of the database that name a script, and the transaction of
`delete_script`.  `runs`, `schedules`, `triggers` and `flow_steps.script_id`
have foreign keys, `logs` have one on `runs`; `webhooks.target_id`,
`flow_steps.compensate` and the spec of a flow name a script without one.

Postgres checks the keys when a row is deleted, and an error rolls the
transaction back.  The ids of all tables come from one sequence here.

## Main results

* `deleteScript_deleted` — what is left when the deletion goes through.
* `deletesCleanly_iff` — the script is deleted unless a flow refers to it, and
  nothing refers to it afterwards, exactly if a step of the ledger runs it, or a
  trigger and a flow both name it, or no trigger, webhook or flow names it.
-/

namespace Dokan.Ports.DeleteScript

open Dokan.Verified
open Dokan.Verified.Json
open Dokan.Ports.FlowRow
open Dokan.Ports.FlowSpec

/-! ## Rows -/

/-- A row of `runs`. -/
structure RunOf where
  id : Int
  scriptId : Int

/-- A row of `logs`. -/
structure LineOf where
  runId : Int

/-- A row of `schedules`. -/
structure ScheduleOf where
  id : Int
  scriptId : Int

/-- A row of `flows`. -/
structure Flow where
  id : Int
  spec : Value

/-- A row of `flow_runs`, with its rows of `flow_steps`. -/
structure Ledger where
  id : Int
  flowId : Int
  steps : List FlowStep

/-- A row of `triggers`. -/
structure Trigger where
  id : Int
  sourceScriptId : Int
  targetScriptId : Int

/-- `webhooks.target_kind`. -/
inductive TargetKind
  | script
  | flow
deriving DecidableEq

/-- A row of `webhooks`. -/
structure Webhook where
  id : Int
  targetKind : TargetKind
  targetId : Int

structure Database where
  nextId : Int
  scripts : List Int
  runs : List RunOf
  logs : List LineOf
  schedules : List ScheduleOf
  flows : List Flow
  flowRuns : List Ledger
  triggers : List Trigger
  webhooks : List Webhook

def Database.empty : Database where
  nextId := 1
  scripts := []
  runs := []
  logs := []
  schedules := []
  flows := []
  flowRuns := []
  triggers := []
  webhooks := []

/-- The rows of `flow_steps`. -/
def Database.flowSteps (s : Database) : List FlowStep := s.flowRuns.flatMap Ledger.steps

/-! ## `delete_script` -/

/-- The foreign key that a `DELETE` violates. -/
inductive ForeignKey
  | logsRun
  | runsScript
  | schedulesScript
  | flowStepsScript
  | triggersScript

/-- `DeleteResult`. -/
inductive DeleteResult
  | notFound
  | blockedByFlow (flowSteps : Nat)
  | deleted (runs : Nat) (schedules : List Int)

/-- The run is the script's. -/
def RunOf.ofScript (run : RunOf) (id : Int) : Bool := run.scriptId = id

/-- `run_id IN (SELECT id FROM runs WHERE script_id = $1)`. -/
def Database.lineOfScript (s : Database) (id : Int) (line : LineOf) : Bool :=
  s.runs.any fun run => run.ofScript id ∧ run.id = line.runId

def Trigger.names (t : Trigger) (id : Int) : Bool :=
  t.sourceScriptId = id ∨ t.targetScriptId = id

/-- `DELETE FROM logs WHERE run_id IN (…)`. -/
def Database.deleteLogs (s : Database) (id : Int) : Database :=
  { s with logs := s.logs.filter fun line => !s.lineOfScript id line }

/-- `DELETE FROM runs WHERE script_id = $1`. -/
def Database.deleteRuns (s : Database) (id : Int) : Except ForeignKey Database :=
  if s.logs.any (s.lineOfScript id) then .error .logsRun
  else .ok { s with runs := s.runs.filter fun run => !run.ofScript id }

/-- `DELETE FROM schedules WHERE script_id = $1`. -/
def Database.deleteSchedules (s : Database) (id : Int) : Database :=
  { s with schedules := s.schedules.filter fun sc => sc.scriptId ≠ id }

/-- `DELETE FROM scripts WHERE id = $1`. -/
def Database.deleteScriptRow (s : Database) (id : Int) : Except ForeignKey Database :=
  if s.runs.any fun run => run.ofScript id then .error .runsScript
  else if s.schedules.any fun sc => sc.scriptId = id then .error .schedulesScript
  else if s.flowSteps.any fun st => st.scriptId = id then .error .flowStepsScript
  else if s.triggers.any fun t => t.names id then .error .triggersScript
  else .ok { s with scripts := s.scripts.filter fun script => script ≠ id }

/-- `Db::delete_script`. -/
def Database.deleteScript (s : Database) (id : Int) :
    Except ForeignKey (DeleteResult × Database) :=
  if id ∉ s.scripts then .ok (.notFound, s)
  else
    let flowRefs := (s.flowSteps.filter fun st => st.scriptId = id).length
    if flowRefs > 0 then .ok (.blockedByFlow flowRefs, s)
    else do
      let schedules := (s.schedules.filter fun sc => sc.scriptId = id).map ScheduleOf.id
      let runs := (s.runs.filter fun run => run.ofScript id).length
      let s ← (s.deleteLogs id).deleteRuns id
      let s ← (s.deleteSchedules id).deleteScriptRow id
      return (.deleted runs schedules, s)

/-! ## The other statements -/

/-- What writes the rows that name a script. -/
inductive Label
  | insertScript
  /-- `run_script`, a tick, a trigger, a webhook or a flow step -/
  | insertRun (scriptId : Int)
  | insertLog (runId : Int)
  | gcOld (runIds : List Int)
  | insertSchedule (scriptId : Int)
  /-- `compose_flow` -/
  | insertFlow (it : Iteration) (spec : Value)
  | insertFlowRun (flowId : Int)
  | expandMapStep (flowRunId : Int) (parent : String) (children : List MapChild) (cache : Bool)
  /-- `on_result` -/
  | insertTrigger (sourceScriptId targetScriptId : Int)
  | deleteTrigger (id : Int)
  /-- `create_webhook` -/
  | insertWebhook (targetKind : TargetKind) (targetId : Int)
  | deleteWebhook (id : Int)
  | deleteScript (id : Int)

/-- A new id. -/
def Database.bump (s : Database) : Database := { s with nextId := s.nextId + 1 }

/-- The scripts of the rows exist: the foreign key of `flow_steps`. -/
def Database.known (s : Database) (ids : List Int) : Bool := ids.all fun id => id ∈ s.scripts

/-- The target `create_webhook` looks up. -/
def Database.targetExists (s : Database) : TargetKind → Int → Bool
  | .script, id => id ∈ s.scripts
  | .flow, id => s.flows.any fun flow => flow.id = id

/-- One statement; one that is refused or fails changes nothing. -/
def Database.exec (s : Database) : Label → Database
  | .insertScript => { s.bump with scripts := s.scripts ++ [s.nextId] }
  | .insertRun scriptId =>
      if scriptId ∈ s.scripts then
        { s.bump with runs := s.runs ++ [{ id := s.nextId, scriptId }] }
      else s
  | .insertLog runId =>
      if s.runs.any fun run => run.id = runId then { s with logs := s.logs ++ [{ runId }] } else s
  | .gcOld runIds =>
      { s with
        logs := s.logs.filter fun line => line.runId ∉ runIds
        runs := s.runs.filter fun run => run.id ∉ runIds }
  | .insertSchedule scriptId =>
      if scriptId ∈ s.scripts then
        { s.bump with schedules := s.schedules ++ [{ id := s.nextId, scriptId }] }
      else s
  | .insertFlow it spec =>
      match validateSpec it spec with
      | .ok _ => { s.bump with flows := s.flows ++ [{ id := s.nextId, spec }] }
      | .error _ => s
  | .insertFlowRun flowId =>
      match s.flows.find? fun flow => flow.id = flowId with
      | none => s
      | some flow =>
          let steps := ledgerRows flow.spec
          if s.known (steps.map FlowStep.scriptId) then
            { s.bump with flowRuns := s.flowRuns ++ [{ id := s.nextId, flowId, steps }] }
          else s
  | .expandMapStep flowRunId parent children cache =>
      if s.known (children.map MapChild.scriptId) then
        { s with
          flowRuns := s.flowRuns.map fun ledger =>
            if ledger.id = flowRunId then
              { ledger with steps := FlowRow.expandMapStep parent children cache ledger.steps }
            else ledger }
      else s
  | .insertTrigger sourceScriptId targetScriptId =>
      if sourceScriptId ∈ s.scripts ∧ targetScriptId ∈ s.scripts then
        { s.bump with
          triggers := s.triggers ++ [{ id := s.nextId, sourceScriptId, targetScriptId }] }
      else s
  | .deleteTrigger id => { s with triggers := s.triggers.filter fun t => t.id ≠ id }
  | .insertWebhook targetKind targetId =>
      if s.targetExists targetKind targetId then
        { s.bump with webhooks := s.webhooks ++ [{ id := s.nextId, targetKind, targetId }] }
      else s
  | .deleteWebhook id => { s with webhooks := s.webhooks.filter fun w => w.id ≠ id }
  | .deleteScript id =>
      match s.deleteScript id with
      | .ok (_, s') => s'
      | .error _ => s

def step (s : Database) (a : Label) : Option Database := some (s.exec a)

/-! ## References -/

/-- A row of `flow_steps`, or the row a step of a spec would get, names the script. -/
def Names (st : FlowStep) (id : Int) : Prop := st.scriptId = id ∨ st.compensate = some id

/-- A step of the ledger runs the script. -/
def Database.StepRuns (s : Database) (id : Int) : Prop := ∃ st ∈ s.flowSteps, st.scriptId = id

/-- A flow refers to the script: a step of its spec, or a row of `flow_steps`. -/
def Database.FlowRefers (s : Database) (id : Int) : Prop :=
  (∃ flow ∈ s.flows, ∃ st ∈ ledgerRows flow.spec, Names st id) ∨ ∃ st ∈ s.flowSteps, Names st id

def Database.TriggerRefers (s : Database) (id : Int) : Prop := ∃ t ∈ s.triggers, t.names id = true

def Database.WebhookRefers (s : Database) (id : Int) : Prop :=
  ∃ w ∈ s.webhooks, w.targetKind = .script ∧ w.targetId = id

/-- Nothing in `s'` refers to the script, nor to a run it had in `s`. -/
structure Unreferenced (s s' : Database) (id : Int) : Prop where
  flows : ¬ s'.FlowRefers id
  triggers : ¬ s'.TriggerRefers id
  webhooks : ¬ s'.WebhookRefers id
  schedules : ∀ sc ∈ s'.schedules, sc.scriptId ≠ id
  runs : ∀ run ∈ s'.runs, run.scriptId ≠ id
  logs : ∀ run ∈ s.runs, run.scriptId = id → ∀ line ∈ s'.logs, line.runId ≠ run.id

/-- Refused only for flows, and nothing dangles when it goes through. -/
def DeletesCleanly (s : Database) (id : Int) : Prop :=
  (¬ s.FlowRefers id → ∃ runs schedules s', s.deleteScript id = .ok (.deleted runs schedules, s')) ∧
    ∀ runs schedules s', s.deleteScript id = .ok (.deleted runs schedules, s') →
      Unreferenced s s' id

/-! ## The transaction -/

section Transaction

variable {s : Database} {id : Int}

/-- The database when the row of the script goes. -/
def Database.cascade (s : Database) (id : Int) : Database :=
  { s with
    runs := s.runs.filter fun run => !run.ofScript id
    logs := s.logs.filter fun line => !s.lineOfScript id line
    schedules := s.schedules.filter fun sc => sc.scriptId ≠ id }

/-- The lines are deleted before the runs. -/
theorem deleteRuns_deleteLogs (s : Database) (id : Int) :
    (s.deleteLogs id).deleteRuns id =
      .ok { s.deleteLogs id with runs := s.runs.filter fun run => !run.ofScript id } := by
  refine if_neg ?_
  rw [List.any_eq_true]
  rintro ⟨line, hline, hof⟩
  have hkept := (List.mem_filter.mp hline).2
  have hsame : s.lineOfScript id line = true := hof
  rw [hsame] at hkept
  cases hkept

/-- A step of the ledger that runs the script blocks the deletion. -/
theorem deleteScript_blocked (hid : id ∈ s.scripts) (hsteps : s.StepRuns id) :
    ∃ n, s.deleteScript id = .ok (.blockedByFlow n, s) := by
  obtain ⟨st, hst, hruns⟩ := hsteps
  have hpos : 0 < (s.flowSteps.filter fun st => st.scriptId = id).length := by
    refine List.length_pos_of_mem (a := st) (List.mem_filter.mpr ⟨hst, ?_⟩)
    exact decide_eq_true hruns
  refine ⟨(s.flowSteps.filter fun st => st.scriptId = id).length, ?_⟩
  rw [Database.deleteScript, if_neg (not_not_intro hid)]
  exact if_pos hpos

/-- The keys of `scripts` that a script without runs, schedules and steps has. -/
theorem deleteScriptRow_of_gone (hruns : ∀ run ∈ s.runs, run.ofScript id = false)
    (hschedules : ∀ sc ∈ s.schedules, sc.scriptId ≠ id) (hsteps : ¬ s.StepRuns id) :
    s.deleteScriptRow id =
      if s.triggers.any fun t => t.names id then .error .triggersScript
      else .ok { s with scripts := s.scripts.filter fun script => script ≠ id } := by
  have hrun : ¬ (s.runs.any fun run => run.ofScript id) = true := by
    rw [List.any_eq_true]
    rintro ⟨run, hrun, hof⟩
    rw [hruns run hrun] at hof
    cases hof
  have hschedule : ¬ (s.schedules.any fun sc => sc.scriptId = id) = true := by
    rw [List.any_eq_true]
    rintro ⟨sc, hsc, hof⟩
    exact hschedules sc hsc (of_decide_eq_true hof)
  have hstep : ¬ (s.flowSteps.any fun st => st.scriptId = id) = true := by
    rw [List.any_eq_true]
    rintro ⟨st, hst, hof⟩
    exact hsteps ⟨st, hst, of_decide_eq_true hof⟩
  rw [Database.deleteScriptRow, if_neg hrun, if_neg hschedule, if_neg hstep]

/-- Without one, only a trigger stops it. -/
theorem deleteScript_cascade (hid : id ∈ s.scripts) (hsteps : ¬ s.StepRuns id) :
    ∃ runs schedules, s.deleteScript id =
      if s.triggers.any fun t => t.names id then .error .triggersScript
      else .ok (.deleted runs schedules,
        { s.cascade id with scripts := s.scripts.filter fun script => script ≠ id }) := by
  have hnone : ¬ (s.flowSteps.filter fun st => st.scriptId = id).length > 0 := by
    intro hpos
    obtain ⟨st, hst⟩ := List.exists_mem_of_length_pos hpos
    obtain ⟨hst, hruns⟩ := List.mem_filter.mp hst
    exact hsteps ⟨st, hst, of_decide_eq_true hruns⟩
  refine ⟨(s.runs.filter fun run => run.ofScript id).length,
    (s.schedules.filter fun sc => sc.scriptId = id).map ScheduleOf.id, ?_⟩
  rw [Database.deleteScript, if_neg (not_not_intro hid)]
  refine (if_neg hnone).trans ?_
  rw [deleteRuns_deleteLogs]
  have hgone : (s.cascade id).deleteScriptRow id = _ := deleteScriptRow_of_gone
    (fun run hrun => by simpa using (List.mem_filter.mp hrun).2)
    (fun sc hsc => of_decide_eq_true (List.mem_filter.mp hsc).2) hsteps
  change ((s.cascade id).deleteScriptRow id).bind _ = _
  rw [hgone]
  by_cases htriggers : (s.triggers.any fun t => t.names id) = true
  · rw [if_pos htriggers]
    exact congrArg (Except.bind · _) (if_pos htriggers)
  · rw [if_neg htriggers]
    exact congrArg (Except.bind · _) (if_neg htriggers)

/-- **Deleted.**  What a deletion that goes through leaves. -/
theorem deleteScript_deleted {runs : Nat} {schedules : List Int} {s' : Database}
    (h : s.deleteScript id = .ok (.deleted runs schedules, s')) :
    ¬ s.StepRuns id ∧ ¬ s.TriggerRefers id ∧
      s' = { s.cascade id with scripts := s.scripts.filter fun script => script ≠ id } := by
  by_cases hid : id ∈ s.scripts
  · by_cases hsteps : s.StepRuns id
    · obtain ⟨n, hblocked⟩ := deleteScript_blocked hid hsteps
      rw [hblocked] at h
      cases h
    · obtain ⟨runs', schedules', heq⟩ := deleteScript_cascade hid hsteps
      rw [heq] at h
      split_ifs at h with htriggers
      cases h
      refine ⟨hsteps, ?_, rfl⟩
      rintro ⟨t, ht, hnames⟩
      exact htriggers (List.any_eq_true.mpr ⟨t, ht, hnames⟩)
  · rw [Database.deleteScript, if_pos hid] at h
    cases h

/-- A script that no step runs and no trigger names is deleted. -/
theorem deleteScript_free (hid : id ∈ s.scripts) (hsteps : ¬ s.StepRuns id)
    (htriggers : ¬ s.TriggerRefers id) :
    ∃ runs schedules s', s.deleteScript id = .ok (.deleted runs schedules, s') := by
  obtain ⟨runs, schedules, heq⟩ := deleteScript_cascade hid hsteps
  refine ⟨runs, schedules, _, heq.trans (if_neg ?_)⟩
  rw [List.any_eq_true]
  exact htriggers

/-- What the cascade leaves refers to the script exactly in its webhooks, the
specs of flows and `flow_steps`. -/
theorem unreferenced_iff :
    Unreferenced s { s.cascade id with scripts := s.scripts.filter fun script => script ≠ id } id ↔
      ¬ s.FlowRefers id ∧ ¬ s.TriggerRefers id ∧ ¬ s.WebhookRefers id := by
  constructor
  · rintro ⟨hflows, htriggers, hwebhooks, _, _, _⟩
    exact ⟨hflows, htriggers, hwebhooks⟩
  · rintro ⟨hflows, htriggers, hwebhooks⟩
    refine ⟨hflows, htriggers, hwebhooks, ?_, ?_, ?_⟩
    · intro sc hsc
      exact of_decide_eq_true (List.mem_filter.mp hsc).2
    · intro run hrun hof
      have hkept := (List.mem_filter.mp hrun).2
      rw [RunOf.ofScript, decide_eq_true hof] at hkept
      cases hkept
    · intro run hrun hof line hline heq
      have hkept := (List.mem_filter.mp hline).2
      have hofScript : s.lineOfScript id line = true :=
        List.any_eq_true.mpr ⟨run, hrun, decide_eq_true ⟨decide_eq_true hof, heq.symm⟩⟩
      rw [hofScript] at hkept
      cases hkept

end Transaction

/-- **Clean deletion.**  In every state, deleting an existing script is refused
only for flows and leaves nothing that refers to it, exactly if a step of the
ledger runs the script, or a trigger and a flow both refer to it, or no trigger,
no webhook and no flow does. -/
theorem deletesCleanly_iff {s : Database} {id : Int} (hid : id ∈ s.scripts) :
    DeletesCleanly s id ↔
      s.StepRuns id ∨ s.TriggerRefers id ∧ s.FlowRefers id ∨
        ¬ s.FlowRefers id ∧ ¬ s.TriggerRefers id ∧ ¬ s.WebhookRefers id := by
  by_cases hsteps : s.StepRuns id
  · refine iff_of_true ⟨fun hflows => ?_, fun runs schedules s' h => ?_⟩ (.inl hsteps)
    · obtain ⟨st, hst, hruns⟩ := hsteps
      exact absurd (.inr ⟨st, hst, .inl hruns⟩) hflows
    · exact absurd hsteps (deleteScript_deleted h).1
  · by_cases htriggers : s.TriggerRefers id
    · constructor
      · rintro ⟨hdeleted, _⟩
        refine .inr (.inl ⟨htriggers, ?_⟩)
        by_contra hflows
        obtain ⟨runs, schedules, s', h⟩ := hdeleted hflows
        exact (deleteScript_deleted h).2.1 htriggers
      · rintro (hruns | ⟨_, hflows⟩ | ⟨_, hnone, _⟩)
        · exact absurd hruns hsteps
        · refine ⟨fun hnone => absurd hflows hnone, fun runs schedules s' h => ?_⟩
          exact absurd htriggers (deleteScript_deleted h).2.1
        · exact absurd htriggers hnone
    · obtain ⟨runs, schedules, s', h⟩ := deleteScript_free hid hsteps htriggers
      constructor
      · rintro ⟨_, hclean⟩
        have hun := hclean runs schedules s' h
        rw [(deleteScript_deleted h).2.2] at hun
        exact .inr (.inr (unreferenced_iff.mp hun))
      · rintro (hruns | ⟨htrigger, _⟩ | hnone)
        · exact absurd hruns hsteps
        · exact absurd htrigger htriggers
        · refine ⟨fun _ => ⟨runs, schedules, s', h⟩, fun runs' schedules' s'' h' => ?_⟩
          rw [(deleteScript_deleted h').2.2]
          exact unreferenced_iff.mpr hnone

/-- A script with a webhook is deleted. -/
def webhookOfDeleted : List Label := [.insertScript, .insertWebhook .script 1]

/-- The webhook stays, for a script that is gone. -/
theorem not_deletesCleanly :
    ¬ ∀ l s id, Machine.run step .empty l = some s → id ∈ s.scripts → DeletesCleanly s id := by
  intro h
  obtain ⟨_, hclean⟩ := h webhookOfDeleted _ 1 rfl (by decide)
  exact (hclean 0 [] _ rfl).webhooks ⟨_, List.mem_cons_self, rfl, rfl⟩

/-- `deletesCleanly_iff` for a script with a run and a schedule. -/
theorem deletesCleanly_scheduled :
    ∃ s, Machine.run step .empty
        [.insertScript, .insertSchedule 1, .insertRun 1, .insertLog 3] = some s ∧
      DeletesCleanly s 1 := by
  refine ⟨_, rfl, (deletesCleanly_iff (by decide)).mpr (.inr (.inr ⟨?_, ?_, ?_⟩))⟩
  · rintro (⟨flow, hflow, _⟩ | ⟨st, hst, _⟩)
    · cases hflow
    · cases hst
  · rintro ⟨t, ht, _⟩
    cases ht
  · rintro ⟨w, hw, _⟩
    cases hw

end Dokan.Ports.DeleteScript
