import Dokan.Ports.RunQueue

/-!
# What one step of the run queue may do

Everything later proofs need of `step` is said here once: what a step of each
kind of task is (`WorkerStep`, `FlowTaskStep`, `DriverStep`), what any step
does to one row (`RowWrite`), where a task comes from (`WorkerFrom`,
`FlowFrom`) and what is added to the history (`Logged`).

## Main results

* `step_row`, `step_new_row` — the rows of `runs` after a step.
* `step_workers`, `step_flows` — the tasks after a step.
* `step_log` — the history after a step.
-/

namespace Dokan.Ports.RunQueue

open Dokan.Verified.Json
open Dokan.Ports.RunRow
open Dokan.Ports.FlowRow
open Dokan.Ports.ExecJob

/-! ## What one step of a task may do -/

section Inversion

variable {q q' : Queue} {t : TaskId} {reply : Reply}

/-- The row `claim_run` selects is pending, of a runtime in `caps`, and no
older row qualifies. -/
theorem claimed_some {caps : List String} {locked : RunId → Bool} {r : RunId}
    (h : q.claimed caps locked = some r) :
    r < q.nextRun ∧ q.claimable caps locked r = true := by
  refine ⟨?_, List.find?_some h⟩
  exact List.mem_range.mp (List.mem_of_find?_eq_some h)

theorem claimable_status {caps : List String} {locked : RunId → Bool} {r : RunId}
    (h : q.claimable caps locked r = true) :
    ∃ row, q.runs r = some row ∧ row.status = .pending := by
  unfold Queue.claimable at h
  cases hrow : q.runs r with
  | none => simp [hrow] at h
  | some row =>
      simp only [hrow, Bool.and_eq_true, decide_eq_true_eq] at h
      exact ⟨row, rfl, h.2.1⟩

/-- A successful `claim_run`, taken apart. -/
theorem claim_inv {p : Proc} {caps : List String} {locked : RunId → Bool}
    (h : q.claim p caps locked = some q') :
    ∃ r job row, q.claimed caps locked = some r ∧ q.runs r = some row ∧
      row.status = .pending ∧ job.runId = r ∧
      q' = { (q.onRun r (claimRun q.now)).setWorker q.nextTask
              (some { proc := p, job, pc := .mark, beatAt := q.now }) with
            nextTask := q.nextTask + 1 } := by
  simp only [Queue.claim, Option.bind_eq_bind, Option.bind_eq_some_iff,
    Option.pure_def, Option.some.injEq] at h
  obtain ⟨r, hr, job, hjob, rfl⟩ := h
  obtain ⟨row, hrow, hpend⟩ := claimable_status (claimed_some hr).2
  refine ⟨r, job, row, hr, hrow, hpend, ?_, rfl⟩
  simp only [Queue.job, Option.bind_eq_bind, Option.bind_eq_some_iff,
    Option.pure_def, Option.some.injEq] at hjob
  obtain ⟨_, _, _, _, rfl⟩ := hjob
  rfl

/-- The steps of a worker task. -/
inductive WorkerStep (q : Queue) (t : TaskId) (w : WorkerTask) (reply : Reply) :
    Queue → Prop
  | mark (row : Run) (hpc : w.pc = .mark) (hrow : q.runs w.job.runId = some row) :
      WorkerStep q t w reply
        (((q.onRun w.job.runId markAttempt).setWorker t
          (some { w with pc := .exec (row.attempts + 1) .acquire })).record
            (.called w.job.runId (.worker t)))
  | leave (attempt : Nat) (hpc : w.pc = .exec attempt .returned) :
      WorkerStep q t w reply
        { q.setWorker t (some { w with pc := .outcome attempt }) with
          active := activeAt q.active w.proc w.job.runId none }
  | exec (attempt : Nat) (pc : ExecPc) (out : ExecOut) (hpc : w.pc = .exec attempt pc)
      (hout : execStep q.now w.job.captureOutput q.killed pc reply = some out) :
      WorkerStep q t w reply
        ((q.apply w.proc w.job.runId (.worker t) out).setWorker t
          (some { w with pc := .exec attempt out.pc }))
  | retry (attempt : Nat) (row : Run) (pc : WorkerPc) (hpc : w.pc = .outcome attempt)
      (hrow : q.runs w.job.runId = some row) (hret : retries row attempt = true)
      (hpc' : (pc = .errorRead ∧ w.job.timeoutSecs.isSome = true) ∨
        (pc = .requeue ∧ w.job.timeoutSecs.isSome = false)) :
      WorkerStep q t w reply (q.setWorker t (some { w with pc }))
  | giveUp (hpc : (∃ attempt, w.pc = .outcome attempt) ∨ w.pc = .errorRead) :
      WorkerStep q t w reply (q.setWorker t none)
  | errorRead (hpc : w.pc = .errorRead) (row : Run)
      (hrow : q.runs w.job.runId = some row) (herr : row.error ≠ some "timeout") :
      WorkerStep q t w reply (q.setWorker t (some { w with pc := .requeue }))
  | requeue (hpc : w.pc = .requeue) :
      WorkerStep q t w reply ((q.onRun w.job.runId requeue).setWorker t none)

theorem stepWorker_inv (h : q.stepWorker t reply = some q') :
    ∃ w, q.workers t = some w ∧ WorkerStep q t w reply q' := by
  unfold Queue.stepWorker at h
  obtain ⟨w, hw, h⟩ := Option.bind_eq_some_iff.mp h
  refine ⟨w, hw, ?_⟩
  split at h
  · rename_i hpc
    obtain ⟨row, hrow, h⟩ := Option.bind_eq_some_iff.mp h
    cases h
    exact .mark row hpc hrow
  · rename_i attempt hpc
    cases h
    exact .leave attempt hpc
  · rename_i attempt pc _ hpc
    obtain ⟨out, hout, h⟩ := Option.bind_eq_some_iff.mp h
    cases h
    exact .exec attempt pc out hpc hout
  · rename_i attempt hpc
    obtain ⟨row, hrow, h⟩ := Option.bind_eq_some_iff.mp h
    split at h
    · rename_i hret
      split at h
      · rename_i hown
        cases h
        exact .retry attempt row _ hpc hrow hret (Or.inl ⟨rfl, hown⟩)
      · rename_i hown
        cases h
        exact .retry attempt row _ hpc hrow hret
          (Or.inr ⟨rfl, Bool.eq_false_iff.mpr hown⟩)
    · cases h
      exact .giveUp (Or.inl ⟨attempt, hpc⟩)
  · rename_i hpc
    obtain ⟨row, hrow, h⟩ := Option.bind_eq_some_iff.mp h
    split at h
    · cases h
      exact .giveUp (Or.inr hpc)
    · rename_i herr
      cases h
      exact .errorRead hpc row hrow herr
  · rename_i hpc
    cases h
    exact .requeue hpc

/-- The steps of a task of the flow engine that executes rows. -/
inductive FlowTaskStep (q : Queue) (t : TaskId) (w : FlowTask) (reply : Reply) :
    Queue → Prop
  | returns (hpc : w.pc = .next) (htodo : w.todo = []) :
      FlowTaskStep q t w reply (q.setFlow t none)
  | insert (n : NewRun) (rest : List NewRun) (hpc : w.pc = .next)
      (htodo : w.todo = n :: rest) :
      FlowTaskStep q t w reply
        (((q.addRuns [insertRunWithBlobs q.now n]).setFlow t
          (some { w with todo := rest, pc := .wait q.nextRun })).record
            (.inserted q.nextRun t))
  | call (r : RunId) (hpc : w.pc = .wait r) :
      FlowTaskStep q t w reply
        ((q.setFlow t (some { w with pc := .exec r .acquire })).record
          (.called r (.flow t)))
  | leave (r : RunId) (hpc : w.pc = .exec r .returned) :
      FlowTaskStep q t w reply
        { q.setFlow t (some { w with pc := .status r }) with
          active := activeAt q.active w.proc r none }
  | exec (r : RunId) (pc : ExecPc) (out : ExecOut) (hpc : w.pc = .exec r pc)
      (hout : execStep q.now false q.killed pc reply = some out) :
      FlowTaskStep q t w reply
        ((q.apply w.proc r (.flow t) out).setFlow t
          (some { w with pc := .exec r out.pc }))
  | status (r : RunId) (row : Run) (hpc : w.pc = .status r)
      (hrow : q.runs r = some row) :
      FlowTaskStep q t w reply
        (q.setFlow t
          (some { w with todo := w.call.rest row.status w.todo, pc := .next }))

theorem stepFlow_inv (h : q.stepFlow t reply = some q') :
    ∃ w, q.flows t = some w ∧ FlowTaskStep q t w reply q' := by
  unfold Queue.stepFlow at h
  obtain ⟨w, hw, h⟩ := Option.bind_eq_some_iff.mp h
  refine ⟨w, hw, ?_⟩
  split at h
  · rename_i hpc
    split at h
    · rename_i htodo
      cases h
      exact .returns hpc htodo
    · rename_i n rest htodo
      cases h
      exact .insert n rest hpc htodo
  · rename_i r hpc
    cases h
    exact .call r hpc
  · rename_i r hpc
    cases h
    exact .leave r hpc
  · rename_i r pc _ hpc
    obtain ⟨out, hout, h⟩ := Option.bind_eq_some_iff.mp h
    cases h
    exact .exec r pc out hpc hout
  · rename_i r hpc
    obtain ⟨row, hrow, h⟩ := Option.bind_eq_some_iff.mp h
    cases h
    exact .status r row hpc hrow

/-- The steps of a flow driver. -/
inductive DriverStep (q : Queue) (t : TaskId) (d : Driver) : Queue → Prop
  | touch (hpc : d.pc = .drive ∨ d.pc = .finished) :
      DriverStep q t d
        ((q.onFlow d.flow (touchFlowRun q.now)).setDriver t
          (some { d with beatAt := q.now }))
  | finish (status : FlowStatus) (hpc : d.pc = .drive)
      (hst : ¬ (status = .pending ∨ status = .running)) :
      DriverStep q t d
        ((q.onFlow d.flow (finishFlowRun q.now status)).setDriver t
          (some { d with pc := .finished }))
  | error (hpc : d.pc = .drive) :
      DriverStep q t d (q.setDriver t (some { d with pc := .failing }))
  | done (hpc : d.pc = .finished) : DriverStep q t d (q.setDriver t none)
  | recorded (hpc : d.pc = .failing) :
      DriverStep q t d
        ((q.onFlow d.flow (finishFlowRun q.now .failed)).setDriver t none)

theorem stepDriver_inv {m : DriverMove} (h : q.stepDriver t m = some q') :
    ∃ d, q.drivers t = some d ∧ DriverStep q t d q' := by
  replace h := Option.bind_eq_some_iff.mp h
  obtain ⟨d, hd, h⟩ := h
  refine ⟨d, hd, ?_⟩
  split at h
  · rename_i hpc
    cases h
    exact .touch (Or.inl hpc)
  · rename_i hpc
    cases h
    exact .touch (Or.inr hpc)
  · rename_i status hpc
    split at h
    · cases h
    · rename_i hst
      cases h
      exact .finish status hpc hst
  · rename_i hpc
    cases h
    exact .error hpc
  · rename_i hpc
    cases h
    exact .done hpc
  · rename_i hpc
    cases h
    exact .recorded hpc
  · cases h

/-- The row `claim_flow_run` selects is pending. -/
theorem claimFlow_inv {p : Proc} {locked : FlowId → Bool}
    (h : q.claimFlow p locked = some q') :
    ∃ f row, q.flowRuns f = some row ∧ row.status = .pending ∧
      q' = { (q.onFlow f (claimFlowRun q.now)).setDriver q.nextTask
              (some { proc := p, flow := f, pc := .drive, beatAt := q.now }) with
            nextTask := q.nextTask + 1 } := by
  simp only [Queue.claimFlow, Option.bind_eq_bind, Option.bind_eq_some_iff,
    Option.pure_def, Option.some.injEq] at h
  obtain ⟨f, hf, rfl⟩ := h
  have hsel := List.find?_some hf
  simp only [Bool.and_eq_true, Option.any_eq_true, decide_eq_true_eq] at hsel
  obtain ⟨_, row, hrow, hpend⟩ := hsel
  exact ⟨f, row, hrow, hpend, rfl⟩

/-- A heartbeat stamps the row of a task that is inside `Executor::run`. -/
theorem beat_inv {who : Caller} (h : q.beat who = some q') :
    (∃ t w, q.workers t = some w ∧ (∃ attempt pc, w.pc = .exec attempt pc) ∧
        q' = (q.onRun w.job.runId (touchRun q.now)).setWorker t
          (some { w with beatAt := q.now })) ∨
      (∃ t w r pc, q.flows t = some w ∧ w.pc = .exec r pc ∧
        q' = q.onRun r (touchRun q.now)) := by
  cases who with
  | worker t =>
      obtain ⟨w, hw, h⟩ := Option.bind_eq_some_iff.mp h
      split at h
      · rename_i attempt pc hpc
        cases h
        exact Or.inl ⟨t, w, hw, ⟨attempt, pc, hpc⟩, rfl⟩
      · cases h
  | flow t =>
      obtain ⟨w, hw, h⟩ := Option.bind_eq_some_iff.mp h
      split at h
      · rename_i r pc hpc
        cases h
        exact Or.inr ⟨t, w, r, pc, hw, hpc, rfl⟩
      · cases h

/-- `cancel_run` cancels the row it names, or finds nothing to cancel. -/
theorem cancelWrite_inv (h : q.cancelWrite t = some q') :
    ∃ c, q.cancels t = some c ∧
      ((∃ row, q.runs c.run = some row ∧ cancelTakes row = true ∧
          q' = { (q.onRun c.run (cancelRun q.now c.reason)).record
              (.canceled c.run) with cancels := Function.update q.cancels t none }) ∨
        q' = { q with cancels := Function.update q.cancels t none }) := by
  obtain ⟨c, hc, h⟩ := Option.bind_eq_some_iff.mp h
  refine ⟨c, hc, ?_⟩
  cases hrow : q.runs c.run with
  | none =>
      simp only [hrow] at h
      cases h
      exact Or.inr rfl
  | some row =>
      simp only [hrow] at h
      split at h
      · rename_i htakes
        cases h
        exact Or.inl ⟨row, rfl, htakes, rfl⟩
      · cases h
        exact Or.inr rfl

end Inversion

/-! ## Rows -/

/-- The writes step `a` may make to row `r`. -/
inductive RowWrite (q : Queue) (a : Label) (r : RunId) : (Run → Run) → Prop
  | nothing : RowWrite q a r id
  | claim (p : Proc) (caps : List String) (locked : RunId → Bool) (row : Run)
      (ha : a = .claim p caps locked) (hsel : q.claimed caps locked = some r)
      (hrow : q.runs r = some row) (hp : row.status = .pending) :
      RowWrite q a r (claimRun q.now)
  | mark (t : TaskId) (reply : Reply) (w : WorkerTask) (ha : a = .worker t reply)
      (hw : q.workers t = some w) (hr : w.job.runId = r) (hpc : w.pc = .mark) :
      RowWrite q a r markAttempt
  | exec (f : Run → Run) (hf : Writes q.now f) : RowWrite q a r f
  | requeue (t : TaskId) (reply : Reply) (w : WorkerTask) (ha : a = .worker t reply)
      (hw : q.workers t = some w) (hr : w.job.runId = r) (hpc : w.pc = .requeue) :
      RowWrite q a r requeue
  | touch : RowWrite q a r (touchRun q.now)
  | cancel (reason : String) : RowWrite q a r (cancelRun q.now reason)
  | reap (ha : a = .reapRuns) : RowWrite q a r (reapOrphanRun q.now runLease)
  | failStale (maxAge : Nat) : RowWrite q a r (failStalePending q.now maxAge)

section Rows

variable {q q' : Queue} {a : Label} {r : RunId} {row : Run}

theorem appendRows_lt {runs : RunId → Option Run} {next : RunId} {rows : List Run}
    (h : r < next) : appendRows runs next rows r = runs r := if_pos h

theorem appendRows_ge {runs : RunId → Option Run} {next : RunId} {rows : List Run}
    (h : next ≤ r) : appendRows runs next rows r = rows[r - next]? :=
  if_neg (Nat.not_lt.mpr h)

/-- A statement on row `r₀`, seen from row `r`. -/
theorem onRun_row {r₀ : RunId} {f : Run → Run} (hrow : q.runs r = some row)
    (hf : r = r₀ → RowWrite q a r f) :
    ∃ g, (q.onRun r₀ f).runs r = some (g row) ∧ RowWrite q a r g := by
  by_cases hr : r = r₀
  · subst hr
    refine ⟨f, ?_, hf rfl⟩
    simp [Queue.onRun, hrow]
  · refine ⟨id, ?_, .nothing⟩
    simpa [Queue.onRun, Function.update_of_ne hr] using hrow

/-- A step of an execution of `r₀`, seen from row `r`. -/
theorem apply_row (p : Proc) {r₀ : RunId} (who : Caller) {out : ExecOut}
    (hrow : q.runs r = some row) (hlt : r < q.nextRun)
    (hout : Writes q.now out.write) :
    ∃ g, (q.apply p r₀ who out).runs r = some (g row) ∧ RowWrite q a r g := by
  obtain ⟨g, hg, hwrite⟩ := onRun_row hrow (fun _ => .exec _ hout)
  refine ⟨g, ?_, hwrite⟩
  exact (appendRows_lt hlt).trans hg

/-- **Rows.**  A step rewrites a row by one of the statements of `RowWrite`. -/
theorem step_row (h : step q a = some q') (hrow : q.runs r = some row)
    (hlt : r < q.nextRun) :
    ∃ f, q'.runs r = some (f row) ∧ RowWrite q a r f := by
  cases a with
  | tick d | putScript i s | spawnFlow p call | cancelCall p x reason
  | enqueueFlow input | reapFlows | crash p =>
      cases h
      exact ⟨id, hrow, .nothing⟩
  | enqueue rows | refuse n reason =>
      cases h
      exact ⟨id, (appendRows_lt hlt).trans hrow, .nothing⟩
  | claim p caps locked =>
      obtain ⟨x, job, row', hsel, hx, hpend, _, rfl⟩ := claim_inv h
      exact onRun_row hrow fun hr =>
        .claim p caps locked row' rfl (hr ▸ hsel) (hr ▸ hx) hpend
  | worker t reply =>
      obtain ⟨w, hw, hstep⟩ := stepWorker_inv h
      cases hstep with
      | mark row' hpc hrow' =>
          exact onRun_row hrow fun hr => .mark t reply w rfl hw hr.symm hpc
      | exec attempt pc out hpc hout =>
          exact apply_row w.proc (.worker t) hrow hlt (execStep_writes hout)
      | requeue hpc =>
          exact onRun_row hrow fun hr => .requeue t reply w rfl hw hr.symm hpc
      | leave | retry | giveUp | errorRead => exact ⟨id, hrow, .nothing⟩
  | flow t reply =>
      obtain ⟨w, hw, hstep⟩ := stepFlow_inv h
      cases hstep with
      | insert n rest hpc htodo => exact ⟨id, (appendRows_lt hlt).trans hrow, .nothing⟩
      | exec x pc out hpc hout =>
          exact apply_row w.proc (.flow t) hrow hlt (execStep_writes hout)
      | returns | call | leave | status => exact ⟨id, hrow, .nothing⟩
  | beat who =>
      rcases beat_inv h with ⟨t, w, _, _, rfl⟩ | ⟨t, w, x, pc, _, _, rfl⟩
      · exact onRun_row hrow fun _ => .touch
      · exact onRun_row hrow fun _ => .touch
  | cancelWrite t =>
      obtain ⟨c, _, ⟨_, _, _, rfl⟩ | rfl⟩ := cancelWrite_inv h
      · exact onRun_row hrow fun _ => .cancel c.reason
      · exact ⟨id, hrow, .nothing⟩
  | reapRuns =>
      cases h
      exact ⟨_, by simp [Queue.onRuns, hrow], .reap rfl⟩
  | failStale maxAge =>
      cases h
      exact ⟨_, by simp [Queue.onRuns, hrow], .failStale maxAge⟩
  | claimFlow p locked =>
      obtain ⟨f, row', _, _, rfl⟩ := claimFlow_inv h
      exact ⟨id, hrow, .nothing⟩
  | driver t m =>
      obtain ⟨d, _, hstep⟩ := stepDriver_inv h
      cases hstep <;> exact ⟨id, hrow, .nothing⟩

/-! ### Rows that were not there -/

/-- What a row that was not there looks like. -/
inductive RowNew (q : Queue) : Run → Prop
  | inserted (n : NewRun) : RowNew q (insertRunWithBlobs q.now n)
  | refused (n : NewRun) (reason : String) :
      RowNew q (insertRefusedRun q.now n reason)

theorem appendRows_some {runs : RunId → Option Run} {next : RunId} {rows : List Run}
    (h : appendRows runs next rows r = some row) :
    runs r = some row ∨ (next ≤ r ∧ row ∈ rows) := by
  rcases Nat.lt_or_ge r next with hlt | hge
  · rw [appendRows_lt hlt] at h
    exact Or.inl h
  · rw [appendRows_ge hge] at h
    exact Or.inr ⟨hge, List.mem_of_getElem? h⟩

theorem onRun_some {r₀ : RunId} {f : Run → Run}
    (h : (q.onRun r₀ f).runs r = some row) : ∃ row₀, q.runs r = some row₀ := by
  by_cases hr : r = r₀
  · subst hr
    simp only [Queue.onRun, Function.update_self, Option.map_eq_some_iff] at h
    obtain ⟨row₀, hrow₀, _⟩ := h
    exact ⟨row₀, hrow₀⟩
  · simp only [Queue.onRun, Function.update_of_ne hr] at h
    exact ⟨row, h⟩

theorem onRuns_some {f : Run → Run} (h : (q.onRuns f).runs r = some row) :
    ∃ row₀, q.runs r = some row₀ := by
  obtain ⟨row₀, hrow₀, _⟩ := Option.map_eq_some_iff.mp h
  exact ⟨row₀, hrow₀⟩

/-- A step of an execution keeps the rows there are and adds those it fires. -/
theorem apply_some (p : Proc) {r₀ : RunId} (who : Caller) {out : ExecOut}
    (h : (q.apply p r₀ who out).runs r = some row) :
    (∃ row₀, q.runs r = some row₀) ∨ (q.nextRun ≤ r ∧ RowNew q row) := by
  rcases appendRows_some h with hold | ⟨hge, hmem⟩
  · exact Or.inl (onRun_some hold)
  · obtain ⟨n, _, rfl⟩ := List.mem_map.mp hmem
    exact Or.inr ⟨hge, .inserted n⟩

/-- **New rows.**  A row after a step was there before or is one of `RowNew`. -/
theorem step_new_row (h : step q a = some q') (hrow : q'.runs r = some row) :
    (∃ row₀, q.runs r = some row₀) ∨ (q.nextRun ≤ r ∧ RowNew q row) := by
  cases a with
  | tick d | putScript i s | spawnFlow p call | cancelCall p x reason
  | enqueueFlow input | reapFlows | crash p =>
      cases h
      exact Or.inl ⟨row, hrow⟩
  | enqueue rows =>
      cases h
      rcases appendRows_some hrow with hold | ⟨hge, hmem⟩
      · exact Or.inl ⟨row, hold⟩
      · obtain ⟨n, _, rfl⟩ := List.mem_map.mp hmem
        exact Or.inr ⟨hge, .inserted n⟩
  | refuse n reason =>
      cases h
      rcases appendRows_some hrow with hold | ⟨hge, hmem⟩
      · exact Or.inl ⟨row, hold⟩
      · cases List.mem_singleton.mp hmem
        exact Or.inr ⟨hge, .refused n reason⟩
  | claim p caps locked =>
      obtain ⟨x, job, row', _, hx, _, _, rfl⟩ := claim_inv h
      exact Or.inl (onRun_some hrow)
  | worker t reply =>
      obtain ⟨w, hw, hstep⟩ := stepWorker_inv h
      cases hstep with
      | mark row' hpc hrow' => exact Or.inl (onRun_some hrow)
      | exec attempt pc out hpc hout =>
          exact apply_some w.proc (.worker t) hrow
      | requeue hpc => exact Or.inl (onRun_some hrow)
      | leave | retry | giveUp | errorRead => exact Or.inl ⟨row, hrow⟩
  | flow t reply =>
      obtain ⟨w, hw, hstep⟩ := stepFlow_inv h
      cases hstep with
      | insert n rest hpc htodo =>
          rcases appendRows_some hrow with hold | ⟨hge, hmem⟩
          · exact Or.inl ⟨row, hold⟩
          · cases List.mem_singleton.mp hmem
            exact Or.inr ⟨hge, .inserted n⟩
      | exec x pc out hpc hout => exact apply_some w.proc (.flow t) hrow
      | returns | call | leave | status => exact Or.inl ⟨row, hrow⟩
  | beat who =>
      rcases beat_inv h with ⟨t, w, _, _, rfl⟩ | ⟨t, w, x, pc, _, _, rfl⟩
      · exact Or.inl (onRun_some hrow)
      · exact Or.inl (onRun_some hrow)
  | cancelWrite t =>
      obtain ⟨c, _, ⟨_, _, _, rfl⟩ | rfl⟩ := cancelWrite_inv h
      · exact Or.inl (onRun_some hrow)
      · exact Or.inl ⟨row, hrow⟩
  | reapRuns | failStale maxAge =>
      cases h
      exact Or.inl (onRuns_some hrow)
  | claimFlow p locked =>
      obtain ⟨f, row', _, _, rfl⟩ := claimFlow_inv h
      exact Or.inl ⟨row, hrow⟩
  | driver t m =>
      obtain ⟨d, _, hstep⟩ := stepDriver_inv h
      cases hstep <;> exact Or.inl ⟨row, hrow⟩

/-- A canceled row stays canceled unless a task past its retry decision
requeues it. -/
theorem RowWrite.canceled {f : Run → Run} (hf : RowWrite q a r f)
    (hrow : q.runs r = some row) (hc : row.status = .canceled)
    (hno : ∀ t w, q.workers t = some w → w.job.runId = r → w.pc ≠ .requeue) :
    (f row).status = .canceled := by
  cases hf with
  | nothing | mark => exact hc
  | claim p caps locked row' ha hsel hrow' hp =>
      rw [hrow] at hrow'
      cases hrow'
      rw [hc] at hp
      cases hp
  | exec _ hf =>
      cases hf with
      | nothing | outputs | result | receipt => exact hc
      | finish st hst c e => rw [finishRun_of_canceled hc]; exact hc
  | requeue t reply w ha hw hr hpc => exact (hno t w hw hr hpc).elim
  | touch => rw [touchRun_status]; exact hc
  | cancel reason => simp [cancelRun_status, hc]
  | reap ha =>
      have hlive : orphaned q.now runLease row = false := by simp [orphaned, hc]
      rw [reapOrphanRun_of_not_orphaned hlive]
      exact hc
  | failStale maxAge =>
      rw [failStalePending_of_not_pending (by simp [hc])]
      exact hc

end Rows

/-! ## Tasks -/

theorem update_some {α : Type} {f : Nat → Option α} {t t' : Nat} {o : Option α}
    {x : α} (h : Function.update f t o t' = some x) :
    (t' = t ∧ o = some x) ∨ f t' = some x := by
  by_cases ht : t' = t
  · subst ht
    exact Or.inl ⟨rfl, by simpa using h⟩
  · exact Or.inr (by simpa [Function.update_of_ne ht] using h)

/-- Where worker task `t` comes from. -/
inductive WorkerFrom (q : Queue) (a : Label) (t : TaskId) : WorkerTask → Prop
  | kept (w : WorkerTask) (hw : q.workers t = some w) : WorkerFrom q a t w
  | claimed (w : WorkerTask) (row : Run) (p : Proc) (caps : List String)
      (locked : RunId → Bool) (ha : a = .claim p caps locked)
      (hclaim : q.claimed caps locked = some w.job.runId)
      (hrow : q.runs w.job.runId = some row) (hp : row.status = .pending)
      (hpc : w.pc = .mark) (ht : t = q.nextTask) : WorkerFrom q a t w
  | marked (w : WorkerTask) (attempt : Nat) (hw : q.workers t = some w)
      (hpc : w.pc = .mark) (row : Run) (hrow : q.runs w.job.runId = some row)
      (hat : attempt = row.attempts + 1) (reply : Reply) (ha : a = .worker t reply) :
      WorkerFrom q a t { w with pc := .exec attempt .acquire }
  | left (w : WorkerTask) (attempt : Nat) (hw : q.workers t = some w)
      (hpc : w.pc = .exec attempt .returned) :
      WorkerFrom q a t { w with pc := .outcome attempt }
  | exec (w : WorkerTask) (attempt : Nat) (pc : ExecPc) (reply : Reply)
      (out : ExecOut) (hw : q.workers t = some w) (hpc : w.pc = .exec attempt pc)
      (hout : execStep q.now w.job.captureOutput q.killed pc reply = some out)
      (ha : ∃ reply, a = .worker t reply) :
      WorkerFrom q a t { w with pc := .exec attempt out.pc }
  | retry (w : WorkerTask) (attempt : Nat) (row : Run) (pc : WorkerPc) (reply : Reply)
      (ha : a = .worker t reply) (hw : q.workers t = some w)
      (hpc : w.pc = .outcome attempt) (hrow : q.runs w.job.runId = some row)
      (hret : retries row attempt = true)
      (hpc' : (pc = .errorRead ∧ w.job.timeoutSecs.isSome = true) ∨
        (pc = .requeue ∧ w.job.timeoutSecs.isSome = false)) :
      WorkerFrom q a t { w with pc }
  | errorRead (w : WorkerTask) (hw : q.workers t = some w)
      (hpc : w.pc = .errorRead) (row : Run) (hrow : q.runs w.job.runId = some row)
      (herr : row.error ≠ some "timeout") (reply : Reply) (ha : a = .worker t reply) :
      WorkerFrom q a t { w with pc := .requeue }
  | beaten (w : WorkerTask) (hw : q.workers t = some w) :
      WorkerFrom q a t { w with beatAt := q.now }

/-- Where flow task `t` comes from. -/
inductive FlowFrom (q q' : Queue) (a : Label) (t : TaskId) : FlowTask → Prop
  | kept (w : FlowTask) (hw : q.flows t = some w) : FlowFrom q q' a t w
  | spawned (p : Proc) (call : FlowCall) (ha : a = .spawnFlow p call)
      (ht : t = q.nextTask) :
      FlowFrom q q' a t { proc := p, call, todo := call.rows, pc := .next }
  | inserted (w : FlowTask) (n : NewRun) (rest : List NewRun)
      (hw : q.flows t = some w) (hpc : w.pc = .next) (htodo : w.todo = n :: rest)
      (hnext : q.nextRun < q'.nextRun) (hin : .inserted q.nextRun t ∈ q'.log) :
      FlowFrom q q' a t { w with todo := rest, pc := .wait q.nextRun }
  | called (w : FlowTask) (r : RunId) (hw : q.flows t = some w)
      (hpc : w.pc = .wait r) : FlowFrom q q' a t { w with pc := .exec r .acquire }
  | left (w : FlowTask) (r : RunId) (hw : q.flows t = some w)
      (hpc : w.pc = .exec r .returned) : FlowFrom q q' a t { w with pc := .status r }
  | exec (w : FlowTask) (r : RunId) (pc : ExecPc) (reply : Reply) (out : ExecOut)
      (hw : q.flows t = some w) (hpc : w.pc = .exec r pc)
      (hout : execStep q.now false q.killed pc reply = some out) :
      FlowFrom q q' a t { w with pc := .exec r out.pc }
  | status (w : FlowTask) (r : RunId) (st : RunStatus) (hw : q.flows t = some w)
      (hpc : w.pc = .status r) :
      FlowFrom q q' a t { w with todo := w.call.rest st w.todo, pc := .next }

section Tasks

variable {q q' : Queue} {a : Label} {t : TaskId}

/-- **Worker tasks.**  Every worker task after a step comes from one of
`WorkerFrom`. -/
theorem step_workers {w : WorkerTask} (h : step q a = some q')
    (hw : q'.workers t = some w) : WorkerFrom q a t w := by
  cases a with
  | tick d | putScript i s | spawnFlow p call | cancelCall p x reason
  | enqueueFlow input | reapFlows | enqueue rows | refuse n reason | reapRuns
  | failStale maxAge =>
      cases h
      exact .kept w hw
  | crash p =>
      cases h
      exact .kept w (Option.filter_eq_some_iff.mp hw).1
  | claim p caps locked =>
      obtain ⟨r, job, row, hclaim, hrow, hpend, rfl, rfl⟩ := claim_inv h
      rcases update_some hw with ⟨ht, hnew⟩ | hold
      · cases hnew
        exact .claimed _ row p caps locked rfl hclaim hrow hpend rfl ht
      · exact .kept w hold
  | worker x reply =>
      obtain ⟨v, hv, hstep⟩ := stepWorker_inv h
      cases hstep with
      | mark row hpc hrow =>
          rcases update_some hw with ⟨rfl, hnew⟩ | hkeep
          · cases hnew
            exact .marked v _ hv hpc row hrow rfl reply rfl
          · exact .kept w hkeep
      | leave attempt hpc =>
          rcases update_some hw with ⟨rfl, hnew⟩ | hkeep
          · cases hnew
            exact .left v attempt hv hpc
          · exact .kept w hkeep
      | exec attempt pc out hpc hout =>
          rcases update_some hw with ⟨rfl, hnew⟩ | hkeep
          · cases hnew
            exact .exec v attempt pc reply out hv hpc hout ⟨reply, rfl⟩
          · exact .kept w hkeep
      | retry attempt row pc hpc hrow hret hpc' =>
          rcases update_some hw with ⟨rfl, hnew⟩ | hkeep
          · cases hnew
            exact .retry v attempt row pc reply rfl hv hpc hrow hret hpc'
          · exact .kept w hkeep
      | errorRead hpc row hrow herr =>
          rcases update_some hw with ⟨rfl, hnew⟩ | hkeep
          · cases hnew
            exact .errorRead v hv hpc row hrow herr reply rfl
          · exact .kept w hkeep
      | giveUp | requeue =>
          rcases update_some hw with ⟨_, hnew⟩ | hkeep
          · cases hnew
          · exact .kept w hkeep
  | flow x reply =>
      obtain ⟨v, hv, hstep⟩ := stepFlow_inv h
      cases hstep <;> exact .kept w hw
  | beat who =>
      rcases beat_inv h with ⟨x, v, hv, _, rfl⟩ | ⟨x, v, r, pc, _, _, rfl⟩
      · rcases update_some hw with ⟨rfl, hnew⟩ | hold
        · cases hnew
          exact .beaten v hv
        · exact .kept w hold
      · exact .kept w hw
  | cancelWrite x =>
      obtain ⟨c, _, ⟨_, _, _, rfl⟩ | rfl⟩ := cancelWrite_inv h <;> exact .kept w hw
  | claimFlow p locked =>
      obtain ⟨f, row', _, _, rfl⟩ := claimFlow_inv h
      exact .kept w hw
  | driver x m =>
      obtain ⟨d, _, hstep⟩ := stepDriver_inv h
      cases hstep <;> exact .kept w hw

/-- **Flow tasks.**  Every flow task after a step comes from one of
`FlowFrom`. -/
theorem step_flows {w : FlowTask} (h : step q a = some q')
    (hw : q'.flows t = some w) : FlowFrom q q' a t w := by
  cases a with
  | tick d | putScript i s | cancelCall p x reason | enqueueFlow input | reapFlows
  | enqueue rows | refuse n reason | reapRuns | failStale maxAge =>
      cases h
      exact .kept w hw
  | crash p =>
      cases h
      exact .kept w (Option.filter_eq_some_iff.mp hw).1
  | spawnFlow p call =>
      cases h
      rcases update_some hw with ⟨rfl, hnew⟩ | hold
      · cases hnew
        exact .spawned p call rfl rfl
      · exact .kept w hold
  | claim p caps locked =>
      obtain ⟨_, _, _, _, _, _, _, rfl⟩ := claim_inv h
      exact .kept w hw
  | worker x reply =>
      obtain ⟨v, _, hstep⟩ := stepWorker_inv h
      cases hstep <;> exact .kept w hw
  | flow x reply =>
      obtain ⟨v, hv, hstep⟩ := stepFlow_inv h
      cases hstep with
      | returns hpc htodo =>
          rcases update_some hw with ⟨_, hnew⟩ | hkeep
          · cases hnew
          · exact .kept w hkeep
      | insert n rest hpc htodo =>
          rcases update_some hw with ⟨rfl, hnew⟩ | hkeep
          · cases hnew
            exact .inserted v n rest hv hpc htodo (Nat.lt_succ_self _) List.mem_cons_self
          · exact .kept w hkeep
      | call r hpc =>
          rcases update_some hw with ⟨rfl, hnew⟩ | hkeep
          · cases hnew
            exact .called v r hv hpc
          · exact .kept w hkeep
      | leave r hpc =>
          rcases update_some hw with ⟨rfl, hnew⟩ | hkeep
          · cases hnew
            exact .left v r hv hpc
          · exact .kept w hkeep
      | exec r pc out hpc hout =>
          rcases update_some hw with ⟨rfl, hnew⟩ | hkeep
          · cases hnew
            exact .exec v r pc reply out hv hpc hout
          · exact .kept w hkeep
      | status r row hpc hrow =>
          rcases update_some hw with ⟨rfl, hnew⟩ | hkeep
          · cases hnew
            exact .status v r row.status hv hpc
          · exact .kept w hkeep
  | beat who =>
      rcases beat_inv h with ⟨_, _, _, _, rfl⟩ | ⟨_, _, _, _, _, _, rfl⟩ <;> exact .kept w hw
  | cancelWrite x =>
      obtain ⟨c, _, ⟨_, _, _, rfl⟩ | rfl⟩ := cancelWrite_inv h <;> exact .kept w hw
  | claimFlow p locked =>
      obtain ⟨f, row', _, _, rfl⟩ := claimFlow_inv h
      exact .kept w hw
  | driver x m =>
      obtain ⟨d, _, hstep⟩ := stepDriver_inv h
      cases hstep <;> exact .kept w hw

end Tasks

/-! ## The history -/

/-- What one step adds to the history. -/
inductive Logged (q q' : Queue) (a : Label) : List Entry → Prop
  | nothing : Logged q q' a q.log
  | inserted (t : TaskId) (w : FlowTask) (hw : q.flows t = some w)
      (hpc : w.pc = .next) (hnext : q.nextRun < q'.nextRun) :
      Logged q q' a (.inserted q.nextRun t :: q.log)
  | calledWorker (t : TaskId) (w : WorkerTask) (hw : q.workers t = some w)
      (hpc : w.pc = .mark) (reply : Reply) (ha : a = .worker t reply) :
      Logged q q' a (.called w.job.runId (.worker t) :: q.log)
  | calledFlow (t : TaskId) (w : FlowTask) (r : RunId) (hw : q.flows t = some w)
      (hpc : w.pc = .wait r) : Logged q q' a (.called r (.flow t) :: q.log)
  | startedWorker (t : TaskId) (w : WorkerTask) (attempt : Nat) (cid : Cid)
      (hw : q.workers t = some w) (hpc : w.pc = .exec attempt (.startExec cid))
      (hlive : q.killed cid = false) :
      Logged q q' a (.started w.job.runId (.worker t) :: q.log)
  | startedFlow (t : TaskId) (w : FlowTask) (r : RunId) (cid : Cid)
      (hw : q.flows t = some w) (hpc : w.pc = .exec r (.startExec cid))
      (hlive : q.killed cid = false) : Logged q q' a (.started r (.flow t) :: q.log)
  | canceled (t : TaskId) (c : Cancel) (row : Run) (ha : a = .cancelWrite t)
      (hc : q.cancels t = some c) (hrow : q.runs c.run = some row)
      (htakes : cancelTakes row = true) : Logged q q' a (.canceled c.run :: q.log)

section History

variable {q q' : Queue} {a : Label}

/-- **History.**  A step adds at most one entry, one of `Logged`. -/
theorem step_log (h : step q a = some q') : Logged q q' a q'.log := by
  cases a with
  | tick d | putScript i s | cancelCall p x reason | enqueueFlow input | reapFlows
  | enqueue rows | refuse n reason | reapRuns | failStale maxAge | crash p
  | spawnFlow p call =>
      cases h
      exact .nothing
  | claim p caps locked =>
      obtain ⟨_, _, _, _, _, _, _, rfl⟩ := claim_inv h
      exact .nothing
  | worker t reply =>
      obtain ⟨w, hw, hstep⟩ := stepWorker_inv h
      cases hstep with
      | mark row hpc hrow => exact .calledWorker t w hw hpc reply rfl
      | exec attempt pc out hpc hout =>
          cases hs : out.started with
          | false => simpa [Queue.apply, Queue.setWorker, hs] using Logged.nothing
          | true =>
              obtain ⟨cid, rfl, hlive, _⟩ := execStep_started hout hs
              simpa [Queue.apply, Queue.setWorker, hs] using
                Logged.startedWorker t w attempt cid hw hpc hlive
      | leave | retry | giveUp | errorRead | requeue => exact .nothing
  | flow t reply =>
      obtain ⟨w, hw, hstep⟩ := stepFlow_inv h
      cases hstep with
      | insert n rest hpc htodo =>
          exact .inserted t w hw hpc (Nat.lt_succ_self _)
      | call r hpc => exact .calledFlow t w r hw hpc
      | exec r pc out hpc hout =>
          cases hs : out.started with
          | false => simpa [Queue.apply, Queue.setFlow, hs] using Logged.nothing
          | true =>
              obtain ⟨cid, rfl, hlive, _⟩ := execStep_started hout hs
              simpa [Queue.apply, Queue.setFlow, hs] using
                Logged.startedFlow t w r cid hw hpc hlive
      | returns | leave | status => exact .nothing
  | beat who =>
      rcases beat_inv h with ⟨_, _, _, _, rfl⟩ | ⟨_, _, _, _, _, _, rfl⟩ <;> exact .nothing
  | cancelWrite t =>
      obtain ⟨c, hc, ⟨row, hrow, htakes, rfl⟩ | rfl⟩ := cancelWrite_inv h
      · exact .canceled t c row rfl hc hrow htakes
      · exact .nothing
  | claimFlow p locked =>
      obtain ⟨f, row', _, _, rfl⟩ := claimFlow_inv h
      exact .nothing
  | driver x m =>
      obtain ⟨d, _, hstep⟩ := stepDriver_inv h
      cases hstep <;> exact .nothing

/-- The history only grows. -/
theorem log_subset (h : step q a = some q') {e : Entry} (he : e ∈ q.log) :
    e ∈ q'.log := by
  generalize hlog : q'.log = log
  cases hlog ▸ step_log h with
  | nothing => exact he
  | inserted | calledWorker | calledFlow | startedWorker | startedFlow | canceled =>
      exact List.mem_cons_of_mem _ he

/-- An insert in the history is old or the step's own. -/
theorem inserted_log {r : RunId} {t : TaskId} (h : step q a = some q')
    (hin : .inserted r t ∈ q'.log) :
    .inserted r t ∈ q.log ∨
      ∃ w, q.flows t = some w ∧ r = q.nextRun ∧ q.nextRun < q'.nextRun := by
  generalize hlog : q'.log = log at hin
  cases hlog ▸ step_log h with
  | nothing => exact Or.inl hin
  | inserted t' w hw hpc hnext =>
      rcases List.mem_cons.mp hin with heq | hin
      · cases heq
        exact Or.inr ⟨w, hw, rfl, hnext⟩
      · exact Or.inl hin
  | calledWorker | calledFlow | startedWorker | startedFlow | canceled =>
      rcases List.mem_cons.mp hin with heq | hin
      · cases heq
      · exact Or.inl hin

/-- A killed container stays killed. -/
theorem step_killed {cid : Cid} (h : step q a = some q')
    (hk : q.killed cid = true) : q'.killed cid = true := by
  have hkill : ∀ o, kill q.killed o cid = true := by
    intro o
    cases o with
    | none => exact hk
    | some c =>
        by_cases hc : cid = c
        · subst hc
          simp [kill]
        · simpa [kill, Function.update_of_ne hc] using hk
  cases a with
  | tick d | putScript i s | enqueueFlow input | reapFlows
  | enqueue rows | refuse n reason | reapRuns | failStale maxAge | crash p
  | spawnFlow p call =>
      cases h
      exact hk
  | cancelCall p x reason =>
      cases h
      exact hkill _
  | claim p caps locked =>
      obtain ⟨_, _, _, _, _, _, _, rfl⟩ := claim_inv h
      exact hk
  | worker t reply =>
      obtain ⟨w, hw, hstep⟩ := stepWorker_inv h
      cases hstep with
      | exec attempt pc out hpc hout => exact hkill _
      | mark | leave | retry | giveUp | errorRead | requeue => exact hk
  | flow t reply =>
      obtain ⟨w, hw, hstep⟩ := stepFlow_inv h
      cases hstep with
      | exec r pc out hpc hout => exact hkill _
      | returns | insert | call | leave | status => exact hk
  | beat who =>
      rcases beat_inv h with ⟨_, _, _, _, rfl⟩ | ⟨_, _, _, _, _, _, rfl⟩ <;> exact hk
  | cancelWrite t =>
      obtain ⟨c, hc, ⟨row, hrow, htakes, rfl⟩ | rfl⟩ := cancelWrite_inv h <;> exact hk
  | claimFlow p locked =>
      obtain ⟨f, row', _, _, rfl⟩ := claimFlow_inv h
      exact hk
  | driver x m =>
      obtain ⟨d, _, hstep⟩ := stepDriver_inv h
      cases hstep <;> exact hk

end History

/-! ## Ids in use -/

/-- The row a flow task has inserted and not yet read the status of. -/
def FlowPc.row : FlowPc → Option RunId
  | .next => none
  | .wait r | .exec r _ | .status r => some r

/-- Ids come from the two counters, and a flow task executes only rows it
inserted. -/
structure Bounded (q : Queue) : Prop where
  rows : ∀ r, q.nextRun ≤ r → q.runs r = none
  workers : ∀ t w, q.workers t = some w → w.job.runId < q.nextRun
  flows : ∀ t w, q.flows t = some w → t < q.nextTask
  owns : ∀ t w r, q.flows t = some w → w.pc.row = some r → .inserted r t ∈ q.log
  inserted : ∀ r t, .inserted r t ∈ q.log → r < q.nextRun ∧ t < q.nextTask

theorem bounded_init (now : Nat) : Bounded (init now) where
  rows := fun _ _ => rfl
  workers := fun _ _ h => by cases h
  flows := fun _ _ h => by cases h
  owns := fun _ _ _ h => by cases h
  inserted := fun _ _ h => by cases h

section Ids

variable {q q' : Queue} {a : Label}

/-- A row that exists has an id in use. -/
theorem Bounded.lt (hb : Bounded q) {r : RunId} {row : Run}
    (hrow : q.runs r = some row) : r < q.nextRun := by
  by_contra hge
  rw [hb.rows r (Nat.not_lt.mp hge)] at hrow
  cases hrow

theorem update_map_none {runs : RunId → Option Run} {r r₀ : RunId} {f : Run → Run}
    (h : runs r = none) : Function.update runs r₀ ((runs r₀).map f) r = none := by
  by_cases hr : r = r₀
  · subst hr
    simp [h]
  · simpa [Function.update_of_ne hr] using h

/-- The rows a step appends to `runs`, and what appends them. -/
inductive Appended (q : Queue) (a : Label) : List Run → Prop
  | nothing : Appended q a []
  | enqueued (rows : List NewRun) (ha : a = .enqueue rows) :
      Appended q a (rows.map (insertRunWithBlobs q.now))
  | refused (n : NewRun) (reason : String) (ha : a = .refuse n reason) :
      Appended q a [insertRefusedRun q.now n reason]
  | inserted (t : TaskId) (w : FlowTask) (n : NewRun) (rest : List NewRun)
      (hw : q.flows t = some w) (htodo : w.todo = n :: rest) :
      Appended q a [insertRunWithBlobs q.now n]
  | firedWorker (t : TaskId) (w : WorkerTask) (attempt : Nat) (v : Value)
      (rows : List NewRun) (ha : a = .worker t (.fired rows))
      (hw : q.workers t = some w) (hpc : w.pc = .exec attempt (.fireTriggers v)) :
      Appended q a (rows.map (insertRunWithBlobs q.now))
  | firedFlow (t : TaskId) (w : FlowTask) (r : RunId) (v : Value)
      (rows : List NewRun) (ha : a = .flow t (.fired rows))
      (hw : q.flows t = some w) (hpc : w.pc = .exec r (.fireTriggers v)) :
      Appended q a (rows.map (insertRunWithBlobs q.now))

/-- `rows` are what there is from the counter on, and the counter is past them. -/
def Extends (q q' : Queue) (rows : List Run) : Prop :=
  q'.nextRun = q.nextRun + rows.length ∧
    ∀ r, q.nextRun ≤ r → q'.runs r = rows[r - q.nextRun]?

theorem extends_appendRows {runs : RunId → Option Run} {rows : List Run}
    (hruns : q'.runs = appendRows runs q.nextRun rows)
    (hnext : q'.nextRun = q.nextRun + rows.length) : Extends q q' rows :=
  ⟨hnext, fun _ hr => hruns ▸ appendRows_ge hr⟩

theorem extends_nil (hruns : ∀ r, q.nextRun ≤ r → q'.runs r = none)
    (hnext : q'.nextRun = q.nextRun) : Extends q q' [] :=
  ⟨hnext, fun r hr => hruns r hr⟩

/-- A step of an execution appends what it fires. -/
theorem extends_apply (p : Proc) (r : RunId) (who : Caller) (out : ExecOut)
    (hruns : q'.runs = (q.apply p r who out).runs)
    (hnext : q'.nextRun = (q.apply p r who out).nextRun) :
    Extends q q' (out.fired.map (insertRunWithBlobs q.now)) :=
  extends_appendRows hruns (by rw [hnext, List.length_map]; rfl)

/-- **Appended rows.**  Every step appends a list of rows, most often an empty
one. -/
theorem step_appended (h : step q a = some q') (hb : Bounded q) :
    ∃ rows, Appended q a rows ∧ Extends q q' rows := by
  have hon : ∀ (f : Run → Run) r₀ r, q.nextRun ≤ r → (q.onRun r₀ f).runs r = none :=
    fun f r₀ r hr => update_map_none (hb.rows r hr)
  cases a with
  | tick d | putScript i s | enqueueFlow input | reapFlows | crash p
  | cancelCall p x reason | spawnFlow p call =>
      cases h
      exact ⟨[], .nothing, extends_nil hb.rows rfl⟩
  | enqueue rows =>
      cases h
      exact ⟨_, .enqueued rows rfl, extends_appendRows rfl rfl⟩
  | refuse n reason =>
      cases h
      exact ⟨_, .refused n reason rfl, extends_appendRows rfl rfl⟩
  | reapRuns | failStale maxAge =>
      cases h
      exact ⟨[], .nothing, extends_nil (fun r hr => by simp [Queue.onRuns, hb.rows r hr]) rfl⟩
  | claim p caps locked =>
      obtain ⟨x, _, _, _, _, _, _, rfl⟩ := claim_inv h
      exact ⟨[], .nothing, extends_nil (hon _ x) rfl⟩
  | worker t reply =>
      obtain ⟨w, hw, hstep⟩ := stepWorker_inv h
      cases hstep with
      | exec attempt pc out hpc hout =>
          rcases execStep_fired hout with hnone | ⟨v, rfl, hfired⟩
          · have hext := extends_apply (q := q) w.proc w.job.runId (.worker t) out rfl rfl
            rw [hnone] at hext
            exact ⟨[], .nothing, hext⟩
          · exact ⟨_, .firedWorker t w attempt v out.fired (by rw [hfired]) hw hpc,
              extends_apply w.proc w.job.runId (.worker t) out rfl rfl⟩
      | mark | requeue => exact ⟨[], .nothing, extends_nil (hon _ w.job.runId) rfl⟩
      | leave | retry | giveUp | errorRead => exact ⟨[], .nothing, extends_nil hb.rows rfl⟩
  | flow t reply =>
      obtain ⟨w, hw, hstep⟩ := stepFlow_inv h
      cases hstep with
      | exec r pc out hpc hout =>
          rcases execStep_fired hout with hnone | ⟨v, rfl, hfired⟩
          · have hext := extends_apply (q := q) w.proc r (.flow t) out rfl rfl
            rw [hnone] at hext
            exact ⟨[], .nothing, hext⟩
          · exact ⟨_, .firedFlow t w r v out.fired (by rw [hfired]) hw hpc,
              extends_apply w.proc r (.flow t) out rfl rfl⟩
      | insert n rest hpc htodo =>
          exact ⟨_, .inserted t w n rest hw htodo, extends_appendRows rfl rfl⟩
      | returns | call | leave | status => exact ⟨[], .nothing, extends_nil hb.rows rfl⟩
  | beat who =>
      rcases beat_inv h with ⟨_, w, _, _, rfl⟩ | ⟨_, _, r, _, _, _, rfl⟩
      · exact ⟨[], .nothing, extends_nil (hon _ w.job.runId) rfl⟩
      · exact ⟨[], .nothing, extends_nil (hon _ r) rfl⟩
  | cancelWrite t =>
      obtain ⟨c, hc, ⟨row, hrow, htakes, rfl⟩ | rfl⟩ := cancelWrite_inv h
      · exact ⟨[], .nothing, extends_nil (hon _ c.run) rfl⟩
      · exact ⟨[], .nothing, extends_nil hb.rows rfl⟩
  | claimFlow p locked =>
      obtain ⟨f, row', _, _, rfl⟩ := claimFlow_inv h
      exact ⟨[], .nothing, extends_nil hb.rows rfl⟩
  | driver x m =>
      obtain ⟨d, _, hstep⟩ := stepDriver_inv h
      cases hstep <;> exact ⟨[], .nothing, extends_nil hb.rows rfl⟩

/-- No step takes a task id back. -/
theorem step_nextTask (h : step q a = some q') : q.nextTask ≤ q'.nextTask := by
  cases a with
  | tick d | putScript i s | enqueueFlow input | reapFlows | crash p
  | enqueue rows | refuse n reason | reapRuns | failStale maxAge =>
      cases h
      exact Nat.le_refl _
  | cancelCall p x reason | spawnFlow p call =>
      cases h
      exact Nat.le_succ _
  | claim p caps locked =>
      obtain ⟨_, _, _, _, _, _, _, rfl⟩ := claim_inv h
      exact Nat.le_succ _
  | worker t reply =>
      obtain ⟨w, hw, hstep⟩ := stepWorker_inv h
      cases hstep <;> exact Nat.le_refl _
  | flow t reply =>
      obtain ⟨w, hw, hstep⟩ := stepFlow_inv h
      cases hstep <;> exact Nat.le_refl _
  | beat who =>
      rcases beat_inv h with ⟨_, _, _, _, rfl⟩ | ⟨_, _, _, _, _, _, rfl⟩ <;>
        exact Nat.le_refl _
  | cancelWrite t =>
      obtain ⟨c, hc, ⟨row, hrow, htakes, rfl⟩ | rfl⟩ := cancelWrite_inv h <;>
        exact Nat.le_refl _
  | claimFlow p locked =>
      obtain ⟨f, row', _, _, rfl⟩ := claimFlow_inv h
      exact Nat.le_succ _
  | driver x m =>
      obtain ⟨d, _, hstep⟩ := stepDriver_inv h
      cases hstep <;> exact Nat.le_refl _

/-- The counters only grow, and rows stay below theirs. -/
theorem step_ids (h : step q a = some q') (hb : Bounded q) :
    q.nextRun ≤ q'.nextRun ∧ q.nextTask ≤ q'.nextTask ∧
      ∀ r, q'.nextRun ≤ r → q'.runs r = none := by
  obtain ⟨rows, _, hnext, hrows⟩ := step_appended h hb
  have hle : q.nextRun ≤ q'.nextRun := hnext ▸ Nat.le_add_right _ _
  refine ⟨hle, step_nextTask h, fun r hr => ?_⟩
  rw [hrows r (Nat.le_trans hle hr)]
  exact List.getElem?_eq_none (Nat.le_sub_of_add_le' (hnext ▸ hr))

/-- Every step keeps `Bounded`. -/
theorem Bounded.step (hb : Bounded q) (h : step q a = some q') : Bounded q' := by
  obtain ⟨hrun, htask, hrows⟩ := step_ids h hb
  refine ⟨hrows, ?_, ?_, ?_, ?_⟩
  · intro t w hw
    have hlt : ∀ v, q.workers t = some v → v.job.runId < q'.nextRun := fun v hv =>
      Nat.lt_of_lt_of_le (hb.workers t v hv) hrun
    cases step_workers h hw with
    | claimed _ row p caps locked ha hclaim hrow =>
        exact Nat.lt_of_lt_of_le (hb.lt hrow) hrun
    | kept _ hv => exact hlt _ hv
    | marked v _ hv => exact hlt v hv
    | left v _ hv => exact hlt v hv
    | exec v _ _ _ _ hv => exact hlt v hv
    | retry v _ _ _ _ _ hv => exact hlt v hv
    | errorRead v hv => exact hlt v hv
    | beaten v hv => exact hlt v hv
  · intro t w hw
    have hlt : ∀ v, q.flows t = some v → t < q'.nextTask := fun v hv =>
      Nat.lt_of_lt_of_le (hb.flows t v hv) htask
    cases step_flows h hw with
    | spawned p call ha ht =>
        subst ha ht
        cases h
        exact Nat.lt_succ_self _
    | kept _ hv => exact hlt _ hv
    | inserted v _ _ hv => exact hlt v hv
    | called v _ hv => exact hlt v hv
    | left v _ hv => exact hlt v hv
    | exec v _ _ _ _ hv => exact hlt v hv
    | status v _ _ hv => exact hlt v hv
  · intro t w r hw hrow
    have hmem : ∀ v, q.flows t = some v → v.pc.row = some r → .inserted r t ∈ q'.log :=
      fun v hv hr => log_subset h (hb.owns t v r hv hr)
    cases step_flows h hw with
    | kept _ hv => exact hmem _ hv hrow
    | spawned p call ha ht => cases hrow
    | inserted v n rest hv hpc htodo hnext hin =>
        cases hrow
        exact hin
    | called v _ hv hpc => exact hmem v hv ((congrArg FlowPc.row hpc).trans hrow)
    | left v _ hv hpc => exact hmem v hv ((congrArg FlowPc.row hpc).trans hrow)
    | exec v _ _ _ _ hv hpc => exact hmem v hv ((congrArg FlowPc.row hpc).trans hrow)
    | status v _ _ hv hpc => cases hrow
  · intro r t hin
    rcases inserted_log h hin with hold | ⟨w, hw, rfl, hnext⟩
    · obtain ⟨hr, ht⟩ := hb.inserted r t hold
      exact ⟨Nat.lt_of_lt_of_le hr hrun, Nat.lt_of_lt_of_le ht htask⟩
    · exact ⟨hnext, Nat.lt_of_lt_of_le (hb.flows t w hw) htask⟩

end Ids

end Dokan.Ports.RunQueue
