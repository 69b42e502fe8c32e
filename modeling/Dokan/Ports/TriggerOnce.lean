import Dokan.Ports.RunLease
import Dokan.Ports.Triggers

/-!
# How often a run fires its triggers

A run may be executed several times: a worker retries it, dies with it, or is
taken for dead.  `fire_triggers` runs after the `finish_run` that records an
exit code, and neither the retry decision nor `claim_run` nor the reaper looks
at a row that such a statement has closed.  While every live worker keeps its
lease, one task at a time executes a run of the worker queue, so that statement
is the last one any task makes for it.

## Main results

* `FireInv.step` — the invariant behind it, kept by every step that leaves the
  owners on time.
* `fired_once` — over every run of a reactor whose owners stay on time, a run of
  the worker queue fires each trigger at most once.
-/

namespace Dokan.Ports.Triggers

open Dokan.Verified.Machine
open Dokan.Verified.Json
open Dokan.Ports.RunRow
open Dokan.Ports.ExecJob
open Dokan.Ports.RunQueue

/-! ## Rows nobody executes again -/

/-- Succeeded, canceled, or failed with an exit code. -/
def Done (row : Run) : Prop :=
  row.status = .succeeded ∨ row.status = .canceled ∨
    row.status = .failed ∧ row.exitCode.isSome = true

/-- Past the `finish_run` that records an exit code, and not yet past
`fire_triggers`. -/
def exited : ExecPc → Bool
  | .capture .. | .storeOutputs .. | .storeResult .. | .buildReceipt ..
  | .storeReceipt .. | .fireTriggers _ => true
  | _ => false

/-- The task may still come to `fire_triggers`. -/
def mayFire : WorkerPc → Bool
  | .exec _ .returned | .outcome _ => false
  | _ => true

section Rows

variable {now : Nat} {row : Run}

theorem Done.not_pending (h : Done row) : row.status ≠ .pending := by
  rcases h with h | h | ⟨h, _⟩ <;> simp [h]

theorem Done.not_running (h : Done row) : row.status ≠ .running := by
  rcases h with h | h | ⟨h, _⟩ <;> simp [h]

/-- The retry decision is against a row that is done. -/
theorem Done.not_retries (h : Done row) (attempt : Nat) : retries row attempt = false := by
  rcases h with h | h | ⟨_, h⟩
  · simp [retries, h]
  · simp [retries, h]
  · simp [retries, Option.isNone_eq_false_iff.mpr h]

/-- A write that leaves the status and the exit code alone. -/
theorem Done.of_same {row' : Run} (h : Done row) (hst : row'.status = row.status)
    (hcode : row'.exitCode = row.exitCode) : Done row' := by
  rwa [Done, hst, hcode]

theorem done_finishRun (code c : Int) (e : Option String) (row : Run) :
    Done (finishRun now (exitStatus code) (some c) e row) := by
  unfold finishRun
  split_ifs with h
  · exact .inr (.inl h)
  · rcases exitStatus_terminal code with hst | hst
    · exact .inl hst
    · exact .inr (.inr ⟨hst, rfl⟩)

theorem done_cancelRun (reason : String) (row : Run) : Done (cancelRun now reason row) := by
  unfold cancelRun
  split_ifs with h
  · exact .inl h
  · exact .inr (.inl rfl)

/-- A step of an execution past its exit code, or into it. -/
theorem execStep_exited {cap : Bool} {killed : Cid → Bool} {pc : ExecPc} {reply : Reply}
    {out : ExecOut} (h : execStep now cap killed pc reply = some out) :
    pc ≠ .returned ∧ (exited pc = true → ∀ row, Done row → Done (out.write row)) ∧
      (exited out.pc = true → exited pc = true ∨ ∀ row, Done (out.write row)) := by
  have hsame : ∀ {f : Run → Run}, (∀ r, (f r).status = r.status) →
      (∀ r, (f r).exitCode = r.exitCode) → ∀ row, Done row → Done (f row) :=
    fun hst hcode row hrow => hrow.of_same (hst row) (hcode row)
  revert h
  fun_cases execStep now cap killed pc reply <;> intro h <;> cases h <;>
    refine ⟨ExecPc.noConfusion, ?_, ?_⟩
  all_goals first
    | exact fun h => absurd h Bool.false_ne_true
    | exact fun _ => hsame (fun _ => rfl) fun _ => rfl
    | exact fun _ => .inl rfl
    | exact fun _ => .inr (done_finishRun _ _ _)

end Rows

/-! ## The invariant of the queue -/

/-- The flow engine did not insert the row. -/
def OfQueue (q : Queue) (r : RunId) : Prop := ∀ t, .inserted r t ∉ q.log

/-- A row of `F`, the runs that have fired their triggers, is done, and no task
that holds it comes to `fire_triggers` again. -/
structure FireInv (q : Queue) (F : RunId → Prop) : Prop where
  lease : LeaseInv q
  done : ∀ r, OfQueue q r → F r → ∃ row, q.runs r = some row ∧ Done row
  closed : ∀ t w attempt pc row, q.workers t = some w → OfQueue q w.job.runId →
    w.pc = .exec attempt pc → exited pc = true → q.runs w.job.runId = some row → Done row
  unfired : ∀ t w, q.workers t = some w → OfQueue q w.job.runId → mayFire w.pc = true →
    ¬ F w.job.runId

section Queue

variable {q q' : Queue} {b : RunQueue.Label} {F : RunId → Prop} {r : RunId} {row : Run}

/-- The rows the queue owns after a step it owned before. -/
theorem OfQueue.before (hr : OfQueue q' r) (h : RunQueue.step q b = some q') : OfQueue q r :=
  fun t hin => hr t (log_subset h hin)

/-- One task holds a row of the queue. -/
theorem holder_unique (hl : LeaseInv q) {t t' : TaskId} {w w' : WorkerTask}
    (hw : q.workers t = some w) (hw' : q.workers t' = some w')
    (hjob : w'.job.runId = w.job.runId) (hr : OfQueue q w.job.runId) : t' = t :=
  (hl.runs w.job.runId hr).mutex (holder_of hw' hjob) (holder_of hw rfl)

theorem onRun_done {r₀ : RunId} {f : Run → Run} (hrow : q.runs r = some row) (hd : Done row)
    (hf : r = r₀ → Done (f row)) :
    ∃ row', (q.onRun r₀ f).runs r = some row' ∧ Done row' := by
  by_cases hr : r = r₀
  · subst hr
    exact ⟨f row, by rw [runs_onRun_self, hrow]; rfl, hf rfl⟩
  · exact ⟨row, by rw [runs_onRun_of_ne hr, hrow], hd⟩

/-- The task leaves a row that is done alone: it neither requeues it nor has yet
to record how the run ended. -/
def Spares (w : WorkerTask) : Prop :=
  w.pc ≠ .requeue ∧ ∀ attempt pc, w.pc = .exec attempt pc → exited pc = true ∨ pc = .returned

/-- A row that is done stays done while the tasks that hold it spare it. -/
theorem done_step (hb : Bounded q) (h : RunQueue.step q b = some q') (hr : OfQueue q r)
    (hrow : q.runs r = some row) (hd : Done row)
    (hspare : ∀ t w, q.workers t = some w → w.job.runId = r → Spares w) :
    ∃ row', q'.runs r = some row' ∧ Done row' := by
  have hlt := hb.lt hrow
  have htouch : Done (touchRun q.now row) := by rwa [touchRun, if_neg hd.not_running]
  cases b with
  | tick d | putScript i s | spawnFlow p call | cancelCall p x reason | enqueueFlow input
  | reapFlows | crash p =>
      cases h
      exact ⟨row, hrow, hd⟩
  | enqueue rows | refuse n reason =>
      cases h
      exact ⟨row, (appendRows_lt hlt).trans hrow, hd⟩
  | claim p caps locked =>
      obtain ⟨x, job, row', hsel, hx, hpend, _, rfl⟩ := claim_inv h
      refine onRun_done hrow hd fun hrx => ?_
      rw [← hrx, hrow] at hx
      cases hx
      exact absurd hpend hd.not_pending
  | worker t reply =>
      obtain ⟨w, hw, hstep⟩ := stepWorker_inv h
      cases hstep with
      | mark row' hpc hrow' => exact onRun_done hrow hd fun _ => hd.of_same rfl rfl
      | exec attempt pc out hpc hout =>
          have hwrite : r = w.job.runId → Done (out.write row) := by
            intro hrw
            obtain ⟨hne, hkeep, _⟩ := execStep_exited hout
            exact hkeep (((hspare t w hw hrw.symm).2 attempt pc hpc).resolve_right hne) row hd
          obtain ⟨row', hrow', hd'⟩ := onRun_done hrow hd hwrite
          exact ⟨row', (appendRows_lt hlt).trans hrow', hd'⟩
      | requeue hpc =>
          exact onRun_done hrow hd fun hrw => absurd hpc (hspare t w hw hrw.symm).1
      | leave | retry | giveUp | errorRead => exact ⟨row, hrow, hd⟩
  | flow t reply =>
      obtain ⟨w, hw, hstep⟩ := stepFlow_inv h
      cases hstep with
      | insert n rest hpc htodo => exact ⟨row, (appendRows_lt hlt).trans hrow, hd⟩
      | exec x pc out hpc hout =>
          have hne : r ≠ x := by
            rintro rfl
            exact hr t (hb.owns t w r hw (by rw [hpc]; rfl))
          exact ⟨row, (appendRows_lt hlt).trans ((runs_onRun_of_ne hne).trans hrow), hd⟩
      | returns | call | leave | status => exact ⟨row, hrow, hd⟩
  | beat who =>
      rcases beat_inv h with ⟨t, w, _, _, rfl⟩ | ⟨t, w, x, pc, _, _, rfl⟩
      · exact onRun_done hrow hd fun _ => htouch
      · exact onRun_done hrow hd fun _ => htouch
  | cancelWrite t =>
      obtain ⟨c, _, ⟨_, _, _, rfl⟩ | rfl⟩ := cancelWrite_inv h
      · exact onRun_done hrow hd fun _ => done_cancelRun c.reason row
      · exact ⟨row, hrow, hd⟩
  | reapRuns =>
      cases h
      have hlive : orphaned q.now runLease row = false := by simp [orphaned, hd.not_running]
      refine ⟨row, ?_, hd⟩
      simp [Queue.onRuns, hrow, reapOrphanRun_of_not_orphaned hlive]
  | failStale maxAge =>
      cases h
      refine ⟨row, ?_, hd⟩
      simp [Queue.onRuns, hrow, failStalePending_of_not_pending hd.not_pending]
  | claimFlow p locked =>
      obtain ⟨f, row', _, _, rfl⟩ := claimFlow_inv h
      exact ⟨row, hrow, hd⟩
  | driver t m =>
      obtain ⟨d, _, hstep⟩ := stepDriver_inv h
      cases hstep <;> exact ⟨row, hrow, hd⟩

/-- The tasks that hold a row of `F` spare it. -/
theorem FireInv.spares (hI : FireInv q F) (hr : OfQueue q r) (hF : F r) {t : TaskId}
    {w : WorkerTask} (hw : q.workers t = some w) (hjob : w.job.runId = r) : Spares w := by
  subst hjob
  have hno : mayFire w.pc = false := Bool.eq_false_iff.mpr fun h => hI.unfired t w hw hr h hF
  constructor
  · intro hpc
    rw [hpc] at hno
    cases hno
  · intro attempt pc hpc
    rw [hpc] at hno
    cases pc with
    | returned => exact .inr rfl
    | _ => cases hno

/-- A task that holds a row past its exit code spares it. -/
theorem spares_of_exited {w : WorkerTask} {attempt : Nat} {pc : ExecPc}
    (hpc : w.pc = .exec attempt pc) (hex : exited pc = true) : Spares w := by
  rw [Spares, hpc]
  exact ⟨WorkerPc.noConfusion, fun _ _ h => by cases h; exact .inl hex⟩

/-- The step a task makes inside `Executor::run`. -/
theorem exec_step (hb : Bounded q) {t : TaskId} {w : WorkerTask} {attempt : Nat} {pc : ExecPc}
    {reply : Reply} (hw : q.workers t = some w) (hpc : w.pc = .exec attempt pc)
    (h : RunQueue.step q (.worker t reply) = some q') :
    pc = .returned ∨ ∃ out, execStep q.now w.job.captureOutput q.killed pc reply = some out ∧
      q'.workers t = some { w with pc := .exec attempt out.pc } ∧
      ∀ row, q.runs w.job.runId = some row → q'.runs w.job.runId = some (out.write row) := by
  obtain ⟨w', hw', hstep⟩ := stepWorker_inv h
  cases hw.symm.trans hw'
  cases hstep with
  | leave attempt' hpc' =>
      cases hpc.symm.trans hpc'
      exact .inl rfl
  | exec attempt' pc' out hpc' hout =>
      cases hpc.symm.trans hpc'
      refine .inr ⟨out, hout, Function.update_self .., fun row hrow => ?_⟩
      refine (appendRows_lt (hb.workers t w hw)).trans ?_
      rw [Function.update_self, hrow]
      rfl
  | mark row hpc' | retry attempt' row pc' hpc' | errorRead hpc' | requeue hpc' =>
      cases hpc.symm.trans hpc'
  | giveUp hpc' => rcases hpc' with ⟨_, hpc'⟩ | hpc' <;> cases hpc.symm.trans hpc'

/-- What is past its exit code after a step has a row that is done. -/
theorem FireInv.closed_step (hI : FireInv q F) (h : RunQueue.step q b = some q') {t : TaskId}
    {w : WorkerTask} {attempt : Nat} {pc : ExecPc} (hw : q'.workers t = some w)
    (hr : OfQueue q' w.job.runId) (hpc : w.pc = .exec attempt pc) (hex : exited pc = true)
    (hrow : q'.runs w.job.runId = some row) : Done row := by
  have hr' := hr.before h
  have hb := hI.lease.bounded
  -- the row was there, as somebody held it
  have hold : ∀ {v : WorkerTask}, q.workers t = some v → v.job.runId = w.job.runId →
      ∃ row₀, q.runs w.job.runId = some row₀ := by
    intro v hv hjob
    rcases step_new_row h hrow with hold | ⟨hge, _⟩
    · exact hold
    · exact absurd (hjob ▸ hb.workers t v hv) (Nat.not_lt.mpr hge)
  -- a task that was past its exit code already
  have hkept : ∀ {v : WorkerTask} {pc₀ : ExecPc}, q.workers t = some v →
      v.job.runId = w.job.runId → v.pc = .exec attempt pc₀ → exited pc₀ = true → Done row := by
    intro v pc₀ hv hjob hpc₀ hex₀
    obtain ⟨row₀, hrow₀⟩ := hold hv hjob
    have hd : Done row₀ := hI.closed t v attempt pc₀ row₀ hv (hjob ▸ hr') hpc₀ hex₀
      (hjob ▸ hrow₀)
    obtain ⟨row', hrow', hd'⟩ := done_step hb h hr' hrow₀ hd fun t' w' hw' hjob' => by
      obtain rfl := holder_unique hI.lease hv hw' (hjob'.trans hjob.symm) (hjob ▸ hr')
      cases hv.symm.trans hw'
      exact spares_of_exited hpc₀ hex₀
    cases hrow.symm.trans hrow'
    exact hd'
  cases step_workers h hw with
  | kept _ hv => exact hkept hv rfl hpc hex
  | beaten v hv => exact hkept hv rfl hpc hex
  | claimed _ _ _ _ _ _ _ _ _ hmark => cases hmark.symm.trans hpc
  | marked v => cases hpc; cases hex
  | left | errorRead => cases hpc
  | retry v attempt' row' pc' reply ha hv hpc' hrow' hret hto =>
      rcases hto with ⟨rfl, _⟩ | ⟨rfl, _⟩ <;> cases hpc
  | exec v attempt' pc₀ reply out hv hpc₀ hout ha =>
      obtain ⟨reply', rfl⟩ := ha
      rcases exec_step hb hv hpc₀ h with rfl | ⟨out', hout', hw', hrow'⟩
      · cases hout
      · have heq : out.pc = out'.pc := by simpa using hw.symm.trans hw'
        cases hpc
        rw [heq] at hex
        rcases (execStep_exited hout').2.2 hex with hex₀ | hwrite
        · exact hkept hv rfl hpc₀ hex₀
        · obtain ⟨row₀, hrow₀⟩ := hold hv rfl
          cases hrow.symm.trans (hrow' row₀ hrow₀)
          exact hwrite row₀

/-- A task that may fire after a step holds a run that has not fired. -/
theorem FireInv.unfired_step (hI : FireInv q F) (h : RunQueue.step q b = some q') {t : TaskId}
    {w : WorkerTask} (hw : q'.workers t = some w) (hr : OfQueue q' w.job.runId)
    (hmay : mayFire w.pc = true) : ¬ F w.job.runId := by
  have hr' := hr.before h
  cases step_workers h hw with
  | kept _ hv => exact hI.unfired t w hv hr' hmay
  | beaten v hv => exact hI.unfired t v hv hr' hmay
  | marked v attempt hv hpc => exact hI.unfired t v hv hr' (by rw [hpc]; rfl)
  | errorRead v hv hpc => exact hI.unfired t v hv hr' (by rw [hpc]; rfl)
  | left v attempt hv hpc => cases hmay
  | claimed _ row p caps locked ha hclaim hrow hpend =>
      intro hF
      obtain ⟨row', hrow', hd⟩ := hI.done _ hr' hF
      cases hrow.symm.trans hrow'
      exact hd.not_pending hpend
  | retry v attempt row pc reply ha hv hpc hrow hret =>
      intro hF
      obtain ⟨row', hrow', hd⟩ := hI.done _ hr' hF
      cases hrow.symm.trans hrow'
      exact Bool.false_ne_true ((hd.not_retries attempt).symm.trans hret)
  | exec v attempt pc reply out hv hpc hout =>
      refine hI.unfired t v hv hr' ?_
      rw [hpc]
      cases pc with
      | returned => exact absurd rfl (execStep_exited hout).1
      | _ => rfl

/-- Every step of the queue that leaves the owners on time keeps the
invariant. -/
theorem FireInv.step (hI : FireInv q F) (htime : OnTime q')
    (h : RunQueue.step q b = some q') : FireInv q' F where
  lease := hI.lease.step (fun q'' hq'' => by cases h.symm.trans hq''; exact htime) h
  done := by
    intro r hr hF
    obtain ⟨row, hrow, hd⟩ := hI.done r (hr.before h) hF
    exact done_step hI.lease.bounded h (hr.before h) hrow hd fun t w hw hjob =>
      hI.spares (hr.before h) hF hw hjob
  closed := fun t w attempt pc row hw hr hpc hex hrow => hI.closed_step h hw hr hpc hex hrow
  unfired := fun t w hw hr hmay => hI.unfired_step h hw hr hmay

/-- `fire_triggers` adds the run to those that have fired. -/
theorem FireInv.fire {who : Caller} {v : Value} {rows : List NewRun} (hI : FireInv q F)
    (hwho : firing q who = some (r, v)) (hrow : q.runs r = some row) (htime : OnTime q')
    (h : RunQueue.step q (answer who (.fired rows)) = some q') :
    FireInv q' fun x => F x ∨ x = r := by
  have hI' := hI.step htime h
  have hb := hI.lease.bounded
  rcases firing_inv hwho with ⟨t, w, attempt, rfl, hw, rfl, hpc⟩ | ⟨t, w, rfl, hw, hpc⟩
  · obtain hret | ⟨out, hout, hw', hrow'⟩ := exec_step hb hw hpc h
    · cases hret
    · cases hout
      refine ⟨hI'.lease, ?_, hI'.closed, ?_⟩
      · rintro x hx (hF | rfl)
        · exact hI'.done x hx hF
        · have hr := hx.before h
          have hd : Done row := hI.closed t w attempt _ row hw hr hpc rfl hrow
          exact ⟨row, hrow' row hrow, hd⟩
      · rintro t' w'' hw'' hr'' hmay (hF | hjob)
        · exact hI'.unfired t' w'' hw'' hr'' hmay hF
        · obtain rfl := holder_unique hI'.lease hw' hw'' hjob (hjob ▸ hr'')
          cases hw'.symm.trans hw''
          cases hmay
  · -- the flow engine inserted the row
    have hin : .inserted r t ∈ q'.log := log_subset h (hb.owns t w r hw (by rw [hpc]; rfl))
    refine ⟨hI'.lease, ?_, hI'.closed, ?_⟩
    · rintro x hx (hF | rfl)
      · exact hI'.done x hx hF
      · exact absurd hin (hx t)
    · rintro t' w' hw' hr' hmay (hF | hjob)
      · exact hI'.unfired t' w' hw' hr' hmay hF
      · exact hr' t (hjob ▸ hin)

end Queue

/-! ## The invariant of a reactor -/

/-- Run `r` has fired a trigger. -/
def Fired (s : Reactor) (r : RunId) : Prop := ∃ f ∈ s.firings, f.source = r

/-- The triggers run `r` has fired. -/
def firedBy (s : Reactor) (r : RunId) : List Nat :=
  (s.firings.filter fun f => f.source = r).map fun f => f.trigger.id

/-- Every step leaves the owners of the queue on time. -/
def LeavesOnTime (s : Reactor) (a : Label) : Prop :=
  ∀ s', step s a = some s' → OnTime s'.queue

structure ReactorInv (s : Reactor) : Prop where
  fire : FireInv s.queue (Fired s)
  ids : (s.triggers.map Trigger.id).Nodup
  next : ∀ t ∈ s.triggers, t.id < s.nextTrigger
  once : ∀ r, OfQueue s.queue r → (firedBy s r).Nodup

section Reactor

variable {s s' : Reactor}

theorem not_fired_iff {r : RunId} : ¬ Fired s r ↔ (s.firings.filter fun f => f.source = r) = [] := by
  simp [Fired, List.filter_eq_nil_iff]

/-- What one statement adds to the triggers a run has fired. -/
theorem filter_firingsOf (r x : RunId) (v : Value) (next : RunId) (ts : List Trigger) :
    ((firingsOf r v next ts).filter fun f => f.source = x) =
      if r = x then firingsOf r v next ts else [] := by
  split_ifs with hr
  · exact List.filter_eq_self.mpr fun f hf => decide_eq_true ((mem_firingsOf.mp hf).1.trans hr)
  · refine List.filter_eq_nil_iff.mpr fun f hf h => hr ?_
    exact (mem_firingsOf.mp hf).1.symm.trans (of_decide_eq_true h)

theorem map_id_firingsOf (r : RunId) (v : Value) (next : RunId) (ts : List Trigger) :
    (firingsOf r v next ts).map (fun f => f.trigger.id) = ts.map Trigger.id := by
  rw [firingsOf, List.map_map]
  have h : ((fun f : Firing => f.trigger.id) ∘ fun p : Trigger × Nat => ⟨r, v, p.1, p.2⟩) =
      Trigger.id ∘ Prod.fst := rfl
  rw [h, ← List.map_map, List.zipIdx_map_fst]

/-- A statement selects different triggers, of a run that exists. -/
theorem ReactorInv.selects (hI : ReactorInv s) {r : RunId} {v : Value} {ts : List Trigger}
    (hts : Selects s r v ts) :
    (ts.map Trigger.id).Nodup ∧ (ts ≠ [] → ∃ row, s.queue.runs r = some row) := by
  constructor
  · exact ((hts.map Trigger.id).nodup_iff).mpr
      (hI.ids.sublist (List.filter_sublist.map Trigger.id))
  · intro hne
    obtain ⟨t, ht⟩ := List.exists_mem_of_ne_nil ts hne
    have hscript := (firesOn_iff.mp (List.mem_filter.mp (hts.mem_iff.mp ht)).2).2.1
    obtain ⟨row, hrow, _⟩ := Option.map_eq_some_iff.mp hscript.symm
    exact ⟨row, hrow⟩

/-- The runs that have fired after a statement. -/
theorem fired_append {q : Queue} {r : RunId} {v : Value} {next : RunId} {ts : List Trigger}
    (hts : ts ≠ []) :
    Fired { s with queue := q, firings := firingsOf r v next ts ++ s.firings } =
      fun x => Fired s x ∨ x = r := by
  funext x
  refine propext ⟨?_, ?_⟩
  · rintro ⟨f, hf, rfl⟩
    rcases List.mem_append.mp hf with hnew | hold
    · exact .inr (mem_firingsOf.mp hnew).1
    · exact .inl ⟨f, hold, rfl⟩
  · rintro (⟨f, hf, rfl⟩ | rfl)
    · exact ⟨f, List.mem_append_right _ hf, rfl⟩
    · obtain ⟨t, rest, rfl⟩ := List.exists_cons_of_ne_nil hts
      refine ⟨⟨x, v, t, next⟩, List.mem_append_left _ ?_, rfl⟩
      exact mem_firingsOf.mpr ⟨rfl, rfl, le_refl _, by simp⟩

/-- The triggers a run has fired after a statement of an execution of `r`. -/
theorem firedBy_append {q : Queue} {r x : RunId} {v : Value} {next : RunId}
    {ts : List Trigger} :
    firedBy { s with queue := q, firings := firingsOf r v next ts ++ s.firings } x =
      (if r = x then ts.map Trigger.id else []) ++ firedBy s x := by
  rw [firedBy, List.filter_append, filter_firingsOf, List.map_append]
  split_ifs
  · rw [map_id_firingsOf]
    rfl
  · rfl

/-- Every step that leaves the owners on time keeps the invariant. -/
theorem ReactorInv.step (hI : ReactorInv s) {a : Label} (htime : OnTime s'.queue)
    (h : step s a = some s') : ReactorInv s' := by
  cases step_inv h with
  | queue b q ha hq =>
      exact
        { fire := hI.fire.step htime hq
          ids := hI.ids
          next := hI.next
          once := fun r hr => hI.once r (hr.before hq) }
  | fire who order r v ts q hwho hts hq =>
      obtain ⟨hids, hrow⟩ := hI.selects hts
      refine ⟨?_, hI.ids, hI.next, fun x hx => ?_⟩
      · by_cases hne : ts = []
        · subst hne
          exact hI.fire.step htime hq
        · obtain ⟨row, hrow⟩ := hrow hne
          rw [fired_append hne]
          exact hI.fire.fire hwho hrow htime hq
      · rw [firedBy_append]
        have hold := hI.once x (hx.before hq)
        split_ifs with hrx
        · subst hrx
          -- the execution has not fired before
          have hnil : firedBy s r = [] := by
            rcases firing_inv hwho with ⟨t, w, attempt, rfl, hw, rfl, hpc⟩ | ⟨t, w, rfl, hw, hpc⟩
            · rw [firedBy, not_fired_iff.mp
                (hI.fire.unfired t w hw (hx.before hq) (by rw [hpc]; rfl)), List.map_nil]
            · exact absurd (hI.fire.lease.bounded.owns t w r hw (by rw [hpc]; rfl))
                (hx.before hq t)
          rw [hnil, List.append_nil]
          exact hids
        · exact hold
  | onResult a t hid hsource htarget =>
      refine ⟨hI.fire, ?_, ?_, hI.once⟩
      · rw [List.map_append, List.nodup_append]
        refine ⟨hI.ids, List.nodup_singleton _, ?_⟩
        intro i hi j hj
        obtain ⟨u, hu, rfl⟩ := List.mem_map.mp hi
        cases List.mem_singleton.mp hj
        exact Nat.ne_of_lt (hid ▸ hI.next u hu)
      · intro u hu
        rcases List.mem_append.mp hu with hold | hnew
        · exact Nat.lt_succ_of_lt (hI.next u hold)
        · cases List.mem_singleton.mp hnew
          exact Nat.lt_succ_of_le (Nat.le_of_eq hid)
  | deleteTrigger id =>
      refine ⟨hI.fire, ?_, fun t ht => hI.next t (List.mem_filter.mp ht).1, hI.once⟩
      exact hI.ids.sublist (List.filter_sublist.map Trigger.id)

theorem reactorInv_armed (now : Nat) (scripts : Int → Option Script) :
    ReactorInv (.armed now scripts []) where
  fire :=
    { lease :=
        have h := leaseInv_init now
        have hb := (traceInv_armed now scripts []).bounded
        ⟨hb, ⟨h.flowBounded.drivers, h.flowBounded.rows, h.flowBounded.started⟩, h.runs, h.flows⟩
      done := fun _ _ h => by obtain ⟨f, hf, _⟩ := h; cases hf
      closed := fun _ _ _ _ _ h => by cases h
      unfired := fun _ _ h => by cases h }
  ids := List.nodup_nil
  next := fun _ h => by cases h
  once := fun _ _ => List.nodup_nil

end Reactor

/-- **At most once.**  While the owners stay on time, a run of the worker queue
fires each trigger at most once, however often it is executed, retried, reaped or
canceled and whatever happens to the triggers. -/
theorem fired_once (now : Nat) (scripts : Int → Option Script) (l : List Label) (s : Reactor)
    (htime : Along step LeavesOnTime (.armed now scripts []) l)
    (hrun : run step (.armed now scripts []) l = some s) (r : RunId)
    (hr : ∀ t, .inserted r t ∉ s.queue.log) : (firedBy s r).Nodup := by
  have hstep : ∀ s a s', ReactorInv s → LeavesOnTime s a → step s a = some s' → ReactorInv s' :=
    fun _ _ s' hI htime h => hI.step (htime s' h) h
  exact (inv_run hstep (reactorInv_armed now scripts) htime hrun).once r hr

/-- A worker loses the container of a run, retries it, and the second attempt
ends with a result. -/
def retriedAlert : List Label :=
  [.onResult ⟨7, none, 8, none⟩, .queue (.enqueue [⟨7, .null, none, none, false, none⟩]),
    .queue (.claim 0 ["bash"] fun _ => false), .queue (.worker 0 .ok),
    .queue (.worker 0 (.error "lost")), .queue (.worker 0 .ok), .queue (.worker 0 .ok),
    .queue (.worker 0 .ok), .queue (.worker 0 .ok),
    .queue (.claim 0 ["bash"] fun _ => false), .queue (.worker 1 .ok),
    .queue (.worker 1 (.container 3)), .queue (.worker 1 .ok), .queue (.worker 1 .ok),
    .queue (.worker 1 (.ended (some (.obj [])))), .queue (.worker 1 (.exit (some 0))),
    .queue (.worker 1 .ok), .queue (.worker 1 (.captured none)), .queue (.worker 1 .ok),
    .queue (.worker 1 (.receipt .null)), .queue (.worker 1 .ok),
    .fire (.worker 1) fun _ _ => true, .queue .reapRuns]

theorem fired_once_retriedAlert :
    ∃ s, run step (.armed 0 bashScripts []) retriedAlert = some s ∧ firedBy s 0 = [0] ∧
      (firedBy s 0).Nodup := by
  have hzero : ∀ q : Queue, q.now = 0 → OnTime q := by
    intro q hq
    exact ⟨fun _ _ _ _ => hq ▸ Nat.zero_le _, fun _ _ _ _ => hq ▸ Nat.zero_le _⟩
  have htime : Along step LeavesOnTime (.armed 0 bashScripts []) retriedAlert := by
    repeat refine along_cons rfl (fun _ h => by cases h; exact hzero _ rfl) ?_
    trivial
  have hlog : ∀ s, run step (.armed 0 bashScripts []) retriedAlert = some s →
      ∀ t, .inserted 0 t ∉ s.queue.log := by
    intro s hs t hin
    have hcalled : (s.queue.log.all fun e => e matches .called .. | .started ..) = true := by
      cases hs
      rfl
    cases List.all_eq_true.mp hcalled _ hin
  exact ⟨_, rfl, rfl, fired_once 0 bashScripts retriedAlert _ htime rfl 0 (hlog _ rfl)⟩

end Dokan.Ports.Triggers
