import Dokan.Verified.Machine
import Dokan.Ports.RunRow

/-!
# The table of runs over time

The statements of `db.rs` on `runs`, on a whole table and in any order: inserts,
refused ticks, claims, finishes, cancels, requeues and the periodic sweeps.  A
requeue is a statement of its own, some time after the finish it reacts to, and
it leaves `finished_at` as it is; so does the claim that follows.

`retried` is history: when a run had finished that was requeued since and has
not come to an end again.  Nothing reads it but statements about it.

## Main results

* `step_rows` — a row a step leaves was there before, and one statement
  rewrote it, or it is new.
* `gc_deletes_finished` — the two sweeps of old runs take what has ended, as
  long as no run that is being retried finished before their cutoff.
-/

namespace Dokan.Ports.RunTable

open Dokan.Verified
open Dokan.Verified.Json
open Dokan.Ports.RunRow

abbrev RunId := Nat

/-- `succeeded`, `failed` or `canceled`. -/
def isTerminal : RunStatus → Bool
  | .pending | .running => false
  | .succeeded | .failed | .canceled => true

/-- The status a `finish_run` writes. -/
def finalStatus (succeeded : Bool) : RunStatus := if succeeded then .succeeded else .failed

@[simp] theorem isTerminal_finalStatus (succeeded : Bool) :
    isTerminal (finalStatus succeeded) = true := by
  cases succeeded <;> rfl

/-! ## Statements -/

/-- The updates of `runs`. -/
inductive Statement
  | claim (r : RunId)
  | markAttempt (r : RunId)
  | finish (r : RunId) (succeeded : Bool) (exitCode : Option Int) (error : Option String)
  | cancel (r : RunId) (reason : String)
  | requeue (r : RunId)
  | touch (r : RunId)
  | setResult (r : RunId) (v : Value)
  | setOutputBlobs (r : RunId) (v : Value)
  | setReceipt (r : RunId) (v : Value)
  /-- `reap_orphan_runs`, on every row -/
  | reap (lease : Nat)
  /-- `fail_stale_pending`, on every row -/
  | failStale (maxAge : Nat)

/-- What a statement does to the row of `id`. -/
def Statement.apply (now : Nat) (id : RunId) (run : Run) : Statement → Run
  | .claim r => if r = id ∧ run.status = .pending then claimRun now run else run
  | .markAttempt r => if r = id then RunRow.markAttempt run else run
  | .finish r succeeded exitCode error =>
      if r = id then finishRun now (finalStatus succeeded) exitCode error run else run
  | .cancel r reason => if r = id then cancelRun now reason run else run
  | .requeue r => if r = id then RunRow.requeue run else run
  | .touch r => if r = id then touchRun now run else run
  | .setResult r v => if r = id then setRunResult v run else run
  | .setOutputBlobs r v => if r = id then setRunOutputBlobs v run else run
  | .setReceipt r v => if r = id then setRunReceipt v run else run
  | .reap lease => reapOrphanRun now lease run
  | .failStale maxAge => failStalePending now maxAge run

/-- A row, with its history. -/
structure Row where
  id : RunId
  run : Run
  retried : Option Nat

/-- When the run had finished that the statement leaves to be run again. -/
def Row.retriedBy (row : Row) : Statement → Option Nat
  | .requeue r => if r = row.id then row.run.finishedAt else row.retried
  | _ => row.retried

/-- A statement rewrites a row. -/
def Row.write (now : Nat) (w : Statement) (row : Row) : Row :=
  let run := w.apply now row.id row.run
  { row with run, retried := if isTerminal run.status then none else row.retriedBy w }

/-- What a statement does to the status and the times of the row of `id`. -/
inductive Applied (now : Nat) (id : RunId) (run : Run) (w : Statement) (run' : Run) : Prop
  | kept (status : run'.status = run.status) (started : run'.startedAt = run.startedAt)
      (finished : run'.finishedAt = run.finishedAt)
  | claimed (here : w = .claim id) (pending : run.status = .pending)
      (claim : run' = claimRun now run)
  | ended (terminal : isTerminal run'.status = true) (started : run'.startedAt = run.startedAt)
      (finished : run'.finishedAt = some now)
  | reopened (here : w = .requeue id ∨ run.status = .running) (requeue : run' = RunRow.requeue run)

/-- **Every statement** does one of the four. -/
theorem applied (now : Nat) (id : RunId) (run : Run) (w : Statement) :
    Applied now id run w (w.apply now id run) := by
  cases w with
  | claim r =>
      simp only [Statement.apply]
      split_ifs with h
      · exact .claimed (by rw [h.1]) h.2 rfl
      · exact .kept rfl rfl rfl
  | finish r succeeded exitCode error =>
      simp only [Statement.apply, finishRun]
      split_ifs
      · exact .kept rfl rfl rfl
      · exact .ended (isTerminal_finalStatus succeeded) rfl rfl
      · exact .kept rfl rfl rfl
  | cancel r reason =>
      simp only [Statement.apply, cancelRun]
      split_ifs
      · exact .kept rfl rfl rfl
      · exact .ended rfl rfl rfl
      · exact .kept rfl rfl rfl
  | requeue r =>
      simp only [Statement.apply]
      split_ifs with hr
      · exact .reopened (.inl (by rw [hr])) rfl
      · exact .kept rfl rfl rfl
  | touch r =>
      simp only [Statement.apply, touchRun]
      split_ifs
      · exact .kept rfl rfl rfl
      · exact .kept rfl rfl rfl
      · exact .kept rfl rfl rfl
  | reap lease =>
      simp only [Statement.apply, reapOrphanRun]
      split_ifs with horphan
      · exact .reopened (.inr (status_of_orphaned horphan)) rfl
      · exact .kept rfl rfl rfl
  | failStale maxAge =>
      simp only [Statement.apply, failStalePending]
      split_ifs
      · exact .ended rfl rfl rfl
      · exact .kept rfl rfl rfl
  | markAttempt r | setResult r v | setOutputBlobs r v | setReceipt r v =>
      simp only [Statement.apply]
      split_ifs
      · exact .kept rfl rfl rfl
      · exact .kept rfl rfl rfl

/-! ## The machine -/

/-- A row of `logs`. -/
structure LogLine where
  runId : RunId
  seq : Nat

/-- `runs` and `logs`. -/
structure Table where
  now : Nat
  runs : List Row
  nextRun : RunId
  logs : List LogLine

def Table.empty : Table := { now := 0, runs := [], nextRun := 0, logs := [] }

/-- A row has the idempotency key. -/
def Table.taken (s : Table) (key : Option String) : Bool :=
  key.isSome && s.runs.any fun row => row.run.idempotencyKey = key

/-- `INSERT … ON CONFLICT (idempotency_key) DO NOTHING`. -/
def Table.insert (s : Table) (run : Run) : Table :=
  if s.taken run.idempotencyKey then s
  else
    { s with
      runs := s.runs ++ [{ id := s.nextRun, run, retried := none }]
      nextRun := s.nextRun + 1 }

/-- `finished_at IS NOT NULL AND finished_at < now() - age`. -/
def expired (now age : Nat) (run : Run) : Bool := run.finishedAt.any fun t => t + age < now

/-- The ids the subquery of the sweeps selects. -/
def Table.expiredIds (s : Table) (age : Nat) : List RunId :=
  (s.runs.filter fun row => expired s.now age row.run).map Row.id

/-- `Db::gc_logs`. -/
def Table.gcLogs (s : Table) (age : Nat) : Table :=
  { s with logs := s.logs.filter fun line => line.runId ∉ s.expiredIds age }

/-- `Db::gc_old`, one transaction. -/
def Table.gcOld (s : Table) (age : Nat) : Table :=
  { s with
    logs := s.logs.filter fun line => line.runId ∉ s.expiredIds age
    runs := s.runs.filter fun row => !expired s.now age row.run }

inductive Label
  | wait (d : Nat)
  | insert (n : NewRun)
  /-- `insert_refused_run` -/
  | refuse (n : NewRun) (reason : String)
  | write (w : Statement)
  | appendLog (r : RunId) (seq : Nat)
  | gcOld (age : Nat)
  | gcLogs (age : Nat)

def step (s : Table) : Label → Option Table
  | .wait d => some { s with now := s.now + d }
  | .insert n => some (s.insert (insertRunWithBlobs s.now n))
  | .refuse n reason => some (s.insert (insertRefusedRun s.now n reason))
  | .write w => some { s with runs := s.runs.map (Row.write s.now w) }
  | .appendLog r seq =>
      if s.runs.any fun row => row.id = r then
        some { s with logs := s.logs ++ [{ runId := r, seq }] }
      else none
  | .gcOld age => some (s.gcOld age)
  | .gcLogs age => some (s.gcLogs age)

/-! ## Rows -/

section Rows

variable {s s' : Table} {a : Label}

/-- The row is what the insert of the step leaves. -/
def Fresh (now : Nat) (a : Label) (row : Row) : Prop :=
  row.retried = none ∧ ((∃ n, a = .insert n ∧ row.run = insertRunWithBlobs now n) ∨
    ∃ n reason, a = .refuse n reason ∧ row.run = insertRefusedRun now n reason)

theorem mem_insert {run : Run} {row : Row} (h : row ∈ (s.insert run).runs) :
    row ∈ s.runs ∨ row.retried = none ∧ row.run = run := by
  unfold Table.insert at h
  split_ifs at h
  · exact .inl h
  · rcases List.mem_append.mp h with h | h
    · exact .inl h
    · rw [List.mem_singleton.mp h]
      exact .inr ⟨rfl, rfl⟩

/-- The clock does not go back. -/
theorem step_now (h : step s a = some s') : s.now ≤ s'.now := by
  cases a with
  | wait d =>
      cases h
      exact Nat.le_add_right _ _
  | insert n =>
      cases h
      unfold Table.insert
      split_ifs <;> exact Nat.le_refl _
  | refuse n reason =>
      cases h
      unfold Table.insert
      split_ifs <;> exact Nat.le_refl _
  | appendLog r seq =>
      simp only [step] at h
      split_ifs at h
      cases h
      exact Nat.le_refl _
  | write w | gcOld age | gcLogs age =>
      cases h
      exact Nat.le_refl _

/-- **Rows.**  A row a step leaves was there, was rewritten by the step's
statement, or is new. -/
theorem step_rows (h : step s a = some s') {row' : Row} (hrow' : row' ∈ s'.runs) :
    row' ∈ s.runs ∨ (∃ w row, a = .write w ∧ row ∈ s.runs ∧ row' = row.write s.now w) ∨
      Fresh s.now a row' := by
  cases a with
  | wait d =>
      cases h
      exact .inl hrow'
  | insert n =>
      cases h
      rcases mem_insert hrow' with hrow | ⟨hretried, hrun⟩
      · exact .inl hrow
      · exact .inr (.inr ⟨hretried, .inl ⟨n, rfl, hrun⟩⟩)
  | refuse n reason =>
      cases h
      rcases mem_insert hrow' with hrow | ⟨hretried, hrun⟩
      · exact .inl hrow
      · exact .inr (.inr ⟨hretried, .inr ⟨n, reason, rfl, hrun⟩⟩)
  | write w =>
      cases h
      obtain ⟨row, hrow, rfl⟩ := List.mem_map.mp hrow'
      exact .inr (.inl ⟨w, row, rfl, hrow, rfl⟩)
  | appendLog r seq =>
      simp only [step] at h
      split_ifs at h
      cases h
      exact .inl hrow'
  | gcOld age =>
      cases h
      exact .inl (List.mem_filter.mp hrow').1
  | gcLogs age =>
      cases h
      exact .inl hrow'

/-- **Row invariants.**  What inserts establish, statements keep and time does
not undo holds of every row of every reachable table. -/
theorem rows_run {P : Nat → Row → Prop} (hfresh : ∀ now a row, Fresh now a row → P now row)
    (hwrite : ∀ now row w, P now row → P now (row.write now w))
    (hlater : ∀ now now' row, now ≤ now' → P now row → P now' row)
    {l : List Label} (h : Machine.run step .empty l = some s) :
    ∀ row ∈ s.runs, P s.now row := by
  refine Machine.inv_run (C := fun _ _ => True) (I := fun s => ∀ row ∈ s.runs, P s.now row)
    ?_ ?_ (Machine.along_of_forall fun _ _ => trivial) h
  · intro s a s' hI _ hstep row' hrow'
    refine hlater s.now s'.now row' (step_now hstep) ?_
    rcases step_rows hstep hrow' with hrow | ⟨w, row, _, hrow, rfl⟩ | hnew
    · exact hI row' hrow
    · exact hwrite s.now row w (hI row hrow)
    · exact hfresh s.now a row' hnew
  · intro row hrow
    cases hrow

end Rows

/-! ## Retention -/

/-- A row that has not ended has a `finished_at` only as a row that is retried. -/
def RetryOk (row : Row) : Prop :=
  row.retried = if isTerminal row.run.status then none else row.run.finishedAt

/-- An update leaves a row ended, or keeps its `finished_at`. -/
theorem apply_ends (now : Nat) (id : RunId) (w : Statement) (run : Run) :
    isTerminal (w.apply now id run).status = true ∨
      (w.apply now id run).finishedAt = run.finishedAt := by
  cases applied now id run w with
  | kept _ _ hfinished => exact .inr hfinished
  | claimed _ _ hclaim =>
      rw [hclaim]
      exact .inr rfl
  | ended hterminal => exact .inl hterminal
  | reopened _ hrequeue =>
      rw [hrequeue]
      exact .inr rfl

/-- A row that has ended is opened again only by its requeue. -/
theorem apply_terminal (now : Nat) (id : RunId) (w : Statement) {run : Run}
    (hrun : isTerminal run.status = true) :
    isTerminal (w.apply now id run).status = true ∨
      w = .requeue id ∧ (w.apply now id run).finishedAt = run.finishedAt := by
  cases applied now id run w with
  | kept hstatus =>
      rw [hstatus]
      exact .inl hrun
  | claimed _ hpending =>
      rw [hpending] at hrun
      cases hrun
  | ended hterminal => exact .inl hterminal
  | reopened hhere hrequeue =>
      rcases hhere with hw | hrunning
      · rw [hrequeue]
        exact .inr ⟨hw, rfl⟩
      · rw [hrunning] at hrun
        cases hrun

theorem RetryOk.write (now : Nat) (w : Statement) {row : Row} (h : RetryOk row) :
    RetryOk (row.write now w) := by
  unfold RetryOk Row.write
  simp only
  split_ifs with hafter
  · rfl
  · cases hrun : isTerminal row.run.status with
    | false =>
        have hretried : row.retried = row.run.finishedAt := by
          rw [h, hrun]
          rfl
        rcases apply_ends now row.id w row.run with hterm | hfin
        · exact absurd hterm hafter
        · rw [hfin]
          unfold Row.retriedBy
          split
          · split_ifs
            · rfl
            · exact hretried
          · exact hretried
    | true =>
        rcases apply_terminal now row.id w hrun with hterm | ⟨rfl, hfin⟩
        · exact absurd hterm hafter
        · rw [hfin]
          exact if_pos rfl

/-- In every reachable table, a row that has a `finished_at` and has not ended
is retried. -/
theorem retryOk_run {l : List Label} {s : Table} (h : Machine.run step .empty l = some s) :
    ∀ row ∈ s.runs, RetryOk row := by
  refine rows_run (P := fun _ row => RetryOk row) ?_ (fun now row w h => h.write now w)
    (fun _ _ _ _ h => h) h
  rintro now a row ⟨hretried, ⟨n, _, hrun⟩ | ⟨n, reason, _, hrun⟩⟩
  · rw [RetryOk, hretried, hrun]
    rfl
  · rw [RetryOk, hretried, hrun]
    rfl

/-- What is in `s` and not in `s'` belongs to runs that have ended. -/
def DeletesFinished (s s' : Table) : Prop :=
  (∀ row ∈ s.runs, row ∉ s'.runs → isTerminal row.run.status = true) ∧
    ∀ line ∈ s.logs, line ∉ s'.logs →
      ∃ row ∈ s.runs, row.id = line.runId ∧ isTerminal row.run.status = true

/-- **Retention.**  In every reachable table and for every age, the two sweeps
delete only runs that have ended, and lines of such runs, exactly if no run that
was requeued after it finished, and has not come to an end again, had finished
longer ago than that age. -/
theorem gc_deletes_finished {l : List Label} {s : Table}
    (hrun : Machine.run step .empty l = some s) (age : Nat) :
    (DeletesFinished s (s.gcOld age) ∧ DeletesFinished s (s.gcLogs age)) ↔
      ∀ row ∈ s.runs, ∀ t, row.retried = some t → s.now ≤ t + age := by
  have hok := retryOk_run hrun
  constructor
  · rintro ⟨⟨hrows, _⟩, _⟩ row hrow t hretried
    by_contra hlt
    have hrow' := hok row hrow
    rw [RetryOk, hretried] at hrow'
    split_ifs at hrow' with hterm
    have hexpired : expired s.now age row.run = true := by
      rw [expired, ← hrow']
      simpa using hlt
    refine hterm (hrows row hrow fun hmem => ?_)
    have hkept := (List.mem_filter.mp hmem).2
    rw [hexpired] at hkept
    cases hkept
  · intro hretries
    -- a row whose `finished_at` is old enough has ended
    have hended : ∀ row ∈ s.runs, expired s.now age row.run = true →
        isTerminal row.run.status = true := by
      intro row hrow hexpired
      simp only [expired, Option.any_eq_true, decide_eq_true_eq] at hexpired
      obtain ⟨t, ht, hlt⟩ := hexpired
      by_contra hopen
      have hretried := hok row hrow
      rw [RetryOk, if_neg hopen, ht] at hretried
      have hle := hretries row hrow t hretried
      omega
    have hlines : ∀ line ∈ s.logs,
        line ∉ s.logs.filter (fun line => line.runId ∉ s.expiredIds age) →
        ∃ row ∈ s.runs, row.id = line.runId ∧ isTerminal row.run.status = true := by
      intro line hline hgone
      have hid : line.runId ∈ s.expiredIds age := by
        by_contra hkept
        exact hgone (List.mem_filter.mpr ⟨hline, by simpa using hkept⟩)
      obtain ⟨row, hrow, hrowid⟩ := List.mem_map.mp hid
      obtain ⟨hrow, hexpired⟩ := List.mem_filter.mp hrow
      exact ⟨row, hrow, hrowid, hended row hrow hexpired⟩
    refine ⟨⟨fun row hrow hgone => hended row hrow ?_, hlines⟩,
      fun row hrow hgone => absurd hrow hgone, hlines⟩
    by_contra hkept
    exact hgone (List.mem_filter.mpr ⟨hrow, by simpa using hkept⟩)

/-- A run without input, enqueued by an operator. -/
def plainRun : NewRun where
  scriptId := 1
  input := .object []
  agentId := none
  inputBlobs := none
  captureOutput := false
  idempotencyKey := none

/-- An attempt fails at once and is requeued, and nobody claims it for a while. -/
def failedAttempt : List Label :=
  [ .insert plainRun
  , .write (.claim 0)
  , .write (.finish 0 false none (some "docker"))
  , .write (.requeue 0)
  , .wait 11 ]

/-- A pending run is deleted. -/
theorem not_gc_deletes_finished :
    ¬ ∀ l s age, Machine.run step .empty l = some s →
      DeletesFinished s (s.gcOld age) ∧ DeletesFinished s (s.gcLogs age) := by
  intro h
  have hsweep := (h failedAttempt _ 10 rfl).1.1
  have hgone := hsweep _ List.mem_cons_self (List.not_mem_nil)
  cases hgone

/-- `gc_deletes_finished` for a run that was canceled. -/
theorem gc_deletes_finished_canceled :
    ∃ s, Machine.run step .empty
        [.insert plainRun, .write (.claim 0), .write (.cancel 0 "operator"), .wait 11] = some s ∧
      DeletesFinished s (s.gcOld 10) ∧ DeletesFinished s (s.gcLogs 10) := by
  refine ⟨_, rfl, ?_⟩
  refine (gc_deletes_finished (l := [.insert plainRun, .write (.claim 0),
    .write (.cancel 0 "operator"), .wait 11]) rfl 10).mpr ?_
  intro row hrow t hretried
  obtain rfl := List.mem_singleton.mp hrow
  cases hretried

end Dokan.Ports.RunTable
