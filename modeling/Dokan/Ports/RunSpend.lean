import Dokan.Ports.RunTable

/-!
# What an agent has spent

The quota and the autoscaler read `finished_at - started_at` off the rows of
`runs`.  A requeue clears the one and not the other: the row of a retry drops
out of the sum, and comes back with its next claim, which is later than the
finish it is measured against.

## Main results

* `Times.apply` — what the two columns of a row say, by its status.
* `accounts_iff` — the runs in which no duration is negative and no retry lowers
  what an agent has spent.
-/

namespace Dokan.Ports.RunSpend

open Dokan.Verified
open Dokan.Verified.Machine (Along along_of_forall)
open Dokan.Ports.RunRow
open Dokan.Ports.RunTable

/-! ## The two queries -/

/-- `finished_at - started_at`, on the microsecond clock. -/
def duration (run : Run) : Int := (run.finishedAt.getD 0 : Int) - run.startedAt.getD 0

/-- `finished_at > now() - window AND started_at IS NOT NULL`. -/
def counted (now window : Nat) (run : Run) : Bool :=
  run.startedAt.isSome && run.finishedAt.any fun t => now < t + window

/-- The rows `mean_run_duration_secs` includes. -/
def meanRows (s : Table) (window : Nat) : List Row :=
  s.runs.filter fun row => counted s.now window row.run

/-- `Db::mean_run_duration_secs`. -/
def meanRunDurationSecs (s : Table) (window : Nat) : Option Rat :=
  let rows := meanRows s window
  if rows.isEmpty then none
  else some ((rows.map fun row => duration row.run).sum / 1000000 / rows.length)

/-- The rows `agent_compute_seconds` includes. -/
def agentRows (s : Table) (agent : String) (window : Nat) : List Row :=
  s.runs.filter fun row => row.run.agentId = some agent && counted s.now window row.run

/-- `Db::agent_compute_seconds`. -/
def agentComputeSeconds (s : Table) (agent : String) (window : Nat) : Rat :=
  ((agentRows s agent window).map fun row => duration row.run).sum / 1000000

/-! ## What is claimed of them -/

/-- No included row has a negative duration. -/
def NonNegative (s : Table) : Prop :=
  (∀ agent window, ∀ row ∈ agentRows s agent window, 0 ≤ duration row.run) ∧
    ∀ window, ∀ row ∈ meanRows s window, 0 ≤ duration row.run

/-- A retry or a reap. -/
def isRetry : Label → Bool
  | .write (.requeue _) | .write (.reap _) => true
  | _ => false

/-- After the step no duration is negative; if it is a retry or a reap, no agent
has spent less. -/
def Accounts (s : Table) (a : Label) : Prop :=
  ∀ s', step s a = some s' → NonNegative s' ∧
    (isRetry a = true → ∀ agent window,
      agentComputeSeconds s agent window ≤ agentComputeSeconds s' agent window)

/-- No run is claimed that finished before, and none is requeued whose agent
has spent time on it. -/
def ClaimsOnce (s : Table) : Label → Prop
  | .write (.claim r) => ∀ row ∈ s.runs, row.id = r → row.run.status = .pending →
      ∀ t, row.run.finishedAt = some t → s.now ≤ t
  | .write (.requeue r) => ∀ row ∈ s.runs, row.id = r → row.run.agentId.isSome = true →
      ∀ a b, row.run.startedAt = some a → row.run.finishedAt = some b → b ≤ a
  | _ => True

/-! ## The two columns -/

/-- What `started_at` and `finished_at` say in a row of each status. -/
structure Times (now : Nat) (run : Run) : Prop where
  started : ∀ a, run.startedAt = some a → a ≤ now
  finished : ∀ b, run.finishedAt = some b → b ≤ now
  pending : run.status = .pending → run.startedAt = none
  running : run.status = .running → ∀ a b, run.startedAt = some a →
    run.finishedAt = some b → b ≤ a
  terminal : isTerminal run.status = true → ∀ a b, run.startedAt = some a →
    run.finishedAt = some b → a ≤ b

/-- The row did not finish before it started. -/
def Ordered (run : Run) : Prop :=
  ∀ a b, run.startedAt = some a → run.finishedAt = some b → a ≤ b

theorem Times.later {now now' : Nat} {run : Run} (h : Times now run) (hle : now ≤ now') :
    Times now' run :=
  ⟨fun a ha => (h.started a ha).trans hle, fun b hb => (h.finished b hb).trans hle,
    h.pending, h.running, h.terminal⟩

/-- A row that has just ended, whatever it was. -/
theorem Times.ended {now : Nat} {run run' : Run} (h : Times now run)
    (hstarted : run'.startedAt = run.startedAt) (hfinished : run'.finishedAt = some now)
    (hstatus : isTerminal run'.status = true) : Times now run' := by
  refine ⟨?_, ?_, ?_, ?_, ?_⟩
  · rw [hstarted]
    exact h.started
  · rw [hfinished]
    rintro b ⟨⟩
    exact Nat.le_refl _
  · intro hp
    rw [hp] at hstatus
    cases hstatus
  · intro hr
    rw [hr] at hstatus
    cases hstatus
  · rw [hstarted, hfinished]
    rintro _ a b ha ⟨⟩
    exact h.started a ha

/-- A row whose status and times stay. -/
theorem Times.congr {now : Nat} {run run' : Run} (h : Times now run)
    (hstarted : run'.startedAt = run.startedAt) (hfinished : run'.finishedAt = run.finishedAt)
    (hstatus : run'.status = run.status) : Times now run' := by
  refine ⟨?_, ?_, ?_, ?_, ?_⟩
  · rw [hstarted]
    exact h.started
  · rw [hfinished]
    exact h.finished
  · rw [hstatus, hstarted]
    exact h.pending
  · rw [hstatus, hstarted, hfinished]
    exact h.running
  · rw [hstatus, hstarted, hfinished]
    exact h.terminal

theorem Times.requeue {now : Nat} {run : Run} (h : Times now run) :
    Times now (RunRow.requeue run) := by
  refine ⟨?_, h.finished, fun _ => rfl, ?_, ?_⟩
  · rintro a ⟨⟩
  · rintro ⟨⟩
  · rintro ⟨⟩

theorem Times.claim {now : Nat} {run : Run} (h : Times now run) :
    Times now (claimRun now run) := by
  refine ⟨?_, h.finished, ?_, ?_, ?_⟩
  · rintro a ⟨⟩
    exact Nat.le_refl _
  · rintro ⟨⟩
  · rintro _ a b ⟨⟩ hb
    exact h.finished b hb
  · rintro ⟨⟩

theorem Times.apply {now : Nat} {run : Run} (h : Times now run) (id : RunId) (w : Statement) :
    Times now (w.apply now id run) := by
  cases applied now id run w with
  | kept hstatus hstarted hfinished => exact h.congr hstarted hfinished hstatus
  | claimed _ _ hclaim =>
      rw [hclaim]
      exact h.claim
  | ended hterminal hstarted hfinished => exact h.ended hstarted hfinished hterminal
  | reopened _ hrequeue =>
      rw [hrequeue]
      exact h.requeue

/-- A new row has not started. -/
theorem fresh_started {now : Nat} {a : Label} {row : Row} (h : Fresh now a row) :
    row.run.startedAt = none := by
  obtain ⟨_, ⟨n, _, hrun⟩ | ⟨n, reason, _, hrun⟩⟩ := h
  · rw [hrun]
    rfl
  · rw [hrun]
    rfl

theorem Times.fresh {now : Nat} {a : Label} {row : Row} (h : Fresh now a row) :
    Times now row.run := by
  have hstarted := fresh_started h
  refine ⟨?_, ?_, fun _ => hstarted, ?_, ?_⟩
  · rw [hstarted]
    rintro a ⟨⟩
  · obtain ⟨_, ⟨n, _, hrun⟩ | ⟨n, reason, _, hrun⟩⟩ := h
    · rw [hrun]
      rintro b ⟨⟩
    · rw [hrun]
      rintro b ⟨⟩
      exact Nat.le_refl _
  · rw [hstarted]
    rintro _ a b ⟨⟩
  · rw [hstarted]
    rintro _ a b ⟨⟩

/-- Only a claim puts a start behind a finish. -/
theorem Ordered.apply {now : Nat} {id : RunId} {run : Run} {w : Statement} (hO : Ordered run)
    (hT : Times now run) (hclaim : w = .claim id → run.status = .pending →
      ∀ t, run.finishedAt = some t → now ≤ t) : Ordered (w.apply now id run) := by
  cases applied now id run w with
  | kept _ hstarted hfinished =>
      intro a b ha hb
      rw [hstarted] at ha
      rw [hfinished] at hb
      exact hO a b ha hb
  | claimed hw hpending hrun =>
      rw [hrun]
      rintro a b ⟨⟩ hb
      exact hclaim hw hpending b hb
  | ended _ hstarted hfinished =>
      intro a b ha hb
      rw [hstarted] at ha
      rw [hfinished] at hb
      cases hb
      exact hT.started a ha
  | reopened _ hrequeue =>
      rw [hrequeue]
      rintro a b ⟨⟩

theorem duration_nonneg {run : Run} (h : Ordered run) {now window : Nat}
    (hc : counted now window run = true) : 0 ≤ duration run := by
  simp only [counted, Bool.and_eq_true, Option.any_eq_true] at hc
  obtain ⟨a, ha⟩ := Option.isSome_iff_exists.mp hc.1
  obtain ⟨b, hb, _⟩ := hc.2
  have hle := h a b ha hb
  rw [duration, ha, hb, Option.getD_some, Option.getD_some]
  omega

/-- Every row that has both columns is counted in some window. -/
theorem counted_of_columns {now a b : Nat} {run : Run} (ha : run.startedAt = some a)
    (hb : run.finishedAt = some b) : counted now (now + 1) run = true := by
  simp only [counted, ha, hb, Option.isSome_some, Option.any_some, Bool.true_and,
    decide_eq_true_eq]
  omega

theorem nonNegative_iff {s : Table} : NonNegative s ↔ ∀ row ∈ s.runs, Ordered row.run := by
  constructor
  · rintro ⟨_, hmean⟩ row hrow a b ha hb
    have hnonneg := hmean (s.now + 1) row (List.mem_filter.mpr ⟨hrow, counted_of_columns ha hb⟩)
    rw [duration, ha, hb, Option.getD_some, Option.getD_some] at hnonneg
    omega
  · intro hO
    constructor
    · intro agent window row hrow
      obtain ⟨hrow, hc⟩ := List.mem_filter.mp hrow
      simp only [Bool.and_eq_true] at hc
      exact duration_nonneg (hO row hrow) hc.2
    · intro window row hrow
      obtain ⟨hrow, hc⟩ := List.mem_filter.mp hrow
      exact duration_nonneg (hO row hrow) hc

/-! ## Sums -/

/-- What one row adds to the compute of an agent. -/
def share (now : Nat) (agent : String) (window : Nat) (run : Run) : Int :=
  if run.agentId = some agent && counted now window run then duration run else 0

theorem sum_agentRows (s : Table) (agent : String) (window : Nat) :
    ((agentRows s agent window).map fun row => duration row.run).sum =
      (s.runs.map fun row => share s.now agent window row.run).sum := by
  unfold agentRows share
  induction s.runs with
  | nil => rfl
  | cons row rows ih =>
      rw [List.filter_cons, List.map_cons, List.sum_cons, ← ih]
      split_ifs
      · rw [List.map_cons, List.sum_cons]
      · rw [Int.zero_add]

theorem agentComputeSeconds_le_iff {s s' : Table} {agent : String} {window : Nat} :
    agentComputeSeconds s agent window ≤ agentComputeSeconds s' agent window ↔
      (s.runs.map fun row => share s.now agent window row.run).sum ≤
        (s'.runs.map fun row => share s'.now agent window row.run).sum := by
  rw [agentComputeSeconds, agentComputeSeconds, sum_agentRows, sum_agentRows,
    div_le_div_iff_of_pos_right (by norm_num)]
  exact Int.cast_le

/-- A row that waits adds nothing. -/
theorem share_requeue (now : Nat) (agent : String) (window : Nat) (run : Run) :
    share now agent window (RunRow.requeue run) = 0 := by
  simp [share, counted, RunRow.requeue]

theorem share_nonneg {run : Run} (h : Ordered run) (now : Nat) (agent : String) (window : Nat) :
    0 ≤ share now agent window run := by
  unfold share
  split_ifs with hc
  · rw [Bool.and_eq_true] at hc
    exact duration_nonneg h hc.2
  · exact Int.le_refl _

/-- A row that started no earlier than it finished adds nothing. -/
theorem share_nonpos {run : Run} {now window : Nat} {agent : String}
    (h : run.agentId.isSome = true →
      ∀ a b, run.startedAt = some a → run.finishedAt = some b → b ≤ a) :
    share now agent window run ≤ 0 := by
  unfold share
  split_ifs with hc
  · simp only [Bool.and_eq_true, decide_eq_true_eq, counted, Option.any_eq_true] at hc
    obtain ⟨hagent, hstarted, b, hb, _⟩ := hc
    obtain ⟨a, ha⟩ := Option.isSome_iff_exists.mp hstarted
    have hle := h (by rw [hagent]; rfl) a b ha hb
    rw [duration, ha, hb, Option.getD_some, Option.getD_some]
    omega
  · exact Int.le_refl _

/-! ## One step -/

/-- What both conditions keep. -/
structure SpendInv (s : Table) : Prop where
  times : ∀ row ∈ s.runs, Times s.now row.run
  ordered : ∀ row ∈ s.runs, Ordered row.run

theorem times_step {s s' : Table} {a : Label} (h : step s a = some s')
    (hT : ∀ row ∈ s.runs, Times s.now row.run) : ∀ row ∈ s'.runs, Times s'.now row.run := by
  intro row' hrow'
  refine Times.later ?_ (step_now h)
  rcases step_rows h hrow' with hrow | ⟨w, row, _, hrow, rfl⟩ | hnew
  · exact hT row' hrow
  · exact (hT row hrow).apply row.id w
  · exact Times.fresh hnew

theorem ordered_step {s s' : Table} {a : Label} (hI : SpendInv s) (h : step s a = some s')
    (hC : ClaimsOnce s a) : ∀ row ∈ s'.runs, Ordered row.run := by
  intro row' hrow'
  rcases step_rows h hrow' with hrow | ⟨w, row, rfl, hrow, rfl⟩ | hnew
  · exact hI.ordered row' hrow
  · refine (hI.ordered row hrow).apply (hI.times row hrow) ?_
    rintro rfl hpending t ht
    exact hC row hrow rfl hpending t ht
  · intro a b ha
    rw [fresh_started hnew] at ha
    cases ha

/-- A retry or a reap leaves the share of a row, or takes one that is not
positive. -/
theorem share_write {s : Table} {w : Statement} (hI : SpendInv s)
    (hretry : isRetry (.write w) = true) (hC : ClaimsOnce s (.write w)) (agent : String)
    (window : Nat) {row : Row} (hrow : row ∈ s.runs) :
    share s.now agent window row.run ≤
      share s.now agent window (w.apply s.now row.id row.run) := by
  cases w with
  | requeue r =>
      simp only [Statement.apply]
      split_ifs with hr
      · rw [share_requeue]
        exact share_nonpos (hC row hrow hr.symm)
      · exact Int.le_refl _
  | reap lease =>
      simp only [Statement.apply, reapOrphanRun]
      split_ifs with horphan
      · rw [share_requeue]
        exact share_nonpos fun _ =>
          (hI.times row hrow).running (status_of_orphaned horphan)
      · exact Int.le_refl _
  | claim r | markAttempt r | finish r succeeded exitCode error | cancel r reason | touch r
  | setResult r v | setOutputBlobs r v | setReceipt r v | failStale maxAge => cases hretry

/-- The condition is enough. -/
theorem accounts_of_claimsOnce {s : Table} {a : Label} (hI : SpendInv s) (hC : ClaimsOnce s a) :
    Accounts s a := by
  intro s' h
  refine ⟨nonNegative_iff.mpr (ordered_step hI h hC), fun hretry agent window => ?_⟩
  cases a with
  | write w =>
      cases h
      rw [agentComputeSeconds_le_iff, List.map_map]
      refine List.sum_le_sum fun row hrow => ?_
      exact share_write hI hretry hC agent window hrow
  | wait d | insert n | refuse n reason | appendLog r seq | gcOld age | gcLogs age =>
      cases hretry

/-- A requeue that takes something from what an agent has spent lowers it. -/
theorem requeue_lowers {s : Table} (hI : SpendInv s) {r : RunId} {row : Row} {agent : String}
    {a b : Nat} (hrow : row ∈ s.runs) (hid : row.id = r) (hagent : row.run.agentId = some agent)
    (ha : row.run.startedAt = some a) (hb : row.run.finishedAt = some b) (hlt : a < b) :
    ¬ Accounts s (.write (.requeue r)) := by
  intro hA
  have hle := (hA _ rfl).2 rfl agent (s.now + 1)
  rw [agentComputeSeconds_le_iff, List.map_map] at hle
  refine absurd hle (Int.not_le.mpr (List.sum_lt_sum _ _ ?_ ⟨row, hrow, ?_⟩))
  · intro row' hrow'
    simp only [Function.comp_apply, Row.write, Statement.apply]
    split_ifs
    · rw [share_requeue]
      exact share_nonneg (hI.ordered row' hrow') _ _ _
    · exact Int.le_refl _
  · simp only [Function.comp_apply, Row.write, Statement.apply]
    rw [if_pos hid.symm, share_requeue, share,
      if_pos (by rw [Bool.and_eq_true]; exact ⟨decide_eq_true hagent, counted_of_columns ha hb⟩),
      duration, ha, hb, Option.getD_some, Option.getD_some]
    omega

/-- The condition is needed. -/
theorem claimsOnce_of_accounts {s : Table} {a : Label} (hI : SpendInv s) (hA : Accounts s a) :
    ClaimsOnce s a := by
  cases a with
  | write w =>
      cases w with
      | claim r =>
          intro row hrow hid hpending t ht
          have hO := nonNegative_iff.mp (hA _ rfl).1 _ (List.mem_map_of_mem hrow)
          have hclaimed : (row.write s.now (.claim r)).run = claimRun s.now row.run := by
            simp only [Row.write, Statement.apply]
            rw [if_pos ⟨hid.symm, hpending⟩]
          rw [hclaimed] at hO
          exact hO s.now t rfl ht
      | requeue r =>
          intro row hrow hid hsome a b ha hb
          obtain ⟨agent, hagent⟩ := Option.isSome_iff_exists.mp hsome
          by_contra hlt
          exact requeue_lowers hI hrow hid hagent ha hb (Nat.not_le.mp hlt) hA
      | markAttempt r | finish r succeeded exitCode error | cancel r reason | touch r
      | setResult r v | setOutputBlobs r v | setReceipt r v | reap lease | failStale maxAge =>
          trivial
  | wait d | insert n | refuse n reason | appendLog r seq | gcOld age | gcLogs age => trivial

/-! ## Runs -/

theorem spendInv_empty : SpendInv .empty := by
  constructor
  · rintro row ⟨⟩
  · rintro row ⟨⟩

/-- **What an agent has spent.**  Along a run of the table, however its
statements interleave, no row that the two queries include has a negative
duration and no retry or reap lowers what an agent has spent, exactly if no run
is claimed that had finished before and none is requeued whose agent has spent
time on it. -/
theorem accounts_iff (l : List Label) :
    Along step Accounts .empty l ↔ Along step ClaimsOnce .empty l := by
  constructor
  · refine Machine.Along.of_inv (I := SpendInv) ?_ (fun s a => claimsOnce_of_accounts)
      spendInv_empty
    intro s a s' hI hA h
    exact ⟨times_step h hI.times, nonNegative_iff.mp (hA s' h).1⟩
  · refine Machine.Along.of_inv (I := SpendInv) ?_ (fun s a => accounts_of_claimsOnce)
      spendInv_empty
    intro s a s' hI hC h
    exact ⟨times_step h hI.times, ordered_step hI h hC⟩

/-- A first attempt takes one unit and fails, and a second one starts later. -/
def secondAttempt : List Label :=
  [ .insert { plainRun with agentId := some "a" }
  , .write (.claim 0)
  , .wait 1
  , .write (.finish 0 false none (some "docker"))
  , .write (.requeue 0)
  , .wait 1
  , .write (.claim 0) ]

/-- The second attempt has been running for minus one. -/
theorem not_accounts : ¬ ∀ l, Along step Accounts .empty l := by
  intro h
  have hall : Along step Accounts .empty (secondAttempt.dropLast ++ [.write (.claim 0)]) :=
    h secondAttempt
  have hlast := (Machine.along_append hall).2 _ rfl
  have hnonneg := nonNegative_iff.mp (hlast.1 _ rfl).1 _ List.mem_cons_self
  exact absurd (hnonneg 2 1 rfl rfl) (by decide)

end Dokan.Ports.RunSpend
