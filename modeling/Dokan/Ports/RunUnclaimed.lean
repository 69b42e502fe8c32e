import Dokan.Ports.RunTable

/-!
# Which runs are retired as unclaimed

`fail_stale_pending` is there for runs that were never claimed, and looks at
`status` and `created_at`.  A run is `pending` again after its requeue and after
a reap, with the `created_at` of its insert.

The machine is the table of runs with one more piece of history: the ids that a
claim took.  A worker marks the attempts of what it has claimed.

## Main results

* `run_attempts` — a row that counts an attempt was claimed.
* `retiresUnclaimed_iff` — what the sweep changes was never claimed, exactly if
  no run that waits for a retry was created longer ago than the age.
-/

namespace Dokan.Ports.RunUnclaimed

open Dokan.Verified
open Dokan.Ports.RunRow
open Dokan.Ports.RunTable

/-- The table, and every run that a worker has claimed. -/
structure State where
  table : Table
  claimed : List RunId

def State.empty : State := { table := .empty, claimed := [] }

/-- The row a step claims. -/
def State.claims (s : State) : Label → List RunId
  | .write (.claim r) =>
      (s.table.runs.filter fun row => row.id = r ∧ row.run.status = .pending).map Row.id
  | _ => []

/-- `worker.rs` marks an attempt right after its claim. -/
def State.allows (s : State) : Label → Bool
  | .write (.markAttempt r) => r ∈ s.claimed
  | _ => true

def step (s : State) (a : Label) : Option State :=
  if s.allows a then
    (RunTable.step s.table a).map fun table => { table, claimed := s.claims a ++ s.claimed }
  else none

/-- The sweep changes only rows that no worker has claimed. -/
def RetiresUnclaimed (s : State) (maxAge : Nat) : Prop :=
  ∀ row ∈ s.table.runs,
    (Statement.failStale maxAge).apply s.table.now row.id row.run ≠ row.run →
    row.id ∉ s.claimed ∧ row.run.attempts = 0

/-! ## Attempts -/

/-- Only `mark_attempt` counts. -/
theorem apply_attempts (now : Nat) (id : RunId) (run : Run) (w : Statement) :
    (w.apply now id run).attempts = run.attempts ∨ w = .markAttempt id := by
  cases w with
  | markAttempt r =>
      simp only [Statement.apply]
      split_ifs with hr
      · exact .inr (by rw [hr])
      · exact .inl rfl
  | finish r succeeded exitCode error =>
      simp only [Statement.apply, finishRun]
      split_ifs <;> exact .inl rfl
  | cancel r reason =>
      simp only [Statement.apply, cancelRun]
      split_ifs <;> exact .inl rfl
  | touch r =>
      simp only [Statement.apply, touchRun]
      split_ifs <;> exact .inl rfl
  | reap lease =>
      simp only [Statement.apply, reapOrphanRun]
      split_ifs <;> exact .inl rfl
  | failStale maxAge =>
      simp only [Statement.apply, failStalePending]
      split_ifs <;> exact .inl rfl
  | claim r | requeue r | setResult r v | setOutputBlobs r v | setReceipt r v =>
      simp only [Statement.apply]
      split_ifs <;> exact .inl rfl

/-- A row that counts an attempt was claimed. -/
def State.Counted (s : State) : Prop :=
  ∀ row ∈ s.table.runs, row.run.attempts ≠ 0 → row.id ∈ s.claimed

theorem step_counted {s s' : State} {a : Label} (hI : s.Counted) (h : step s a = some s') :
    s'.Counted := by
  unfold step at h
  split_ifs at h with hallows
  obtain ⟨table, htable, rfl⟩ := Option.map_eq_some_iff.mp h
  intro row' hrow' hne
  refine List.mem_append_right _ ?_
  rcases step_rows htable hrow' with hrow | ⟨w, row, rfl, hrow, rfl⟩ | ⟨_, hfresh⟩
  · exact hI row' hrow hne
  · rcases apply_attempts s.table.now row.id row.run w with hkept | rfl
    · exact hI row hrow (hkept ▸ hne)
    · exact of_decide_eq_true hallows
  · -- a run is inserted with no attempt
    rcases hfresh with ⟨n, _, hrun⟩ | ⟨n, reason, _, hrun⟩
    · rw [hrun] at hne
      exact absurd rfl hne
    · rw [hrun] at hne
      exact absurd rfl hne

/-- **Attempts.**  In every reachable state, a row that counts an attempt was
claimed. -/
theorem run_attempts {l : List Label} {s : State} (h : Machine.run step .empty l = some s) :
    s.Counted := by
  refine Machine.inv_run (C := fun _ _ => True) (I := State.Counted)
    (fun s a s' hI _ hs => step_counted hI hs) ?_ (Machine.along_of_forall fun _ _ => trivial) h
  intro row hrow
  cases hrow

/-! ## The sweep -/

/-- What `fail_stale_pending` changes. -/
theorem apply_failStale_ne (now maxAge : Nat) (row : Row) :
    (Statement.failStale maxAge).apply now row.id row.run ≠ row.run ↔
      row.run.status = .pending ∧ row.run.createdAt + maxAge < now := by
  simp only [Statement.apply, failStalePending]
  split_ifs with hstale
  · refine iff_of_true (fun heq => ?_) hstale
    have hfailed : RunStatus.failed = row.run.status := congrArg Run.status heq
    rw [hstale.1] at hfailed
    cases hfailed
  · exact iff_of_false (fun hne => hne rfl) hstale

/-- **Only never-claimed runs are retired**, in every reachable state and for
every age, exactly if no run that was claimed before is `pending` again and was
created longer ago than that. -/
theorem retiresUnclaimed_iff {l : List Label} {s : State}
    (h : Machine.run step .empty l = some s) (maxAge : Nat) :
    RetiresUnclaimed s maxAge ↔
      ∀ row ∈ s.table.runs, row.id ∈ s.claimed → row.run.status = .pending →
        s.table.now ≤ row.run.createdAt + maxAge := by
  have hcounted := run_attempts h
  constructor
  · intro hretires row hrow hclaimed hpending
    by_contra hold
    have hchanged := (apply_failStale_ne _ _ row).mpr ⟨hpending, Nat.lt_of_not_le hold⟩
    exact (hretires row hrow hchanged).1 hclaimed
  · intro hyoung row hrow hchanged
    obtain ⟨hpending, hold⟩ := (apply_failStale_ne _ _ row).mp hchanged
    have hnever : row.id ∉ s.claimed := by
      intro hclaimed
      exact absurd (hyoung row hrow hclaimed hpending) (Nat.not_le_of_lt hold)
    refine ⟨hnever, ?_⟩
    by_contra hne
    exact hnever (hcounted row hrow hne)

/-- `pending_timeout` and a microsecond after a run was inserted, its first
attempt is given back. -/
def retriedLate (maxAge : Nat) : List Label :=
  [ .insert plainRun
  , .write (.claim 0)
  , .write (.markAttempt 0)
  , .wait (maxAge + 1)
  , .write (.requeue 0) ]

/-- The next sweep fails it as unclaimed. -/
theorem not_retiresUnclaimed :
    ¬ ∀ l s maxAge, Machine.run step .empty l = some s → RetiresUnclaimed s maxAge := by
  intro h
  have hretires := h (retriedLate 10) _ 10 rfl
  have hnever := (hretires _ List.mem_cons_self ((apply_failStale_ne _ _ _).mpr ⟨rfl, by decide⟩)).1
  exact hnever List.mem_cons_self

/-- `retiresUnclaimed_iff` for a run that nobody claims. -/
theorem retiresUnclaimed_waiting :
    ∃ s, Machine.run step .empty [.insert plainRun, .wait 11] = some s ∧
      RetiresUnclaimed s 10 := by
  refine ⟨_, rfl, ?_⟩
  refine (retiresUnclaimed_iff (l := [.insert plainRun, .wait 11]) rfl 10).mpr ?_
  intro row hrow hclaimed
  cases hclaimed

end Dokan.Ports.RunUnclaimed
