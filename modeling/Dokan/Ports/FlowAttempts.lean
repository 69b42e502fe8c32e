import Dokan.Ports.FlowOrder

/-!
# The attempts of a step

`run_step` on its own, against a script that always fails: how many times the
script runs before the step is marked failed, as a function of the `retries`
column.  The column is written from a value the validator read as a `u64`, and
the loop counts in 32 bits; the children of a map step get no value at all.

## Main results

* `makesAttempts_iff` — the attempts `run_step` makes are `stepAttempts`.
* `retries_attempts` — they are one more than the accepted value exactly below
  `2 ^ 32 - 1`.
* `children_inherit` — a child of a map step runs under the settings of its parent
  exactly when those make two attempts.
-/

namespace Dokan.Ports.FlowAttempts

open Dokan.Verified
open Dokan.Verified.Json
open Dokan.Ports.RunRow
open Dokan.Ports.FlowRow
open Dokan.Ports.FlowSpec
open Dokan.Ports.FlowEval
open Dokan.Ports.FlowDriver
open Dokan.Ports.FlowLedger
open Dokan.Ports.FlowMoves
open Dokan.Ports.FlowOrder

/-! ## `run_step` on its own -/

/-- A call of `run_step` and the statements it has carried out. -/
abbrev Alone := TaskPc × List Write

/-- The next statement of `run_step`. -/
def aloneStep (x : FlowStep) (s : Alone) (reply : Reply) : Option Alone :=
  (taskStep x s.1 reply).map fun p => (p.1, s.2 ++ p.2.toList)

/-- The script has run. -/
def Reply.isRan : Reply → Bool
  | .ran _ => true
  | _ => false

/-- The script is there, always runs and always fails, and the statements that
end the call go through. -/
def Failing : Alone → Reply → Prop
  | (.script, _), .script (some runtime) => (runtimeSpec runtime).isSome
  | (.script, _), _ => False
  | (.cache, _), .hit (some _) => False
  | (.insert _, _), .err _ => False
  | (.exec _ _, _), .ran status => status ≠ .succeeded
  | (.fail _, _), .err _ => False
  | _, _ => True

/-- `run_step` makes `n` attempts against a script that always fails: never more,
and when it returns exactly `n`, its last statement marking the step failed; and
it can always go on until it returns. -/
structure MakesAttempts (x : FlowStep) (n : Nat) : Prop where
  bounded : ∀ l s, Machine.Along (aloneStep x) Failing (.script, []) l →
    Machine.run (aloneStep x) (.script, []) l = some s → l.countP Reply.isRan ≤ n
  failed : ∀ l ws, Machine.Along (aloneStep x) Failing (.script, []) l →
    Machine.run (aloneStep x) (.script, []) l = some (.done, ws) →
      l.countP Reply.isRan = n ∧
        ws.getLast? = some (.finish x.stepId .failed (some "exhausted retries"))
  returns : ∀ l s, Machine.Along (aloneStep x) Failing (.script, []) l →
    Machine.run (aloneStep x) (.script, []) l = some s →
      ∃ l' ws, Machine.Along (aloneStep x) Failing s l' ∧
        Machine.run (aloneStep x) s l' = some (.done, ws)

/-! ## Where a call is after `n` executions -/

/-- Where a call of `run_step` may be after the script has failed `n` times. -/
def Reached (x : FlowStep) (n : Nat) : Alone → Prop
  | (.script, _) => n = 0
  | (.cache, _) => n = 0
  | (.insert k, _) => k = n + 1 ∧ k ≤ stepAttempts x.retries
  | (.setRunning k _, _) => k = n + 1 ∧ k ≤ stepAttempts x.retries
  | (.exec k _, _) => k = n + 1 ∧ k ≤ stepAttempts x.retries
  | (.status k row, _) => k = n ∧ k ≤ stepAttempts x.retries ∧ row ≠ .succeeded
  | (.fail reason, _) => reason = "exhausted retries" ∧ n = stepAttempts x.retries
  | (.done, ws) =>
      n = stepAttempts x.retries ∧
        ws.getLast? = some (.finish x.stepId .failed (some "exhausted retries"))
  | (.recalled _, _) => False
  | (.stdout, _) => False
  | (.succeed _, _) => False

variable {x : FlowStep} {n : Nat} {s s' : Alone} {reply : Reply} {l : List Reply}

/-- The head of the loop after `n` failures. -/
theorem reached_nextAttempt (h : n ≤ stepAttempts x.retries) (ws : List Write) :
    Reached x n (nextAttempt x n, ws) := by
  unfold nextAttempt
  by_cases hlt : n < stepAttempts x.retries
  · rw [if_pos hlt]
    exact ⟨rfl, hlt⟩
  · rw [if_neg hlt]
    exact ⟨rfl, by omega⟩

/-- **Step.**  Only an execution of the script counts. -/
theorem Reached.step (h : Reached x n s) (hfail : Failing s reply)
    (hstep : aloneStep x s reply = some s') :
    Reached x (n + if Reply.isRan reply then 1 else 0) s' := by
  obtain ⟨pc, ws⟩ := s
  obtain ⟨⟨pc', w⟩, htask, rfl⟩ := Option.map_eq_some_iff.mp hstep
  cases pc with
  | script =>
      obtain rfl : n = 0 := h
      cases reply with
      | script runtime =>
          cases runtime with
          | none => exact hfail.elim
          | some runtime =>
              have hknown : (runtimeSpec runtime).isSome = true := hfail
              have hnone : (runtimeSpec runtime).isNone = false := by
                cases hr : runtimeSpec runtime with
                | none => simp [hr] at hknown
                | some _ => rfl
              simp only [taskStep, hnone, Bool.false_eq_true, if_false] at htask
              split_ifs at htask
              · cases htask
                exact rfl
              · cases htask
                exact reached_nextAttempt (Nat.zero_le _) _
      | _ => exact hfail.elim
  | cache =>
      obtain rfl : n = 0 := h
      cases reply with
      | hit runId =>
          cases runId with
          | some runId => exact hfail.elim
          | none =>
              cases htask
              exact reached_nextAttempt (Nat.zero_le _) _
      | err msg =>
          cases htask
          exact reached_nextAttempt (Nat.zero_le _) _
      | _ => cases htask
  | insert k =>
      cases reply with
      | run runId =>
          cases htask
          exact h
      | err msg => exact hfail.elim
      | _ => cases htask
  | setRunning k runId =>
      cases reply with
      | ok =>
          cases htask
          exact h
      | err msg =>
          cases htask
          exact h
      | _ => cases htask
  | exec k runId =>
      cases reply with
      | ran status =>
          cases htask
          exact ⟨h.1, h.2, hfail⟩
      | _ => cases htask
  | status k row =>
      obtain ⟨rfl, hle, hrow⟩ := h
      cases reply with
      | ok =>
          simp only [taskStep, if_neg hrow, Option.some.injEq, Prod.mk.injEq] at htask
          obtain ⟨rfl, rfl⟩ := htask
          exact reached_nextAttempt hle _
      | err msg =>
          cases htask
          exact reached_nextAttempt hle _
      | _ => cases htask
  | fail reason =>
      obtain ⟨rfl, hn⟩ := h
      cases reply with
      | ok =>
          cases htask
          exact ⟨hn, by simp⟩
      | err msg => exact hfail.elim
      | _ => cases htask
  | done => cases reply <;> cases htask
  | recalled runId => exact h.elim
  | stdout => exact h.elim
  | succeed output => exact h.elim

/-- **Run.**  After a run of failures the call is where the number of executions
says. -/
theorem Reached.run (h : Reached x n s) (halong : Machine.Along (aloneStep x) Failing s l)
    (hrun : Machine.run (aloneStep x) s l = some s') :
    Reached x (n + l.countP Reply.isRan) s' := by
  induction l generalizing s n with
  | nil =>
      cases hrun
      exact h
  | cons reply l ih =>
      obtain ⟨t, ht, hrest⟩ := Machine.run_cons_some hrun
      have hnext := ih (h.step halong.1 ht) (halong.2 t ht) hrest
      rw [List.countP_cons, Nat.add_comm (l.countP _), ← Nat.add_assoc]
      exact hnext

/-- A call never passes its last attempt. -/
theorem Reached.le (h : Reached x n s) : n ≤ stepAttempts x.retries := by
  obtain ⟨pc, ws⟩ := s
  cases pc with
  | script => exact (show n = 0 from h) ▸ Nat.zero_le _
  | cache => exact (show n = 0 from h) ▸ Nat.zero_le _
  | insert k =>
      obtain ⟨rfl, hle⟩ := h
      omega
  | setRunning k runId =>
      obtain ⟨rfl, hle⟩ := h
      omega
  | exec k runId =>
      obtain ⟨rfl, hle⟩ := h
      omega
  | status k row =>
      obtain ⟨rfl, hle, _⟩ := h
      exact hle
  | fail reason => exact h.2.le
  | done => exact h.1.le
  | recalled runId => exact h.elim
  | stdout => exact h.elim
  | succeed output => exact h.elim

/-! ## The call returns -/

/-- The call can be brought to its end by failures alone. -/
def Returns (x : FlowStep) (s : Alone) : Prop :=
  ∃ l ws, Machine.Along (aloneStep x) Failing s l ∧
    Machine.run (aloneStep x) s l = some (.done, ws)

/-- One more statement in front. -/
theorem Returns.cons (reply : Reply) (s' : Alone) (hfail : Failing s reply)
    (hstep : aloneStep x s reply = some s') (h : Returns x s') : Returns x s := by
  obtain ⟨l, ws, halong, hrun⟩ := h
  refine ⟨reply :: l, ws, Machine.along_cons hstep hfail halong, ?_⟩
  rw [Machine.run_cons, hstep]
  exact hrun

theorem returns_fail (reason : String) (ws : List Write) : Returns x (.fail reason, ws) :=
  Returns.cons .ok (.done, _) trivial rfl ⟨[], _, trivial, rfl⟩

/-- From the end of an attempt, by induction on the attempts that are left. -/
theorem returns_nextAttempt (d : Nat) : ∀ (k : Nat) (ws : List Write),
    stepAttempts x.retries ≤ k + d → Returns x (nextAttempt x k, ws) := by
  induction d with
  | zero =>
      intro k ws hle
      rw [nextAttempt, if_neg (by omega)]
      exact returns_fail _ _
  | succ d ih =>
      intro k ws hle
      rw [nextAttempt]
      by_cases hlt : k < stepAttempts x.retries
      · rw [if_pos hlt]
        refine Returns.cons (.run 0) (.setRunning (k + 1) 0, _) trivial rfl ?_
        refine Returns.cons .ok (.exec (k + 1) 0, _) trivial rfl ?_
        have hne : RunStatus.failed ≠ .succeeded := by decide
        refine Returns.cons (.ran .failed) (.status (k + 1) .failed, _)
          hne rfl ?_
        refine Returns.cons .ok (nextAttempt x (k + 1), _) trivial rfl ?_
        exact ih (k + 1) _ (by omega)
      · rw [if_neg hlt]
        exact returns_fail _ _

/-- After a failed execution. -/
theorem returns_status {k : Nat} {row : RunStatus} (hrow : row ≠ .succeeded)
    (ws : List Write) : Returns x (.status k row, ws) := by
  have hstep : aloneStep x (.status k row, ws) .ok =
      some (nextAttempt x k, ws ++ (none : Option Write).toList) := by
    simp [aloneStep, taskStep, hrow]
  exact Returns.cons _ _ trivial hstep (returns_nextAttempt _ k _ (Nat.le_add_left _ _))

theorem returns_exec (k runId : Nat) (ws : List Write) : Returns x (.exec k runId, ws) := by
  have hne : RunStatus.failed ≠ .succeeded := by decide
  exact Returns.cons (.ran .failed) (.status k .failed, _) hne rfl
    (returns_status hne _)

theorem returns_setRunning (k runId : Nat) (ws : List Write) :
    Returns x (.setRunning k runId, ws) :=
  Returns.cons .ok (.exec k runId, _) trivial rfl (returns_exec _ _ _)

theorem returns_cache (ws : List Write) : Returns x (.cache, ws) :=
  Returns.cons (.hit none) (nextAttempt x 0, _) trivial rfl
    (returns_nextAttempt _ 0 _ (Nat.le_add_left _ _))

/-- **Progress.**  Wherever failures have brought the call, it can be brought to
its end. -/
theorem Reached.returns (h : Reached x n s) : Returns x s := by
  obtain ⟨pc, ws⟩ := s
  cases pc with
  | script =>
      have hknown : Failing (.script, ws) (.script (some "bash")) := rfl
      by_cases hcache : x.cache = true
      · have hstep : aloneStep x (.script, ws) (.script (some "bash")) =
            some (.cache, ws ++ (none : Option Write).toList) := by
          simp [aloneStep, taskStep, hcache, runtimeSpec]
        exact Returns.cons _ _ hknown hstep (returns_cache _)
      · have hstep : aloneStep x (.script, ws) (.script (some "bash")) =
            some (nextAttempt x 0, ws ++ (none : Option Write).toList) := by
          simp [aloneStep, taskStep, hcache, runtimeSpec]
        exact Returns.cons _ _ hknown hstep
          (returns_nextAttempt _ 0 _ (Nat.le_add_left _ _))
  | cache => exact returns_cache _
  | insert k =>
      exact Returns.cons (.run 0) (.setRunning k 0, _) trivial rfl
        (returns_setRunning _ _ _)
  | setRunning k runId => exact returns_setRunning _ _ _
  | exec k runId => exact returns_exec _ _ _
  | status k row => exact returns_status h.2.2 _
  | fail reason => exact returns_fail _ _
  | done => exact ⟨[], ws, trivial, rfl⟩
  | recalled runId => exact h.elim
  | stdout => exact h.elim
  | succeed output => exact h.elim

/-! ## The number of attempts -/

/-- `run_step` makes `stepAttempts` of its `retries` column. -/
theorem makesAttempts (x : FlowStep) : MakesAttempts x (stepAttempts x.retries) := by
  have hreach : ∀ l s, Machine.Along (aloneStep x) Failing (.script, []) l →
      Machine.run (aloneStep x) (.script, []) l = some s →
        Reached x (l.countP Reply.isRan) s := by
    intro l s halong hrun
    have hstart : Reached x 0 (.script, []) := rfl
    have h := hstart.run halong hrun
    rwa [Nat.zero_add] at h
  exact
    { bounded := fun l s halong hrun => (hreach l s halong hrun).le
      failed := fun l ws halong hrun => hreach l (.done, ws) halong hrun
      returns := fun l s halong hrun => (hreach l s halong hrun).returns }

/-- **Attempts.**  The number of attempts is `stepAttempts` and nothing else. -/
theorem makesAttempts_iff : MakesAttempts x n ↔ n = stepAttempts x.retries := by
  constructor
  · intro h
    obtain ⟨l, ws, halong, hrun⟩ := h.returns [] (.script, []) trivial rfl
    rw [← (h.failed l ws halong hrun).1]
    exact ((makesAttempts x).failed l ws halong hrun).1
  · rintro rfl
    exact makesAttempts x

/-! ## From the spec to the loop -/

/-- The value of `retries` reaches the loop unchanged: the column holds it, the
cast to `u32` keeps it, and one more than it fits. -/
def Lossless (x : FlowStep) (r : Int) : Prop :=
  x.retries = some r ∧ (max (x.retries.getD 1) 0).toNat % 2 ^ 32 = r ∧ r + 1 < 2 ^ 32

/-- The column of a value in the range of a `u64`. -/
theorem retries_ledgerRow {st v : Value} {r : Int} (hv : st.get? "retries" = some v)
    (hr : v.asU64? = some r) :
    0 ≤ r ∧ (ledgerRow st).retries = if r < 2 ^ 63 then some r else none := by
  obtain ⟨rfl, hnonneg, hlt⟩ := Value.asU64?_eq_some.mp hr
  have hrow : (ledgerRow st).retries = Value.asI64? (.num (.int r)) := by
    simp [ledgerRow, hv]
  refine ⟨hnonneg, ?_⟩
  rw [hrow]
  by_cases hlt : r < 2 ^ 63
  · rw [if_pos hlt, Value.asI64?, if_pos ⟨by omega, hlt⟩]
  · rw [if_neg hlt, Value.asI64?, if_neg (fun h => hlt h.2)]

/-- The loop makes one attempt more than the value exactly when the 32-bit count
of attempts does not wrap. -/
theorem stepAttempts_ledgerRow {st v : Value} {r : Int} (hv : st.get? "retries" = some v)
    (hr : v.asU64? = some r) :
    (stepAttempts (ledgerRow st).retries : Int) = r + 1 ↔ r < 2 ^ 32 - 1 := by
  obtain ⟨hnonneg, hrow⟩ := retries_ledgerRow hv hr
  rw [hrow]
  by_cases hlt : r < 2 ^ 63
  · rw [if_pos hlt, stepAttempts, Option.getD_some]
    omega
  · rw [if_neg hlt, stepAttempts, Option.getD_none]
    omega

theorem lossless_ledgerRow {st v : Value} {r : Int} (hv : st.get? "retries" = some v)
    (hr : v.asU64? = some r) : Lossless (ledgerRow st) r ↔ r < 2 ^ 32 - 1 := by
  obtain ⟨hnonneg, hrow⟩ := retries_ledgerRow hv hr
  constructor
  · intro h
    have := h.2.2
    omega
  · intro hlt
    have hret : (ledgerRow st).retries = some r := by rw [hrow, if_pos (by omega)]
    refine ⟨hret, ?_, by omega⟩
    rw [hret, Option.getD_some]
    omega

/-- **Retries.**  For a step of an accepted spec with a `retries` value, which is
some `u64` `r`: `run_step` makes exactly `r + 1` attempts against a script that
always fails, and no conversion on the way loses anything, exactly when `r` is
less than `2 ^ 32 - 1`. -/
theorem retries_attempts {it : Iteration} {spec : Value}
    (hvalid : validateSpec it spec = .ok ()) {sts : List Value}
    (hsteps : (spec.get? "steps").bind Value.asArray? = some sts) {st : Value}
    (hst : st ∈ sts) {v : Value} (hv : st.get? "retries" = some v) :
    ∃ r : Nat, v.asU64? = some (r : Int) ∧
      (MakesAttempts (ledgerRow st) (r + 1) ↔ r < 2 ^ 32 - 1) ∧
      (Lossless (ledgerRow st) r ↔ r < 2 ^ 32 - 1) := by
  obtain ⟨sts', hsteps', hfields⟩ := validateSpec_fields hvalid
  cases hsteps.symm.trans hsteps'
  have hsome := (hfields st hst).2.retries v hv
  cases hr : v.asU64? with
  | none =>
      rw [hr] at hsome
      cases hsome
  | some r =>
      obtain ⟨m, rfl⟩ := Int.eq_ofNat_of_zero_le (retries_ledgerRow hv hr).1
      refine ⟨m, rfl, ?_, ?_⟩
      · rw [makesAttempts_iff]
        have h := stepAttempts_ledgerRow hv hr
        omega
      · rw [lossless_ledgerRow hv hr]
        omega

/-- A step with the given `retries`. -/
def retrySpec (r : Int) : Value :=
  .obj [("steps", .arr
    [ .obj
        [ ("id", .str "a"), ("retries", .num (.int r))
        , ("script_id", .num (.int 1)) ] ])]

/-- The step of that spec. -/
def retryStep (r : Int) : Value :=
  .obj
    [ ("id", .str "a"), ("retries", .num (.int r)), ("script_id", .num (.int 1)) ]

theorem retries_attempts_five :
    ∃ r : Nat, Value.asU64? (.num (.int 5)) = some (r : Int) ∧
      (MakesAttempts (ledgerRow (retryStep 5)) (r + 1) ↔ r < 2 ^ 32 - 1) ∧
      (Lossless (ledgerRow (retryStep 5)) r ↔ r < 2 ^ 32 - 1) := by
  have hvalid : validateSpec inOrder (retrySpec 5) = .ok () := by rfl
  have hsteps : ((retrySpec 5).get? "steps").bind Value.asArray? = some [retryStep 5] := rfl
  exact retries_attempts hvalid hsteps (List.mem_singleton.mpr rfl) rfl

/-- An accepted step whose attempts wrap to none at all. -/
theorem retries_wrap :
    validateSpec inOrder (retrySpec 4294967295) = .ok () ∧
      ¬ MakesAttempts (ledgerRow (retryStep 4294967295)) (4294967295 + 1) ∧
      MakesAttempts (ledgerRow (retryStep 4294967295)) 0 := by
  refine ⟨rfl, ?_, ?_⟩
  · rw [makesAttempts_iff]
    decide
  · rw [makesAttempts_iff]
    decide

/-! ## The children of a map step -/

/-- The step `c` runs under the settings of `p`: the same script, dependencies
and cache opt-in, as many attempts, and no more than one above the `retries` of
`p`. -/
structure RunsAs (p c : FlowStep) : Prop where
  script : c.scriptId = p.scriptId
  deps : c.dependsOn = p.dependsOn
  cache : c.cache = p.cache
  attempts : ∀ n, MakesAttempts c n ↔ MakesAttempts p n
  atMost : ∀ (r n : Nat), p.retries = some (r : Int) → MakesAttempts c n → n ≤ r + 1

/-- The columns of a child that matter to `run_step`. -/
theorem runsAs_iff {p c : FlowStep} (hscript : c.scriptId = p.scriptId)
    (hdeps : c.dependsOn = p.dependsOn) (hcache : c.cache = p.cache)
    (hretries : c.retries = none) : RunsAs p c ↔ stepAttempts p.retries = 2 := by
  have hchild : ∀ n, MakesAttempts c n ↔ n = 2 := by
    intro n
    rw [makesAttempts_iff, hretries]
    rfl
  constructor
  · intro h
    exact ((makesAttempts_iff.mp ((h.attempts 2).mp ((hchild 2).mpr rfl)))).symm
  · intro h
    refine ⟨hscript, hdeps, hcache, ?_, ?_⟩
    · intro n
      rw [hchild, makesAttempts_iff, h]
    · intro r n hr hn
      rw [hchild] at hn
      rw [hr, stepAttempts, Option.getD_some] at h
      omega

/-- A row that a fan-out of `p` created is a child of `p`. -/
theorem created_of_expand {p : FlowStep} {items : List Value} {now : Nat}
    {steps : List FlowStep} {c : FlowStep}
    (hc : c ∈ (Write.expand p.stepId (mapChildren p items) p.cache).apply now steps)
    (hnew : ∀ t ∈ steps, t.stepId ≠ c.stepId) :
    ∃ i item, fresh c = childOf p i item := by
  rw [apply_eq, Rows.update, List.mem_map] at hc
  obtain ⟨r, hr, rfl⟩ := hc
  have hfresh : fresh (if r.stepId = p.stepId then
      Write.row now (.expand p.stepId (mapChildren p items) p.cache) r else r) = fresh r := by
    split_ifs
    · exact fresh_row _ r
    · rfl
  have hid := stepId_of_fresh hfresh
  rcases Rows.mem_foldl_insertNew hr with hr | hr
  · exact absurd hid.symm (hnew r hr)
  · rw [Write.rows, rows_mapChildren] at hr
    obtain ⟨e, _, rfl⟩ := List.mem_map.mp hr
    exact ⟨e.2, e.1, hfresh⟩

/-- **Children.**  Where `expand` fans a map step out over an array, each row its
statement creates, whatever has happened to the row since, runs under the
settings of the map step exactly when these make two attempts. -/
theorem children_inherit {parse : String → Option Value} {input deps : Value}
    {p : FlowStep} {mapRef parent : String} {children : List MapChild} {cache : Bool}
    (hexpand : expand parse input p deps mapRef = .expand parent children cache)
    {now : Nat} {steps : List FlowStep} {c : FlowStep}
    (hc : c ∈ (Write.expand parent children cache).apply now steps)
    (hnew : ∀ t ∈ steps, t.stepId ≠ c.stepId) {c' : FlowStep} (hlater : fresh c' = fresh c) :
    RunsAs p c' ↔ stepAttempts p.retries = 2 := by
  have hargs : ∃ items, parent = p.stepId ∧ children = mapChildren p items ∧
      cache = p.cache := by
    unfold expand at hexpand
    split at hexpand
    · next items _ =>
        split_ifs at hexpand
        cases hexpand
        exact ⟨items, rfl, rfl, rfl⟩
    · cases hexpand
  obtain ⟨items, rfl, rfl, rfl⟩ := hargs
  obtain ⟨i, item, hchild⟩ := created_of_expand hc hnew
  have hrow : fresh c' = childOf p i item := hlater.trans hchild
  refine runsAs_iff ?_ ?_ ?_ ?_
  · simpa [fresh, childOf, childRow] using congrArg FlowStep.scriptId hrow
  · simpa [fresh, childOf, childRow] using congrArg FlowStep.dependsOn hrow
  · simpa [fresh, childOf, childRow] using congrArg FlowStep.cache hrow
  · simpa [fresh, childOf, childRow] using congrArg FlowStep.retries hrow

/-- A map step that must never run an element twice, over one element. -/
def onceSpec : Value :=
  .obj [("steps", .arr
    [ .obj
        [ ("id", .str "b"), ("map", .str "flow_input.xs")
        , ("retries", .num (.int 0)), ("script_id", .num (.int 2)) ] ])]

/-- The row of that map step. -/
def onceStep : FlowStep :=
  ledgerRow (.obj
    [ ("id", .str "b"), ("map", .str "flow_input.xs"), ("retries", .num (.int 0))
    , ("script_id", .num (.int 2)) ])

/-- Its only child. -/
def onceChild : FlowStep := childOf onceStep 0 (.num (.int 1))

/-- Its flow input. -/
def onceInput : Value := .obj [("xs", .arr [.num (.int 1)])]

/-- The fan-out, whatever the number of retries. -/
theorem expand_once (r : Int) :
    expand (fun _ => none) onceInput { onceStep with retries := some r } (.obj [])
        "flow_input.xs" =
      .expand "b" (mapChildren onceStep [.num (.int 1)]) false := by
  rfl

/-- A map step with the default number of retries: its child runs as it does. -/
theorem children_inherit_default :
    RunsAs { onceStep with retries := some 1 } onceChild ↔ stepAttempts (some 1) = 2 := by
  have hmem : onceChild ∈ (Write.expand "b" (mapChildren onceStep [.num (.int 1)]) false).apply
      0 [onceStep] := by
    exact List.mem_cons_of_mem _ (List.mem_cons_self : onceChild ∈ [onceChild])
  exact children_inherit (expand_once 1) hmem (by decide) rfl

/-- The step asks for no retry, and its child makes two attempts. -/
theorem children_retried :
    validateSpec inOrder onceSpec = .ok () ∧
      expand (fun _ => none) onceInput onceStep (.obj []) "flow_input.xs" =
        .expand "b" (mapChildren onceStep [.num (.int 1)]) false ∧
      onceChild ∈ (Write.expand "b" (mapChildren onceStep [.num (.int 1)]) false).apply 0
        (ledgerRows onceSpec) ∧
      MakesAttempts onceStep 1 ∧ MakesAttempts onceChild 2 ∧ ¬ RunsAs onceStep onceChild := by
  refine ⟨rfl, expand_once 0, ?_, ?_, ?_, ?_⟩
  · exact List.mem_cons_of_mem _ (List.mem_cons_self : onceChild ∈ [onceChild])
  · rw [makesAttempts_iff]
    decide
  · rw [makesAttempts_iff]
    decide
  · rw [runsAs_iff (p := onceStep) (c := onceChild) rfl rfl rfl rfl]
    decide

end Dokan.Ports.FlowAttempts
