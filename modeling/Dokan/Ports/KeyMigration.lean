import Dokan.Verified.FirstKeeps
import Dokan.Ports.FlowRow
import Dokan.Ports.TableRows

/-!
# The unique keys of a database that has duplicates

`migrations.sql` runs at every boot.  Its section on `idempotency_key` clears the
duplicates an earlier best-effort check let through, and then builds the partial
unique indexes of `runs` and of `flow_runs`.  The script is one transaction, and an
`ALTER TABLE` of each table stands before that section, so no other statement
comes between the two.

The machine has two kinds of executors: those that boot with the script and name the
index in `ON CONFLICT`, and earlier ones, whose inserts do not.  Their other updates
are those of `RunTable`.

## Main results

* `keys_settled` — whatever is in the database, a boot goes through; it leaves each
  key to the first row that has it, and from then on the key is that row's.
-/

namespace Dokan.Ports.KeyMigration

open Dokan.Verified
open Dokan.Verified.FirstKeeps
open Dokan.Ports.RunRow
open Dokan.Ports.FlowRow
open Dokan.Ports.RunTable

/-! ## The two tables -/

/-- The columns of `runs` that `uq_runs_idempotency` is about. -/
def runColumns : Columns Row RunId String where
  id := Row.id
  key row := row.run.idempotencyKey
  clear row := { row with run := { row.run with idempotencyKey := none } }
  id_clear _ := rfl
  key_clear _ := rfl
  clear_clear _ := rfl

/-- A row of `flow_runs`, with its key. -/
structure FlowRunRow where
  id : Nat
  idempotencyKey : Option String
  run : FlowRun

/-- The columns of `flow_runs` that `uq_flow_runs_idempotency` is about. -/
def flowColumns : Columns FlowRunRow Nat String where
  id := FlowRunRow.id
  key := FlowRunRow.idempotencyKey
  clear row := { row with idempotencyKey := none }
  id_clear _ := rfl
  key_clear _ := rfl
  clear_clear _ := rfl

/-- A row is added, whatever the keys of the others. -/
def append (t : Table) (run : Run) : Table :=
  { t with
    runs := t.runs ++ [{ id := t.nextRun, run, retried := none }]
    nextRun := t.nextRun + 1 }

/-- `flow_runs`. -/
structure FlowTable where
  rows : List FlowRunRow
  nextFlowRun : Nat

/-- A row has the idempotency key. -/
def FlowTable.taken (t : FlowTable) (key : Option String) : Bool :=
  key.isSome && t.rows.any fun row => row.idempotencyKey = key

/-- A row is added, whatever the keys of the others. -/
def FlowTable.append (t : FlowTable) (key : Option String) (run : FlowRun) : FlowTable where
  rows := t.rows ++ [{ id := t.nextFlowRun, idempotencyKey := key, run }]
  nextFlowRun := t.nextFlowRun + 1

/-- The updates of `flow_runs`. -/
inductive FlowStatement
  | claim (f : Nat)
  | touch (f : Nat)
  | finish (f : Nat) (status : FlowStatus)
  /-- `reap_orphan_flow_runs`, on every row -/
  | reap (lease : Nat)

/-- What a statement does to the row of `id`. -/
def FlowStatement.apply (now id : Nat) (run : FlowRun) : FlowStatement → FlowRun
  | .claim f => if f = id ∧ run.status = .pending then claimFlowRun now run else run
  | .touch f => if f = id then touchFlowRun now run else run
  | .finish f status => if f = id then finishFlowRun now status run else run
  | .reap lease => reapOrphanFlowRun now lease run

/-! ## The machine -/

/-- The database, and which of the two indexes it has. -/
structure Database where
  runs : Table
  uqRuns : Bool
  flowRuns : FlowTable
  uqFlowRuns : Bool

/-- Before anything was inserted, and before the indexes. -/
def Database.empty : Database where
  runs := .empty
  uqRuns := false
  flowRuns := { rows := [], nextFlowRun := 0 }
  uqFlowRuns := false

/-- The section of `migrations.sql` on `idempotency_key`; if an index cannot be built,
nothing is done. -/
def migrate (s : Database) : Option Database := do
  let runs ← runColumns.build s.uqRuns s.runs.runs
  let rows ← flowColumns.build s.uqFlowRuns s.flowRuns.rows
  return { s with
    runs := { s.runs with runs }, uqRuns := true
    flowRuns := { s.flowRuns with rows }, uqFlowRuns := true }

/-- The statement has an `ON CONFLICT (idempotency_key)`, which is an error while there
is no such index. -/
def namesIndex : RunTable.Label → Bool
  | .insert n => n.idempotencyKey.isSome
  | .refuse _ _ => true
  | .wait _ | .write _ | .appendLog _ _ | .gcOld _ | .gcLogs _ => false

inductive Label
  /-- `Db::migrate` of an executor that starts -/
  | boot
  /-- an insert of an earlier executor, refused by an index it does not know -/
  | earlier (run : Run)
  | earlierFlow (key : Option String) (run : FlowRun)
  | table (a : RunTable.Label)
  /-- the rows that `delete_script` takes -/
  | deleteScript (id : Int)
  /-- `insert_flow_run`, and with a key `insert_flow_run_idempotent` -/
  | insertFlowRun (key : Option String) (input : Option Json.Value)
  | writeFlow (w : FlowStatement)

def step (s : Database) : Label → Option Database
  | .boot => migrate s
  | .earlier run =>
      if s.uqRuns && s.runs.taken run.idempotencyKey then none
      else some { s with runs := append s.runs run }
  | .earlierFlow key run =>
      if s.uqFlowRuns && s.flowRuns.taken key then none
      else some { s with flowRuns := s.flowRuns.append key run }
  | .table a =>
      if namesIndex a && !s.uqRuns then none
      else (RunTable.step s.runs a).map fun runs => { s with runs }
  | .deleteScript id =>
      some { s with runs := { s.runs with
        runs := s.runs.runs.filter fun row => row.run.scriptId ≠ id
        logs := s.runs.logs.filter fun line =>
          line.runId ∉ (s.runs.runs.filter fun row => row.run.scriptId = id).map Row.id } }
  | .insertFlowRun key input =>
      if key.isSome && !s.uqFlowRuns then none
      else if s.flowRuns.taken key then some s
      else some { s with flowRuns := s.flowRuns.append key (insertFlowRun input) }
  | .writeFlow w =>
      some { s with flowRuns := { s.flowRuns with
        rows := s.flowRuns.rows.map fun row =>
          { row with run := w.apply s.runs.now row.id row.run } } }

/-! ## What the tables keep -/

/-- Ids are primary keys given out by a sequence, and the indexes hold. -/
structure DatabaseOk (s : Database) : Prop where
  runs : Ok runColumns s.uqRuns s.runs.nextRun s.runs.runs
  flowRuns : Ok flowColumns s.uqFlowRuns s.flowRuns.nextFlowRun s.flowRuns.rows

/-- A statement on `runs`. -/
abbrev RunsGrown (indexed : Bool) (t t' : Table) : Prop :=
  Grown runColumns indexed t.nextRun t.runs t'.nextRun t'.runs

/-- A statement on `flow_runs`, which deletes no row. -/
structure FlowGrown (indexed : Bool) (t t' : FlowTable) : Prop where
  grown : Grown flowColumns indexed t.nextFlowRun t.rows t'.nextFlowRun t'.rows
  ids : ∀ row ∈ t.rows, row.id ∈ t'.rows.map FlowRunRow.id

section Growth

variable {indexed : Bool} {t t' : Table} {f f' : FlowTable}

theorem RunsGrown.same (runs : t'.runs = t.runs) (next : t'.nextRun = t.nextRun) :
    RunsGrown indexed t t' :=
  Grown.same (congrArg _ runs) next

theorem FlowGrown.refl : FlowGrown indexed f f :=
  ⟨Grown.same rfl rfl, fun _ hrow => List.mem_map_of_mem hrow⟩

theorem RunsGrown.append (run : Run)
    (hfree : indexed = true → t.taken run.idempotencyKey = false) :
    RunsGrown indexed t (append t run) :=
  .added { id := t.nextRun, run, retried := none } rfl
    (fun hx => Columns.free_of_not_taken run.idempotencyKey (hfree hx)) rfl (Nat.lt_succ_self _)

theorem RunsGrown.insert (run : Run) : RunsGrown indexed t (t.insert run) := by
  unfold Table.insert
  split_ifs with htaken
  · exact .same rfl rfl
  · exact .append run fun _ => Bool.eq_false_iff.mpr htaken

theorem FlowGrown.append (key : Option String) (run : FlowRun)
    (hfree : indexed = true → f.taken key = false) : FlowGrown indexed f (f.append key run) := by
  constructor
  · exact .added { id := f.nextFlowRun, idempotencyKey := key, run } rfl
      (fun hx => Columns.free_of_not_taken key (hfree hx)) rfl (Nat.lt_succ_self _)
  · intro row hrow
    exact List.mem_map_of_mem (List.mem_append_left _ hrow)

/-- **Every statement on `runs`** keeps ids and keys, or adds a row. -/
theorem runsGrown_step {a : RunTable.Label} (h : RunTable.step t a = some t') :
    RunsGrown indexed t t' := by
  cases a with
  | insert n | refuse n reason =>
      cases h
      exact .insert _
  | write w =>
      cases h
      refine Grown.same ?_ rfl
      rw [List.map_map]
      refine List.map_congr_left fun row _ => Prod.ext rfl ?_
      exact congrArg NewRun.idempotencyKey (TableRows.toNewRun_write t.now w row)
  | gcOld age =>
      cases h
      exact .kept (List.filter_sublist.map _) rfl
  | appendLog r seq =>
      simp only [RunTable.step] at h
      split_ifs at h
      cases h
      exact .same rfl rfl
  | wait d | gcLogs age =>
      cases h
      exact .same rfl rfl

end Growth

section Steps

variable {s s' t : Database} {a : Label} {l : List Label}

/-- What a boot does to a database. -/
theorem migrate_eq (h : DatabaseOk s) : migrate s = some { s with
    runs := { s.runs with runs := runColumns.keepFirst s.runs.runs }, uqRuns := true
    flowRuns := { s.flowRuns with rows := flowColumns.keepFirst s.flowRuns.rows }
    uqFlowRuns := true } := by
  rw [migrate, h.runs.build.1, h.flowRuns.build.1]
  rfl

/-- With both indexes there, a boot does nothing. -/
theorem migrate_of_indexed (h : DatabaseOk s) (hruns : s.uqRuns = true)
    (hflow : s.uqFlowRuns = true) : migrate s = some s := by
  rw [migrate_eq h, Columns.keepFirst_of_once (h.runs.once hruns),
    Columns.keepFirst_of_once (h.flowRuns.once hflow)]
  cases s
  cases hruns
  cases hflow
  rfl

/-- What a step does to the tables, if it is not a boot. -/
theorem step_grown (h : step s a = some s') (ha : a ≠ .boot) :
    RunsGrown s.uqRuns s.runs s'.runs ∧ FlowGrown s.uqFlowRuns s.flowRuns s'.flowRuns ∧
      s'.uqRuns = s.uqRuns ∧ s'.uqFlowRuns = s.uqFlowRuns := by
  cases a with
  | boot => exact absurd rfl ha
  | earlier run =>
      obtain ⟨hfree, hs⟩ := Option.ite_none_left_eq_some.mp h
      cases hs
      refine ⟨.append run fun hx => ?_, .refl, rfl, rfl⟩
      simpa [hx] using hfree
  | earlierFlow key run =>
      obtain ⟨hfree, hs⟩ := Option.ite_none_left_eq_some.mp h
      cases hs
      refine ⟨.same rfl rfl, .append key run fun hx => ?_, rfl, rfl⟩
      simpa [hx] using hfree
  | table b =>
      obtain ⟨-, hs⟩ := Option.ite_none_left_eq_some.mp h
      obtain ⟨runs, hruns, rfl⟩ := Option.map_eq_some_iff.mp hs
      exact ⟨runsGrown_step hruns, .refl, rfl, rfl⟩
  | deleteScript id =>
      cases h
      exact ⟨.kept (List.filter_sublist.map _) rfl, .refl, rfl, rfl⟩
  | insertFlowRun key input =>
      obtain ⟨-, hs⟩ := Option.ite_none_left_eq_some.mp h
      split_ifs at hs with htaken
      · cases hs
        exact ⟨.same rfl rfl, .refl, rfl, rfl⟩
      · cases hs
        refine ⟨.same rfl rfl, .append key _ fun _ => ?_, rfl, rfl⟩
        exact Bool.eq_false_iff.mpr htaken
  | writeFlow w =>
      cases h
      refine ⟨.same rfl rfl, ⟨Grown.same List.map_map rfl, fun row hrow => ?_⟩, rfl, rfl⟩
      simp only [List.map_map]
      exact List.mem_map_of_mem hrow

/-- Every step keeps the tables in order. -/
theorem DatabaseOk.step (hI : DatabaseOk s) (h : KeyMigration.step s a = some s') :
    DatabaseOk s' := by
  by_cases ha : a = .boot
  · subst ha
    cases (migrate_eq hI).symm.trans h
    exact ⟨hI.runs.build.2, hI.flowRuns.build.2⟩
  · obtain ⟨hruns, hflow, huq, huqFlow⟩ := step_grown h ha
    constructor
    · rw [huq]
      exact hI.runs.grown hruns
    · rw [huqFlow]
      exact hI.flowRuns.grown hflow.grown

theorem databaseOk_run (hI : DatabaseOk s) (h : Machine.run KeyMigration.step s l = some t) :
    DatabaseOk t :=
  Machine.inv_run (C := fun _ _ => True) (fun _ _ _ hI _ hstep => hI.step hstep) hI
    (Machine.along_of_forall fun _ _ => trivial) h

end Steps

/-! ## From a boot on -/

/-- The boot that leads from `t` to `t'` takes no more than the keys of later rows. -/
structure Migrated (t t' : Database) : Prop where
  runs : List.Forall₂ (runColumns.KeptFirst t.runs.runs) t.runs.runs t'.runs.runs
  flowRuns : List.Forall₂ (flowColumns.KeptFirst t.flowRuns.rows) t.flowRuns.rows t'.flowRuns.rows

/-- In `u` the keys of `t` are those of its first rows, and they are unique. -/
structure Settled (t u : Database) : Prop where
  runsOnce : runColumns.Once u.runs.runs
  flowRunsOnce : flowColumns.Once u.flowRuns.rows
  /-- a key finds the run that had it first, while that is in the table -/
  runs : ∀ row ∈ t.runs.runs, ∀ k, row.run.idempotencyKey = some k →
    (∀ row' ∈ t.runs.runs, row'.run.idempotencyKey = some k → row.id ≤ row'.id) →
    row.id ∈ u.runs.runs.map Row.id →
    runColumns.lookup u.runs.runs k = some row.id ∧ runColumns.latest u.runs.runs k = some row.id
  /-- a key finds the flow run that had it first -/
  flowRuns : ∀ row ∈ t.flowRuns.rows, ∀ k, row.idempotencyKey = some k →
    (∀ row' ∈ t.flowRuns.rows, row'.idempotencyKey = some k → row.id ≤ row'.id) →
    flowColumns.lookup u.flowRuns.rows k = some row.id ∧
      flowColumns.latest u.flowRuns.rows k = some row.id
  /-- the next boot finds nothing to do -/
  boot : migrate u = some u

/-- What a key was given to, from a boot on. -/
structure Held (t u : Database) : Prop where
  ok : DatabaseOk u
  uqRuns : u.uqRuns = true
  uqFlowRuns : u.uqFlowRuns = true
  runs : ∀ row ∈ t.runs.runs, ∀ k, row.run.idempotencyKey = some k →
    Marked runColumns u.runs.nextRun u.runs.runs row.id k
  flowRuns : ∀ row ∈ t.flowRuns.rows, ∀ k, row.idempotencyKey = some k →
    Marked flowColumns u.flowRuns.nextFlowRun u.flowRuns.rows row.id k ∧
      row.id ∈ u.flowRuns.rows.map FlowRunRow.id

section Boot

variable {s t u u' : Database} {a : Label} {l : List Label}

theorem held_of_indexed (h : DatabaseOk t) (hruns : t.uqRuns = true)
    (hflow : t.uqFlowRuns = true) : Held t t where
  ok := h
  uqRuns := hruns
  uqFlowRuns := hflow
  runs _ hrow _ hk := h.runs.marked hrow hk
  flowRuns _ hrow _ hk := ⟨h.flowRuns.marked hrow hk, List.mem_map_of_mem hrow⟩

theorem Held.step (hI : Held t u) (h : KeyMigration.step u a = some u') : Held t u' := by
  by_cases ha : a = .boot
  · subst ha
    cases (migrate_of_indexed hI.ok hI.uqRuns hI.uqFlowRuns).symm.trans h
    exact hI
  · obtain ⟨hruns, hflow, huq, huqFlow⟩ := step_grown h ha
    refine ⟨hI.ok.step h, huq ▸ hI.uqRuns, huqFlow ▸ hI.uqFlowRuns, fun row hrow k hk => ?_,
      fun row hrow k hk => ?_⟩
    · exact (hI.runs row hrow k hk).grown hruns
    · obtain ⟨hmarked, hid⟩ := hI.flowRuns row hrow k hk
      obtain ⟨row', hrow', hid'⟩ := List.mem_map.mp hid
      exact ⟨hmarked.grown hflow.grown, hid' ▸ hflow.ids row' hrow'⟩

theorem held_run (hI : Held t u) (h : Machine.run KeyMigration.step u l = some u') : Held t u' :=
  Machine.inv_run (C := fun _ _ => True) (fun _ _ _ hI _ hstep => hI.step hstep) hI
    (Machine.along_of_forall fun _ _ => trivial) h

/-- **Unique keys.**  Whatever earlier executors have left in the database, a boot goes
through, and takes no more than the key of every row that another of a lesser id shares it
with.  In every run from then on, whoever inserts, the keys are unique, every further boot
changes nothing, and a key is that of the row that had it first: of a flow run for good,
of a run as long as it is there. -/
theorem keys_settled (hs : DatabaseOk s) (hrun : Machine.run KeyMigration.step s l = some t) :
    ∃ t', migrate t = some t' ∧ Migrated t t' ∧
      ∀ l' u, Machine.run KeyMigration.step t' l' = some u → Settled t u := by
  have ht := databaseOk_run hs hrun
  refine ⟨_, migrate_eq ht, ⟨Columns.keepFirst_spec, Columns.keepFirst_spec⟩, ?_⟩
  intro l' u hrun'
  have hheld := held_run (held_of_indexed ⟨ht.runs.build.2, ht.flowRuns.build.2⟩ rfl rfl) hrun'
  have hruns := hheld.ok.runs.once hheld.uqRuns
  have hflow := hheld.ok.flowRuns.once hheld.uqFlowRuns
  refine ⟨hruns, hflow, ?_, ?_, migrate_of_indexed hheld.ok hheld.uqRuns hheld.uqFlowRuns⟩
  · intro row hrow k hk hfirst hid
    have hmarked := hheld.runs row (Columns.mem_keepFirst hrow hk hfirst) k hk
    obtain ⟨row', hrow', hid'⟩ := List.mem_map.mp hid
    exact hid' ▸ Columns.lookups_eq hruns hrow' (hmarked.key row' hrow' hid')
  · intro row hrow k hk hfirst
    obtain ⟨hmarked, hid⟩ := hheld.flowRuns row (Columns.mem_keepFirst hrow hk hfirst) k hk
    obtain ⟨row', hrow', hid'⟩ := List.mem_map.mp hid
    exact hid' ▸ Columns.lookups_eq hflow hrow' (hmarked.key row' hrow' hid')

/-- A delivery that arrived twice at once, before the indexes. -/
def deliveredTwice : List Label :=
  let run := insertRunWithBlobs 0 { plainRun with idempotencyKey := some "delivery" }
  [ .earlier run, .earlier run
  , .earlierFlow (some "delivery") (insertFlowRun none)
  , .earlierFlow (some "delivery") (insertFlowRun none) ]

theorem databaseOk_empty : DatabaseOk .empty := by
  constructor
  · exact ⟨List.nodup_nil, by rintro row ⟨⟩, by rintro ⟨⟩⟩
  · exact ⟨List.nodup_nil, by rintro row ⟨⟩, by rintro ⟨⟩⟩

/-- `keys_settled` for that delivery, when it comes a third time after the boot. -/
theorem keys_settled_deliveredTwice : ∃ t t' u,
    Machine.run KeyMigration.step .empty deliveredTwice = some t ∧ migrate t = some t' ∧
      Machine.run KeyMigration.step t'
        [.table (.insert { plainRun with idempotencyKey := some "delivery" })] = some u ∧
      ¬ runColumns.Once t.runs.runs ∧ Settled t u ∧
      runColumns.lookup u.runs.runs "delivery" = some 0 := by
  obtain ⟨t', ht', -, hsettled⟩ :=
    keys_settled (l := deliveredTwice) databaseOk_empty rfl
  cases ht'
  have h := hsettled [.table (.insert { plainRun with idempotencyKey := some "delivery" })] _ rfl
  refine ⟨_, _, _, rfl, rfl, rfl, by decide, h, ?_⟩
  refine (h.runs _ List.mem_cons_self "delivery" rfl (fun _ _ _ => Nat.zero_le _) ?_).1
  decide

end Boot

end Dokan.Ports.KeyMigration
