import Dokan.Ports.FlowOrder

/-!
# What the ledger keeps of a spec

The spec stays untyped JSON from the validator to the two writers of the ledger,
each of which reads every field again and falls back on a default where the
value is not what it looks for.  `Carries` says that a row holds exactly the
fields of a step of the spec.

## Main results

* `ledger_carries` — the two writers agree, and a row carries its step exactly
  when `depends_on` is an array of strings and `retries` fits the column.
-/

namespace Dokan.Ports.FlowFidelity

open Dokan.Verified
open Dokan.Verified.Json
open Dokan.Ports.FlowRow
open Dokan.Ports.FlowSpec
open Dokan.Ports.FlowOrder

/-! ## The other writer -/

/-- The row `insert_flow_run_idempotent` writes for one step of the spec. -/
def idempotentRow (st : Value) : FlowStep :=
  { stepId := ((st.get? "id").bind Value.asStr?).getD ""
    scriptId := ((st.get? "script_id").bind Value.asI64?).getD 0
    input := (st.get? "input").getD (.object [])
    dependsOn := dependsOn st
    status := .pending
    output := none
    whenCond := st.get? "when"
    mapRef := (st.get? "map").bind Value.asStr?
    compensate := (st.get? "compensate").bind Value.asI64?
    compensated := false
    retries := (st.get? "retries").bind Value.asI64?
    finishedAt := none
    cache := ((st.get? "cache").bind Value.asBool?).getD false
    runId := none }

/-- The rows `insert_flow_run_idempotent` writes: none for a flow run it
recalls. -/
def idempotentRows (recalled : Bool) (spec : Value) : List FlowStep :=
  if recalled then []
  else (((spec.get? "steps").bind Value.asArray?).getD []).map idempotentRow

/-! ## Carrying a step -/

/-- The row holds the fields of the step as the spec gives them; `input`,
`depends_on` and `cache` have a value for an absent field. -/
structure Carries (st : Value) (row : FlowStep) : Prop where
  id : st.get? "id" = some (.str row.stepId)
  script : st.get? "script_id" = some (.num (.int row.scriptId))
  input : st.get? "input" = some row.input ∨
    st.get? "input" = none ∧ row.input = .object []
  dependsOn : st.get? "depends_on" = some (.arr (row.dependsOn.map .str)) ∨
    st.get? "depends_on" = none ∧ row.dependsOn = []
  when : st.get? "when" = row.whenCond
  map : st.get? "map" = row.mapRef.map .str
  compensate : st.get? "compensate" = row.compensate.map fun i => .num (.int i)
  retries : st.get? "retries" = row.retries.map fun i => .num (.int i)
  cache : st.get? "cache" = some (.bool row.cache) ∨
    st.get? "cache" = none ∧ row.cache = false

/-- The two fields the validator lets through although no row can hold them: a
`depends_on` that is no array of strings, and a `retries` beyond the column. -/
structure Storable (st : Value) : Prop where
  dependsOn : ∀ v, st.get? "depends_on" = some v → ∃ ds : List String, v = .arr (ds.map .str)
  retries : ∀ r : Int, st.get? "retries" = some (.num (.int r)) → r < 2 ^ 63

variable {st : Value}

/-- A list of values is given back by its strings when it holds nothing else. -/
theorem filterMap_asStr {a : List Value} :
    (a.filterMap Value.asStr?).map .str = a ↔ ∃ ds : List String, a = ds.map .str := by
  constructor
  · intro h
    exact ⟨_, h.symm⟩
  · rintro ⟨ds, rfl⟩
    have hback : (ds.map Value.str).filterMap Value.asStr? = ds := by
      rw [List.filterMap_map]
      exact List.filterMap_some
    rw [hback]

/-- The dependencies of the row. -/
theorem dependsOn_iff :
    (st.get? "depends_on" = some (.arr ((dependsOn st).map .str)) ∨
      st.get? "depends_on" = none ∧ dependsOn st = []) ↔
    ∀ v, st.get? "depends_on" = some v → ∃ ds : List String, v = .arr (ds.map .str) := by
  unfold dependsOn
  cases hd : st.get? "depends_on" with
  | none => exact iff_of_true (.inr ⟨rfl, rfl⟩) fun v hv => (by cases hv)
  | some v =>
      cases v with
      | arr a =>
          simp only [Option.bind_some, Value.asArray?, Option.some.injEq, Value.arr.injEq,
            reduceCtorEq, false_and, or_false, forall_eq']
          rw [eq_comm]
          exact filterMap_asStr
      | _ => simp [Value.asArray?]

/-- A field that was checked as the type the writer reads it as. -/
theorem checked {α : Type} {o : Option Value} {read : Value → Option α} {inj : α → Value}
    (hread : ∀ v a, read v = some a → v = inj a)
    (hok : ∀ v, o = some v → (read v).isNone = false) : o = (o.bind read).map inj := by
  cases o with
  | none => rfl
  | some v =>
      have hsome := hok v rfl
      cases hv : read v with
      | none =>
          rw [hv] at hsome
          cases hsome
      | some a => rw [Option.bind_some, hv, Option.map_some, ← hread v a hv]

/-- The retries of the row. -/
theorem retries_iff (h : FieldsOk st) :
    st.get? "retries" = ((st.get? "retries").bind Value.asI64?).map (fun i => .num (.int i)) ↔
      ∀ r : Int, st.get? "retries" = some (.num (.int r)) → r < 2 ^ 63 := by
  cases hr : st.get? "retries" with
  | none => exact iff_of_true rfl fun r hr => (by cases hr)
  | some v =>
      have hsome := h.retries v hr
      cases hu : v.asU64? with
      | none =>
          rw [hu] at hsome
          cases hsome
      | some r =>
          obtain ⟨rfl, hnonneg, _⟩ := Value.asU64?_eq_some.mp hu
          simp only [Option.bind_some, Value.asI64?, Option.some.injEq, Value.num.injEq,
            Number.int.injEq, forall_eq']
          by_cases hlt : r < 2 ^ 63
          · rw [if_pos ⟨by omega, hlt⟩]
            exact iff_of_true rfl hlt
          · rw [if_neg (fun h => hlt h.2)]
            exact iff_of_false (fun h => by cases h) hlt

/-- **One row.**  The row of an accepted step carries it exactly when the step can
be stored. -/
theorem carries_iff (hid : ∃ id, (st.get? "id").bind Value.asStr? = some id)
    (h : FieldsOk st) : Carries st (ledgerRow st) ↔ Storable st := by
  constructor
  · intro hc
    exact ⟨dependsOn_iff.mp hc.dependsOn, (retries_iff h).mp hc.retries⟩
  · intro hs
    refine
      { id := ?_, script := ?_, input := ?_, dependsOn := dependsOn_iff.mpr hs.dependsOn
        when := rfl
        map := checked (fun v a => Value.asStr?_eq_some.mp) h.map
        compensate := checked (fun v a hv => (Value.asI64?_eq_some.mp hv).1) h.compensate
        retries := (retries_iff h).mpr hs.retries
        cache := ?_ }
    · obtain ⟨id, hid⟩ := hid
      obtain ⟨v, hv, hstr⟩ := Option.bind_eq_some_iff.mp hid
      rw [hv, Value.asStr?_eq_some.mp hstr, ledgerRow, hid]
      rfl
    · have hsome := h.script
      cases hscript : (st.get? "script_id").bind Value.asI64? with
      | none =>
          rw [hscript] at hsome
          cases hsome
      | some i =>
          obtain ⟨v, hv, hint⟩ := Option.bind_eq_some_iff.mp hscript
          rw [hv, (Value.asI64?_eq_some.mp hint).1, ledgerRow, hscript]
          rfl
    · cases hin : st.get? "input" with
      | none => exact .inr ⟨rfl, by rw [ledgerRow, hin, Option.getD_none]⟩
      | some v => exact .inl (by rw [ledgerRow, hin, Option.getD_some])
    · cases hcache : st.get? "cache" with
      | none => exact .inr ⟨rfl, by rw [ledgerRow, hcache]; rfl⟩
      | some v =>
          have hsome := h.cache v hcache
          cases hb : v.asBool? with
          | none =>
              rw [hb] at hsome
              cases hsome
          | some b =>
              refine .inl ?_
              rw [ledgerRow, hcache, Option.bind_some, hb, Value.asBool?_eq_some.mp hb]
              rfl

/-- **Fidelity.**  For every accepted spec the two writers write the same rows, one
for each step in order, whose dependencies all name steps; and the row of a step
carries exactly its fields if and only if its `depends_on` is absent or an array
of strings and its `retries` is absent or less than `2 ^ 63`. -/
theorem ledger_carries {it : Iteration} {spec : Value}
    (hvalid : validateSpec it spec = .ok ()) :
    ∃ sts, (spec.get? "steps").bind Value.asArray? = some sts ∧
      ledgerRows spec = sts.map ledgerRow ∧
      idempotentRows false spec = ledgerRows spec ∧
      (∀ s ∈ ledgerRows spec, ∀ d ∈ s.dependsOn, ∃ t ∈ ledgerRows spec, t.stepId = d) ∧
      ∀ st ∈ sts, Carries st (ledgerRow st) ↔ Storable st := by
  obtain ⟨sts, hsteps, hfields⟩ := validateSpec_fields hvalid
  refine ⟨sts, hsteps, ?_, rfl, (validateSpec_ledger hvalid).known, ?_⟩
  · rw [ledgerRows, hsteps, Option.getD_some]
  · intro st hst
    obtain ⟨hid, hok⟩ := hfields st hst
    exact carries_iff hid hok

theorem ledger_carries_fan :
    ∃ sts, (twoSteps.get? "steps").bind Value.asArray? = some sts ∧
      ledgerRows twoSteps = sts.map ledgerRow ∧
      idempotentRows false twoSteps = ledgerRows twoSteps ∧
      (∀ s ∈ ledgerRows twoSteps, ∀ d ∈ s.dependsOn,
        ∃ t ∈ ledgerRows twoSteps, t.stepId = d) ∧
      ∀ st ∈ sts, Carries st (ledgerRow st) ↔ Storable st :=
  ledger_carries (show validateSpec inOrder twoSteps = .ok () from rfl)

/-- A step that names its dependency without the brackets of an array. -/
def looseStep : Value :=
  .obj
    [ ("depends_on", .str "a"), ("id", .str "b"), ("script_id", .num (.int 2)) ]

/-- Step `a`, and that step. -/
def looseSpec : Value :=
  .obj [("steps", .arr
    [.obj [("id", .str "a"), ("script_id", .num (.int 1))], looseStep])]

/-- The spec is accepted and the dependency is dropped. -/
theorem dependency_dropped :
    validateSpec inOrder looseSpec = .ok () ∧
      looseStep.get? "depends_on" = some (.str "a") ∧
      (ledgerRow looseStep).dependsOn = [] ∧ ¬ Carries looseStep (ledgerRow looseStep) := by
  refine ⟨rfl, rfl, rfl, fun h => ?_⟩
  rcases h.dependsOn with h | ⟨h, _⟩
  · cases h
  · cases h

end Dokan.Ports.FlowFidelity
