import Dokan.Verified.Dag
import Dokan.Ports.FlowRow

/-!
# Flow specs: validation and the ledger

`validateSpec` is `validate_spec`, with the texts of its errors; `ledgerRows`
is the ledger `insert_flow_run` writes for a spec.  The edges are a `HashMap`
in the source and a list of entries here: `insert` of a fresh key appends, and
the two loops over the map visit its entries in an unknown order, a parameter
(`Iteration`) whose proof field says it is a permutation.

## Main results

* `validateSpec_fields` — every step of an accepted spec has passed every check
  on its fields.
* `hasCycle_some` — the cycle search terminates within its fuel.
* `validateSpec_ledger` — an accepted spec has a well-formed ledger: distinct
  ids without `#`, known dependencies, a topological order.
-/

namespace Dokan.Ports.FlowSpec

open Dokan.Verified
open Dokan.Verified.Json
open Dokan.Ports.FlowRow

/-! ## Reading a step of the spec -/

/-- `depends_on`: the strings of the array, none if it is no array. -/
def dependsOn (st : Value) : List String :=
  match (st.get? "depends_on").bind Value.asArray? with
  | some a => a.filterMap Value.asStr?
  | none => []

/-- The `op` of a `when` gate, `truthy` when absent. -/
def whenOp (w : Value) : String :=
  ((w.get? "op").bind Value.asStr?).getD "truthy"

/-- The ops a `when` gate may use. -/
def whenOps : List String := ["eq", "ne", "contains", "truthy", "falsy"]

/-- The checks `validate_spec` makes on one step beyond its id, in order. -/
def checkFields (id : String) (st : Value) : Except String Unit := do
  if ((st.get? "script_id").bind Value.asI64?).isNone then
    throw ("step " ++ id ++ " missing script_id")
  if let some c := st.get? "compensate" then
    if c.asI64?.isNone then
      throw ("step " ++ id ++ " compensate must be a script_id (int)")
  if let some m := st.get? "map" then
    if m.asStr?.isNone then throw ("step " ++ id ++ " map must be a string ref")
  if let some r := st.get? "retries" then
    if r.asU64?.isNone then
      throw ("step " ++ id ++ " retries must be a non-negative int")
  if let some c := st.get? "cache" then
    if c.asBool?.isNone then throw ("step " ++ id ++ " cache must be a boolean")
  if let some w := st.get? "when" then
    if ((w.get? "ref").bind Value.asStr?).isNone then
      throw ("step " ++ id ++ " when needs a string ref")
    if !whenOps.contains (whenOp w) then
      throw ("step " ++ id ++ " when.op invalid: " ++ whenOp w)

/-! ## `validate_spec` -/

/-- The entries of the `HashMap` from a step id to its dependencies. -/
abbrev Edges := List (String × List String)

/-- The loop over the steps: ids and edges seen so far, in spec order. -/
def checkSteps : List Value → Edges → Except String Edges
  | [], edges => .ok edges
  | st :: sts, edges =>
      match (st.get? "id").bind Value.asStr? with
      | none => .error "each step needs a string id"
      | some id =>
          if (edges.map Prod.fst).contains id then .error ("duplicate step id: " ++ id)
          else if id.toList.contains '#' then
            .error ("step id may not contain '#': " ++ id)
          else
            match checkFields id st with
            | .error e => .error e
            | .ok _ => checkSteps sts (edges ++ [(id, dependsOn st)])

/-- The order in which iterating over a `HashMap` visits its entries. -/
structure Iteration where
  order : Edges → Edges
  perm : ∀ edges, (order edges).Perm edges

/-- `edges.get(n)`, absent meaning no dependencies. -/
def Edges.deps (edges : Edges) (n : String) : List String :=
  ((edges.find? fun e => e.1 == n).map Prod.snd).getD []

/-- Every node the cycle search can meet. -/
def Edges.nodes (edges : Edges) : List String :=
  edges.map Prod.fst ++ edges.flatMap Prod.snd

/-- `has_cycle`: three-colour search from every key; `none` is out of fuel. -/
def hasCycle (it : Iteration) (edges : Edges) : Option Bool :=
  (Dag.roots edges.deps edges.nodes.length ((it.order edges).map Prod.fst)
    fun _ => .unseen).map Prod.fst

/-- The first dependency that names no step. -/
def unknownDep (ids : List String) (edges : Edges) : Option (String × String) :=
  edges.findSome? fun e =>
    (e.2.find? fun d => !ids.contains d).map fun d => (e.1, d)

/-- The checks of `validate_spec` on the whole graph. -/
def checkEdges (it : Iteration) (edges : Edges) : Except String Unit :=
  match unknownDep (edges.map Prod.fst) (it.order edges) with
  | some (id, d) => .error ("step " ++ id ++ " depends on unknown step " ++ d)
  | none =>
      if (hasCycle it edges).getD true then .error "flow spec has a cycle" else .ok ()

/-- `validate_spec`. -/
def validateSpec (it : Iteration) (spec : Value) : Except String Unit :=
  match (spec.get? "steps").bind Value.asArray? with
  | none => .error "spec.steps must be an array"
  | some steps =>
      if steps.isEmpty then .error "spec.steps is empty"
      else
        match checkSteps steps [] with
        | .error e => .error e
        | .ok edges => checkEdges it edges

/-! ## The ledger -/

/-- The row `insert_flow_run` writes for one step of the spec. -/
def ledgerRow (st : Value) : FlowStep :=
  { stepId := ((st.get? "id").bind Value.asStr?).getD ""
    scriptId := ((st.get? "script_id").bind Value.asI64?).getD 0
    input := (st.get? "input").getD (.object [])
    dependsOn := dependsOn st
    status := .pending
    output := none
    whenCond := st.get? "when"
    mapRef := (st.get? "map").bind Value.asStr?
    compensate := (st.get? "compensate").bind Value.asI64?
    compensated := false
    retries := (st.get? "retries").bind Value.asI64?
    finishedAt := none
    cache := ((st.get? "cache").bind Value.asBool?).getD false
    runId := none }

/-- The ledger of a fresh flow run. -/
def ledgerRows (spec : Value) : List FlowStep :=
  (((spec.get? "steps").bind Value.asArray?).getD []).map ledgerRow

/-- What validation promises about the ledger. -/
structure ValidLedger (rows : List FlowStep) : Prop where
  nodup : (rows.map FlowStep.stepId).Nodup
  noHash : ∀ s ∈ rows, '#' ∉ s.stepId.toList
  topo : ∃ order : List String,
    (∀ s ∈ rows, s.stepId ∈ order) ∧
      Dag.Topo (fun id => ((rows.find? fun s => s.stepId == id).map
        FlowStep.dependsOn).getD []) order
  known : ∀ s ∈ rows, ∀ d ∈ s.dependsOn, ∃ t ∈ rows, t.stepId = d

/-! ## What an accepted spec has -/

/-- The edge of a step. -/
def edgeOf (s : FlowStep) : String × List String := (s.stepId, s.dependsOn)

/-- The loop over the steps, when it succeeds: one edge for each, with a fresh
id without `#`. -/
theorem checkSteps_ok {sts : List Value} {edges es : Edges}
    (h : checkSteps sts edges = .ok es) (hnd : (edges.map Prod.fst).Nodup) :
    es = edges ++ (sts.map ledgerRow).map edgeOf ∧ (es.map Prod.fst).Nodup ∧
      ∀ st ∈ sts, '#' ∉ (ledgerRow st).stepId.toList := by
  induction sts generalizing edges with
  | nil =>
      cases h
      exact ⟨by simp, hnd, fun _ hst => by cases hst⟩
  | cons st sts ih =>
      rw [checkSteps] at h
      cases hid : (st.get? "id").bind Value.asStr? with
      | none =>
          rw [hid] at h
          cases h
      | some id =>
          simp only [hid] at h
          split_ifs at h with hfresh hhash
          cases hf : checkFields id st with
          | error e =>
              rw [hf] at h
              cases h
          | ok _ =>
              rw [hf] at h
              have hrow : (ledgerRow st).stepId = id := by simp [ledgerRow, hid]
              have hedge : edgeOf (ledgerRow st) = (id, dependsOn st) := by
                rw [edgeOf, hrow]
                rfl
              have hnd' : ((edges ++ [(id, dependsOn st)]).map Prod.fst).Nodup := by
                rw [List.map_append]
                refine List.Nodup.append hnd (List.nodup_singleton _) ?_
                intro x hx hx'
                rw [List.map_singleton, List.mem_singleton] at hx'
                subst hx'
                exact hfresh (by simpa using hx)
              obtain ⟨hes, hnodup, hall⟩ := ih h hnd'
              refine ⟨?_, hnodup, ?_⟩
              · rw [hes, List.map_cons, List.map_cons, hedge]
                simp
              · intro st' hst'
                rcases List.mem_cons.mp hst' with rfl | hst'
                · rw [hrow]
                  simpa using hhash
                · exact hall st' hst'

/-- What the checks on the fields of a step ask. -/
structure FieldsOk (st : Value) : Prop where
  script : ((st.get? "script_id").bind Value.asI64?).isNone = false
  compensate : ∀ c, st.get? "compensate" = some c → c.asI64?.isNone = false
  map : ∀ m, st.get? "map" = some m → m.asStr?.isNone = false
  retries : ∀ r, st.get? "retries" = some r → r.asU64?.isNone = false
  cache : ∀ c, st.get? "cache" = some c → c.asBool?.isNone = false
  when : ∀ w, st.get? "when" = some w →
    ((w.get? "ref").bind Value.asStr?).isNone = false ∧ whenOps.contains (whenOp w) = true

/-- One check on an optional field, passed. -/
theorem check_ok {o : Option Value} {bad : Value → Bool} {e : Value → String}
    {k : Except String Unit}
    (h : (match o with
      | some c => if bad c = true then Except.error (e c) else k
      | _ => k) = .ok ()) :
    (∀ c, o = some c → bad c = false) ∧ k = .ok () := by
  cases o with
  | none => exact ⟨fun c hc => (by cases hc), h⟩
  | some c =>
      cases hb : bad c with
      | true =>
          simp only [hb, if_true] at h
          cases h
      | false =>
          simp only [hb, Bool.false_eq_true, if_false] at h
          refine ⟨fun c' hc' => ?_, h⟩
          cases hc'
          exact hb

theorem checkFields_ok {id : String} {st : Value} (h : checkFields id st = .ok ()) :
    FieldsOk st := by
  unfold checkFields at h
  simp only [bind, Except.bind, pure, Except.pure, throw, throwThe,
    MonadExceptOf.throw] at h
  split_ifs at h with hscript
  obtain ⟨hcompensate, h⟩ := check_ok h
  obtain ⟨hmap, h⟩ := check_ok h
  obtain ⟨hretries, h⟩ := check_ok h
  obtain ⟨hcache, h⟩ := check_ok h
  refine ⟨(Bool.not_eq_true _).mp hscript, hcompensate, hmap, hretries, hcache, ?_⟩
  intro w hw
  rw [hw] at h
  simp only at h
  split_ifs at h with href hop
  exact ⟨(Bool.not_eq_true _).mp href, by simpa using hop⟩

/-- Every step the loop accepts has an id and good fields. -/
theorem checkSteps_fields {sts : List Value} {edges es : Edges}
    (h : checkSteps sts edges = .ok es) :
    ∀ st ∈ sts, (∃ id, (st.get? "id").bind Value.asStr? = some id) ∧ FieldsOk st := by
  induction sts generalizing edges with
  | nil =>
      intro st hst
      cases hst
  | cons st sts ih =>
      rw [checkSteps] at h
      cases hid : (st.get? "id").bind Value.asStr? with
      | none =>
          rw [hid] at h
          cases h
      | some id =>
          simp only [hid] at h
          split_ifs at h
          cases hf : checkFields id st with
          | error e =>
              rw [hf] at h
              cases h
          | ok _ =>
              rw [hf] at h
              intro st' hst'
              rcases List.mem_cons.mp hst' with rfl | hst'
              · exact ⟨⟨id, hid⟩, checkFields_ok hf⟩
              · exact ih h st' hst'

/-- **Fields.**  Every step of an accepted spec has a string id and fields that
passed their checks. -/
theorem validateSpec_fields {it : Iteration} {spec : Value}
    (h : validateSpec it spec = .ok ()) :
    ∃ sts, (spec.get? "steps").bind Value.asArray? = some sts ∧
      ∀ st ∈ sts, (∃ id, (st.get? "id").bind Value.asStr? = some id) ∧ FieldsOk st := by
  unfold validateSpec at h
  cases hsteps : (spec.get? "steps").bind Value.asArray? with
  | none =>
      rw [hsteps] at h
      cases h
  | some sts =>
      simp only [hsteps] at h
      split_ifs at h
      cases hes : checkSteps sts [] with
      | error e =>
          rw [hes] at h
          cases h
      | ok es => exact ⟨sts, rfl, checkSteps_fields hes⟩

/-- Dependencies stay among the nodes. -/
theorem deps_subset_nodes (edges : Edges) :
    ∀ x ∈ edges.nodes, edges.deps x ⊆ edges.nodes := by
  intro x _ d hd
  unfold Edges.deps at hd
  cases hf : edges.find? fun e => e.1 == x with
  | none =>
      rw [hf] at hd
      cases hd
  | some e =>
      rw [hf] at hd
      refine List.mem_append_right _ (List.mem_flatMap.mpr ⟨e, ?_, hd⟩)
      exact List.mem_of_find?_eq_some hf

/-- The cycle search answers. -/
theorem hasCycle_some (it : Iteration) (edges : Edges) :
    ∃ b, hasCycle it edges = some b := by
  have hns : (it.order edges).map Prod.fst ⊆ edges.nodes := by
    intro x hx
    refine List.mem_append_left _ ?_
    exact ((it.perm edges).map Prod.fst).mem_iff.mp hx
  obtain ⟨r, hr⟩ := Dag.roots_isSome (deps_subset_nodes edges) hns fun _ => .unseen
  exact ⟨r.1, by simp [hasCycle, hr]⟩

/-- No dependency is unknown when the loop over the map finds none. -/
theorem unknownDep_none {ids : List String} {edges : Edges}
    (h : unknownDep ids edges = none) {e : String × List String} (he : e ∈ edges)
    {d : String} (hd : d ∈ e.2) : d ∈ ids := by
  have hnone := List.findSome?_eq_none_iff.mp h e he
  rw [Option.map_eq_none_iff] at hnone
  have hall := List.find?_eq_none.mp hnone d hd
  simpa using hall

/-- **The graph checks.**  Edges that pass them have known dependencies and a
topological order. -/
theorem checkEdges_ok {it : Iteration} {edges : Edges}
    (h : checkEdges it edges = .ok ()) :
    (∀ e ∈ edges, ∀ d ∈ e.2, d ∈ edges.map Prod.fst) ∧
      ∃ L, Dag.Topo edges.deps L ∧ edges.map Prod.fst ⊆ L := by
  unfold checkEdges at h
  cases hunk : unknownDep (edges.map Prod.fst) (it.order edges) with
  | some u =>
      rw [hunk] at h
      cases h
  | none =>
      rw [hunk] at h
      refine ⟨fun e he d hd => unknownDep_none hunk ((it.perm edges).mem_iff.mpr he) hd, ?_⟩
      obtain ⟨b, hb⟩ := hasCycle_some it edges
      simp only [hb, Option.getD_some] at h
      split_ifs at h with hcyc
      unfold hasCycle at hb
      obtain ⟨⟨b', c⟩, hr, rfl⟩ := Option.map_eq_some_iff.mp hb
      have hfalse : b' = false := by simpa using hcyc
      subst hfalse
      obtain ⟨L, htopo, hsub⟩ := Dag.roots_topo hr
      refine ⟨L, htopo, fun x hx => hsub ?_⟩
      exact ((it.perm edges).map Prod.fst).mem_iff.mpr hx

/-- The dependencies the ledger records are the edges. -/
theorem deps_ledger (rows : List FlowStep) :
    Edges.deps (rows.map edgeOf) = fun id =>
      ((rows.find? fun s => s.stepId == id).map FlowStep.dependsOn).getD [] := by
  funext id
  unfold Edges.deps
  rw [List.find?_map, Option.map_map]
  rfl

/-- **Validation.**  The ledger of an accepted spec is well formed. -/
theorem validateSpec_ledger {it : Iteration} {spec : Value}
    (h : validateSpec it spec = .ok ()) : ValidLedger (ledgerRows spec) := by
  unfold validateSpec at h
  cases hsteps : (spec.get? "steps").bind Value.asArray? with
  | none =>
      rw [hsteps] at h
      cases h
  | some sts =>
      simp only [hsteps] at h
      split_ifs at h
      have hrows : ledgerRows spec = sts.map ledgerRow := by simp [ledgerRows, hsteps]
      rw [hrows]
      cases hes : checkSteps sts [] with
      | error e =>
          rw [hes] at h
          cases h
      | ok es =>
          rw [hes] at h
          obtain ⟨rfl, hnodup, hhash⟩ := checkSteps_ok hes List.nodup_nil
          rw [List.nil_append] at h hnodup
          have hids : ((sts.map ledgerRow).map edgeOf).map Prod.fst =
              (sts.map ledgerRow).map FlowStep.stepId := by
            rw [List.map_map]
            rfl
          obtain ⟨hknown, L, htopo, hsub⟩ := checkEdges_ok h
          rw [hids] at hknown hsub hnodup
          refine ⟨hnodup, ?_, ⟨L, ?_, ?_⟩, ?_⟩
          · intro s hs
            obtain ⟨st, hst, rfl⟩ := List.mem_map.mp hs
            exact hhash st hst
          · exact fun s hs => hsub (List.mem_map_of_mem hs)
          · rw [← deps_ledger]
            exact htopo
          · intro s hs d hd
            exact List.mem_map.mp (hknown (edgeOf s) (List.mem_map_of_mem hs) d hd)

end Dokan.Ports.FlowSpec
