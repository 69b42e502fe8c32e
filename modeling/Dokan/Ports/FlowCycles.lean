import Dokan.Ports.FlowOrder

/-!
# Cycles of a flow spec

`has_cycle` answers whether the dependency map has a directed cycle, in whatever
order the hash map is walked; so the steps of an accepted spec can be put in an
order in which every step comes after those it depends on.

## Main results

* `hasCycle_exact` — the search terminates and is exact, and an accepted spec has
  a topological order of its steps.
-/

namespace Dokan.Ports.FlowCycles

open Dokan.Verified
open Dokan.Verified.Json
open Dokan.Ports.FlowRow
open Dokan.Ports.FlowSpec
open Dokan.Ports.FlowOrder

/-- Only a key of the map has dependencies. -/
theorem key_of_deps {edges : Edges} {x d : String} (hd : d ∈ edges.deps x) :
    x ∈ edges.map Prod.fst := by
  unfold Edges.deps at hd
  cases hf : edges.find? fun e => e.1 == x with
  | none =>
      rw [hf] at hd
      cases hd
  | some e =>
      have hx : e.1 = x := by simpa using List.find?_some hf
      exact List.mem_map.mpr ⟨e, List.mem_of_find?_eq_some hf, hx⟩

/-- The search answers `true` exactly on the maps with a directed cycle. -/
theorem hasCycle_iff {it : Iteration} {edges : Edges} {b : Bool}
    (h : hasCycle it edges = some b) : b = true ↔ Dag.Cyclic edges.deps := by
  unfold hasCycle at h
  obtain ⟨⟨b', c⟩, hr, rfl⟩ := Option.map_eq_some_iff.mp h
  cases b' with
  | true =>
      have hnone : Dag.Finished edges.deps (fun _ => Dag.Colour.unseen) [] :=
        ⟨fun x => by simp, trivial⟩
      exact iff_of_true rfl (Dag.roots_cyclic hnone (fun _ => Dag.Colour.noConfusion) hr)
  | false =>
      refine iff_of_false Bool.false_ne_true ?_
      rintro ⟨x, hx⟩
      obtain ⟨L, htopo, hsub⟩ := Dag.roots_topo hr
      -- a node on a cycle has a dependency, so the search started from it
      obtain ⟨d, hd, _⟩ := Dag.next_on_cycle hx
      have hkey : x ∈ (it.order edges).map Prod.fst :=
        ((it.perm edges).map Prod.fst).mem_iff.mpr (key_of_deps hd)
      exact htopo.not_cyclic (hsub hkey) hx

/-- What each step id of a spec depends on. -/
def specDeps (spec : Value) (id : String) : List String :=
  (((ledgerRows spec).find? fun s => s.stepId == id).map FlowStep.dependsOn).getD []

/-- The dependencies of a step name steps. -/
theorem specDeps_subset {spec : Value} (h : ValidLedger (ledgerRows spec)) (id : String) :
    specDeps spec id ⊆ (ledgerRows spec).map FlowStep.stepId := by
  intro d hd
  unfold specDeps at hd
  cases hf : (ledgerRows spec).find? fun s => s.stepId == id with
  | none =>
      rw [hf] at hd
      cases hd
  | some s =>
      rw [hf] at hd
      exact List.mem_map.mpr (h.known s (List.mem_of_find?_eq_some hf) d hd)

/-- **Cycle detection.**  Whatever the order the map is walked in, the search
terminates, and answers `true` iff the map has a directed cycle, a self-loop
included; and the steps of every accepted spec have a topological order. -/
theorem hasCycle_exact :
    (∀ (it : Iteration) (edges : Edges), ∃ b, hasCycle it edges = some b ∧
      (b = true ↔ Dag.Cyclic edges.deps)) ∧
    ∀ (it : Iteration) (spec : Value), validateSpec it spec = .ok () →
      ∃ order, Dag.Topo (specDeps spec) order ∧
        order.Perm ((ledgerRows spec).map FlowStep.stepId) := by
  constructor
  · intro it edges
    obtain ⟨b, hb⟩ := hasCycle_some it edges
    exact ⟨b, hb, hasCycle_iff hb⟩
  · intro it spec hvalid
    have hledger := validateSpec_ledger hvalid
    obtain ⟨L, hcover, htopo⟩ := hledger.topo
    have hsub : (ledgerRows spec).map FlowStep.stepId ⊆ L := by
      intro id hid
      obtain ⟨s, hs, rfl⟩ := List.mem_map.mp hid
      exact hcover s hs
    exact htopo.exists_perm hledger.nodup hsub fun id _ => specDeps_subset hledger id

/-- Two steps, the second after the first, are listed in an order; a loop through
three is found. -/
theorem hasCycle_exact_fan :
    (∃ order, Dag.Topo (specDeps twoSteps) order ∧
      order.Perm ((ledgerRows twoSteps).map FlowStep.stepId)) ∧
    Dag.Cyclic (Edges.deps [("a", ["c"]), ("b", ["a"]), ("c", ["b"])]) := by
  refine ⟨hasCycle_exact.2 inOrder twoSteps rfl, ?_⟩
  obtain ⟨b, hb, hiff⟩ := hasCycle_exact.1 inOrder [("a", ["c"]), ("b", ["a"]), ("c", ["b"])]
  refine hiff.mp ?_
  have hfound : hasCycle inOrder [("a", ["c"]), ("b", ["a"]), ("c", ["b"])] = some true := by
    decide
  rw [hfound] at hb
  exact (Option.some.inj hb).symm

end Dokan.Ports.FlowCycles
