import Dokan.Verified.Fields
import Dokan.Ports.FlowEval
import Dokan.Ports.FlowOrder

/-!
# References to a dependency

`deps.<id>` names the output of a step by its id, and a reference is split at
every dot.  The validator reserves `#` in ids and nothing else, so an id with a
dot is split too and the reference asks another step, or none.  What is found is
decoded when it parses as JSON, before a gate compares it with a text.

## Main results

* `resolveRef_reaches` — a reference reaches the output of every dependency
  exactly when the id has no dot.
* `gate_compares` — what a gate on the output of a dependency compares.
-/

namespace Dokan.Ports.FlowRefs

open Dokan.Verified
open Dokan.Verified.Json
open Dokan.Ports.FlowRow
open Dokan.Ports.FlowSpec
open Dokan.Ports.FlowEval
open Dokan.Ports.FlowOrder

/-! ## The object of the dependencies -/

/-- What the members taken from a partial function leave under a key. -/
theorem get?_foldl_members (f : String → Option Value) (k : String) (ds : List String) :
    ∀ m : List (String × Value),
      Value.get? (.obj ((ds.filterMap fun d => (f d).map fun v => (d, v)).foldl
        (fun m p => Value.insertKey p.1 p.2 m) m)) k =
      if k ∈ ds then (f k).or (Value.get? (.obj m) k) else Value.get? (.obj m) k := by
  induction ds with
  | nil => exact fun m => rfl
  | cons d ds ih =>
      intro m
      cases hd : f d with
      | none =>
          rw [List.filterMap_cons_none (by simp [hd]), ih]
          by_cases hk : k = d
          · subst hk
            simp [hd]
          · simp [hk]
      | some v =>
          have hmember : (f d).map (fun v => (d, v)) = some (d, v) := by
            rw [hd, Option.map_some]
          rw [List.filterMap_cons_some (f := fun d => (f d).map fun v => (d, v)) hmember,
            List.foldl_cons, ih, Value.get?_insertKey]
          by_cases hk : k = d
          · subst hk
            simp [hd]
          · simp [hk]

/-- `build_deps` has the output of each dependency under its id. -/
theorem get?_buildDeps (ds : List String) (outputs : String → Option String) (k : String) :
    (buildDeps ds outputs).get? k = if k ∈ ds then (outputs k).map .str else none := by
  have h := get?_foldl_members (fun d => (outputs d).map .str) k ds []
  simp only [Option.map_map] at h
  refine h.trans ?_
  simp [Value.get?]

/-! ## References -/

section Refs

variable {parse : String → Option Value} {input : Value} {ds : List String}
  {outputs : String → Option String} {d o : String}

/-- The parts of the reference to `d` are those of `d`. -/
theorem resolveRef_deps (d : String) (input deps : Value) :
    resolveRef parse ("deps." ++ d) input deps =
      follow parse deps ((d.toList.splitOn '.').map String.ofList) := by
  have htext : ("deps." ++ d).toList = ['d', 'e', 'p', 's'] ++ '.' :: d.toList := by
    rw [String.toList_append]
    rfl
  have hroot : '.' ∉ ['d', 'e', 'p', 's'] := by decide
  have hname : String.ofList ['d', 'e', 'p', 's'] = "deps" := by rfl
  have hne : ¬ "deps" = "flow_input" := by decide
  unfold resolveRef
  rw [htext, List.splitOn_append_cons_self_of_not_mem hroot, List.map_cons, hname]
  simp only [if_neg hne, if_true]

/-- Without a dot the reference is the id. -/
theorem resolveRef_of_not_dot (hdot : '.' ∉ d.toList) (hd : d ∈ ds) (ho : outputs d = some o) :
    resolveRef parse ("deps." ++ d) input (buildDeps ds outputs) =
      some (decode parse (.str o)) := by
  have hget : (decode parse (buildDeps ds outputs)).get? d = some (.str o) := by
    have h := get?_buildDeps ds outputs d
    rw [if_pos hd, ho] at h
    exact h
  rw [resolveRef_deps, List.splitOn_eq_singleton hdot, List.map_singleton, String.ofList_toList,
    follow, hget]
  rfl

/-- With a dot the reference asks for something inside an output. -/
theorem splitOn_of_dot (hdot : '.' ∈ d.toList) :
    ∃ p q ps, d.toList.splitOn '.' = p :: q :: ps := by
  cases hsplit : d.toList.splitOn '.' with
  | nil => exact (List.splitOn_ne_nil '.' d.toList hsplit).elim
  | cons p ps =>
      cases ps with
      | cons q ps => exact ⟨p, q, ps, rfl⟩
      | nil =>
          have hjoin : List.intercalate ['.'] (d.toList.splitOn '.') = d.toList :=
            List.intercalate_splitOn '.'
          rw [hsplit, List.intercalate_singleton] at hjoin
          have hfree : '.' ∉ p := Fields.sep_not_mem_splitOn (hsplit ▸ List.mem_singleton_self p)
          rw [hjoin] at hfree
          exact (hfree hdot).elim

/-- Where nothing was printed, a reference with a dot resolves to nothing. -/
theorem resolveRef_of_dot (hparse : parse "" = none) (hdot : '.' ∈ d.toList) :
    resolveRef parse ("deps." ++ d) input (buildDeps ds fun _ => some "") = none := by
  obtain ⟨p, q, ps, hsplit⟩ := splitOn_of_dot hdot
  have hget := get?_buildDeps ds (fun _ => some "") (String.ofList p)
  rw [resolveRef_deps, hsplit, List.map_cons, List.map_cons, follow]
  have hdeps : decode parse (buildDeps ds fun _ => some "") = buildDeps ds fun _ => some "" :=
    rfl
  rw [hdeps, hget]
  by_cases hmem : String.ofList p ∈ ds
  · have hempty : decode parse (.str "") = .str "" := by rw [decode, hparse, Option.getD_none]
    rw [if_pos hmem, Option.map_some]
    simp only [follow, hempty, Value.get?]
  · rw [if_neg hmem]

/-- **References.**  Where the empty text is no JSON text: the reference to a
dependency resolves to its output, decoded, whatever the outputs are, exactly when
its id has no dot. -/
theorem resolveRef_reaches (hparse : parse "" = none) {s : FlowStep}
    (hd : d ∈ s.dependsOn) (input : Value) :
    (∀ outputs o, outputs d = some o →
      resolveRef parse ("deps." ++ d) input (buildDeps s.dependsOn outputs) =
        some (decode parse (.str o))) ↔ '.' ∉ d.toList := by
  constructor
  · intro h hdot
    have hreach := h (fun _ => some "") "" rfl
    rw [resolveRef_of_dot hparse hdot] at hreach
    cases hreach
  · intro hdot outputs o ho
    exact resolveRef_of_not_dot hdot hd ho

end Refs

/-- Steps `a`, `a.b` and one that depends on both. -/
def dottedSpec : Value :=
  .obj [("steps", .arr
    [ .obj [("id", .str "a"), ("script_id", .num (.int 1))]
    , .obj [("id", .str "a.b"), ("script_id", .num (.int 2))]
    , .obj
        [ ("depends_on", .arr [.str "a", .str "a.b"]), ("id", .str "c")
        , ("script_id", .num (.int 3)) ] ])]

/-- What `a` prints. -/
def printedObject : String := "\x7b\"b\":\"x\"\x7d"

/-- JSON as far as these steps need it. -/
def parsePrinted (s : String) : Option Value :=
  if s = printedObject then some (.obj [("b", .str "x")]) else none

/-- The outputs of `a` and `a.b`. -/
def printedOutputs (id : String) : Option String :=
  if id = "a" then some printedObject else if id = "a.b" then some "y" else none

/-- A dependency without a dot. -/
theorem resolveRef_reaches_fan :
    (∀ outputs o, outputs "a" = some o →
      resolveRef (fun _ => none) ("deps." ++ "a") (.obj [])
        (buildDeps (childRow false ⟨"b", 2, .null, ["a"]⟩).dependsOn outputs) =
        some (decode (fun _ => none) (.str o))) ↔ '.' ∉ "a".toList :=
  resolveRef_reaches (s := childRow false ⟨"b", 2, .null, ["a"]⟩) rfl
    (List.mem_singleton_self "a") (.obj [])

/-- The reference to `a.b` resolves to a part of the output of `a`. -/
theorem reference_of_another :
    validateSpec inOrder dottedSpec = .ok () ∧
      (∃ s ∈ ledgerRows dottedSpec, s.dependsOn = ["a", "a.b"]) ∧
      resolveRef parsePrinted "deps.a.b" (.obj []) (buildDeps ["a", "a.b"] printedOutputs) =
        some (.str "x") ∧
      decode parsePrinted (.str "y") = .str "y" := by
  refine ⟨rfl, ⟨_, List.mem_cons_of_mem _ (List.mem_cons_of_mem _ List.mem_cons_self), rfl⟩, ?_, ?_⟩
  · rfl
  · rfl

/-! ## Gates -/

section Gates

variable {parse : String → Option Value} {input : Value} {ds : List String}
  {outputs : String → Option String} {id o v : String} {cond : Value}

/-- **Gates.**  A gate on the output `o` of a dependency whose id has no dot
compares its value with the text of `o` decoded; this is the comparison of `o`
itself exactly when `o` is no JSON text or the text of what it decodes to. -/
theorem gate_compares (hdot : '.' ∉ id.toList) (hid : id ∈ ds) (ho : outputs id = some o)
    (href : cond.get? "ref" = some (.str ("deps." ++ id)))
    (hvalue : cond.get? "value" = some (.str v)) :
    (whenOp cond = "eq" → (evalWhen parse cond input (buildDeps ds outputs) = true ↔
      coerceStr (decode parse (.str o)) = v)) ∧
    (whenOp cond = "ne" → (evalWhen parse cond input (buildDeps ds outputs) = true ↔
      coerceStr (decode parse (.str o)) ≠ v)) ∧
    ((∀ w, coerceStr (decode parse (.str o)) = w ↔ o = w) ↔
      parse o = none ∨ ∃ x, parse o = some x ∧ coerceStr x = o) := by
  have hr : ((cond.get? "ref").bind Value.asStr?).getD "" = "deps." ++ id := by
    rw [href]
    rfl
  have hactual : resolveRef parse ("deps." ++ id) input (buildDeps ds outputs) =
      some (decode parse (.str o)) := resolveRef_of_not_dot hdot hid ho
  have hexpected : coerceStr ((cond.get? "value").getD .null) = v := by
    rw [hvalue]
    rfl
  refine ⟨fun hop => ?_, fun hop => ?_, ?_⟩
  · simp only [evalWhen, hr, hop, hactual, Option.getD_some, hexpected, if_true,
      decide_eq_true_eq]
  · have hne : ¬ "ne" = "eq" := by decide
    simp only [evalWhen, hr, hop, hactual, Option.getD_some, hexpected, if_neg hne, if_true,
      decide_eq_true_eq]
  · have hsame : (∀ w, coerceStr (decode parse (.str o)) = w ↔ o = w) ↔
        coerceStr (decode parse (.str o)) = o := by
      constructor
      · exact fun h => (h o).mpr rfl
      · intro h w
        rw [h]
    rw [hsame]
    cases hp : parse o with
    | none => simp [decode, hp, coerceStr]
    | some x => simp [decode, hp]

end Gates

/-- JSON as far as a quoted word needs it. -/
def parseQuoted (s : String) : Option Value :=
  if s = "\"ok\"" then some (.str "ok") else none

/-- The gate `deps.a <op> ok`. -/
def okGate (op : String) : Value :=
  .obj [("op", .str op), ("ref", .str "deps.a"), ("value", .str "ok")]

theorem gate_compares_ok :
    (whenOp (okGate "eq") = "eq" →
      (evalWhen parseQuoted (okGate "eq") (.obj []) (buildDeps ["a"] fun _ => some "ok") = true ↔
        coerceStr (decode parseQuoted (.str "ok")) = "ok")) ∧
    (whenOp (okGate "eq") = "ne" →
      (evalWhen parseQuoted (okGate "eq") (.obj []) (buildDeps ["a"] fun _ => some "ok") = true ↔
        coerceStr (decode parseQuoted (.str "ok")) ≠ "ok")) ∧
    ((∀ w, coerceStr (decode parseQuoted (.str "ok")) = w ↔ "ok" = w) ↔
      parseQuoted "ok" = none ∨ ∃ x, parseQuoted "ok" = some x ∧ coerceStr x = "ok") := by
  have hdot : '.' ∉ "a".toList := by decide
  exact gate_compares hdot (List.mem_singleton_self "a") rfl rfl rfl

/-- A step that prints the word in quotes passes the gate on the bare word, and not
the gate on the text it printed. -/
theorem gate_decodes :
    validateSpec inOrder twoSteps = .ok () ∧
      evalWhen parseQuoted (okGate "eq") (.obj [])
        (buildDeps ["a"] fun _ => some "\"ok\"") = true ∧
      evalWhen parseQuoted (okGate "ne") (.obj [])
        (buildDeps ["a"] fun _ => some "\"ok\"") = false ∧
      "\"ok\"" ≠ "ok" := by
  refine ⟨rfl, ?_, ?_, by decide⟩
  · rfl
  · rfl

end Dokan.Ports.FlowRefs
