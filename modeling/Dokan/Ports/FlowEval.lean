import Dokan.Ports.FlowSpec

/-!
# What a flow step sees

The pure functions the driver applies to a snapshot of the ledger: references
into the flow input and the outputs of dependencies, `when` gates, the input
of a step and the result of a finished map fan-out.

`serde_json::from_str` is the parameter `parse`.
-/

namespace Dokan.Ports.FlowEval

open Dokan.Verified
open Dokan.Verified.Json
open Dokan.Ports.FlowRow
open Dokan.Ports.FlowSpec

/-! ## References and gates -/

section Refs

variable (parse : String → Option Value)

/-- A string that parses as JSON is decoded. -/
def decode : Value → Value
  | .str s => (parse s).getD (.str s)
  | v => v

/-- Follow the parts of a dotted reference, decoding at each hop. -/
def follow : Value → List String → Option Value
  | cur, [] => some (decode parse cur)
  | cur, p :: ps =>
      match (decode parse cur).get? p with
      | none => none
      | some v => follow v ps

/-- `resolve_ref`. -/
def resolveRef (r : String) (flowInput deps : Value) : Option Value :=
  match (r.toList.splitOn '.').map String.ofList with
  | [] => none
  | root :: parts =>
      if root = "flow_input" then follow parse flowInput parts
      else if root = "deps" then follow parse deps parts
      else none

/-- `coerce_str`: strings as they are, everything else as JSON text. -/
def coerceStr : Value → String
  | .str s => s
  | v => v.print

/-- `is_truthy`. -/
def isTruthy : Value → Bool
  | .null => false
  | .bool b => b
  | .num (.int i) => i ≠ 0
  | .num (.float _ zero) => !zero
  | .str s => s ≠ "" && s ≠ "false" && s ≠ "0"
  | .arr a => !a.isEmpty
  | .obj m => !m.isEmpty

/-- `str::contains`. -/
def containsStr (s t : String) : Bool := decide (t.toList <:+: s.toList)

/-- `eval_when`: a gate `{ref, op, value}`; an unknown op reads as
`truthy`. -/
def evalWhen (cond flowInput deps : Value) : Bool :=
  let r := ((cond.get? "ref").bind Value.asStr?).getD ""
  let op := whenOp cond
  let actual := (resolveRef parse r flowInput deps).getD .null
  let expected := (cond.get? "value").getD .null
  if op = "eq" then coerceStr actual = coerceStr expected
  else if op = "ne" then coerceStr actual ≠ coerceStr expected
  else if op = "contains" then containsStr (coerceStr actual) (coerceStr expected)
  else if op = "falsy" then !isTruthy actual
  else isTruthy actual

end Refs

/-! ## Inputs -/

/-- `build_deps`: the outputs of the dependencies that have one. -/
def buildDeps (dependsOn : List String) (outputs : String → Option String) : Value :=
  .object (dependsOn.filterMap fun d => (outputs d).map fun o => (d, .str o))

/-- What a step's script is given. -/
def stepInput (flowInput deps stepIn : Value) : Value :=
  .object [("flow_input", flowInput), ("deps", deps), ("step", stepIn)]

/-! ## Map fan-outs -/

/-- `MAX_MAP_FANOUT`. -/
def maxMapFanout : Nat := 1000

/-- `fanout_within_cap`. -/
def fanoutWithinCap (n : Nat) : Bool := n ≤ maxMapFanout

/-- The id of a map child, `<parent>#<i>`. -/
def childId (parent : String) (i : Nat) : String := parent ++ "#" ++ toString i

/-- `starts_with("<parent>#")`. -/
def isChildOf (parent : String) (s : FlowStep) : Bool :=
  (parent.toList ++ ['#']).isPrefixOf s.stepId.toList

/-- `parse::<u64>`, of decimal digits with an optional plus sign. -/
def parseU64 (cs : List Char) : Option Nat :=
  let ds := if cs.head? = some '+' then cs.tail else cs
  if ds.isEmpty || !ds.all Char.isDigit then none
  else if Nat.ofDigitChars 10 ds 0 < 2 ^ 64 then some (Nat.ofDigitChars 10 ds 0)
  else none

/-- The sort key of a child: the number after the last `#`. -/
def childIndex (s : FlowStep) : Nat :=
  (parseU64 (s.stepId.toList.reverse.takeWhile (· ≠ '#')).reverse).getD 0

/-- `Agg`. -/
inductive Agg
  | succeeded (out : String)
  | failed
deriving DecidableEq, Repr

/-- The slot of a child in the aggregated array. -/
def slot (s : FlowStep) : Value :=
  match s.status, s.output with
  | .succeeded, some o => .str o
  | _, _ => .null

/-- The children of a map parent in index order. -/
def sortedChildren (children : List FlowStep) : List FlowStep :=
  children.insertionSort fun a b => childIndex a ≤ childIndex b

/-- `aggregate_children`. -/
def aggregateChildren (steps : List FlowStep) (parent : String) : Option Agg :=
  let children := steps.filter (isChildOf parent)
  if children.isEmpty then none
  else if children.any fun c => c.status.active then none
  else if children.any fun c => c.status = .failed then some .failed
  else
    some (.succeeded (Value.print (.arr ((sortedChildren children).map slot))))

/-! ## Child ids -/

theorem toList_childId (parent : String) (i : Nat) :
    (childId parent i).toList = parent.toList ++ '#' :: Nat.toDigits 10 i := by
  simp [childId, Nat.toList_repr]

theorem hash_mem_childId (parent : String) (i : Nat) :
    '#' ∈ (childId parent i).toList := by
  simp [toList_childId]

/-- The digits of an index contain no `#`. -/
theorem hash_not_mem_digits (i : Nat) : '#' ∉ Nat.toDigits 10 i := by
  intro h
  have hdigit := Nat.isDigit_of_mem_toDigits (by decide) (by decide) h
  exact absurd hdigit (by decide)

theorem toDigits_injective {i j : Nat} (h : Nat.toDigits 10 i = Nat.toDigits 10 j) :
    i = j := by
  rw [← Nat.ofDigitChars_ten_toDigits (n := i), h, Nat.ofDigitChars_ten_toDigits]

/-- Cutting a list at its first `#`. -/
theorem append_hash_inj {p q xs ys : List Char} (hp : '#' ∉ p) (hq : '#' ∉ q)
    (h : p ++ '#' :: xs = q ++ '#' :: ys) : p = q ∧ xs = ys := by
  induction p generalizing q with
  | nil =>
      cases q with
      | nil => exact ⟨rfl, (List.cons.inj h).2⟩
      | cons c q =>
          obtain ⟨rfl, _⟩ := List.cons.inj h
          exact absurd List.mem_cons_self hq
  | cons c p ih =>
      cases q with
      | nil =>
          obtain ⟨rfl, _⟩ := List.cons.inj h
          exact absurd List.mem_cons_self hp
      | cons c' q =>
          obtain ⟨rfl, htail⟩ := List.cons.inj h
          obtain ⟨rfl, rfl⟩ := ih (fun hm => hp (List.mem_cons_of_mem _ hm))
            (fun hm => hq (List.mem_cons_of_mem _ hm)) htail
          exact ⟨rfl, rfl⟩

/-- A child id determines its parent and its index. -/
theorem childId_inj {p q : String} {i j : Nat} (hp : '#' ∉ p.toList)
    (hq : '#' ∉ q.toList) (h : childId p i = childId q j) : p = q ∧ i = j := by
  have hlist := congrArg String.toList h
  rw [toList_childId, toList_childId] at hlist
  obtain ⟨hpq, hij⟩ := append_hash_inj hp hq hlist
  exact ⟨String.toList_inj.mp hpq, toDigits_injective hij⟩

/-- The prefix test finds the children of a parent, and only them. -/
theorem isChildOf_childId {p q : String} {i : Nat} {s : FlowStep}
    (hp : '#' ∉ p.toList) (hq : '#' ∉ q.toList) (hs : s.stepId = childId q i) :
    isChildOf p s = true ↔ q = p := by
  rw [isChildOf, hs, toList_childId, List.isPrefixOf_iff_prefix]
  constructor
  · rintro ⟨t, ht⟩
    rw [List.append_assoc, List.singleton_append] at ht
    obtain ⟨hpq, _⟩ := append_hash_inj hp hq ht
    exact (String.toList_inj.mp hpq).symm
  · rintro rfl
    exact ⟨Nat.toDigits 10 i, by simp⟩

/-- An id without `#` is no child. -/
theorem isChildOf_eq_false {p : String} {s : FlowStep} (h : '#' ∉ s.stepId.toList) :
    isChildOf p s = false := by
  rw [Bool.eq_false_iff]
  intro hc
  rw [isChildOf, List.isPrefixOf_iff_prefix] at hc
  obtain ⟨t, ht⟩ := hc
  exact h (ht ▸ by simp)

/-- The index of a child id, below 2^64, is read back. -/
theorem childIndex_childId {p : String} {i : Nat} {s : FlowStep} (hi : i < 2 ^ 64)
    (hs : s.stepId = childId p i) : childIndex s = i := by
  have hdigits : ∀ c ∈ Nat.toDigits 10 i, c.isDigit = true :=
    fun c hc => Nat.isDigit_of_mem_toDigits (by decide) (by decide) hc
  have hne : Nat.toDigits 10 i ≠ [] := by
    intro h
    have hpos := Nat.length_toDigits_pos (b := 10) (n := i)
    simp [h] at hpos
  have htail : ((childId p i).toList.reverse.takeWhile (· ≠ '#')).reverse =
      Nat.toDigits 10 i := by
    rw [toList_childId, List.reverse_append, List.reverse_cons, List.append_assoc,
      List.takeWhile_append_of_pos]
    · simp
    · intro c hc
      rw [List.mem_reverse] at hc
      have hne : c ≠ '#' := fun h => hash_not_mem_digits i (h ▸ hc)
      simpa using hne
  have hhead : (Nat.toDigits 10 i).head? ≠ some '+' := by
    intro h
    have hmem := List.mem_of_mem_head? h
    exact absurd (hdigits _ hmem) (by decide)
  have hall : (Nat.toDigits 10 i).all Char.isDigit = true :=
    List.all_eq_true.mpr hdigits
  have hlt : i < 18446744073709551616 := hi
  rw [childIndex, hs, htail, parseU64, if_neg hhead]
  simp [hne, hall, Nat.ofDigitChars_ten_toDigits, hlt]

end Dokan.Ports.FlowEval
