import Dokan.Verified.JsonTree

/-!
# Containment of JSON values

`contains num v w` says that `v` contains `w` as PostgreSQL's `jsonb` operator
`@>` does: an object contains an object whose every member it has, with a value
that contains the member's; an array contains an array whose every element one
of its own contains; a scalar contains its equals.  At the top an array also
contains a scalar it has as an element.  Numbers are compared by what `num`
reads in them.

## Main results

* `deepContains_refl`, `deepContains_trans` — containment is a preorder on values
  whose objects are maps.
* `deepContains_iff` — one value contains another exactly if whatever contains
  the first contains the second.
-/

namespace Dokan.Verified.JsonContains

open Dokan.Verified.Json
open Dokan.Verified.JsonText
open Dokan.Verified.JsonTree

variable {κ : Type*} [DecidableEq κ] (num : Number → κ)

/-- Equal scalars. -/
def sameScalar : Value → Value → Bool
  | .null, .null => true
  | .bool b, .bool c => b == c
  | .num n, .num m => num n == num m
  | .str s, .str t => s == t
  | _, _ => false

mutual
/-- Containment below the top. -/
def deepContains (v : Value) : Value → Bool
  | .arr ws =>
      match v with
      | .arr vs => containsElems vs ws
      | _ => false
  | .obj ns =>
      match v with
      | .obj ms => decide (ns.length ≤ ms.length) && containsMembers ms ns
      | _ => false
  | w => sameScalar num v w

/-- Each of these elements is contained in one of `vs`. -/
def containsElems (vs : List Value) : List Value → Bool
  | [] => true
  | w :: ws => vs.any (fun v => deepContains v w) && containsElems vs ws

/-- Each of these members has, among `ms`, one of its key that contains it. -/
def containsMembers (ms : List (String × Value)) : List (String × Value) → Bool
  | [] => true
  | (k, w) :: ns =>
      (Value.get? (.obj ms) k).any (fun v => deepContains v w) && containsMembers ms ns
end

/-- `v @> w`. -/
def contains (v w : Value) : Bool :=
  match v, w with
  | .obj _, .obj _ => deepContains num v w
  | .obj _, _ | _, .obj _ => false
  | .arr _, .arr _ => deepContains num v w
  | .arr vs, _ => vs.any fun v => sameScalar num v w
  | _, .arr _ => false
  | _, _ => sameScalar num v w

variable {num} {v w : Value}

theorem containsElems_iff {vs ws : List Value} :
    containsElems num vs ws = true ↔ ∀ w ∈ ws, ∃ v ∈ vs, deepContains num v w = true := by
  induction ws with
  | nil => simp [containsElems]
  | cons w ws ih =>
      rw [containsElems, Bool.and_eq_true, ih, List.any_eq_true, List.forall_mem_cons]

theorem containsMembers_iff {ms ns : List (String × Value)} :
    containsMembers num ms ns = true ↔
      ∀ p ∈ ns, ∃ v, Value.get? (.obj ms) p.1 = some v ∧ deepContains num v p.2 = true := by
  induction ns with
  | nil => simp [containsMembers]
  | cons p ns ih =>
      rw [containsMembers, Bool.and_eq_true, ih, Option.any_eq_true, List.forall_mem_cons]

theorem deepContains_arr {ws : List Value} :
    deepContains num v (.arr ws) = true ↔
      ∃ vs, v = .arr vs ∧ ∀ w ∈ ws, ∃ u ∈ vs, deepContains num u w = true := by
  cases v with
  | arr vs => simp [deepContains, containsElems_iff]
  | _ => simp [deepContains]

theorem deepContains_obj {ns : List (String × Value)} :
    deepContains num v (.obj ns) = true ↔
      ∃ ms, v = .obj ms ∧ ns.length ≤ ms.length ∧
        ∀ p ∈ ns, ∃ u, Value.get? (.obj ms) p.1 = some u ∧ deepContains num u p.2 = true := by
  cases v with
  | obj ms => simp [deepContains, containsMembers_iff]
  | _ => simp [deepContains]

/-! ## A preorder -/

theorem sameScalar_trans {u : Value} (huv : sameScalar num u v = true)
    (hvw : sameScalar num v w = true) : sameScalar num u w = true := by
  cases u <;> cases v <;> simp [sameScalar] at huv <;> cases w <;>
    simp [sameScalar] at hvw ⊢
  all_goals exact huv.trans hvw

/-- A scalar is contained in its equals only. -/
theorem deepContains_of_sameScalar {u : Value} (h : sameScalar num v w = true) :
    deepContains num u v = sameScalar num u v := by
  cases v with
  | arr | obj => simp [sameScalar] at h
  | _ => rfl

/-- A value contains itself. -/
theorem deepContains_refl (hv : Keyed v) : deepContains num v v = true := by
  induction v using value_ind with
  | arr a ih =>
      have helems := keyedElems_iff.mp hv
      exact deepContains_arr.mpr ⟨a, rfl, fun w hw => ⟨w, hw, ih w hw (helems w hw)⟩⟩
  | obj m ih =>
      have hmembers := keyedMembers_iff.mp hv.2
      refine deepContains_obj.mpr ⟨m, rfl, le_refl _, fun p hp => ?_⟩
      exact ⟨p.2, get?_of_mem hv.1 hp, ih p hp (hmembers p hp)⟩
  | _ => simp [deepContains, sameScalar]

/-- Containment is transitive. -/
theorem deepContains_trans {u : Value} (huv : deepContains num u v = true)
    (hvw : deepContains num v w = true) : deepContains num u w = true := by
  induction w using value_ind generalizing u v with
  | arr ws ih =>
      obtain ⟨vs, rfl, hvs⟩ := deepContains_arr.mp hvw
      obtain ⟨us, rfl, hus⟩ := deepContains_arr.mp huv
      refine deepContains_arr.mpr ⟨us, rfl, fun w hw => ?_⟩
      obtain ⟨x, hx, hxw⟩ := hvs w hw
      obtain ⟨y, hy, hyx⟩ := hus x hx
      exact ⟨y, hy, ih w hw hyx hxw⟩
  | obj ns ih =>
      obtain ⟨ms, rfl, hlen, hms⟩ := deepContains_obj.mp hvw
      obtain ⟨ls, rfl, hlen', hls⟩ := deepContains_obj.mp huv
      refine deepContains_obj.mpr ⟨ls, rfl, hlen.trans hlen', fun p hp => ?_⟩
      obtain ⟨x, hx, hxp⟩ := hms p hp
      obtain ⟨y, hy, hyx⟩ := hls _ (mem_of_get? hx)
      exact ⟨y, hy, ih p hp hyx hxp⟩
  | _ =>
      rw [deepContains_of_sameScalar hvw] at huv
      exact sameScalar_trans huv hvw

/-- **Containment by its upper sets.**  A value contains another exactly if
everything that contains the first contains the second. -/
theorem deepContains_iff (hv : Keyed v) :
    deepContains num v w = true ↔
      ∀ u, Keyed u → deepContains num u v = true → deepContains num u w = true :=
  ⟨fun hvw _ _ huv => deepContains_trans huv hvw, fun h => h v hv (deepContains_refl hv)⟩

end Dokan.Verified.JsonContains
