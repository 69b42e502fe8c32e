import Dokan.Verified.JsonText
import Dokan.Verified.Rows

/-!
# JSON values as trees

An object is a finite map: in which order its members are kept is no part of
it.  Two values are one tree if they agree key by key at every level, and
`sortKeys` picks the value of a tree whose members stand in the order of their
keys.

## Main results

* `canonical_eq_iff` — values are one tree exactly if, sorted, they are equal up
  to how their numbers are kept.
-/

namespace Dokan.Verified.JsonTree

open Dokan.Verified
open Dokan.Verified.Json
open Dokan.Verified.JsonText

/-! ## Trees -/

mutual
/-- The same tree: elements in order, members in any, numbers by their texts. -/
def SameTree : Value → Value → Prop
  | .null, .null => True
  | .bool b, .bool c => b = c
  | .num n, .num m => Value.printNumber n = Value.printNumber m
  | .str s, .str t => s = t
  | .arr a, .arr b => SameElems a b
  | .obj m, .obj n => m.length = n.length ∧ SameMembers m n
  | _, _ => False

def SameElems : List Value → List Value → Prop
  | [], [] => True
  | v :: vs, w :: ws => SameTree v w ∧ SameElems vs ws
  | _, _ => False

/-- Each member has its like among those of another object. -/
def SameMembers : List (String × Value) → List (String × Value) → Prop
  | [], _ => True
  | (k, v) :: ms, ns =>
      (∃ w, Value.get? (.obj ns) k = some w ∧ SameTree v w) ∧ SameMembers ms ns
end

mutual
/-- The keys of an object are distinct, at every level. -/
def Keyed : Value → Prop
  | .arr a => KeyedElems a
  | .obj m => (m.map Prod.fst).Nodup ∧ KeyedMembers m
  | _ => True

def KeyedElems : List Value → Prop
  | [] => True
  | v :: vs => Keyed v ∧ KeyedElems vs

def KeyedMembers : List (String × Value) → Prop
  | [] => True
  | (_, v) :: ms => Keyed v ∧ KeyedMembers ms
end

/-- A value as a program holds it: its objects are maps, and its floats are
written as floats are. -/
structure Tree where
  value : Value
  proper : Proper value
  keyed : Keyed value

theorem sameMembers_iff {ms ns : List (String × Value)} :
    SameMembers ms ns ↔
      ∀ p ∈ ms, ∃ w, Value.get? (.obj ns) p.1 = some w ∧ SameTree p.2 w := by
  induction ms with
  | nil => simp [SameMembers]
  | cons p ms ih => rw [SameMembers, ih, List.forall_mem_cons]

theorem keyedElems_iff {vs : List Value} : KeyedElems vs ↔ ∀ v ∈ vs, Keyed v := by
  induction vs with
  | nil => simp [KeyedElems]
  | cons v vs ih => rw [KeyedElems, ih, List.forall_mem_cons]

theorem keyedMembers_iff {ms : List (String × Value)} :
    KeyedMembers ms ↔ ∀ p ∈ ms, Keyed p.2 := by
  induction ms with
  | nil => simp [KeyedMembers]
  | cons p ms ih => rw [KeyedMembers, ih, List.forall_mem_cons]

theorem properElems_iff {vs : List Value} : ProperElems vs ↔ ∀ v ∈ vs, Proper v := by
  induction vs with
  | nil => simp [ProperElems]
  | cons v vs ih => rw [ProperElems, ih, List.forall_mem_cons]

theorem properMembers_iff {ms : List (String × Value)} :
    ProperMembers ms ↔ ∀ p ∈ ms, Proper p.2 := by
  induction ms with
  | nil => simp [ProperMembers]
  | cons p ms ih => rw [ProperMembers, ih, List.forall_mem_cons]

/-- With distinct keys, a member is found under its key. -/
theorem get?_of_mem {ms : List (String × Value)} {p : String × Value}
    (hnd : (ms.map Prod.fst).Nodup) (hp : p ∈ ms) : Value.get? (.obj ms) p.1 = some p.2 :=
  congrArg (Option.map Prod.snd) (Rows.find_of_mem hnd hp)

theorem mem_of_get? {ms : List (String × Value)} {k : String} {v : Value}
    (h : Value.get? (.obj ms) k = some v) : (k, v) ∈ ms := by
  obtain ⟨p, hp, rfl⟩ := Option.map_eq_some_iff.mp h
  have hkey : p.1 = k := by simpa using List.find?_some hp
  rw [← hkey]
  exact List.mem_of_find?_eq_some hp

/-! ## Members in the order of their keys -/

section Sorting

variable {α β : Type*}

/-- Pairs in the order of their keys. -/
def sortPairs (l : List (String × α)) : List (String × α) :=
  l.mergeSort fun p q => decide (p.1 ≤ q.1)

theorem sortPairs_perm (l : List (String × α)) : (sortPairs l).Perm l := List.mergeSort_perm _ _

theorem pairwise_sortPairs (l : List (String × α)) :
    (sortPairs l).Pairwise fun p q => p.1 ≤ q.1 := by
  refine (List.pairwise_mergeSort ?_ ?_ l).imp fun h => of_decide_eq_true h
  · intro p q r hpq hqr
    exact decide_eq_true ((of_decide_eq_true hpq).trans (of_decide_eq_true hqr))
  · intro p q
    simpa using le_total p.1 q.1

/-- Sorting looks at the keys only. -/
theorem map_sortPairs (f : α → β) (l : List (String × α)) :
    (sortPairs l).map (fun p => (p.1, f p.2)) = sortPairs (l.map fun p => (p.1, f p.2)) :=
  List.map_mergeSort fun _ _ _ _ => rfl

/-- Sorted, the pairs of a map stand in one order. -/
theorem sortPairs_eq {l l' : List (String × α)} (hnd : (l.map Prod.fst).Nodup)
    (h : l.Perm l') : sortPairs l = sortPairs l' := by
  have hanti : ∀ p q, p ∈ sortPairs l → q ∈ sortPairs l' → p.1 ≤ q.1 → q.1 ≤ p.1 → p = q := by
    intro p q hp hq hpq hqp
    exact Rows.eq_of_key_eq hnd ((sortPairs_perm l).mem_iff.mp hp)
      (h.mem_iff.mpr ((sortPairs_perm l').mem_iff.mp hq)) (le_antisymm hpq hqp)
  exact List.Perm.eq_of_pairwise hanti (pairwise_sortPairs l) (pairwise_sortPairs l')
    ((sortPairs_perm l).trans (h.trans (sortPairs_perm l').symm))

end Sorting

mutual
/-- Members in the order of their keys, at every level. -/
def sortKeys : Value → Value
  | .arr a => .arr (sortElems a)
  | .obj m => .obj (sortPairs (sortMembers m))
  | v => v

def sortElems : List Value → List Value
  | [] => []
  | v :: vs => sortKeys v :: sortElems vs

def sortMembers : List (String × Value) → List (String × Value)
  | [] => []
  | (k, v) :: ms => (k, sortKeys v) :: sortMembers ms
end

theorem sortElems_eq_map (vs : List Value) : sortElems vs = vs.map sortKeys := by
  induction vs with
  | nil => rfl
  | cons v vs ih => rw [sortElems, ih, List.map_cons]

theorem sortMembers_eq_map (ms : List (String × Value)) :
    sortMembers ms = ms.map fun p => (p.1, sortKeys p.2) := by
  induction ms with
  | nil => rfl
  | cons p ms ih => rw [sortMembers, ih, List.map_cons]

theorem proper_sortKeys {v : Value} (h : Proper v) : Proper (sortKeys v) := by
  induction v using value_ind with
  | arr a ih =>
      have helems := properElems_iff.mp h
      rw [sortKeys, sortElems_eq_map]
      refine properElems_iff.mpr fun w hw => ?_
      obtain ⟨v, hv, rfl⟩ := List.mem_map.mp hw
      exact ih v hv (helems v hv)
  | obj m ih =>
      have hmembers := properMembers_iff.mp h
      rw [sortKeys, sortMembers_eq_map]
      refine properMembers_iff.mpr fun q hq => ?_
      obtain ⟨p, hp, rfl⟩ := List.mem_map.mp ((sortPairs_perm _).mem_iff.mp hq)
      exact ih p hp (hmembers p hp)
  | _ => exact h

/-! ## One value for each tree -/

/-- What a tree keeps of a value. -/
def canonical (v : Value) : Value := texts (sortKeys v)

theorem canonical_arr (a : List Value) : canonical (.arr a) = .arr (a.map canonical) := by
  rw [canonical, sortKeys, texts, textsElems_eq_map, sortElems_eq_map, List.map_map]
  rfl

theorem canonical_obj (m : List (String × Value)) :
    canonical (.obj m) = .obj (sortPairs (m.map fun p => (p.1, canonical p.2))) := by
  rw [canonical, sortKeys, texts, textsMembers_eq_map, map_sortPairs, sortMembers_eq_map,
    List.map_map]
  rfl

/-- Elements that agree one by one. -/
theorem sameElems_of_map {vs ws : List Value}
    (hsame : ∀ v ∈ vs, ∀ {w}, Keyed w → canonical v = canonical w → SameTree v w)
    (hws : ∀ w ∈ ws, Keyed w) (h : vs.map canonical = ws.map canonical) : SameElems vs ws := by
  induction vs generalizing ws with
  | nil =>
      cases ws with
      | nil => trivial
      | cons w ws => cases h
  | cons v vs ih =>
      cases ws with
      | nil => cases h
      | cons w ws =>
          obtain ⟨hhead, htail⟩ := List.cons_eq_cons.mp h
          exact ⟨hsame v (by simp) (hws w (by simp)) hhead,
            ih (fun x hx => hsame x (by simp [hx])) (fun x hx => hws x (by simp [hx])) htail⟩

theorem sameTree_of_canonical {v w : Value} (hw : Keyed w) (h : canonical v = canonical w) :
    SameTree v w := by
  induction v using value_ind generalizing w with
  | null =>
      cases w with
      | null => trivial
      | _ => simp [canonical, sortKeys, texts] at h
  | bool b =>
      cases w with
      | bool c => simpa [SameTree, canonical, sortKeys, texts] using h
      | _ => simp [canonical, sortKeys, texts] at h
  | num n =>
      cases w with
      | num m => simpa [SameTree, canonical, sortKeys, texts] using h
      | _ => simp [canonical, sortKeys, texts] at h
  | str s =>
      cases w with
      | str t => simpa [SameTree, canonical, sortKeys, texts] using h
      | _ => simp [canonical, sortKeys, texts] at h
  | arr a ih =>
      cases w with
      | arr b =>
          rw [canonical_arr, canonical_arr, Value.arr.injEq] at h
          exact sameElems_of_map ih (keyedElems_iff.mp hw) h
      | _ => simp [canonical, sortKeys, texts] at h
  | obj m ih =>
      cases w with
      | obj n =>
          rw [canonical_obj, canonical_obj, Value.obj.injEq] at h
          have hperm := (sortPairs_perm _).symm.trans ((List.Perm.of_eq h).trans (sortPairs_perm _))
          refine ⟨by simpa using hperm.length_eq, sameMembers_iff.mpr fun p hp => ?_⟩
          obtain ⟨q, hq, heq⟩ := List.mem_map.mp (hperm.mem_iff.mp (List.mem_map_of_mem hp))
          obtain ⟨hkey, hvalue⟩ := Prod.mk.inj heq
          exact ⟨q.2, hkey ▸ get?_of_mem hw.1 hq,
            ih p hp (keyedMembers_iff.mp hw.2 q hq) hvalue.symm⟩
      | _ => simp [canonical, sortKeys, texts] at h

theorem map_of_sameElems {vs ws : List Value}
    (hsame : ∀ v ∈ vs, ∀ {w}, Keyed v → Keyed w → SameTree v w → canonical v = canonical w)
    (hvs : ∀ v ∈ vs, Keyed v) (hws : ∀ w ∈ ws, Keyed w) (h : SameElems vs ws) :
    vs.map canonical = ws.map canonical := by
  induction vs generalizing ws with
  | nil =>
      cases ws with
      | nil => rfl
      | cons w ws => exact h.elim
  | cons v vs ih =>
      cases ws with
      | nil => exact h.elim
      | cons w ws =>
          rw [List.map_cons, List.map_cons,
            hsame v (by simp) (hvs v (by simp)) (hws w (by simp)) h.1,
            ih (fun x hx => hsame x (by simp [hx])) (fun x hx => hvs x (by simp [hx]))
              (fun x hx => hws x (by simp [hx])) h.2]

theorem canonical_of_sameTree {v w : Value} (hv : Keyed v) (hw : Keyed w) (h : SameTree v w) :
    canonical v = canonical w := by
  induction v using value_ind generalizing w with
  | null =>
      cases w with
      | null => rfl
      | _ => exact h.elim
  | bool b =>
      cases w with
      | bool c => simpa [SameTree, canonical, sortKeys, texts] using h
      | _ => exact h.elim
  | num n =>
      cases w with
      | num m => simpa [SameTree, canonical, sortKeys, texts] using h
      | _ => exact h.elim
  | str s =>
      cases w with
      | str t => simpa [SameTree, canonical, sortKeys, texts] using h
      | _ => exact h.elim
  | arr a ih =>
      cases w with
      | arr b =>
          rw [canonical_arr, canonical_arr, Value.arr.injEq]
          exact map_of_sameElems ih (keyedElems_iff.mp hv) (keyedElems_iff.mp hw) h
      | _ => exact h.elim
  | obj m ih =>
      cases w with
      | obj n =>
          have hfst : ∀ l : List (String × Value),
              (l.map fun p => (p.1, canonical p.2)).map Prod.fst = l.map Prod.fst := by simp
          have hnd : ((m.map fun p => (p.1, canonical p.2)).map Prod.fst).Nodup := by
            rw [hfst]
            exact hv.1
          -- each member of the first is one of the second, and they are as many
          have hsub : (m.map fun p => (p.1, canonical p.2)) ⊆
              n.map fun p => (p.1, canonical p.2) := by
            intro x hx
            obtain ⟨p, hp, rfl⟩ := List.mem_map.mp hx
            obtain ⟨u, hu, hsame⟩ := sameMembers_iff.mp h.2 p hp
            have hmem := mem_of_get? hu
            rw [ih p hp (keyedMembers_iff.mp hv.2 p hp) (keyedMembers_iff.mp hw.2 _ hmem) hsame]
            exact List.mem_map_of_mem hmem
          have hperm := (List.subperm_of_subset (hnd.of_map _) hsub).perm_of_length_le
            (by simpa using h.1.ge)
          rw [canonical_obj, canonical_obj, sortPairs_eq hnd hperm]
      | _ => exact h.elim

/-- **Values are one tree exactly if, sorted, they are equal** up to how their
numbers are kept. -/
theorem canonical_eq_iff {v w : Value} (hv : Keyed v) (hw : Keyed w) :
    canonical v = canonical w ↔ SameTree v w :=
  ⟨sameTree_of_canonical hw, canonical_of_sameTree hv hw⟩

end Dokan.Verified.JsonTree
