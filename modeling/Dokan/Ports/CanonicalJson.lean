import Dokan.Verified.JsonTree
import Dokan.Ports.RecallKey

/-!
# Canonical inputs

`canonical_json` sorts the keys of every object before it writes them, so it
does not rely on the order in which a map hands out its members.  Here the
members of a value stand in any order; what the text is read for is the tree.

## Main results

* `canonicalText_eq` — the text is that of the value with its members sorted.
* `canonicalText_eq_iff` — two values have one text exactly if they are one tree.
* `runCacheKey_congr` — the order of an input's members is no part of a key.
-/

namespace Dokan.Ports.CanonicalJson

open Dokan.Verified
open Dokan.Verified.Json
open Dokan.Verified.JsonText
open Dokan.Verified.JsonTree
open Dokan.Ports.CacheKey
open Dokan.Ports.Receipt

/-- The text of `m[k]`. -/
def textOf (inner : List (String × String)) (k : String) : String :=
  ((inner.find? fun p => p.1 == k).map Prod.snd).getD ""

mutual
/-- `mcp::canonical_json`. -/
def canonicalText (plain : Char → Bool) : Value → String
  | .obj m =>
      let keys := (m.map Prod.fst).mergeSort fun k l => decide (k ≤ l)
      let inner := keys.map fun k =>
        debugString plain k ++ ":" ++ textOf (memberTexts plain m) k
      "\x7b" ++ ",".intercalate inner ++ "\x7d"
  | .arr a => "[" ++ ",".intercalate (elemTexts plain a) ++ "]"
  | .null => Value.print .null
  | .bool b => Value.print (.bool b)
  | .num n => Value.print (.num n)
  | .str s => Value.print (.str s)

def elemTexts (plain : Char → Bool) : List Value → List String
  | [] => []
  | v :: vs => canonicalText plain v :: elemTexts plain vs

/-- Each member's key, and its text. -/
def memberTexts (plain : Char → Bool) : List (String × Value) → List (String × String)
  | [] => []
  | (k, v) :: ms => (k, canonicalText plain v) :: memberTexts plain ms
end

section Canonical

variable {plain : Char → Bool}

theorem elemTexts_eq_map (vs : List Value) :
    elemTexts plain vs = vs.map (canonicalText plain) := by
  induction vs with
  | nil => rfl
  | cons v vs ih => rw [elemTexts, ih, List.map_cons]

theorem memberTexts_eq_map (ms : List (String × Value)) :
    memberTexts plain ms = ms.map fun p => (p.1, canonicalText plain p.2) := by
  induction ms with
  | nil => rfl
  | cons p ms ih => rw [memberTexts, ih, List.map_cons]

theorem canonicalElems_eq_map (vs : List Value) :
    canonicalElems plain vs = vs.map (canonicalJson plain) := by
  induction vs with
  | nil => rfl
  | cons v vs ih => rw [canonicalElems, ih, List.map_cons]

theorem canonicalMembers_eq_map (ms : List (String × Value)) :
    canonicalMembers plain ms =
      ms.map fun p => debugString plain p.1 ++ ":" ++ canonicalJson plain p.2 := by
  induction ms with
  | nil => rfl
  | cons p ms ih => rw [canonicalMembers, ih, List.map_cons]

/-- `m[k]` is the text of the member of that key. -/
theorem textOf_memberTexts {ms : List (String × Value)} {p : String × Value}
    (hnd : (ms.map Prod.fst).Nodup) (hp : p ∈ ms) :
    textOf (memberTexts plain ms) p.1 = canonicalText plain p.2 := by
  have hkeys : ((memberTexts plain ms).map Prod.fst).Nodup := by
    rw [memberTexts_eq_map, List.map_map]
    exact hnd
  have hmem : (p.1, canonicalText plain p.2) ∈ memberTexts plain ms := by
    rw [memberTexts_eq_map]
    exact List.mem_map_of_mem hp
  have hfind : (memberTexts plain ms).find? (fun q => q.1 == p.1) =
      some (p.1, canonicalText plain p.2) := Rows.find_of_mem hkeys hmem
  rw [textOf, hfind]
  rfl

/-- The sorted keys are the keys of the sorted members. -/
theorem sortedKeys_eq (ms : List (String × Value)) :
    (ms.map Prod.fst).mergeSort (fun k l => decide (k ≤ l)) = (sortPairs ms).map Prod.fst := by
  rw [sortPairs, List.map_mergeSort]
  exact fun _ _ _ _ => rfl

/-- **The text is that of the value with its members sorted.** -/
theorem canonicalText_eq {v : Value} (hv : Keyed v) :
    canonicalText plain v = canonicalJson plain (sortKeys v) := by
  induction v using value_ind with
  | arr a ih =>
      have helems : a.map (canonicalText plain) =
          a.map (canonicalJson plain ∘ sortKeys) :=
        List.map_congr_left fun v hmem => ih v hmem (keyedElems_iff.mp hv v hmem)
      rw [canonicalText, elemTexts_eq_map, sortKeys, canonicalJson, canonicalElems_eq_map,
        sortElems_eq_map, List.map_map, helems]
  | obj m ih =>
      rw [canonicalText, sortKeys, canonicalJson, canonicalMembers_eq_map, sortMembers_eq_map,
        ← map_sortPairs, sortedKeys_eq, List.map_map, List.map_map]
      congr 3
      refine List.map_congr_left fun p hp => ?_
      have hmem : p ∈ m := (sortPairs_perm m).mem_iff.mp hp
      simp only [Function.comp_apply]
      rw [textOf_memberTexts hv.1 hmem, ih p hmem (keyedMembers_iff.mp hv.2 p hmem)]
  | _ => rfl

/-- Values of one text have the same members, in the same order. -/
theorem canonicalJson_eq_iff {v w : Value} (hv : Proper v) (hw : Proper w) :
    canonicalJson plain v = canonicalJson plain w ↔ texts v = texts w := by
  rw [← String.toList_inj, toList_canonicalJson, toList_canonicalJson]
  constructor
  · intro h
    have hend : Stops [] := fun c hc => by cases hc
    exact (chars_reads (debugString_code plain) v w [] [] hv hw hend hend
      (by rw [List.append_nil, List.append_nil, h])).1
  · intro h
    rw [← chars_texts, h, chars_texts]

end Canonical

/-- **Two values have one canonical text exactly if they are one tree.** -/
theorem canonicalText_eq_iff (plain : Char → Bool) (a b : Tree) :
    canonicalText plain a.value = canonicalText plain b.value ↔ SameTree a.value b.value := by
  rw [canonicalText_eq a.keyed, canonicalText_eq b.keyed,
    canonicalJson_eq_iff (proper_sortKeys a.proper) (proper_sortKeys b.proper)]
  exact canonical_eq_iff a.keyed b.keyed

/-- **The order of an input's members is no part of a key.** -/
theorem runCacheKey_congr {C : Crypto} {plain : Char → Bool} {runtime imageDigest source : String}
    {a b : Tree} {secretsGen : Int} {inputBlobs : Option Value}
    (h : SameTree a.value b.value) :
    runCacheKey C plain runtime imageDigest source (sortKeys a.value) secretsGen inputBlobs =
      runCacheKey C plain runtime imageDigest source (sortKeys b.value) secretsGen inputBlobs := by
  have htexts : texts (sortKeys a.value) = texts (sortKeys b.value) :=
    canonical_of_sameTree a.keyed b.keyed h
  have htext : canonicalJson plain (sortKeys a.value) = canonicalJson plain (sortKeys b.value) :=
    (canonicalJson_eq_iff (proper_sortKeys a.proper) (proper_sortKeys b.proper)).mpr htexts
  rw [runCacheKey, runCacheKey, keyMessage, keyMessage, htext]

end Dokan.Ports.CanonicalJson
