import Mathlib

/-!
# Things that are in one place at a time

`hold p` lists what is at the place `p`.  When no place lists a thing twice and
no two places list the same thing, each thing has at most one owner; things may
then be moved from one place to another, and new things may be put anywhere.

## Main results

* `Moves.mem_iff` — where each thing is after a move.
* `Apart.move`, `Apart.add` — moves and additions keep things in one place.
-/

namespace Dokan.Verified.Custody

universe u v

variable {P : Type u} {ι : Type v} {hold hold' : P → List ι} {xs : List ι} {x y : ι} {p q r : P}

/-- Nothing is listed twice, at one place or at two. -/
structure Apart (hold : P → List ι) : Prop where
  nodup : ∀ p, (hold p).Nodup
  one : ∀ {x p q}, x ∈ hold p → x ∈ hold q → p = q

/-- `xs` go from `p` to `q`. -/
structure Moves (hold hold' : P → List ι) (xs : List ι) (p q : P) : Prop where
  ne : p ≠ q
  source : (hold p).Perm (xs ++ hold' p)
  target : (hold' q).Perm (xs ++ hold q)
  rest : ∀ r, r ≠ p → r ≠ q → hold' r = hold r

/-- `x` is put at `q`. -/
structure Adds (hold hold' : P → List ι) (x : ι) (q : P) : Prop where
  target : (hold' q).Perm (x :: hold q)
  rest : ∀ r, r ≠ q → hold' r = hold r

/-- **After a move.**  What is moved is at `q`, everything else is where it was. -/
theorem Moves.mem_iff (h : Moves hold hold' xs p q) (hA : Apart hold) :
    y ∈ hold' r ↔ (y ∈ xs ∧ r = q) ∨ (y ∉ xs ∧ y ∈ hold r) := by
  have hsource : y ∈ xs → y ∈ hold p := fun hy => h.source.mem_iff.mpr (List.mem_append_left _ hy)
  by_cases hp : r = p
  · subst hp
    have hnd := h.source.nodup_iff.mp (hA.nodup r)
    have hmem : y ∈ hold r ↔ y ∈ xs ∨ y ∈ hold' r := by
      rw [h.source.mem_iff, List.mem_append]
    constructor
    · intro hy
      exact .inr ⟨fun hxs => (List.nodup_append.mp hnd).2.2 y hxs y hy rfl, hmem.mpr (.inr hy)⟩
    · rintro (⟨_, hq⟩ | ⟨hxs, hy⟩)
      · exact absurd hq h.ne
      · exact (hmem.mp hy).resolve_left hxs
  · by_cases hq : r = q
    · subst hq
      rw [h.target.mem_iff, List.mem_append]
      by_cases hxs : y ∈ xs
      · simp [hxs]
      · simp [hxs]
    · rw [h.rest r hp hq]
      constructor
      · intro hy
        exact .inr ⟨fun hxs => hp (hA.one hy (hsource hxs)), hy⟩
      · rintro (⟨_, hrq⟩ | ⟨_, hy⟩)
        · exact absurd hrq hq
        · exact hy

/-- **Moving.** -/
theorem Apart.move (hA : Apart hold) (h : Moves hold hold' xs p q) : Apart hold' := by
  constructor
  · intro r
    by_cases hp : r = p
    · subst hp
      exact (List.nodup_append.mp (h.source.nodup_iff.mp (hA.nodup r))).2.1
    · by_cases hq : r = q
      · subst hq
        have hxs := (List.nodup_append.mp (h.source.nodup_iff.mp (hA.nodup p))).1
        refine h.target.nodup_iff.mpr (List.nodup_append.mpr ⟨hxs, hA.nodup r, ?_⟩)
        rintro y hy z hz rfl
        exact h.ne (hA.one (h.source.mem_iff.mpr (List.mem_append_left _ hy)) hz)
      · rw [h.rest r hp hq]
        exact hA.nodup r
  · intro y r t hr ht
    rcases (h.mem_iff hA).mp hr with ⟨hy, rfl⟩ | ⟨hy, hr⟩
    · rcases (h.mem_iff hA).mp ht with ⟨_, rfl⟩ | ⟨hy', _⟩
      · rfl
      · exact absurd hy hy'
    · rcases (h.mem_iff hA).mp ht with ⟨hy', _⟩ | ⟨_, ht⟩
      · exact absurd hy' hy
      · exact hA.one hr ht

/-- After an addition. -/
theorem Adds.mem_iff (h : Adds hold hold' x q) : y ∈ hold' r ↔ (y = x ∧ r = q) ∨ y ∈ hold r := by
  by_cases hq : r = q
  · subst hq
    rw [h.target.mem_iff, List.mem_cons]
    simp
  · rw [h.rest r hq]
    simp [hq]

/-- **Adding** a thing that is nowhere. -/
theorem Apart.add (hA : Apart hold) (h : Adds hold hold' x q) (hx : ∀ r, x ∉ hold r) :
    Apart hold' := by
  constructor
  · intro r
    by_cases hq : r = q
    · subst hq
      exact h.target.nodup_iff.mpr (List.nodup_cons.mpr ⟨hx r, hA.nodup r⟩)
    · rw [h.rest r hq]
      exact hA.nodup r
  · intro y r t hr ht
    rcases h.mem_iff.mp hr with ⟨rfl, rfl⟩ | hr
    · rcases h.mem_iff.mp ht with ⟨_, rfl⟩ | ht
      · rfl
      · exact absurd ht (hx t)
    · rcases h.mem_iff.mp ht with ⟨rfl, _⟩ | ht
      · exact absurd hr (hx r)
      · exact hA.one hr ht

end Dokan.Verified.Custody
