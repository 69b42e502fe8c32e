import Mathlib

/-!
# Counting the entries of a table

`tally p n` is how many of the first `n` ids satisfy `p`.  A table whose ids
come from a counter has nothing at or past it, so the tally up to the counter
counts the whole table.

## Main results

* `tally_of_ne` — the tally after a change at one id.
* `tally_add` — the tally after ids were added.
* `tally_getElem?` — the tally over a list is its `countP`.
-/

namespace Dokan.Verified.Tally

/-- How many of the first `n` ids satisfy `p`. -/
def tally (p : Nat → Bool) (n : Nat) : Nat := (List.range n).countP p

variable {p p' : Nat → Bool} {n t : Nat}

@[simp] theorem tally_zero (p : Nat → Bool) : tally p 0 = 0 := rfl

theorem tally_succ (p : Nat → Bool) (n : Nat) :
    tally p (n + 1) = tally p n + (p n).toNat := by
  rw [tally, tally, List.range_succ, List.countP_append, List.countP_singleton]
  cases p n <;> rfl

/-- The tally reads `p` below `n` only. -/
theorem tally_congr (h : ∀ i, i < n → p' i = p i) : tally p' n = tally p n := by
  refine List.countP_congr fun i hi => ?_
  rw [h i (List.mem_range.mp hi)]

theorem tally_mono (h : ∀ i, i < n → p i = true → p' i = true) :
    tally p n ≤ tally p' n :=
  List.countP_mono_left fun i hi => h i (List.mem_range.mp hi)

/-- What is counted was counted before, or is counted on its own. -/
theorem tally_le_add {c : Nat → Bool} (h : ∀ i, i < n → p' i = true → p i = true ∨ c i = true) :
    tally p' n ≤ tally p n + tally c n := by
  induction n with
  | zero => exact Nat.le_refl 0
  | succ n ih =>
      have hbelow := ih fun i hi => h i (Nat.lt_succ_of_lt hi)
      have htop : (p' n).toNat ≤ (p n).toNat + (c n).toNat := by
        cases hp' : p' n with
        | false => exact Nat.zero_le _
        | true => rcases h n (Nat.lt_succ_self n) hp' with hp | hc <;> simp [*]
      rw [tally_succ, tally_succ, tally_succ]
      omega

/-- A change at the one id `t`. -/
theorem tally_of_ne (ht : t < n) (hne : ∀ i, i ≠ t → p' i = p i) :
    tally p' n + (p t).toNat = tally p n + (p' t).toNat := by
  induction n with
  | zero => exact absurd ht (Nat.not_lt_zero t)
  | succ n ih =>
      rw [tally_succ, tally_succ]
      by_cases heq : t = n
      · subst heq
        have hbelow : tally p' t = tally p t :=
          tally_congr fun i hi => hne i (Nat.ne_of_lt hi)
        omega
      · have hrest := ih (by omega)
        have htop : p' n = p n := hne n (Ne.symm heq)
        rw [htop]
        omega

/-- Ids added at the end are counted on their own. -/
theorem tally_add (p : Nat → Bool) (n k : Nat) :
    tally p (n + k) = tally p n + tally (fun i => p (n + i)) k := by
  induction k with
  | zero => rfl
  | succ k ih => rw [← Nat.add_assoc, tally_succ, tally_succ, ih, Nat.add_assoc]

theorem tally_eq_zero (h : ∀ i, i < n → p i = false) : tally p n = 0 := by
  refine List.countP_eq_zero.mpr fun i hi => ?_
  simp [h i (List.mem_range.mp hi)]

/-- Nothing at or past `n` is counted, however far the tally goes. -/
theorem tally_of_le {m : Nat} (h : ∀ i, n ≤ i → p i = false) (hle : n ≤ m) :
    tally p m = tally p n := by
  obtain ⟨k, rfl⟩ := Nat.exists_eq_add_of_le hle
  have hzero : tally (fun i => p (n + i)) k = 0 :=
    tally_eq_zero fun i _ => h (n + i) (Nat.le_add_right n i)
  rw [tally_add, hzero, Nat.add_zero]

/-- The entries of a list, numbered from zero. -/
theorem tally_getElem? {α : Type} (f : α → Bool) (l : List α) :
    tally (fun i => (l[i]?).any f) l.length = l.countP f := by
  induction l using List.reverseRecOn with
  | nil => rfl
  | append_singleton l a ih =>
      have hbelow : tally (fun i => ((l ++ [a])[i]?).any f) l.length =
          tally (fun i => (l[i]?).any f) l.length := by
        refine tally_congr fun i hi => ?_
        rw [List.getElem?_append_left hi]
      rw [List.length_append, List.length_singleton, tally_succ, hbelow, ih,
        List.countP_append, List.countP_singleton, List.getElem?_concat_length,
        Option.any_some]
      cases f a <;> rfl

end Dokan.Verified.Tally
