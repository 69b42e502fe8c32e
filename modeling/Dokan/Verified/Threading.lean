import Mathlib

/-!
# Values handed from key to key

Keys in ascending order each get a value, made of the value of the key before.
`value` is what has been written so far; `thread` is what comes of making one value
after the other.

## Main results

* `last_below_eq_thread` — where every key's value was made of the last one below the
  key, the last value below any key is what the thread of the keys below it comes to.
-/

namespace Dokan.Verified.Threading

universe u v

variable {K : Type u} {V : Type v} [LinearOrder K]

/-- The keys below `r`. -/
def below (r : K) (ks : List K) : List K := ks.filter fun k => k < r

/-- The value of the last key. -/
def last (value : K → Option V) (ks : List K) : Option V := ks.getLast?.bind value

/-- One value after the other. -/
def thread (f : K → Option V → V) (ks : List K) : Option V :=
  ks.foldl (fun v k => some (f k v)) none

/-- A key is added behind the others, once. -/
def record (k : K) (ks : List K) : List K := if k ∈ ks then ks else ks ++ [k]

section Lemmas

variable {value value' : K → Option V} {f : K → Option V → V} {ks : List K} {k r : K}

theorem mem_below : k ∈ below r ks ↔ k ∈ ks ∧ k < r := by simp [below]

theorem mem_record : r ∈ record k ks ↔ r ∈ ks ∨ r = k := by
  unfold record
  split_ifs with hk
  · exact ⟨.inl, fun h => h.elim id fun heq => heq ▸ hk⟩
  · simp

theorem below_concat_of_le (hk : r ≤ k) : below r (ks ++ [k]) = below r ks := by
  simp [below, not_lt.mpr hk]

/-- A key that is not below `r` leaves the keys below `r`. -/
theorem below_record (hk : r ≤ k) : below r (record k ks) = below r ks := by
  unfold record
  split_ifs
  · rfl
  · exact below_concat_of_le hk

theorem below_below (hk : k ≤ r) : below k (below r ks) = below k ks := by
  simp only [below, List.filter_filter]
  refine List.filter_congr fun x _ => ?_
  rw [Bool.and_eq_left_iff_imp]
  intro hx
  exact decide_eq_true ((of_decide_eq_true hx).trans_le hk)

theorem below_eq_self (h : ∀ x ∈ ks, x < r) : below r ks = ks :=
  List.filter_eq_self.mpr fun x hx => decide_eq_true (h x hx)

theorem sorted_record (hs : ks.Pairwise (· < ·)) (hk : ∀ x ∈ ks, x ≤ k) :
    (record k ks).Pairwise (· < ·) := by
  unfold record
  split_ifs with hmem
  · exact hs
  · refine List.pairwise_append.mpr ⟨hs, List.pairwise_singleton _ _, ?_⟩
    intro x hx y hy
    rw [List.mem_singleton.mp hy]
    exact lt_of_le_of_ne (hk x hx) fun heq => hmem (heq ▸ hx)

/-- The last of ascending keys is the greatest. -/
theorem le_getLast (hs : ks.Pairwise (· < ·)) (hk : ks.getLast? = some k) (hr : r ∈ ks) :
    r ≤ k := by
  induction ks using List.reverseRecOn with
  | nil => cases hr
  | append_singleton ks x _ =>
      rw [List.getLast?_concat] at hk
      cases hk
      rcases List.mem_append.mp hr with hr | hr
      · exact ((List.pairwise_append.mp hs).2.2 r hr _ List.mem_cons_self).le
      · exact (List.mem_singleton.mp hr).le

omit [LinearOrder K] in
/-- Two writings that agree on the keys have one last value. -/
theorem last_congr (h : ∀ x ∈ ks, value x = value' x) : last value ks = last value' ks := by
  unfold last
  cases hk : ks.getLast? with
  | none => rfl
  | some k => exact h k (List.mem_of_getLast? hk)

omit [LinearOrder K] in
theorem last_concat : last value (ks ++ [k]) = value k := by
  rw [last, List.getLast?_concat, Option.bind_some]

/-- **Threading.**  Keys whose values were each made of the last one below come to
what their thread comes to. -/
theorem last_eq_thread (hs : ks.Pairwise (· < ·))
    (hf : ∀ k ∈ ks, value k = some (f k (last value (below k ks)))) :
    last value ks = thread f ks := by
  induction ks using List.reverseRecOn with
  | nil => rfl
  | append_singleton ks k ih =>
      obtain ⟨hs', -, hlt⟩ := List.pairwise_append.mp hs
      have hbelow : ∀ x ∈ ks, x < k := fun x hx => hlt x hx k List.mem_cons_self
      have hprev : last value ks = thread f ks := by
        refine ih hs' fun x hx => ?_
        rw [hf x (List.mem_append_left _ hx), below_concat_of_le (hbelow x hx).le]
      rw [last_concat, hf k (List.mem_append_right _ List.mem_cons_self),
        below_concat_of_le le_rfl, below_eq_self hbelow, hprev, thread, thread, List.foldl_append]
      rfl

/-- The same below a key. -/
theorem last_below_eq_thread (hs : ks.Pairwise (· < ·))
    (hf : ∀ k ∈ ks, value k = some (f k (last value (below k ks)))) (r : K) :
    last value (below r ks) = thread f (below r ks) := by
  refine last_eq_thread (hs.sublist List.filter_sublist) fun k hk => ?_
  obtain ⟨hmem, hlt⟩ := mem_below.mp hk
  rw [hf k hmem, below_below hlt.le]

end Lemmas

end Dokan.Verified.Threading
