import Dokan.Verified.Machine

/-!
# What a run spends and what it earns

A quantity of the state pays for the steps of a machine: a step may spend some
of it and earn some.  Summed over a run, what was spent is at most what there
was at its start and what was earned on the way.

## Main results

* `balance_run` — the balance of a run from those of its steps.
-/

namespace Dokan.Verified.Balance

open Dokan.Verified.Machine

universe u v

variable {σ : Type u} {α : Type v} {step : σ → α → Option σ}

/-- A weight of steps, summed over the run of `l` from `s`. -/
def total (step : σ → α → Option σ) (weight : σ → α → Nat) : σ → List α → Nat
  | _, [] => 0
  | s, a :: l =>
      weight s a +
        match step s a with
        | some s' => total step weight s' l
        | none => 0

theorem total_cons {weight : σ → α → Nat} {s s' : σ} {a : α} {l : List α}
    (h : step s a = some s') :
    total step weight s (a :: l) = weight s a + total step weight s' l := by
  rw [total, h]

/-- **Balance rule.**  If no step spends more of `μ` than it earns or takes from
it, no run does. -/
theorem balance_run {I : σ → Prop} {spent earned : σ → α → Nat} (μ : σ → Nat)
    (hstep : ∀ s a s', I s → step s a = some s' →
      I s' ∧ μ s' + spent s a ≤ μ s + earned s a)
    {s t : σ} {l : List α} (hI : I s) (hrun : run step s l = some t) :
    μ t + total step spent s l ≤ μ s + total step earned s l := by
  induction l generalizing s with
  | nil =>
      cases hrun
      exact Nat.le_refl _
  | cons a l ih =>
      obtain ⟨s', hs', hrest⟩ := run_cons_some hrun
      obtain ⟨hI', hle⟩ := hstep s a s' hI hs'
      have htail := ih hI' hrest
      rw [total_cons hs', total_cons hs']
      omega

end Dokan.Verified.Balance
