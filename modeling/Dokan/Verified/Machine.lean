import Mathlib

/-!
# Labelled machines and the runs they make

A machine is a partial step function `step : σ → α → Option σ`.  Everything
the environment chooses — which task moves next, what a remote call answers,
where a process dies — is part of the label, so one label has at most one
successor and a whole interleaving is a list of labels.

`run` executes such a list.  `Along step C s l` says that every step of the
run of `l` from `s` is taken in a state in which the condition `C` allows it;
a condition of this kind is how an assumption on the environment (or on the
inputs that avoid a defect) enters a theorem about runs.

## Main results

* `inv_run` — an invariant that every allowed step keeps holds after every
  allowed run.
* `run_append`, `along_append` — a run may be cut anywhere, which is how
  "from then on" properties are stated.
* `along_or_run_of`, `along_or_run` — the first step that fails a condition
  decides where a run ends.
* `count_run_le` — a measure that every counted step lowers, and no other
  step raises, bounds the number of counted steps of any run.
-/

namespace Dokan.Verified.Machine

universe u v

variable {σ : Type u} {α : Type v} (step : σ → α → Option σ)

/-- The state after the labels `l`, if every one of them is enabled. -/
def run : σ → List α → Option σ
  | s, [] => some s
  | s, a :: l => (step s a).bind fun s' => run s' l

/-- Every step of the run of `l` from `s` meets `C` in its pre-state. -/
def Along (C : σ → α → Prop) : σ → List α → Prop
  | _, [] => True
  | s, a :: l => C s a ∧ ∀ s', step s a = some s' → Along C s' l

variable {step}

@[simp] theorem run_nil (s : σ) : run step s [] = some s := rfl

theorem run_cons (s : σ) (a : α) (l : List α) :
    run step s (a :: l) = (step s a).bind fun s' => run step s' l := rfl

/-- Peeling the first label off a successful run. -/
theorem run_cons_some {s t : σ} {a : α} {l : List α}
    (h : run step s (a :: l) = some t) :
    ∃ s', step s a = some s' ∧ run step s' l = some t := by
  rw [run_cons, Option.bind_eq_some_iff] at h
  exact h

theorem run_append (s : σ) (l₁ l₂ : List α) :
    run step s (l₁ ++ l₂) = (run step s l₁).bind fun s' => run step s' l₂ := by
  induction l₁ generalizing s with
  | nil => rfl
  | cons a l₁ ih =>
      simp only [List.cons_append, run_cons, Option.bind_assoc]
      congr 1
      funext s'
      exact ih s'

/-- The condition holds along both halves of a run. -/
theorem along_append {C : σ → α → Prop} {s : σ} {l₁ l₂ : List α}
    (h : Along step C s (l₁ ++ l₂)) :
    Along step C s l₁ ∧ ∀ m, run step s l₁ = some m → Along step C m l₂ := by
  induction l₁ generalizing s with
  | nil =>
      refine ⟨trivial, ?_⟩
      intro m hm
      cases hm
      exact h
  | cons a l₁ ih =>
      obtain ⟨ha, hrest⟩ := h
      refine ⟨⟨ha, fun s' hs' => (ih (hrest s' hs')).1⟩, ?_⟩
      intro m hm
      obtain ⟨s', hs', hm'⟩ := run_cons_some hm
      exact (ih (hrest s' hs')).2 m hm'

/-- The condition along a run that goes on after it. -/
theorem Along.append {C : σ → α → Prop} {s m : σ} {l₁ l₂ : List α}
    (h₁ : Along step C s l₁) (hm : run step s l₁ = some m) (h₂ : Along step C m l₂) :
    Along step C s (l₁ ++ l₂) := by
  induction l₁ generalizing s with
  | nil =>
      cases hm
      exact h₂
  | cons a l₁ ih =>
      refine ⟨h₁.1, fun s' hs' => ?_⟩
      obtain ⟨t, ht, hrest⟩ := run_cons_some hm
      cases hs'.symm.trans ht
      exact ih (h₁.2 s' hs') hrest

/-- The condition along a run whose first step is known. -/
theorem along_cons {C : σ → α → Prop} {s s' : σ} {a : α} {l : List α}
    (hstep : step s a = some s') (ha : C s a) (hrest : Along step C s' l) :
    Along step C s (a :: l) := by
  refine ⟨ha, ?_⟩
  intro t ht
  rw [hstep] at ht
  cases ht
  exact hrest

/-- A condition may be weakened along a run. -/
theorem Along.mono {C D : σ → α → Prop} (hCD : ∀ s a, C s a → D s a)
    {s : σ} {l : List α} (h : Along step C s l) : Along step D s l := by
  induction l generalizing s with
  | nil => trivial
  | cons a l ih => exact ⟨hCD s a h.1, fun s' hs' => ih (h.2 s' hs')⟩

/-- Two conditions along one run. -/
theorem Along.and {C D : σ → α → Prop} {s : σ} {l : List α}
    (hC : Along step C s l) (hD : Along step D s l) :
    Along step (fun s a => C s a ∧ D s a) s l := by
  induction l generalizing s with
  | nil => trivial
  | cons a l ih => exact ⟨⟨hC.1, hD.1⟩, fun s' hs' => ih (hC.2 s' hs') (hD.2 s' hs')⟩

/-- A condition that asks nothing of the state is a condition on the labels. -/
theorem along_of_forall {P : α → Prop} {s : σ} {l : List α}
    (h : ∀ a ∈ l, P a) : Along step (fun _ a => P a) s l := by
  induction l generalizing s with
  | nil => trivial
  | cons a l ih =>
      exact ⟨h a (by simp), fun _ _ => ih fun b hb => h b (by simp [hb])⟩

/-- A condition that some labels meet in every state. -/
theorem along_of_mem {C : σ → α → Prop} {s : σ} {l : List α}
    (h : ∀ a ∈ l, ∀ s, C s a) : Along step C s l :=
  (along_of_forall h).mono fun s _ ha => ha s

/-- A decidable condition is decidable along a run. -/
instance decidableAlong {C : σ → α → Prop} [∀ s a, Decidable (C s a)] :
    ∀ (s : σ) (l : List α), Decidable (Along step C s l)
  | _, [] => .isTrue trivial
  | s, a :: l =>
      match hstep : step s a with
      | none => decidable_of_iff (C s a) ⟨fun h => ⟨h, by simp [hstep]⟩, fun h => h.1⟩
      | some s' =>
          have := decidableAlong (C := C) s' l
          decidable_of_iff (C s a ∧ Along step C s' l)
            ⟨fun h => along_cons hstep h.1 h.2, fun h => ⟨h.1, h.2 s' hstep⟩⟩

/-- **Invariant rule.**  What every allowed step keeps, every allowed run
keeps. -/
theorem inv_run {C : σ → α → Prop} {I : σ → Prop}
    (hstep : ∀ s a s', I s → C s a → step s a = some s' → I s')
    {s t : σ} {l : List α} (hI : I s) (hC : Along step C s l)
    (hrun : run step s l = some t) : I t := by
  induction l generalizing s with
  | nil =>
      cases hrun
      exact hI
  | cons a l ih =>
      obtain ⟨s', hs', hrest⟩ := run_cons_some hrun
      exact ih (hstep s a s' hI hC.1 hs') (hC.2 s' hs') hrest

/-- A condition may be replaced along a run by what it says of states that meet
an invariant it keeps. -/
theorem Along.of_inv {C D : σ → α → Prop} {I : σ → Prop}
    (hstep : ∀ s a s', I s → C s a → step s a = some s' → I s')
    (hCD : ∀ s a, I s → C s a → D s a) {s : σ} {l : List α} (hI : I s)
    (h : Along step C s l) : Along step D s l := by
  induction l generalizing s with
  | nil => trivial
  | cons a l ih =>
      exact ⟨hCD s a hI h.1, fun s' hs' => ih (hstep s a s' hI h.1 hs') (h.2 s' hs')⟩

/-- **Relational invariant rule.**  A reflexive and transitive relation that
holds across every allowed step of invariant states holds across every
allowed run. -/
theorem rel_run {C : σ → α → Prop} {I : σ → Prop} {R : σ → σ → Prop}
    (hrefl : ∀ s, R s s) (htrans : ∀ s t r, R s t → R t r → R s r)
    (hstep : ∀ s a s', I s → C s a → step s a = some s' → I s' ∧ R s s')
    {s t : σ} {l : List α} (hI : I s) (hC : Along step C s l)
    (hrun : run step s l = some t) : R s t := by
  induction l generalizing s with
  | nil =>
      cases hrun
      exact hrefl _
  | cons a l ih =>
      obtain ⟨s', hs', hrest⟩ := run_cons_some hrun
      obtain ⟨hI', hR⟩ := hstep s a s' hI hC.1 hs'
      exact htrans s s' t hR (ih hI' (hC.2 s' hs') hrest)

/-- A history that ends with `e`, cut before an entry. -/
theorem split_concat {l l₁ l₂ : List α} {e x : α} (h : l ++ [e] = l₁ ++ x :: l₂) :
    l₂ = [] ∧ l = l₁ ∧ e = x ∨ ∃ l₃, l₂ = l₃ ++ [e] ∧ l = l₁ ++ x :: l₃ := by
  rcases List.eq_nil_or_concat l₂ with rfl | ⟨l₃, e', rfl⟩
  · obtain ⟨hl, he⟩ := List.append_inj' h rfl
    exact .inl ⟨rfl, hl, List.head_eq_of_cons_eq he⟩
  · rw [List.concat_eq_append, ← List.cons_append, ← List.append_assoc] at h
    obtain ⟨hl, he⟩ := List.append_inj' h rfl
    cases he
    exact .inr ⟨l₃, List.concat_eq_append, hl⟩

/-- **Either rule, under a promise.**  Along the steps that meet `D`, `I` lasts
as long as they meet `C` too, and the first one that does not leads to `J` for
good: where a run ends says whether all its steps met `C`. -/
theorem along_or_run_of {C D : σ → α → Prop} {I J : σ → Prop}
    (hstay : ∀ s a s', I s → D s a → C s a → step s a = some s' → I s')
    (hleave : ∀ s a s', I s → D s a → ¬ C s a → step s a = some s' → J s')
    (hgone : ∀ s a s', J s → D s a → step s a = some s' → J s')
    {s t : σ} {l : List α} (hI : I s) (hD : Along step D s l)
    (hrun : run step s l = some t) :
    Along step C s l ∧ I t ∨ ¬ Along step C s l ∧ J t := by
  induction l generalizing s with
  | nil =>
      cases hrun
      exact .inl ⟨trivial, hI⟩
  | cons a l ih =>
      obtain ⟨s', hs', hrest⟩ := run_cons_some hrun
      by_cases hC : C s a
      · rcases ih (hstay s a s' hI hD.1 hC hs') (hD.2 s' hs') hrest with
          ⟨hal, ht⟩ | ⟨hal, ht⟩
        · exact .inl ⟨along_cons hs' hC hal, ht⟩
        · exact .inr ⟨fun h => hal (h.2 s' hs'), ht⟩
      · have hJ : J t := inv_run hgone (hleave s a s' hI hD.1 hC hs') (hD.2 s' hs') hrest
        exact .inr ⟨fun h => hC h.1, hJ⟩

/-- **Either rule.**  `I` lasts as long as the steps meet `C`, and the first
one that does not leads to `J` for good: where a run ends says whether all its
steps met `C`. -/
theorem along_or_run {C : σ → α → Prop} {I J : σ → Prop}
    (hstay : ∀ s a s', I s → C s a → step s a = some s' → I s')
    (hleave : ∀ s a s', I s → ¬ C s a → step s a = some s' → J s')
    (hgone : ∀ s a s', J s → step s a = some s' → J s')
    {s t : σ} {l : List α} (hI : I s) (hrun : run step s l = some t) :
    Along step C s l ∧ I t ∨ ¬ Along step C s l ∧ J t :=
  along_or_run_of (D := fun _ _ => True) (fun s a s' hI _ => hstay s a s' hI)
    (fun s a s' hI _ => hleave s a s' hI) (fun s a s' hJ _ => hgone s a s' hJ) hI
    (along_of_forall fun _ _ => trivial) hrun

/-- **Measure rule.**  If every counted step lowers `μ` and no other allowed
step raises it, a run makes at most `μ s` counted steps. -/
theorem count_run_le {C : σ → α → Prop} {I : σ → Prop} (counted : α → Bool)
    (μ : σ → Nat)
    (hstep : ∀ s a s', I s → C s a → step s a = some s' →
      I s' ∧ μ s' + (if counted a then 1 else 0) ≤ μ s)
    {s t : σ} {l : List α} (hI : I s) (hC : Along step C s l)
    (hrun : run step s l = some t) :
    μ t + (l.filter counted).length ≤ μ s := by
  induction l generalizing s with
  | nil =>
      cases hrun
      simp
  | cons a l ih =>
      obtain ⟨s', hs', hrest⟩ := run_cons_some hrun
      obtain ⟨hI', hle⟩ := hstep s a s' hI hC.1 hs'
      have htail := ih hI' (hC.2 s' hs') hrest
      by_cases ha : counted a
      · rw [List.filter_cons_of_pos ha, List.length_cons]
        rw [if_pos ha] at hle
        omega
      · rw [List.filter_cons_of_neg ha]
        rw [if_neg ha] at hle
        omega

end Dokan.Verified.Machine
