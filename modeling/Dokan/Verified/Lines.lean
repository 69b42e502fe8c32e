import Mathlib

/-!
# Cutting a stream into lines

`cut sep l` is the list of complete lines of `l`, each without its separator,
and what follows the last separator.  A reader that keeps the unfinished part
and cuts it again with what arrives next reads the same lines, however the
stream is cut into pieces.

## Main results

* `cut_append` — cutting may stop anywhere and go on with the unfinished part.
* `exists_infix_of_infix_intercalate` — a word without the separator occurs in
  joined lines only inside one of them.
-/

namespace Dokan.Verified.Lines

universe u

variable {α : Type u} [DecidableEq α]

/-- The complete lines, and the unfinished one. -/
def cut (sep : α) : List α → List (List α) × List α
  | [] => ([], [])
  | c :: cs =>
      if c = sep then ([] :: (cut sep cs).1, (cut sep cs).2)
      else
        match (cut sep cs).1 with
        | [] => ([], c :: (cut sep cs).2)
        | l :: ls => ((c :: l) :: ls, (cut sep cs).2)

example : cut '\n' ['a', '\n', '\n', 'b'] = ([['a'], []], ['b']) := by decide

variable {sep : α}

@[simp] theorem cut_nil : cut sep [] = ([], []) := rfl

/-- Without a complete line there is no separator to cut at. -/
theorem cut_snd_of_fst_nil {l : List α} (h : (cut sep l).1 = []) : (cut sep l).2 = l := by
  induction l with
  | nil => rfl
  | cons c cs ih =>
      rw [cut] at h ⊢
      split_ifs with hc
      · rw [if_pos hc] at h
        cases h
      · rw [if_neg hc] at h
        cases hcut : (cut sep cs).1 with
        | nil => simp only [ih hcut]
        | cons l ls =>
            rw [hcut] at h
            cases h

/-- **Cutting in pieces.** -/
theorem cut_append (a b : List α) :
    cut sep (a ++ b) =
      ((cut sep a).1 ++ (cut sep ((cut sep a).2 ++ b)).1,
        (cut sep ((cut sep a).2 ++ b)).2) := by
  induction a with
  | nil => rfl
  | cons c cs ih =>
      rw [List.cons_append, cut, ih]
      by_cases hc : c = sep
      · rw [if_pos hc, cut, if_pos hc]
        rfl
      · rw [if_neg hc, cut, if_neg hc]
        cases hcut : (cut sep cs).1 with
        | nil =>
            rw [cut_snd_of_fst_nil hcut]
            simp only [List.nil_append, List.cons_append]
            rw [cut, if_neg hc]
        | cons l ls => rfl

/-- An unfinished line has no complete one in it. -/
theorem cut_cut_snd (l : List α) : (cut sep (cut sep l).2).1 = [] := by
  have h := congrArg (fun p => p.1.length) (@cut_append α _ sep l [])
  simp only [List.append_nil, List.length_append] at h
  exact List.length_eq_zero_iff.mp (by omega)

/-- Cutting adds nothing. -/
theorem mem_of_mem_cut {x : α} {l : List α}
    (h : (∃ line ∈ (cut sep l).1, x ∈ line) ∨ x ∈ (cut sep l).2) : x ∈ l := by
  induction l with
  | nil => simp at h
  | cons c cs ih =>
      rw [cut] at h
      split_ifs at h with hc
      · refine List.mem_cons_of_mem _ (ih ?_)
        simpa using h
      · cases hcut : (cut sep cs).1 with
        | nil =>
            simp only [hcut, List.not_mem_nil, false_and, exists_false, false_or,
              List.mem_cons] at h
            rcases h with rfl | h
            · exact List.mem_cons_self
            · exact List.mem_cons_of_mem _ (ih (Or.inr h))
        | cons line ls =>
            simp only [hcut, List.mem_cons, exists_eq_or_imp] at h ih
            rcases h with ((rfl | h) | h) | h
            · exact List.mem_cons_self
            · exact List.mem_cons_of_mem _ (ih (Or.inl (Or.inl h)))
            · exact List.mem_cons_of_mem _ (ih (Or.inl (Or.inr h)))
            · exact List.mem_cons_of_mem _ (ih (Or.inr h))

/-! ## Joining lines -/

section Joining

omit [DecidableEq α]

/-- The lines of a longer list begin the same way. -/
theorem intercalate_initial {ls ls' : List (List α)} (h : ls <+: ls') :
    [sep].intercalate ls <+: [sep].intercalate ls' := by
  obtain ⟨rest, rfl⟩ := h
  induction ls with
  | nil => exact List.nil_prefix
  | cons l ls ih =>
      cases ls with
      | nil =>
          cases rest with
          | nil => exact List.prefix_refl _
          | cons r rest =>
              rw [List.cons_append, List.nil_append, List.intercalate_cons_cons,
                List.intercalate_singleton, List.append_assoc]
              exact List.prefix_append _ _
      | cons l' ls =>
          rw [List.cons_append, List.cons_append, List.intercalate_cons_cons,
            List.intercalate_cons_cons]
          exact (List.prefix_append_right_inj _).mpr ih

/-- Every line is part of the joined text. -/
theorem infix_intercalate_of_mem {l : List α} {ls : List (List α)} (h : l ∈ ls) :
    l <:+: [sep].intercalate ls := by
  induction ls with
  | nil => cases h
  | cons k ls ih =>
      cases ls with
      | nil =>
          cases List.mem_singleton.mp h
          rw [List.intercalate_singleton]
      | cons k' ls =>
          rw [List.intercalate_cons_cons]
          rcases List.mem_cons.mp h with rfl | h
          · rw [List.append_assoc]
            exact (List.prefix_append _ _).isInfix
          · exact (ih h).trans (List.suffix_append _ _).isInfix

/-- A word without the separator that begins a joined text begins its first
line. -/
theorem prefix_of_prefix_append {x l r : List α} (hx : sep ∉ x) (h : x <+: l ++ sep :: r) :
    x <+: l := by
  induction l generalizing x with
  | nil =>
      cases x with
      | nil => exact List.nil_prefix
      | cons c x =>
          obtain ⟨hc, _⟩ := List.cons_prefix_cons.mp h
          exact absurd (hc ▸ List.mem_cons_self) hx
  | cons d l ih =>
      cases x with
      | nil => exact List.nil_prefix
      | cons c x =>
          obtain ⟨rfl, hrest⟩ := List.cons_prefix_cons.mp h
          exact List.cons_prefix_cons.mpr
            ⟨rfl, ih (fun hmem => hx (List.mem_cons_of_mem _ hmem)) hrest⟩

/-- The word is in one of the two parts. -/
theorem infix_of_infix_append {x l r : List α} (hne : x ≠ []) (hx : sep ∉ x)
    (h : x <:+: l ++ sep :: r) : x <:+: l ∨ x <:+: r := by
  induction l with
  | nil =>
      rcases List.infix_cons_iff.mp h with hpre | hin
      · cases x with
        | nil => exact absurd rfl hne
        | cons c x =>
            obtain ⟨hc, _⟩ := List.cons_prefix_cons.mp hpre
            exact absurd (hc ▸ List.mem_cons_self) hx
      · exact Or.inr hin
  | cons d l ih =>
      rcases List.infix_cons_iff.mp h with hpre | hin
      · exact Or.inl (prefix_of_prefix_append (l := d :: l) hx hpre).isInfix
      · exact (ih hin).imp_left List.infix_cons

/-- **A word without the separator** occurs in joined lines only inside one of
them. -/
theorem exists_infix_of_infix_intercalate {x : List α} {ls : List (List α)} (hne : x ≠ [])
    (hx : sep ∉ x) (h : x <:+: [sep].intercalate ls) : ∃ l ∈ ls, x <:+: l := by
  induction ls with
  | nil => exact absurd (List.infix_nil.mp h) hne
  | cons l ls ih =>
      cases ls with
      | nil =>
          rw [List.intercalate_singleton] at h
          exact ⟨l, List.mem_singleton_self l, h⟩
      | cons l' ls =>
          rw [List.intercalate_cons_cons, List.append_assoc] at h
          rcases infix_of_infix_append hne hx h with h | h
          · exact ⟨l, List.mem_cons_self, h⟩
          · obtain ⟨k, hk, hin⟩ := ih h
            exact ⟨k, List.mem_cons_of_mem l hk, hin⟩

end Joining

end Dokan.Verified.Lines
