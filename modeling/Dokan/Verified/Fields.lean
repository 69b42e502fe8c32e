import Mathlib.Data.List.Perm.Basic

/-!
# Fields of a text

`fields p xs` are the pieces of `xs` between the elements that satisfy `p`, the
empty ones left out: the field splitting of a shell.  Joining texts by a
separator joins their fields, so a list of texts comes back exactly if each of
them is a field of its own.

Which elements a function `f` from elements to lists leaves alone is told by what
`flatMap f` does to all the orders of a list.

## Main results

* `fields_intercalate` — the fields of joined texts.
* `fields_eq_singleton_iff` — the texts that are one field.
* `splitOn_join` — the pieces of texts joined by a separator.
* `flatMap_perm_iff` — a list without duplicates comes back in every order
  exactly if each of its elements does.
-/

namespace Dokan.Verified.Fields

variable {α : Type*}

def fields (p : α → Bool) (xs : List α) : List (List α) :=
  (xs.splitOnP p).filter fun w => !w.isEmpty

theorem fields_append_cons {p : α → Bool} {sep : α} (hsep : p sep = true) (xs ys : List α) :
    fields p (xs ++ sep :: ys) = fields p xs ++ fields p ys := by
  rw [fields, List.splitOnP_append_cons xs ys hsep, List.filter_append]
  rfl

/-- **The fields of joined texts.** -/
theorem fields_intercalate {p : α → Bool} {sep : α} (hsep : p sep = true)
    (ls : List (List α)) : fields p ([sep].intercalate ls) = ls.flatMap (fields p) := by
  induction ls with
  | nil => rfl
  | cons l ls ih =>
      cases ls with
      | nil => rw [List.intercalate_singleton, List.flatMap_cons, List.flatMap_nil, List.append_nil]
      | cons m ls =>
          rw [List.intercalate_cons_cons, List.append_assoc, List.singleton_append,
            fields_append_cons hsep, ih]
          rfl

/-- A piece has elements of the text, and no separator. -/
theorem mem_of_mem_splitOnP {p : α → Bool} {xs : List α} :
    ∀ w ∈ xs.splitOnP p, ∀ x ∈ w, x ∈ xs ∧ p x = false := by
  induction xs with
  | nil =>
      intro w hw x hx
      rw [List.mem_singleton.mp hw] at hx
      cases hx
  | cons y xs ih =>
      have hcons : ∀ w ∈ xs.splitOnP p, ∀ x ∈ w, x ∈ y :: xs ∧ p x = false :=
        fun w hw x hx => ⟨List.mem_cons_of_mem y (ih w hw x hx).1, (ih w hw x hx).2⟩
      rw [List.splitOnP_cons_eq_if_modifyHead]
      obtain ⟨v, vs, hvs⟩ := List.exists_cons_of_ne_nil (List.splitOnP_ne_nil p xs)
      rw [hvs] at hcons ⊢
      split_ifs with hy
      · exact List.forall_mem_cons.mpr ⟨fun x hx => (List.not_mem_nil hx).elim, hcons⟩
      · obtain ⟨hv, hrest⟩ := List.forall_mem_cons.mp hcons
        refine List.forall_mem_cons.mpr ⟨?_, hrest⟩
        exact List.forall_mem_cons.mpr ⟨⟨List.mem_cons_self, eq_false_of_ne_true hy⟩, hv⟩

theorem mem_of_mem_fields {p : α → Bool} {xs w : List α} (hw : w ∈ fields p xs) :
    ∀ x ∈ w, x ∈ xs ∧ p x = false := mem_of_mem_splitOnP w (List.mem_of_mem_filter hw)

/-- **The texts that are one field.** -/
theorem fields_eq_singleton_iff {p : α → Bool} {xs : List α} :
    fields p xs = [xs] ↔ xs ≠ [] ∧ ∀ x ∈ xs, p x = false := by
  constructor
  · intro h
    have hmem : xs ∈ fields p xs := by
      rw [h]
      exact List.mem_singleton_self xs
    refine ⟨?_, fun x hx => (mem_of_mem_fields hmem x hx).2⟩
    rintro rfl
    cases h
  · intro ⟨hne, hfree⟩
    rw [fields, List.splitOnP_eq_singleton hfree]
    exact List.filter_eq_self.mpr fun w hw => by
      rw [List.mem_singleton.mp hw]
      simpa using hne

/-! ## Pieces at one separator -/

theorem join_append_last {sep : α} (front : List (List α)) (last ys : List α) :
    [sep].intercalate (front ++ [last]) ++ ys = [sep].intercalate (front ++ [last ++ ys]) := by
  induction front with
  | nil => rw [List.nil_append, List.nil_append, List.intercalate_singleton,
      List.intercalate_singleton]
  | cons w front ih =>
      cases front with
      | nil =>
          simp only [List.cons_append, List.nil_append, List.intercalate_cons_cons,
            List.intercalate_singleton, List.append_assoc]
      | cons v front =>
          rw [List.cons_append, List.cons_append, List.intercalate_cons_cons, List.append_assoc,
            ← List.cons_append, ih, List.cons_append, List.cons_append, List.cons_append,
            List.intercalate_cons_cons]

theorem mem_join {sep x : α} {ls : List (List α)} {w : List α} (hw : w ∈ ls) (hx : x ∈ w) :
    x ∈ [sep].intercalate ls := by
  induction ls with
  | nil => cases hw
  | cons l ls ih =>
      cases ls with
      | nil =>
          rw [List.intercalate_singleton, ← List.mem_singleton.mp hw]
          exact hx
      | cons v ls =>
          rw [List.intercalate_cons_cons]
          rcases List.mem_cons.mp hw with rfl | hw
          · exact List.mem_append_left _ (List.mem_append_left _ hx)
          · exact List.mem_append_right _ (ih hw)

section Pieces

variable [DecidableEq α] {sep : α}

/-- The pieces of joined texts are those of each. -/
theorem splitOn_join {ts : List (List α)} (h : ts ≠ []) :
    ([sep].intercalate ts).splitOn sep = ts.flatMap fun t => t.splitOn sep := by
  induction ts with
  | nil => exact (h rfl).elim
  | cons t ts ih =>
      cases ts with
      | nil => rw [List.intercalate_singleton, List.flatMap_cons, List.flatMap_nil, List.append_nil]
      | cons u ts =>
          rw [List.intercalate_cons_cons, List.append_assoc, List.singleton_append,
            List.splitOn_append_cons_self, ih (List.cons_ne_nil u ts)]
          rfl

theorem splitOn_inj {xs ys : List α} (h : xs.splitOn sep = ys.splitOn sep) : xs = ys := by
  have hjoin := congrArg (fun ts => [sep].intercalate ts) h
  rwa [List.intercalate_splitOn, List.intercalate_splitOn] at hjoin

theorem sep_not_mem_splitOn {xs w : List α} (hw : w ∈ xs.splitOn sep) : sep ∉ w := by
  intro hmem
  rw [List.splitOn_eq_splitOnP] at hw
  have hfree := (mem_of_mem_splitOnP w hw sep hmem).2
  rw [beq_self_eq_true] at hfree
  cases hfree

/-- What is put behind a text is put behind its last piece. -/
theorem splitOn_append (xs : List α) {ys : List α} (hys : sep ∉ ys) :
    ∃ front last, xs.splitOn sep = front ++ [last] ∧
      (xs ++ ys).splitOn sep = front ++ [last ++ ys] := by
  obtain ⟨front, last, hfront⟩ : ∃ front last, xs.splitOn sep = front ++ [last] :=
    ⟨_, _, (List.dropLast_append_getLast (List.splitOn_ne_nil sep xs)).symm⟩
  have hfree : ∀ w ∈ front ++ [last], sep ∉ w := by
    rw [← hfront]
    exact fun w hw => sep_not_mem_splitOn hw
  have hjoin : [sep].intercalate (front ++ [last]) = xs := by
    rw [← hfront, List.intercalate_splitOn]
  refine ⟨front, last, hfront, ?_⟩
  rw [← hjoin, join_append_last]
  refine List.splitOn_intercalate sep (fun w hw => ?_) (by simp)
  rcases List.mem_append.mp hw with hw | hw
  · exact hfree w (List.mem_append_left _ hw)
  · rw [List.mem_singleton.mp hw, List.mem_append, not_or]
    exact ⟨hfree last (List.mem_append_right _ (List.mem_singleton_self last)), hys⟩

/-- What is in a text is in a piece of it, but for the separator. -/
theorem exists_piece_of_mem {xs : List α} {x : α} (hx : x ∈ xs) (hne : x ≠ sep) :
    ∃ w ∈ xs.splitOn sep, x ∈ w := by
  induction xs with
  | nil => cases hx
  | cons y xs ih =>
      rw [List.splitOn_cons_eq_if_modifyHead]
      obtain ⟨v, vs, hvs⟩ := List.exists_cons_of_ne_nil (List.splitOn_ne_nil sep xs)
      rw [hvs] at ih ⊢
      by_cases hy : y = sep
      · rw [if_pos (beq_iff_eq.mpr hy)]
        rcases List.mem_cons.mp hx with rfl | hx
        · exact (hne hy).elim
        · obtain ⟨w, hw, hxw⟩ := ih hx
          exact ⟨w, List.mem_cons_of_mem _ hw, hxw⟩
      · rw [if_neg (fun h => hy (beq_iff_eq.mp h)), List.modifyHead_cons]
        rcases List.mem_cons.mp hx with rfl | hx
        · exact ⟨x :: v, List.mem_cons_self, List.mem_cons_self⟩
        · obtain ⟨w, hw, hxw⟩ := ih hx
          rcases List.mem_cons.mp hw with rfl | hw
          · exact ⟨y :: w, List.mem_cons_self, List.mem_cons_of_mem y hxw⟩
          · exact ⟨w, List.mem_cons_of_mem _ hw, hxw⟩

end Pieces

/-! ## Every order of a list -/

theorem length_le_flatMap {f : α → List α} {l : List α} (h : ∀ a ∈ l, f a ≠ []) :
    l.length ≤ (l.flatMap f).length := by
  induction l with
  | nil => exact Nat.le_refl 0
  | cons a l ih =>
      have hone : 0 < (f a).length := List.length_pos_of_ne_nil (h a List.mem_cons_self)
      have hrest := ih fun b hb => h b (List.mem_cons_of_mem a hb)
      rw [List.flatMap_cons, List.length_append, List.length_cons]
      omega

section Orders

variable {f : α → List α} {l : List α}

/-- An element stands first in one order and last in another. -/
theorem flatMap_orders (h : ∀ m : List α, m.Perm l → m.flatMap f = m) {a : α} (ha : a ∈ l) :
    ∃ rest, (a :: rest).Perm l ∧ f a ++ rest.flatMap f = a :: rest ∧
      rest.flatMap f ++ f a = rest ++ [a] := by
  obtain ⟨s, t, rfl⟩ := List.append_of_mem ha
  have hperm : (a :: (s ++ t)).Perm (s ++ a :: t) := List.perm_middle.symm
  refine ⟨s ++ t, hperm, ?_, ?_⟩
  · rw [← List.flatMap_cons]
    exact h _ hperm
  · have hlast := h (s ++ t ++ [a]) ((List.perm_append_singleton a (s ++ t)).trans hperm)
    rwa [List.flatMap_append, List.flatMap_cons, List.flatMap_nil, List.append_nil] at hlast

theorem flatMap_ne_nil (hnodup : l.Nodup) (h : ∀ m : List α, m.Perm l → m.flatMap f = m) {a : α}
    (ha : a ∈ l) : f a ≠ [] := by
  intro hnil
  obtain ⟨rest, hperm, hfirst, hlast⟩ := flatMap_orders h ha
  rw [hnil, List.nil_append] at hfirst
  rw [hnil, List.append_nil, hfirst] at hlast
  have hnotmem : a ∉ rest := (List.nodup_cons.mp (hperm.nodup_iff.mpr hnodup)).1
  cases rest with
  | nil => cases hfirst
  | cons b rest =>
      rw [List.cons_append, List.cons.injEq] at hlast
      exact hnotmem (hlast.1 ▸ List.mem_cons_self)

/-- **A list comes back in every order** exactly if each element does. -/
theorem flatMap_perm_iff (hnodup : l.Nodup) :
    (∀ m : List α, m.Perm l → m.flatMap f = m) ↔ ∀ a ∈ l, f a = [a] := by
  constructor
  · intro h a ha
    obtain ⟨rest, hperm, hfirst, -⟩ := flatMap_orders h ha
    have hone : f a ≠ [] := flatMap_ne_nil hnodup h ha
    have hrest : rest.length ≤ (rest.flatMap f).length := by
      refine length_le_flatMap fun b hb => flatMap_ne_nil hnodup h ?_
      exact hperm.subset (List.mem_cons_of_mem a hb)
    have hlength := congrArg List.length hfirst
    rw [List.length_append, List.length_cons] at hlength
    obtain ⟨x, t, hx⟩ := List.exists_cons_of_ne_nil hone
    rw [hx] at hfirst hlength ⊢
    rw [List.length_cons] at hlength
    have ht : t = [] := List.eq_nil_of_length_eq_zero (by omega)
    rw [ht, List.singleton_append, List.cons.injEq] at hfirst
    rw [ht, hfirst.1]
  · intro h m hperm
    have hm : ∀ a ∈ m, f a = [a] := fun a ha => h a (hperm.subset ha)
    rw [List.flatMap_congr hm]
    exact List.flatMap_singleton' m

end Orders

end Dokan.Verified.Fields
