import Mathlib

/-!
# Tables kept as lists of rows with a key

A table with a unique key, in insertion order: `find` looks a row up,
`update` rewrites the row of a key, `insertNew` is `INSERT … ON CONFLICT DO
NOTHING`.

## Main results

* `find_update` — what an update does to a lookup.
* `find_of_mem` — with distinct keys, the rows are what lookups find.
-/

namespace Dokan.Verified.Rows

universe u v

variable {α : Type u} {K : Type v} [DecidableEq K] (key : α → K)

/-- The row of key `k`. -/
def find (k : K) (rows : List α) : Option α :=
  rows.find? fun r => decide (key r = k)

/-- Rewrite the row of key `k`. -/
def update (k : K) (f : α → α) (rows : List α) : List α :=
  rows.map fun r => if key r = k then f r else r

/-- Append a row unless its key is taken. -/
def insertNew (rows : List α) (r : α) : List α :=
  if rows.any fun t => key t = key r then rows else rows ++ [r]

variable {key} {k k' : K} {r : α} {rows : List α} {f : α → α}

@[simp] theorem find_nil : find key k [] = none := rfl

theorem key_of_find (h : find key k rows = some r) : key r = k := by
  simpa using List.find?_some h

theorem mem_of_find (h : find key k rows = some r) : r ∈ rows :=
  List.mem_of_find?_eq_some h

theorem find_eq_none : find key k rows = none ↔ ∀ r ∈ rows, key r ≠ k := by
  simp [find]

theorem find_append (rows' : List α) :
    find key k (rows ++ rows') = (find key k rows).or (find key k rows') :=
  List.find?_append

/-- With distinct keys, a row is what the lookup of its key finds. -/
theorem find_of_mem (hnd : (rows.map key).Nodup) (h : r ∈ rows) :
    find key (key r) rows = some r := by
  induction rows with
  | nil => cases h
  | cons s rows ih =>
      rw [List.map_cons, List.nodup_cons] at hnd
      rcases List.mem_cons.mp h with rfl | h
      · simp [find]
      · have hne : key s ≠ key r := by
          intro heq
          exact hnd.1 (heq ▸ List.mem_map_of_mem h)
        simpa [find, hne] using ih hnd.2 h

/-- Two rows of one key are one row. -/
theorem eq_of_key_eq (hnd : (rows.map key).Nodup) {r' : α} (h : r ∈ rows)
    (h' : r' ∈ rows) (hkey : key r = key r') : r = r' := by
  have hr := find_of_mem hnd h
  rw [hkey, find_of_mem hnd h'] at hr
  exact (Option.some.inj hr).symm

omit [DecidableEq K] in
/-- Rows computed from some of the rows, one each under the same key, have
distinct keys as well. -/
theorem nodup_filterMap {β : Type*} {g : β → K} {p : α → Option β}
    (hp : ∀ r ∈ rows, ∀ b, p r = some b → g b = key r) (hnd : (rows.map key).Nodup) :
    ((rows.filterMap p).map g).Nodup := by
  have hsub : ((rows.filterMap p).map g).Sublist (rows.map key) := by
    clear hnd
    induction rows with
    | nil => simp
    | cons r rows ih =>
        have htail := ih fun r' hr' => hp r' (List.mem_cons_of_mem _ hr')
        cases hr : p r with
        | none =>
            rw [List.filterMap_cons_none hr, List.map_cons]
            exact htail.cons _
        | some b =>
            rw [List.filterMap_cons_some hr, List.map_cons, List.map_cons,
              hp r List.mem_cons_self b hr]
            exact htail.cons_cons _
  exact hsub.nodup hnd

/-! ## Replacing the row at a position -/

omit [DecidableEq K] in
/-- A replacement under the same key keeps the keys. -/
theorem map_set {i : Nat} {r' : α} (hr : rows[i]? = some r) (hkey : key r' = key r) :
    (rows.set i r').map key = rows.map key := by
  obtain ⟨hi, rfl⟩ := List.getElem?_eq_some_iff.mp hr
  have hi' : i < (rows.map key).length := by simpa using hi
  rw [List.map_set, hkey]
  calc (rows.map key).set i (key rows[i])
      = (rows.map key).set i ((rows.map key)[i]) := by rw [List.getElem_map]
    _ = rows.map key := List.set_getElem_self hi'

omit [DecidableEq K] in
/-- With distinct keys, the other rows of a replacement have other keys. -/
theorem mem_set (hnd : (rows.map key).Nodup) {i : Nat} {r' t : α}
    (hr : rows[i]? = some r) (ht : t ∈ rows.set i r') :
    t = r' ∨ t ∈ rows ∧ key t ≠ key r := by
  obtain ⟨j, hj⟩ := List.mem_iff_getElem?.mp ht
  by_cases hij : i = j
  · subst hij
    rw [List.getElem?_set_self (List.getElem?_eq_some_iff.mp hr).1] at hj
    exact .inl (Option.some.inj hj).symm
  · rw [List.getElem?_set_ne hij] at hj
    refine .inr ⟨List.mem_of_getElem? hj, ?_⟩
    intro hkey
    obtain ⟨hi, rfl⟩ := List.getElem?_eq_some_iff.mp hr
    obtain ⟨hj', rfl⟩ := List.getElem?_eq_some_iff.mp hj
    have hj₁ : j < (rows.map key).length := by simpa using hj'
    have hi₁ : i < (rows.map key).length := by simpa using hi
    have hkeys : (rows.map key)[j] = (rows.map key)[i] := by
      rw [List.getElem_map, List.getElem_map, hkey]
    exact hij (hnd.getElem_inj_iff.mp hkeys).symm

omit [DecidableEq K] in
/-- A row of another key stays. -/
theorem mem_set_of_ne {i : Nat} {r' t : α} (hr : rows[i]? = some r) (ht : t ∈ rows)
    (hne : key t ≠ key r) : t ∈ rows.set i r' := by
  obtain ⟨j, hj⟩ := List.mem_iff_getElem?.mp ht
  have hij : i ≠ j := by
    rintro rfl
    rw [hr] at hj
    cases hj
    exact hne rfl
  exact List.mem_iff_getElem?.mpr ⟨j, by rw [List.getElem?_set_ne hij, hj]⟩

omit [DecidableEq K] in
theorem mem_set_self {i : Nat} {r' : α} (hr : rows[i]? = some r) :
    r' ∈ rows.set i r' := by
  refine List.mem_iff_getElem?.mpr ⟨i, ?_⟩
  rw [List.getElem?_set_self (List.getElem?_eq_some_iff.mp hr).1]

/-! ## `update` -/

theorem map_update {β : Type*} {g : α → β} (hg : ∀ r, g (f r) = g r) :
    (update key k f rows).map g = rows.map g := by
  rw [update, List.map_map]
  refine List.map_congr_left fun r _ => ?_
  simp only [Function.comp_apply]
  split_ifs
  · exact hg r
  · rfl

/-- A sum over the rows, when the row of a key changes. -/
theorem sum_update {g : α → Nat} (hnd : (rows.map key).Nodup) (hr : r ∈ rows) :
    ((update key (key r) f rows).map g).sum + g r = (rows.map g).sum + g (f r) := by
  induction rows with
  | nil => cases hr
  | cons s rows ih =>
      rw [List.map_cons, List.nodup_cons] at hnd
      have hcons : update key (key r) f (s :: rows) =
          (if key s = key r then f s else s) :: update key (key r) f rows := rfl
      rw [hcons, List.map_cons, List.sum_cons, List.map_cons, List.sum_cons]
      rcases List.mem_cons.mp hr with rfl | hr
      · have hrest : update key (key r) f rows = rows := by
          refine (List.map_congr_left fun t ht => ?_).trans (List.map_id rows)
          refine if_neg fun heq => hnd.1 ?_
          exact heq ▸ List.mem_map_of_mem ht
        rw [if_pos rfl, hrest]
        omega
      · have hne : key s ≠ key r := fun heq => hnd.1 (heq ▸ List.mem_map_of_mem hr)
        have hsum := ih hnd.2 hr
        rw [if_neg hne]
        omega

/-- The updated row changes, every other row stays. -/
theorem find_update (hf : ∀ r, key (f r) = key r) :
    find key k' (update key k f rows) =
      if k' = k then (find key k rows).map f else find key k' rows := by
  induction rows with
  | nil => simp [find, update]
  | cons s rows ih =>
      have hcons : update key k f (s :: rows) =
          (if key s = k then f s else s) :: update key k f rows := rfl
      have hkey : key (if key s = k then f s else s) = key s := by
        split_ifs
        · exact hf s
        · rfl
      rw [hcons]
      simp only [find, List.find?_cons, hkey] at ih ⊢
      by_cases hs : key s = k'
      · subst hs
        by_cases hk : key s = k
        · simp [hk]
        · simp [hk]
      · simp only [hs, decide_false]
        rw [ih]
        by_cases hk : k' = k
        · subst hk
          simp [hs]
        · simp [hk]

/-- With distinct keys, a lookup among some of the rows. -/
theorem find_filter (hnd : (rows.map key).Nodup) (p : α → Bool) :
    find key k (rows.filter p) = (find key k rows).filter p := by
  induction rows with
  | nil => rfl
  | cons s rows ih =>
      rw [List.map_cons, List.nodup_cons] at hnd
      have hrec := ih hnd.2
      by_cases hs : key s = k
      · subst hs
        have hnone : find key (key s) rows = none :=
          find_eq_none.mpr fun r hr heq => hnd.1 (heq ▸ List.mem_map_of_mem hr)
        rw [hnone] at hrec
        have hhere : find key (key s) (s :: rows) = some s := by simp [find]
        rw [hhere, Option.filter_some, List.filter_cons]
        split_ifs
        · simp [find]
        · exact hrec
      · have hhere : find key k (s :: rows) = find key k rows := by simp [find, hs]
        rw [hhere, ← hrec, List.filter_cons]
        split_ifs
        · simp [find, hs]
        · rfl

/-- Without a row of the key there is nothing to rewrite. -/
theorem update_of_find_eq_none (h : find key k rows = none) : update key k f rows = rows := by
  have hkeys := find_eq_none.mp h
  rw [update]
  refine (List.map_congr_left fun r hr => ?_).trans (List.map_id rows)
  rw [if_neg (hkeys r hr), id_eq]

/-! ## `insertNew` -/

theorem insertNew_of_fresh (h : find key (key r) rows = none) :
    insertNew key rows r = rows ++ [r] := by
  have hall := find_eq_none.mp h
  rw [insertNew, if_neg]
  simpa using hall

theorem find_insertNew (r : α) :
    find key k (insertNew key rows r) =
      (find key k rows).or (if key r = k then some r else none) := by
  rw [insertNew]
  split_ifs with htaken hk hk
  · -- the key is taken, so there is a row of it
    cases hfind : find key k rows with
    | some _ => rfl
    | none =>
        have hall := find_eq_none.mp hfind
        have hnone : ¬ rows.any (fun t => key t = key r) := by
          simpa [hk] using hall
        exact absurd htaken hnone
  · rw [Option.or_none]
  · rw [find_append]
    simp [find, hk]
  · rw [find_append]
    simp [find, hk]

theorem nodup_insertNew (hnd : (rows.map key).Nodup) (r : α) :
    ((insertNew key rows r).map key).Nodup := by
  rw [insertNew]
  split_ifs with htaken
  · exact hnd
  · rw [List.map_append, List.map_singleton]
    refine List.Nodup.append hnd (List.nodup_singleton _) ?_
    rintro k hk hr
    obtain ⟨t, ht, rfl⟩ := List.mem_map.mp hk
    refine htaken (List.any_eq_true.mpr ⟨t, ht, ?_⟩)
    simpa using hr

theorem mem_insertNew {r' : α} (h : r ∈ insertNew key rows r') : r ∈ rows ∨ r = r' := by
  rw [insertNew] at h
  split_ifs at h
  · exact .inl h
  · exact (List.mem_append.mp h).imp_right List.mem_singleton.mp

/-- Inserting leaves no row that was neither there nor inserted. -/
theorem mem_foldl_insertNew {new : List α} (h : r ∈ new.foldl (insertNew key) rows) :
    r ∈ rows ∨ r ∈ new := by
  induction new generalizing rows with
  | nil => exact .inl h
  | cons r' new ih =>
      rcases ih h with hmem | hmem
      · exact (mem_insertNew hmem).imp_right fun heq => List.mem_cons.mpr (.inl heq)
      · exact .inr (List.mem_cons_of_mem _ hmem)

/-- Inserting rows with fresh, distinct keys appends them. -/
theorem foldl_insertNew_of_fresh {new : List α}
    (hnd : (new.map key).Nodup) (hfresh : ∀ r ∈ new, find key (key r) rows = none) :
    new.foldl (insertNew key) rows = rows ++ new := by
  induction new generalizing rows with
  | nil => simp
  | cons r new ih =>
      rw [List.map_cons, List.nodup_cons] at hnd
      rw [List.foldl_cons, insertNew_of_fresh (hfresh r (by simp))]
      rw [ih hnd.2]
      · simp
      · intro r' hr'
        rw [find_append, hfresh r' (by simp [hr'])]
        have hne : key r ≠ key r' := by
          intro heq
          exact hnd.1 (heq ▸ List.mem_map_of_mem hr')
        simp [find, hne]

end Dokan.Verified.Rows
