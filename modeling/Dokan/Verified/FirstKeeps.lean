import Mathlib

/-!
# A unique key for a table that has duplicates

The rows of a table have ids, which are given out in ascending order, and some
have a key.  `keepFirst` takes the key from every row but the first that has it;
`Once` is what a unique index on the keys demands.

`Grown` is what an insert, an update that leaves ids and keys, or a deletion does to
such a table: under the index an insert brings no key that is taken.

## Main results

* `Ok.build` — after `keepFirst` the index can be built, whatever was in the table.
* `Columns.keepFirst_of_once` — under the index `keepFirst` does nothing.
* `Ok.grown`, `Marked.grown` — the index is kept, and a row keeps its key.
* `Columns.lookups_eq` — under the index every lookup by key finds the one row.
-/

namespace Dokan.Verified.FirstKeeps

universe u v w

/-- How a row carries its id and its key. -/
structure Columns (α : Type u) (I : Type v) (K : Type w) where
  id : α → I
  key : α → Option K
  /-- the row without its key -/
  clear : α → α
  id_clear : ∀ r, id (clear r) = id r
  key_clear : ∀ r, key (clear r) = none
  clear_clear : ∀ r, clear (clear r) = clear r

variable {α : Type u} {I : Type v} {K : Type w} [LinearOrder I] [DecidableEq K]

namespace Columns

variable (C : Columns α I K)

/-- What the index and the lookups read of a row. -/
def entry (r : α) : I × Option K := (C.id r, C.key r)

/-- `SELECT MIN(id) … WHERE key = k`. -/
def least (rows : List α) (k : K) : Option I :=
  ((rows.filter fun r => C.key r = some k).map C.id).min?

/-- `SELECT id … WHERE key = k ORDER BY id DESC LIMIT 1`. -/
def latest (rows : List α) (k : K) : Option I :=
  ((rows.filter fun r => C.key r = some k).map C.id).max?

/-- `SELECT id … WHERE key = k`, the first row of the answer. -/
def lookup (rows : List α) (k : K) : Option I :=
  (rows.find? fun r => C.key r = some k).map C.id

/-- The row has a key, and an id that is not the least of those with the key. -/
def late (rows : List α) (r : α) : Bool :=
  (C.key r).any fun k => (C.least rows k).any fun i => C.id r ≠ i

/-- Every row but the first with its key loses the key. -/
def keepFirst (rows : List α) : List α :=
  rows.map fun r => if C.late rows r then C.clear r else r

/-- No two rows have one key. -/
def Once (rows : List α) : Prop := (rows.filterMap C.key).Nodup

instance (rows : List α) : Decidable (C.Once rows) :=
  inferInstanceAs (Decidable (rows.filterMap C.key).Nodup)

/-- Duplicates are cleared, and the index is built unless it is there. -/
def build (indexed : Bool) (rows : List α) : Option (List α) :=
  if indexed ∨ C.Once (C.keepFirst rows) then some (C.keepFirst rows) else none

/-- `r'` is `r`, with the key exactly if `r` is the first of `rows` that has it. -/
def KeptFirst (rows : List α) (r r' : α) : Prop :=
  C.clear r' = C.clear r ∧ ∀ k, C.key r' = some k ↔
    C.key r = some k ∧ ∀ s ∈ rows, C.key s = some k → C.id r ≤ C.id s

end Columns

section Lookups

variable {C : Columns α I K} {rows : List α} {r : α} {k : K}

omit [LinearOrder I] in
theorem mem_ids {i : I} : i ∈ (rows.filter fun r => C.key r = some k).map C.id ↔
    ∃ r ∈ rows, C.key r = some k ∧ C.id r = i := by
  simp [and_assoc]

/-- A row is late if a row of a lesser id has its key. -/
theorem Columns.late_iff (hr : r ∈ rows) : C.late rows r = true ↔
    ∃ k, C.key r = some k ∧ ∃ s ∈ rows, C.key s = some k ∧ C.id s < C.id r := by
  simp only [Columns.late, Option.any_eq_true, decide_eq_true_eq]
  constructor
  · rintro ⟨k, hk, i, hi, hne⟩
    obtain ⟨hmem, hmin⟩ := List.min?_eq_some_iff.mp hi
    obtain ⟨s, hs, hsk, rfl⟩ := mem_ids.mp hmem
    exact ⟨k, hk, s, hs, hsk, lt_of_le_of_ne (hmin _ (mem_ids.mpr ⟨r, hr, hk, rfl⟩)) hne.symm⟩
  · rintro ⟨k, hk, s, hs, hsk, hlt⟩
    obtain ⟨i, hi⟩ : ∃ i, C.least rows k = some i := by
      refine Option.isSome_iff_exists.mp (List.isSome_min?_iff.mpr fun hnil => ?_)
      exact List.not_mem_nil (hnil ▸ mem_ids.mpr ⟨r, hr, hk, rfl⟩)
    refine ⟨k, hk, i, hi, fun heq => ?_⟩
    have hle := (List.min?_eq_some_iff.mp hi).2 _ (mem_ids.mpr ⟨s, hs, hsk, rfl⟩)
    exact absurd (heq ▸ hle) (not_le.mpr hlt)

/-- The first row with a key is not late. -/
theorem Columns.not_late (hr : r ∈ rows) (hk : C.key r = some k)
    (hfirst : ∀ s ∈ rows, C.key s = some k → C.id r ≤ C.id s) : ¬ C.late rows r = true := by
  intro hlate
  obtain ⟨k', hk', s, hs, hsk, hlt⟩ := (Columns.late_iff hr).mp hlate
  cases hk.symm.trans hk'
  exact absurd (hfirst s hs hsk) (not_le.mpr hlt)

omit [LinearOrder I] [DecidableEq K] in
theorem Columns.once_iff : C.Once rows ↔
    rows.Pairwise fun r s => ∀ k, C.key r = some k → C.key s ≠ some k := by
  rw [Columns.Once, List.Nodup, List.pairwise_filterMap]
  refine ⟨List.Pairwise.imp fun h k hr hs => h k hr k hs rfl, List.Pairwise.imp ?_⟩
  intro r s h k hr k' hs heq
  subst heq
  exact h k hr hs

omit [LinearOrder I] [DecidableEq K] in
/-- Under the index the rows of one key are one row. -/
theorem Columns.Once.eq (h : C.Once rows) {s : α} (hr : r ∈ rows) (hs : s ∈ rows)
    (hrk : C.key r = some k) (hsk : C.key s = some k) : r = s := by
  by_contra hne
  have hsymm : Std.Symm fun r s => ∀ k, C.key r = some k → C.key s ≠ some k :=
    ⟨fun _ _ h k hs hr => h k hr hs⟩
  exact (Columns.once_iff.mp h).forall hr hs hne k hrk hsk

/-- **One row.**  Under the index every lookup by key finds the row of the key. -/
theorem Columns.lookups_eq (h : C.Once rows) (hr : r ∈ rows) (hk : C.key r = some k) :
    C.lookup rows k = some (C.id r) ∧ C.latest rows k = some (C.id r) := by
  constructor
  · cases hfind : rows.find? fun r => C.key r = some k with
    | none =>
        have hmiss := List.find?_eq_none.mp hfind r hr
        exact absurd hk (by simpa using hmiss)
    | some s =>
        have hs : C.key s = some k := by simpa using List.find?_some hfind
        rw [Columns.lookup, hfind, h.eq hr (List.mem_of_find?_eq_some hfind) hk hs]
        rfl
  · refine List.max?_eq_some_iff.mpr ⟨mem_ids.mpr ⟨r, hr, hk, rfl⟩, fun i hi => ?_⟩
    obtain ⟨s, hs, hsk, rfl⟩ := mem_ids.mp hi
    rw [h.eq hs hr hsk hk]

omit [LinearOrder I] in
/-- A key that no row has is free. -/
theorem Columns.free_of_not_taken (key : Option K)
    (h : (key.isSome && rows.any fun r => C.key r = key) = false) :
    ∀ k, key = some k → ∀ s ∈ rows, C.key s ≠ some k := by
  rintro k rfl s hs hk
  have htaken : (rows.any fun r => C.key r = some k) = true :=
    List.any_eq_true.mpr ⟨s, hs, decide_eq_true hk⟩
  rw [htaken] at h
  cases h

/-- Under the index no row is late. -/
theorem Columns.keepFirst_of_once (h : C.Once rows) : C.keepFirst rows = rows := by
  refine (List.map_congr_left fun r hr => if_neg fun hlate => ?_).trans (List.map_id' rows)
  obtain ⟨k, hk, s, hs, hsk, hlt⟩ := (Columns.late_iff hr).mp hlate
  exact absurd (h.eq hs hr hsk hk ▸ hlt) (lt_irrefl _)

/-- **What is kept.**  Every row is there, and has its key if it is the first with it. -/
theorem Columns.keepFirst_spec : List.Forall₂ (C.KeptFirst rows) rows (C.keepFirst rows) := by
  refine List.forall₂_map_right_iff.mpr (List.forall₂_same.mpr fun r hr => ?_)
  by_cases hlate : C.late rows r = true
  · rw [if_pos hlate]
    refine ⟨C.clear_clear r, fun k => ⟨fun hk => ?_, fun ⟨hk, hfirst⟩ => ?_⟩⟩
    · rw [C.key_clear] at hk
      cases hk
    · exact absurd hlate (Columns.not_late hr hk hfirst)
  · rw [if_neg hlate]
    refine ⟨rfl, fun k => ⟨fun hk => ⟨hk, fun s hs hsk => ?_⟩, And.left⟩⟩
    exact not_lt.mp fun hlt => hlate ((Columns.late_iff hr).mpr ⟨k, hk, s, hs, hsk, hlt⟩)

theorem Columns.of_key_kept (h : C.key (if C.late rows r then C.clear r else r) = some k) :
    C.key r = some k ∧ ¬ C.late rows r = true := by
  split_ifs at h with hlate
  · rw [C.key_clear] at h
    cases h
  · exact ⟨h, hlate⟩

/-- Rows of distinct ids have distinct keys once the late ones are cleared. -/
theorem Columns.once_keepFirst (h : (rows.map C.id).Nodup) : C.Once (C.keepFirst rows) := by
  rw [Columns.once_iff, Columns.keepFirst, List.pairwise_map]
  refine List.Pairwise.imp_of_mem ?_ (List.pairwise_map.mp h)
  intro r s hr hs hne k hrk hsk
  obtain ⟨hrk, hlate⟩ := Columns.of_key_kept hrk
  obtain ⟨hsk, hlate'⟩ := Columns.of_key_kept hsk
  rcases lt_or_gt_of_ne hne with hlt | hlt
  · exact hlate' ((Columns.late_iff hs).mpr ⟨k, hsk, r, hr, hrk, hlt⟩)
  · exact hlate ((Columns.late_iff hr).mpr ⟨k, hrk, s, hs, hsk, hlt⟩)

/-- The first row with a key is left as it is. -/
theorem Columns.mem_keepFirst (hr : r ∈ rows) (hk : C.key r = some k)
    (hfirst : ∀ s ∈ rows, C.key s = some k → C.id r ≤ C.id s) : r ∈ C.keepFirst rows :=
  List.mem_map.mpr ⟨r, hr, if_neg (Columns.not_late hr hk hfirst)⟩

theorem Columns.map_id_keepFirst : (C.keepFirst rows).map C.id = rows.map C.id := by
  rw [Columns.keepFirst, List.map_map]
  refine List.map_congr_left fun r _ => ?_
  show C.id (if C.late rows r then C.clear r else r) = C.id r
  split_ifs
  · exact C.id_clear r
  · rfl

end Lookups

/-! ## Tables over time -/

section Growth

variable (C : Columns α I K)

/-- What holds of a table whose next id is `next`. -/
structure Ok (indexed : Bool) (next : I) (rows : List α) : Prop where
  ids : (rows.map C.id).Nodup
  below : ∀ r ∈ rows, C.id r < next
  once : indexed = true → C.Once rows

/-- What a statement leaves of the rows. -/
inductive Grown (indexed : Bool) (next : I) (rows : List α) (next' : I) (rows' : List α) : Prop
  | kept (entries : (rows'.map C.entry).Sublist (rows.map C.entry)) (next : next' = next)
  | added (r : α) (id : C.id r = next)
      (free : indexed = true → ∀ k, C.key r = some k → ∀ s ∈ rows, C.key s ≠ some k)
      (rows : rows' = rows ++ [r]) (lt : next < next')

/-- The rows of the id `i` have the key `k`, and no new row will get that id. -/
structure Marked (next : I) (rows : List α) (i : I) (k : K) : Prop where
  lt : i < next
  key : ∀ r ∈ rows, C.id r = i → C.key r = some k

variable {C} {indexed : Bool} {next next' i : I} {rows rows' : List α} {k : K}

omit [LinearOrder I] [DecidableEq K] in
theorem mem_of_entries (h : (rows'.map C.entry).Sublist (rows.map C.entry)) {r : α}
    (hr : r ∈ rows') : ∃ s ∈ rows, C.id s = C.id r ∧ C.key s = C.key r := by
  obtain ⟨s, hs, heq⟩ := List.mem_map.mp (h.subset (List.mem_map_of_mem hr))
  exact ⟨s, hs, congrArg Prod.fst heq, congrArg Prod.snd heq⟩

omit [DecidableEq K] in
/-- Rows that keep their ids and keys. -/
theorem Grown.same (entries : rows'.map C.entry = rows.map C.entry) (hnext : next' = next) :
    Grown C indexed next rows next' rows' :=
  .kept (entries ▸ List.Sublist.refl _) hnext

omit [DecidableEq K] in
/-- **The index is kept.** -/
theorem Ok.grown (h : Ok C indexed next rows) (hg : Grown C indexed next rows next' rows') :
    Ok C indexed next' rows' := by
  cases hg with
  | kept hentries hnext =>
      have hids := hentries.map Prod.fst
      have hkeys := hentries.filterMap Prod.snd
      rw [List.map_map, List.map_map] at hids
      rw [List.filterMap_map, List.filterMap_map] at hkeys
      refine ⟨h.ids.sublist hids, fun r hr => ?_, fun hx => (h.once hx).sublist hkeys⟩
      obtain ⟨s, hs, hid, -⟩ := mem_of_entries hentries hr
      exact hnext ▸ hid ▸ h.below s hs
  | added r hid hfree hrows hlt =>
      subst hrows
      refine ⟨?_, fun s hs => ?_, fun hx => ?_⟩
      · rw [List.map_append, List.map_singleton, List.nodup_append]
        refine ⟨h.ids, List.nodup_singleton _, fun j hj j' hj' => ?_⟩
        obtain ⟨s, hs, rfl⟩ := List.mem_map.mp hj
        rw [List.mem_singleton.mp hj', hid]
        exact (h.below s hs).ne
      · rcases List.mem_append.mp hs with hs | hs
        · exact (h.below s hs).trans hlt
        · rw [List.mem_singleton.mp hs, hid]
          exact hlt
      · refine Columns.once_iff.mpr (List.pairwise_append.mpr
          ⟨Columns.once_iff.mp (h.once hx), List.pairwise_singleton _ _, ?_⟩)
        intro s hs r' hr' k hsk hrk
        rw [List.mem_singleton.mp hr'] at hrk
        exact hfree hx k hrk s hs hsk

omit [DecidableEq K] in
theorem Marked.grown (h : Marked C next rows i k) (hg : Grown C indexed next rows next' rows') :
    Marked C next' rows' i k := by
  cases hg with
  | kept hentries hnext =>
      refine ⟨hnext ▸ h.lt, fun r hr hid => ?_⟩
      obtain ⟨s, hs, hsid, hskey⟩ := mem_of_entries hentries hr
      exact hskey ▸ h.key s hs (hsid.trans hid)
  | added r hrid _ hrows hlt =>
      subst hrows
      refine ⟨h.lt.trans hlt, fun s hs hid => ?_⟩
      rcases List.mem_append.mp hs with hs | hs
      · exact h.key s hs hid
      · rw [List.mem_singleton.mp hs, hrid] at hid
        exact absurd hid h.lt.ne'

/-- **The index can be built.** -/
theorem Ok.build (h : Ok C indexed next rows) :
    C.build indexed rows = some (C.keepFirst rows) ∧ Ok C true next (C.keepFirst rows) := by
  have honce := Columns.once_keepFirst h.ids
  refine ⟨if_pos (.inr honce), ?_, fun r hr => ?_, fun _ => honce⟩
  · rw [Columns.map_id_keepFirst]
    exact h.ids
  · have hid := List.mem_map_of_mem hr (f := C.id)
    rw [Columns.map_id_keepFirst] at hid
    obtain ⟨s, hs, heq⟩ := List.mem_map.mp hid
    exact heq ▸ h.below s hs

omit [DecidableEq K] in
/-- A row is marked with its key. -/
theorem Ok.marked (h : Ok C indexed next rows) {r : α} (hr : r ∈ rows)
    (hk : C.key r = some k) : Marked C next rows (C.id r) k := by
  refine ⟨h.below r hr, fun s hs hid => ?_⟩
  rw [List.inj_on_of_nodup_map h.ids hs hr hid]
  exact hk

end Growth

end Dokan.Verified.FirstKeeps
