import Dokan.Verified.Rows

/-!
# A log with numbered rows

The rows of a log are numbered from 1 on, without a gap, and a block of rows
carries consecutive numbers.  Inserting a block row by row, and leaving out the
rows whose number is taken, adds its end to the log, as long as the block begins
no later than right behind the log.  A reader asks for the rows behind a cursor,
and moves the cursor to the last row it got.

## Main results

* `numbered_insert` — a log stays a log when a block is inserted.
* `readAfter_next` — what is read are the next rows.
* `eq_of_maxSeq_le` — a reader that is at the highest number has everything.
-/

namespace Dokan.Verified.NumberedLog

universe u

variable {α : Type u} (seq : α → Nat)

/-- Rows numbered from `m + 1` on. -/
def Block (m : Nat) (rows : List α) : Prop := rows.map seq = List.range' (m + 1) rows.length

/-- Rows numbered from 1 on. -/
abbrev Numbered (rows : List α) : Prop := Block seq 0 rows

/-- The first `limit` rows with a number above `c`, in the order of their
numbers. -/
def readAfter (rows : List α) (c limit : Nat) : List α :=
  ((rows.filter fun r => c < seq r).mergeSort fun r r' => seq r ≤ seq r').take limit

/-- The number of the last row, or `c` if there is none. -/
def cursor (rows : List α) (c : Nat) : Nat := (rows.getLast?.map seq).getD c

variable {seq} {m c limit : Nat} {r : α} {rows rows' log : List α}

theorem block_nil : Block seq m [] := rfl

theorem block_cons : Block seq m (r :: rows) ↔ seq r = m + 1 ∧ Block seq (m + 1) rows := by
  simp only [Block, List.map_cons, List.length_cons, List.range'_succ, List.cons.injEq]

theorem block_append :
    Block seq m (rows ++ rows') ↔ Block seq m rows ∧ Block seq (m + rows.length) rows' := by
  induction rows generalizing m with
  | nil => simp [block_nil]
  | cons r rows ih =>
      have hlen : m + 1 + rows.length = m + (rows.length + 1) := by omega
      rw [List.cons_append, block_cons, block_cons, ih, List.length_cons, hlen, and_assoc]

theorem Block.drop (h : Block seq m rows) (k : Nat) : Block seq (m + k) (rows.drop k) := by
  by_cases hk : k ≤ rows.length
  · rw [← List.take_append_drop k rows, block_append, List.length_take, Nat.min_eq_left hk] at h
    exact h.2
  · rw [List.drop_eq_nil_of_le (Nat.le_of_lt (Nat.not_le.mp hk))]
    exact block_nil

theorem Block.initial (h : Block seq m rows) (hp : rows' <+: rows) : Block seq m rows' := by
  obtain ⟨rest, rfl⟩ := hp
  exact (block_append.mp h).1

theorem Block.lt (h : Block seq m rows) (hr : r ∈ rows) : m < seq r := by
  induction rows generalizing m with
  | nil => cases hr
  | cons r' rows ih =>
      obtain ⟨hfirst, hrest⟩ := block_cons.mp h
      rcases List.mem_cons.mp hr with rfl | hr
      · omega
      · exact Nat.lt_of_succ_lt (ih hrest hr)

theorem Block.pairwise (h : Block seq m rows) : rows.Pairwise fun r r' => seq r < seq r' := by
  induction rows generalizing m with
  | nil => exact List.Pairwise.nil
  | cons r rows ih =>
      obtain ⟨hfirst, hrest⟩ := block_cons.mp h
      refine List.Pairwise.cons (fun r' hr' => ?_) (ih hrest)
      rw [hfirst]
      exact hrest.lt hr'

theorem Block.nodup (h : Block seq m rows) : rows.Nodup := by
  refine h.pairwise.imp fun {r r'} hlt heq => ?_
  rw [heq] at hlt
  exact Nat.lt_irrefl _ hlt

/-- Of two beginnings of one block, the longer one has the rows of the other. -/
theorem subset_iff {got got' : List α} (h : Block seq m log) (hgot : got <+: log)
    (hgot' : got' <+: log) : (∀ r ∈ got, r ∈ got') ↔ got.length ≤ got'.length := by
  constructor
  · exact fun hsub => ((h.initial hgot).nodup.subperm hsub).length_le
  · exact fun hle r hr => (List.prefix_of_prefix_length_le hgot hgot' hle).subset hr

/-! ## Inserting -/

/-- A number of the log is taken, the next one is not. -/
theorem taken_iff (hlog : Numbered seq log) (hr : seq r = m + 1) :
    (log.any fun r' => seq r' = seq r) = true ↔ m < log.length := by
  have hmem : (log.any fun r' => seq r' = seq r) = true ↔ m + 1 ∈ log.map seq := by
    simp [hr]
  rw [hmem, hlog, List.mem_range'_1]
  omega

/-- **Inserting a block** adds the rows behind the end of the log. -/
theorem foldl_insertNew (hlog : Numbered seq log) (hrows : Block seq m rows)
    (hm : m ≤ log.length) :
    rows.foldl (Rows.insertNew seq) log = log ++ rows.drop (log.length - m) := by
  induction rows generalizing m log with
  | nil => simp
  | cons r rows ih =>
      obtain ⟨hfirst, hrest⟩ := block_cons.mp hrows
      rw [List.foldl_cons, Rows.insertNew]
      by_cases htaken : m < log.length
      · rw [if_pos ((taken_iff hlog hfirst).mpr htaken), ih hlog hrest htaken,
          show log.length - m = log.length - (m + 1) + 1 by omega, List.drop_succ_cons]
      · have hlen : log.length = m := by omega
        have hnew : Numbered seq (log ++ [r]) := by
          refine block_append.mpr ⟨hlog, block_cons.mpr ⟨?_, block_nil⟩⟩
          rw [hfirst, hlen, Nat.zero_add]
        rw [if_neg fun h => htaken ((taken_iff hlog hfirst).mp h), ih hnew hrest (by simp [hlen])]
        simp [hlen]

/-- The log stays a log. -/
theorem numbered_insert (hlog : Numbered seq log) (hrows : Block seq m rows)
    (hm : m ≤ log.length) : Numbered seq (rows.foldl (Rows.insertNew seq) log) := by
  have hrest := hrows.drop (log.length - m)
  rw [show m + (log.length - m) = 0 + log.length by omega] at hrest
  rw [foldl_insertNew hlog hrows hm]
  exact block_append.mpr ⟨hlog, hrest⟩

/-- And it reaches to the end of the block at least. -/
theorem le_length_insert (hlog : Numbered seq log) (hrows : Block seq m rows)
    (hm : m ≤ log.length) :
    m + rows.length ≤ (rows.foldl (Rows.insertNew seq) log).length := by
  rw [foldl_insertNew hlog hrows hm, List.length_append, List.length_drop]
  omega

/-- The highest number is that of the last row. -/
theorem foldl_max (hrows : Block seq m rows) :
    rows.foldl (fun k r => max k (seq r)) m = m + rows.length := by
  induction rows generalizing m with
  | nil => rfl
  | cons r rows ih =>
      obtain ⟨hfirst, hrest⟩ := block_cons.mp hrows
      rw [List.foldl_cons, hfirst, Nat.max_eq_right (Nat.le_succ m), ih hrest, List.length_cons]
      omega

/-! ## Reading -/

theorem filter_lt (hrows : Block seq m rows) :
    (rows.filter fun r => decide (c < seq r)) = rows.drop (c - m) := by
  induction rows generalizing m with
  | nil => simp
  | cons r rows ih =>
      obtain ⟨hfirst, hrest⟩ := block_cons.mp hrows
      by_cases hc : c < seq r
      · have hzero : c - m = 0 := by omega
        have hzero' : c - (m + 1) = 0 := by omega
        rw [List.filter_cons, if_pos (decide_eq_true hc), ih hrest, hzero, hzero', List.drop_zero,
          List.drop_zero]
      · rw [List.filter_cons, if_neg (by simpa using hc), ih hrest,
          show c - m = c - (m + 1) + 1 by omega, List.drop_succ_cons]

theorem readAfter_eq (hlog : Numbered seq log) :
    readAfter seq log c limit = (log.drop c).take limit := by
  have hsorted : (log.drop c).Pairwise fun r r' => decide (seq r ≤ seq r') = true := by
    refine (hlog.pairwise.sublist (List.drop_sublist c log)).imp fun hlt => ?_
    exact decide_eq_true (Nat.le_of_lt hlt)
  rw [readAfter, filter_lt hlog, Nat.sub_zero, List.mergeSort_of_pairwise hsorted]

/-- **What is read** are the next rows. -/
theorem readAfter_next (hlog : Numbered seq log) : readAfter seq log c limit <+: log.drop c := by
  rw [readAfter_eq hlog]
  exact List.take_prefix limit _

/-- The cursor moves by the number of rows. -/
theorem cursor_eq (hrows : Block seq c rows) : cursor seq rows c = c + rows.length := by
  rw [cursor, ← List.getLast?_map, hrows, List.getLast?_range']
  split_ifs with hzero
  · rw [hzero]
    rfl
  · rw [Option.getD_some]
    omega

/-- A reader that has the first rows appends the next ones. -/
theorem append_next {got : List α} (hgot : got <+: log) (hrows : rows <+: log.drop got.length) :
    got ++ rows <+: log := by
  obtain ⟨rest, rfl⟩ := hgot
  rw [List.drop_left] at hrows
  exact (List.prefix_append_right_inj got).mpr hrows

/-- And its cursor stays the number of the rows it has. -/
theorem next {got : List α} (hlog : Numbered seq log) (hgot : got <+: log)
    (hrows : rows <+: log.drop got.length) :
    got ++ rows <+: log ∧ cursor seq rows got.length = (got ++ rows).length := by
  have hblock : Block seq got.length rows := by
    have hrest := (hlog.drop got.length).initial hrows
    rw [Nat.zero_add] at hrest
    exact hrest
  refine ⟨append_next hgot hrows, ?_⟩
  rw [cursor_eq hblock, List.length_append]

/-- **Nothing is left** behind the highest number. -/
theorem eq_of_maxSeq_le {got : List α} (hlog : Numbered seq log) (hgot : got <+: log)
    (hle : log.foldl (fun k r => max k (seq r)) 0 ≤ got.length) : got = log := by
  rw [foldl_max hlog, Nat.zero_add] at hle
  exact hgot.eq_of_length_le hle

end Dokan.Verified.NumberedLog
