import Dokan.Ports.BlobLiveness

/-!
# Rows from step to step

What a statement on the tables leaves of the rows of `runs`, for results that follow
a run or one of its columns over time.  Ids are not given out twice, and what the
insert of a run fixed stays known of it, whether or not its row is still there.

## Main results

* `rows_step` — a statement rewrites rows, drops some, or inserts one.
* `Ids.step`, `Known.step` — every statement keeps what is known of a run.
* `column_step`, `outputs_step` — what is in a column was there, or was written.
-/

namespace Dokan.Ports.TableRows

open Dokan.Verified.Json
open Dokan.Ports.RunRow
open Dokan.Ports.RunTable

/-- The statement on the rows that a step sends, if it is one. -/
def written : BlobLiveness.Label → Option Statement
  | .table (.write w) => some w
  | _ => none

theorem eq_of_written {a : BlobLiveness.Label} {w : Statement} (h : written a = some w) :
    a = .table (.write w) := by
  unfold written at h
  split at h
  · cases h
    rfl
  · cases h

/-- What a step leaves of the rows. -/
inductive RowsStep (w? : Option Statement) (t t' : Table) : Prop
  | kept (f : Row → Row) (row : ∀ row, f row = row ∨ ∃ w, w? = some w ∧ f row = row.write t.now w)
      (rows : ∀ row' ∈ t'.runs, ∃ row ∈ t.runs, row' = f row) (next : t'.nextRun = t.nextRun)
  | inserted (new : Row) (id : new.id = t.nextRun) (result : new.run.result = none)
      (output : new.run.outputBlobs = none) (rows : t'.runs = t.runs ++ [new])
      (next : t'.nextRun = t.nextRun + 1)

section Steps

variable {w? : Option Statement} {t t' : Table}

theorem RowsStep.same (rows : ∀ row' ∈ t'.runs, row' ∈ t.runs) (next : t'.nextRun = t.nextRun) :
    RowsStep w? t t' :=
  .kept id (fun _ => .inl rfl) (fun row' h => ⟨row', rows row' h, rfl⟩) next

theorem RowsStep.insert {run : Run} (result : run.result = none) (output : run.outputBlobs = none) :
    RowsStep w? t (t.insert run) := by
  unfold Table.insert
  split_ifs
  · exact .same (fun _ h => h) rfl
  · exact .inserted _ rfl result output rfl rfl

theorem RowsStep.write (w : Statement) :
    RowsStep (some w) t { t with runs := t.runs.map (Row.write t.now w) } := by
  refine .kept (Row.write t.now w) (fun _ => .inr ⟨w, rfl, rfl⟩) ?_ rfl
  intro row' hrow'
  obtain ⟨row, hrow, rfl⟩ := List.mem_map.mp hrow'
  exact ⟨row, hrow, rfl⟩

end Steps

/-- **Every statement** keeps the rows it leaves, or inserts one. -/
theorem rows_step {t t' : BlobLiveness.Sys} {a : BlobLiveness.Label}
    (h : BlobLiveness.step t a = some t') : RowsStep (written a) t.table t'.table := by
  cases a with
  | table b =>
      obtain ⟨table, htable, rfl⟩ := Option.map_eq_some_iff.mp h
      cases b with
      | insert n | refuse n reason =>
          cases htable
          exact .insert rfl rfl
      | write w =>
          cases htable
          exact .write w
      | gcOld age =>
          cases htable
          exact .same (fun _ hrow => (List.mem_filter.mp hrow).1) rfl
      | appendLog r seq =>
          simp only [BlobLiveness.withoutFiles, RunTable.step] at htable
          split_ifs at htable
          cases htable
          exact .same (fun _ hrow => hrow) rfl
      | wait d | gcLogs age =>
          cases htable
          exact .same (fun _ hrow => hrow) rfl
  | getBlob sha =>
      cases h
      unfold BlobLiveness.Sys.getBlob
      split_ifs <;> exact .same (fun _ hrow => hrow) rfl
  | check k =>
      obtain ⟨holder, -, hs⟩ := Option.bind_eq_some_iff.mp h
      unfold BlobLiveness.Sys.check at hs
      split at hs
      · cases hs
      · cases hs
        exact .same (fun _ hrow => hrow) rfl
  | insertRun k n =>
      obtain ⟨holder, -, hs⟩ := Option.bind_eq_some_iff.mp h
      obtain ⟨-, hs⟩ := Option.ite_none_right_eq_some.mp hs
      cases hs
      exact .insert rfl rfl
  | insertSchedule k scriptId =>
      obtain ⟨holder, -, hs⟩ := Option.bind_eq_some_iff.mp h
      obtain ⟨-, hs⟩ := Option.ite_none_right_eq_some.mp hs
      cases hs
      exact .same (fun _ hrow => hrow) rfl
  | load k id =>
      obtain ⟨-, hs⟩ := Option.ite_none_right_eq_some.mp h
      obtain ⟨sc, -, rfl⟩ := Option.map_eq_some_iff.mp hs
      exact .same (fun _ hrow => hrow) rfl
  | reproduce k r =>
      obtain ⟨-, hs⟩ := Option.ite_none_right_eq_some.mp h
      obtain ⟨row, -, rfl⟩ := Option.map_eq_some_iff.mp hs
      exact .same (fun _ hrow => hrow) rfl
  | resolveFiles k role files =>
      obtain ⟨-, hs⟩ := Option.ite_none_right_eq_some.mp h
      cases hs
      exact .same (fun _ hrow => hrow) rfl
  | deleteScript id =>
      cases h
      exact .same (fun _ hrow => (List.mem_filter.mp hrow).1) rfl
  | putBlob sha | gcBlobs age | drop k | disable id =>
      cases h
      exact .same (fun _ hrow => hrow) rfl

/-! ## Columns -/

/-- A statement leaves the columns the insert fixed. -/
theorem toNewRun_write (now : Nat) (w : Statement) (row : Row) :
    (row.write now w).run.toNewRun = row.run.toNewRun :=
  BlobLiveness.toNewRun_apply now row.id row.run w

/-- Only `set_run_output_blobs` of the row writes its outputs. -/
theorem outputBlobs_write (now : Nat) (w : Statement) (row : Row) :
    (row.write now w).run.outputBlobs = row.run.outputBlobs ∨
      ∃ v, w = .setOutputBlobs row.id v ∧ (row.write now w).run.outputBlobs = some v := by
  unfold Row.write
  cases w with
  | setOutputBlobs r v =>
      simp only [Statement.apply]
      split_ifs with hr
      · exact .inr ⟨v, by rw [hr], rfl⟩
      · exact .inl rfl
  | claim r | finish r succeeded exitCode error | cancel r reason | touch r | reap lease
  | failStale maxAge | markAttempt r | requeue r | setResult r v | setReceipt r v =>
      left
      simp only [Statement.apply, claimRun, finishRun, cancelRun, touchRun, reapOrphanRun,
        failStalePending]
      split_ifs <;> rfl

/-- Only `set_run_result` of the row writes its result. -/
theorem result_write (now : Nat) (w : Statement) (row : Row) :
    (row.write now w).run.result = row.run.result ∨
      ∃ v, w = .setResult row.id v ∧ (row.write now w).run.result = some v := by
  unfold Row.write
  cases w with
  | setResult r v =>
      simp only [Statement.apply]
      split_ifs with hr
      · exact .inr ⟨v, by rw [hr], rfl⟩
      · exact .inl rfl
  | claim r | finish r succeeded exitCode error | cancel r reason | touch r | reap lease
  | failStale maxAge | markAttempt r | requeue r | setOutputBlobs r v | setReceipt r v =>
      left
      simp only [Statement.apply, claimRun, finishRun, cancelRun, touchRun, reapOrphanRun,
        failStalePending]
      split_ifs <;> rfl

/-! ## Runs -/

section Known

variable {w? : Option Statement} {t t' : Table}

/-- Ids are below the next one, and rows of one id are of one run. -/
structure Ids (t : Table) : Prop where
  lt : ∀ row ∈ t.runs, row.id < t.nextRun
  same : ∀ row ∈ t.runs, ∀ row' ∈ t.runs, row.id = row'.id →
    row.run.toNewRun = row'.run.toNewRun

/-- The run was inserted with these columns. -/
structure Known (t : Table) (r : RunId) (n : NewRun) : Prop where
  lt : r < t.nextRun
  eq : ∀ row ∈ t.runs, row.id = r → row.run.toNewRun = n

theorem ids_empty : Ids .empty := by
  constructor
  · rintro row ⟨⟩
  · rintro row ⟨⟩

theorem Ids.known (h : Ids t) {row : Row} (hrow : row ∈ t.runs) :
    Known t row.id row.run.toNewRun :=
  ⟨h.lt row hrow, fun row' hrow' heq => h.same row' hrow' row hrow heq⟩

/-- A row that is kept has its id and the columns of its insert. -/
theorem kept_row {f : Row → Row} {row : Row}
    (h : f row = row ∨ ∃ w, w? = some w ∧ f row = row.write t.now w) :
    (f row).id = row.id ∧ (f row).run.toNewRun = row.run.toNewRun := by
  rcases h with h | ⟨w, -, h⟩
  · exact h.symm ▸ ⟨rfl, rfl⟩
  · exact h.symm ▸ ⟨rfl, toNewRun_write t.now w row⟩

theorem Known.step {r : RunId} {n : NewRun} (hK : Known t r n) (h : RowsStep w? t t') :
    Known t' r n := by
  cases h with
  | kept f hf hrows hnext =>
      refine ⟨hnext ▸ hK.lt, ?_⟩
      intro row' hrow' heq
      obtain ⟨row, hrow, rfl⟩ := hrows row' hrow'
      obtain ⟨hid, hnew⟩ := kept_row (hf row)
      rw [hnew]
      exact hK.eq row hrow (hid ▸ heq)
  | inserted new hid _ _ hrows hnext =>
      refine ⟨hnext ▸ Nat.lt_succ_of_lt hK.lt, ?_⟩
      intro row' hrow' heq
      rw [hrows] at hrow'
      rcases List.mem_append.mp hrow' with hrow | hnew
      · exact hK.eq row' hrow heq
      · rw [List.mem_singleton.mp hnew, hid] at heq
        exact absurd heq (Nat.ne_of_gt hK.lt)

theorem Ids.step (hI : Ids t) (h : RowsStep w? t t') : Ids t' := by
  cases h with
  | kept f hf hrows hnext =>
      constructor
      · intro row' hrow'
        obtain ⟨row, hrow, rfl⟩ := hrows row' hrow'
        rw [(kept_row (hf row)).1, hnext]
        exact hI.lt row hrow
      · intro row₁ hrow₁ row₂ hrow₂ heq
        obtain ⟨row, hrow, rfl⟩ := hrows row₁ hrow₁
        obtain ⟨row', hrow', rfl⟩ := hrows row₂ hrow₂
        obtain ⟨hid, hnew⟩ := kept_row (hf row)
        obtain ⟨hid', hnew'⟩ := kept_row (hf row')
        rw [hid, hid'] at heq
        rw [hnew, hnew']
        exact hI.same row hrow row' hrow' heq
  | inserted new hid _ _ hrows hnext =>
      have hmem : ∀ row ∈ t'.runs, row ∈ t.runs ∨ row = new := by
        intro row hrow
        rw [hrows] at hrow
        exact (List.mem_append.mp hrow).imp_right List.mem_singleton.mp
      constructor
      · intro row hrow
        rw [hnext]
        rcases hmem row hrow with hold | rfl
        · exact Nat.lt_succ_of_lt (hI.lt row hold)
        · exact hid ▸ Nat.lt_succ_self _
      · intro row hrow row' hrow' heq
        rcases hmem row hrow with hold | rfl
        · rcases hmem row' hrow' with hold' | rfl
          · exact hI.same row hold row' hold' heq
          · exact absurd (heq.trans hid) (Nat.ne_of_lt (hI.lt row hold))
        · rcases hmem row' hrow' with hold' | rfl
          · exact absurd (heq.symm.trans hid) (Nat.ne_of_lt (hI.lt row' hold'))
          · rfl

/-- **A column** that one kind of statement writes, and an insert leaves empty: what a row
has in it was there before, or is what the statement writes. -/
theorem column_step {col : Run → Option Value} {set : RunId → Value → Statement}
    (hwrite : ∀ now w row, col (Row.write now w row).run = col row.run ∨
      ∃ v, w = set row.id v ∧ col (Row.write now w row).run = some v)
    (hempty : ∀ run : Run, run.result = none → run.outputBlobs = none → col run = none)
    (h : RowsStep w? t t') {row' : Row} (hrow' : row' ∈ t'.runs) {v : Value}
    (hv : col row'.run = some v) :
    (∃ row ∈ t.runs, row.id = row'.id ∧ col row.run = some v) ∨ w? = some (set row'.id v) := by
  cases h with
  | kept f hf hrows _ =>
      obtain ⟨row, hrow, rfl⟩ := hrows row' hrow'
      rw [(kept_row (hf row)).1]
      rcases hf row with hsame | ⟨w, hw, heq⟩
      · exact .inl ⟨row, hrow, rfl, hsame ▸ hv⟩
      · rw [heq] at hv
        rcases hwrite t.now w row with hkeep | ⟨v', rfl, hset⟩
        · exact .inl ⟨row, hrow, rfl, hkeep ▸ hv⟩
        · cases hset.symm.trans hv
          exact .inr hw
  | inserted new _ hresult houtput hrows _ =>
      rw [hrows] at hrow'
      rcases List.mem_append.mp hrow' with hrow | hnew
      · exact .inl ⟨row', hrow, rfl, hv⟩
      · rw [List.mem_singleton.mp hnew, hempty new.run hresult houtput] at hv
        cases hv

theorem outputs_step (h : RowsStep w? t t') {row' : Row} (hrow' : row' ∈ t'.runs) {v : Value}
    (hv : row'.run.outputBlobs = some v) :
    (∃ row ∈ t.runs, row.id = row'.id ∧ row.run.outputBlobs = some v) ∨
      w? = some (.setOutputBlobs row'.id v) :=
  column_step outputBlobs_write (fun _ _ houtput => houtput) h hrow' hv

end Known

end Dokan.Ports.TableRows
