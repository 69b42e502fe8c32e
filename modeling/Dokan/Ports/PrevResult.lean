import Dokan.Verified.Threading
import Dokan.Ports.TableRows

/-!
# Previous results

A script with `feed_prev_result` is started with the structured result of its newest
earlier run that has one, under `prev_result`.  Workers and flows read it when they
start a run, from whatever `runs` holds then; a result is recorded after its run has
finished, by an attempt that may have lost its lease.

The tables are those of `BlobLiveness`.  Any number of attempts at any runs go on at
the same time.  `published` and `publishers` are history and decide nothing.

## Main results

* `Inv.step` — the results in the table are what was published last.
* `lastResultForScript_eq` — what the query answers, while the row it should find is
  there.
* `monitor_folds` — where results are published in turn, every run is started with
  what all earlier ones come to, one after the other.
-/

namespace Dokan.Ports.PrevResult

open Dokan.Verified
open Dokan.Verified.Json
open Dokan.Verified.Threading
open Dokan.Ports.RunRow (NewRun)
open Dokan.Ports.RunTable (RunId Table Row)
open Dokan.Ports.TableRows

/-! ## What is modelled -/

/-- `Db::last_result_for_script`. -/
def lastResultForScript (t : Table) (scriptId : Int) (beforeRunId : RunId) : Option Value :=
  ((t.runs.filter fun row =>
    row.run.scriptId = scriptId ∧ row.id < beforeRunId ∧ row.run.result.isSome).argmax Row.id).bind
      fun row => row.run.result

/-- The input of a job whose script is fed a previous result. -/
def feed (input : Value) (prev : Option Value) : Value :=
  match input with
  | .obj map => .obj (Value.insertKey "prev_result" (prev.getD .null) map)
  | input => .object [("input", input), ("prev_result", prev.getD .null)]

/-- What the job finds under `prev_result`. -/
theorem get?_feed (input : Value) (prev : Option Value) :
    (feed input prev).get? "prev_result" = some (prev.getD .null) := by
  unfold feed
  split
  · rw [Value.get?_insertKey, if_pos rfl]
  · rw [Value.object, List.foldl_cons, List.foldl_cons, List.foldl_nil, Value.get?_insertKey,
      if_pos rfl]

/-- What an attempt is at. -/
inductive Phase
  | begun
  | running
  /-- the result the job has left -/
  | exited (result : Value)
  | ended

/-- An attempt at a run, by a worker or a flow. -/
structure Attempt where
  run : RunId
  /-- what it knows of the row -/
  job : NewRun
  /-- `feed_prev_result` of the script when the attempt began -/
  feedPrevResult : Bool
  /-- what the job was started with -/
  given : Option Value
  phase : Phase

structure Sys where
  tables : BlobLiveness.Sys
  attempts : Nat → Option Attempt
  /-- the input of a run and the result it has published last -/
  published : RunId → Option (Value × Value)
  /-- the runs of a script that have published, in the order of their first result -/
  publishers : Int → List RunId

def init : Sys where
  tables := BlobLiveness.init
  attempts := fun _ => none
  published := fun _ => none
  publishers := fun _ => []

def Sys.setAttempt (s : Sys) (k : Nat) (a : Attempt) : Sys :=
  { s with attempts := Function.update s.attempts k (some a) }

/-- What the job is started with; a query that fails is no result. -/
def Sys.jobInput (s : Sys) (a : Attempt) (answered : Bool) : Value :=
  if a.feedPrevResult then
    feed a.job.input
      (if answered then lastResultForScript s.tables.table a.job.scriptId a.run else none)
  else a.job.input

/-- `set_run_result`; a row that is gone takes no result. -/
def Sys.publish (s : Sys) (a : Attempt) (v : Value) : Sys :=
  let t := s.tables.table
  let s' :=
    { s with tables := { s.tables with
        table := { t with runs := t.runs.map (Row.write t.now (.setResult a.run v)) } } }
  if t.runs.any fun row => row.id = a.run then
    { s' with
      published := Function.update s.published a.run (some (a.job.input, v))
      publishers := Function.update s.publishers a.job.scriptId
        (record a.run (s.publishers a.job.scriptId)) }
  else s'

inductive Label
  /-- a statement that records no result -/
  | tables (a : BlobLiveness.Label)
  /-- a worker that has claimed a run, or a flow that has inserted it, takes it up -/
  | start (k : Nat) (r : RunId) (feedPrevResult : Bool)
  /-- the previous result is read, and the job is started -/
  | feed (k : Nat) (answered : Bool)
  | exit (k : Nat) (result : Option Value)
  | publish (k : Nat)
  /-- an error, a crash -/
  | stop (k : Nat)

/-- What others do to the tables. -/
def others : BlobLiveness.Label → Bool
  | .table (.write (.setResult _ _)) => false
  | _ => true

def step (s : Sys) : Label → Option Sys
  | .tables a =>
      if others a then (BlobLiveness.step s.tables a).map fun t => { s with tables := t }
      else none
  | .start k r feedPrevResult =>
      if (s.attempts k).isNone then
        (s.tables.table.runs.find? fun row => row.id = r).map fun row =>
          s.setAttempt k
            { run := r, job := row.run.toNewRun, feedPrevResult, given := none, phase := .begun }
      else none
  | .feed k answered =>
      (s.attempts k).bind fun a =>
        match a.phase with
        | .begun =>
            some (s.setAttempt k { a with given := some (s.jobInput a answered), phase := .running })
        | _ => none
  | .exit k result =>
      (s.attempts k).bind fun a =>
        match a.phase with
        | .running =>
            some (s.setAttempt k { a with phase := result.elim .ended Phase.exited })
        | _ => none
  | .publish k =>
      (s.attempts k).bind fun a =>
        match a.phase with
        | .exited v => some ((s.publish a v).setAttempt k { a with phase := .ended })
        | _ => none
  | .stop k => (s.attempts k).map fun a => s.setAttempt k { a with phase := .ended }

/-! ## The table and the history -/

/-- The last result of a run. -/
def Sys.value (s : Sys) (r : RunId) : Option Value := (s.published r).map Prod.snd

structure Inv (s : Sys) : Prop where
  ids : Ids s.tables.table
  jobs : ∀ k a, s.attempts k = some a → Known s.tables.table a.run a.job
  results : ∀ row ∈ s.tables.table.runs, row.run.result = s.value row.id
  published : ∀ r x, s.published r = some x →
    ∃ n, Known s.tables.table r n ∧ n.input = x.1 ∧ r ∈ s.publishers n.scriptId
  publishers : ∀ i r, r ∈ s.publishers i →
    (∃ n, Known s.tables.table r n ∧ n.scriptId = i) ∧ (s.published r).isSome = true

theorem inv_init : Inv init := by
  refine ⟨ids_empty, ?_, ?_, ?_, ?_⟩
  · rintro k a ⟨⟩
  · rintro row ⟨⟩
  · rintro r x ⟨⟩
  · rintro i r ⟨⟩

section Invariant

variable {s s' : Sys}

/-- A statement of others. -/
theorem Inv.tables (hI : Inv s) {a : BlobLiveness.Label} {t : BlobLiveness.Sys}
    (ha : others a = true) (h : BlobLiveness.step s.tables a = some t) :
    Inv { s with tables := t } := by
  have hrows := rows_step h
  refine ⟨hI.ids.step hrows, fun k b hk => (hI.jobs k b hk).step hrows, ?_, ?_, ?_⟩
  · intro row' hrow'
    change row'.run.result = s.value row'.id
    cases hrows with
    | kept f hf hsub _ =>
        obtain ⟨row, hrow, rfl⟩ := hsub row' hrow'
        rw [(kept_row (hf row)).1, ← hI.results row hrow]
        rcases hf row with hsame | ⟨w, hw, heq⟩
        · rw [hsame]
        · rw [heq]
          rcases result_write s.tables.table.now w row with hkeep | ⟨v, rfl, -⟩
          · exact hkeep
          · obtain rfl := eq_of_written hw
            cases ha
    | inserted new hid hresult _ hruns _ =>
        rw [hruns] at hrow'
        rcases List.mem_append.mp hrow' with hrow | hnew
        · exact hI.results row' hrow
        · -- a new row has published nothing
          rw [List.mem_singleton.mp hnew, hresult, hid, Sys.value]
          cases hpub : s.published s.tables.table.nextRun with
          | none => rfl
          | some x =>
              obtain ⟨n, hknown, -⟩ := hI.published _ x hpub
              exact absurd hknown.lt (Nat.lt_irrefl _)
  · intro r x hx
    obtain ⟨n, hknown, hmem⟩ := hI.published r x hx
    exact ⟨n, hknown.step hrows, hmem⟩
  · intro i r hr
    obtain ⟨⟨n, hknown, hn⟩, hsome⟩ := hI.publishers i r hr
    exact ⟨⟨n, hknown.step hrows, hn⟩, hsome⟩

theorem Inv.setAttempt (hI : Inv s) {k : Nat} {a : Attempt}
    (hjob : Known s.tables.table a.run a.job) : Inv (s.setAttempt k a) := by
  refine ⟨hI.ids, ?_, hI.results, hI.published, hI.publishers⟩
  intro k' b hb
  simp only [Sys.setAttempt, Function.update_apply] at hb
  split_ifs at hb
  · cases hb
    exact hjob
  · exact hI.jobs k' b hb

/-- The rows after a result is recorded. -/
theorem publish_rows (s : Sys) (a : Attempt) (v : Value) :
    RowsStep (some (.setResult a.run v)) s.tables.table (s.publish a v).tables.table := by
  unfold Sys.publish
  dsimp only
  split_ifs <;> exact .write _

/-- Without its row, a run publishes nothing. -/
theorem publish_gone {a : Attempt} {v : Value}
    (hgone : ∀ row ∈ s.tables.table.runs, row.id ≠ a.run) :
    (s.publish a v).published = s.published ∧ (s.publish a v).publishers = s.publishers := by
  have hnot : (s.tables.table.runs.any fun row => decide (row.id = a.run)) = false := by
    rw [List.any_eq_false]
    intro row hrow
    simpa using hgone row hrow
  simp [Sys.publish, hnot]

theorem publish_there {a : Attempt} {v : Value} {row : Row} (hrow : row ∈ s.tables.table.runs)
    (hid : row.id = a.run) :
    (s.publish a v).published = Function.update s.published a.run (some (a.job.input, v)) ∧
      (s.publish a v).publishers = Function.update s.publishers a.job.scriptId
        (record a.run (s.publishers a.job.scriptId)) := by
  have hany : (s.tables.table.runs.any fun row => decide (row.id = a.run)) = true :=
    List.any_eq_true.mpr ⟨row, hrow, decide_eq_true hid⟩
  simp [Sys.publish, hany]

theorem result_setResult (now : Nat) (r : RunId) (v : Value) (row : Row) :
    (row.write now (.setResult r v)).run.result =
      if r = row.id then some v else row.run.result := by
  simp only [Row.write, RunTable.Statement.apply]
  split_ifs <;> rfl

/-- A result is recorded. -/
theorem Inv.publish (hI : Inv s) {a : Attempt} (hjob : Known s.tables.table a.run a.job)
    (v : Value) : Inv (s.publish a v) := by
  have hrows := publish_rows s a v
  have hruns : ∀ row' ∈ (s.publish a v).tables.table.runs, ∃ row ∈ s.tables.table.runs,
      row'.id = row.id ∧
        row'.run.result = if a.run = row.id then some v else row.run.result := by
    intro row' hrow'
    have hmap : (s.publish a v).tables.table.runs =
        s.tables.table.runs.map (Row.write s.tables.table.now (.setResult a.run v)) := by
      unfold Sys.publish
      dsimp only
      split_ifs <;> rfl
    rw [hmap] at hrow'
    obtain ⟨row, hrow, rfl⟩ := List.mem_map.mp hrow'
    exact ⟨row, hrow, rfl, result_setResult s.tables.table.now a.run v row⟩
  have hattempts : (s.publish a v).attempts = s.attempts := by
    unfold Sys.publish
    dsimp only
    split_ifs <;> rfl
  have hids := hI.ids.step hrows
  have hjobs : ∀ k b, (s.publish a v).attempts k = some b →
      Known (s.publish a v).tables.table b.run b.job := by
    rw [hattempts]
    exact fun k b hk => (hI.jobs k b hk).step hrows
  by_cases hthere : ∃ row ∈ s.tables.table.runs, row.id = a.run
  · obtain ⟨here, hhere, hid⟩ := hthere
    obtain ⟨hpub, hpubs⟩ := publish_there (v := v) hhere hid
    refine ⟨hids, hjobs, ?_, ?_, ?_⟩
    · intro row' hrow'
      obtain ⟨row, hrow, hrowid, hresult⟩ := hruns row' hrow'
      rw [hresult, Sys.value, hpub, hrowid, Function.update_apply]
      by_cases heq : row.id = a.run
      · rw [if_pos heq.symm, if_pos heq]
        rfl
      · rw [if_neg (Ne.symm heq), if_neg heq]
        exact hI.results row hrow
    · intro r x hx
      rw [hpub, Function.update_apply] at hx
      rw [hpubs]
      split_ifs at hx with hr
      · cases hx
        refine ⟨a.job, hr ▸ hjob.step hrows, rfl, ?_⟩
        rw [Function.update_self, hr]
        exact mem_record.mpr (.inr rfl)
      · obtain ⟨n, hknown, hin, hmem⟩ := hI.published r x hx
        refine ⟨n, hknown.step hrows, hin, ?_⟩
        rw [Function.update_apply]
        split_ifs with hn
        · exact mem_record.mpr (.inl (hn ▸ hmem))
        · exact hmem
    · intro i r hr
      rw [hpubs, Function.update_apply] at hr
      rw [hpub, Function.update_apply]
      have hold : r ∈ s.publishers i →
          (∃ n, Known (s.publish a v).tables.table r n ∧ n.scriptId = i) ∧
            (if r = a.run then some (a.job.input, v) else s.published r).isSome = true := by
        intro hmem
        obtain ⟨⟨n, hknown, hn⟩, hsome⟩ := hI.publishers i r hmem
        refine ⟨⟨n, hknown.step hrows, hn⟩, ?_⟩
        split_ifs
        · rfl
        · exact hsome
      split_ifs at hr with hi
      · rcases mem_record.mp hr with hmem | rfl
        · exact hold (hi ▸ hmem)
        · exact ⟨⟨a.job, hjob.step hrows, hi.symm⟩, by rw [if_pos rfl]; rfl⟩
      · exact hold hr
  · have hgone : ∀ row ∈ s.tables.table.runs, row.id ≠ a.run :=
      fun row hrow heq => hthere ⟨row, hrow, heq⟩
    obtain ⟨hpub, hpubs⟩ := publish_gone (v := v) hgone
    refine ⟨hids, hjobs, ?_, ?_, ?_⟩
    · intro row' hrow'
      obtain ⟨row, hrow, hrowid, hresult⟩ := hruns row' hrow'
      rw [hresult, if_neg (Ne.symm (hgone row hrow)), Sys.value, hpub, hrowid]
      exact hI.results row hrow
    · intro r x hx
      rw [hpub] at hx
      rw [hpubs]
      obtain ⟨n, hknown, hin⟩ := hI.published r x hx
      exact ⟨n, hknown.step hrows, hin⟩
    · intro i r hr
      rw [hpubs] at hr
      rw [hpub]
      obtain ⟨⟨n, hknown, hn⟩, hsome⟩ := hI.publishers i r hr
      exact ⟨⟨n, hknown.step hrows, hn⟩, hsome⟩

/-- **One step** keeps the invariant. -/
theorem Inv.step {l : Label} (hI : Inv s) (h : step s l = some s') : Inv s' := by
  cases l with
  | tables a =>
      obtain ⟨ha, h⟩ := Option.ite_none_right_eq_some.mp h
      obtain ⟨t, ht, rfl⟩ := Option.map_eq_some_iff.mp h
      exact hI.tables ha ht
  | start k r feedPrevResult =>
      obtain ⟨-, h⟩ := Option.ite_none_right_eq_some.mp h
      obtain ⟨row, hrow, rfl⟩ := Option.map_eq_some_iff.mp h
      obtain rfl : row.id = r := by simpa using List.find?_some hrow
      exact hI.setAttempt (hI.ids.known (List.mem_of_find?_eq_some hrow))
  | feed k answered =>
      obtain ⟨a, hk, h⟩ := Option.bind_eq_some_iff.mp h
      split at h
      · cases h
        exact hI.setAttempt (hI.jobs k a hk)
      · cases h
  | exit k result =>
      obtain ⟨a, hk, h⟩ := Option.bind_eq_some_iff.mp h
      split at h
      · cases h
        exact hI.setAttempt (hI.jobs k a hk)
      · cases h
  | publish k =>
      obtain ⟨a, hk, h⟩ := Option.bind_eq_some_iff.mp h
      split at h
      · next v _ =>
          cases h
          exact (hI.publish (hI.jobs k a hk) v).setAttempt
            ((hI.jobs k a hk).step (publish_rows s a v))
      · cases h
  | stop k =>
      obtain ⟨a, hk, rfl⟩ := Option.map_eq_some_iff.mp h
      exact hI.setAttempt (hI.jobs k a hk)

/-- **The query.**  It answers the last result of the newest publisher below the run, if
there is none or its row is there. -/
theorem lastResultForScript_eq (hI : Inv s) {i : Int} (hs : (s.publishers i).Pairwise (· < ·))
    {r : RunId} (hthere : ∀ p, (below r (s.publishers i)).getLast? = some p →
      ∃ row ∈ s.tables.table.runs, row.id = p) :
    lastResultForScript s.tables.table i r = last s.value (below r (s.publishers i)) := by
  -- a row that the query selects is that of a publisher
  have hselected : ∀ row ∈ s.tables.table.runs, row.run.scriptId = i → row.id < r →
      row.run.result.isSome = true → row.id ∈ below r (s.publishers i) := by
    intro row hrow hscript hlt hsome
    rw [hI.results row hrow, Sys.value, Option.isSome_map] at hsome
    obtain ⟨x, hx⟩ := Option.isSome_iff_exists.mp hsome
    obtain ⟨n, hknown, -, hmem⟩ := hI.published _ x hx
    rw [← hknown.eq row hrow rfl, hscript] at hmem
    exact mem_below.mpr ⟨hmem, hlt⟩
  unfold lastResultForScript last
  cases hlast : (below r (s.publishers i)).getLast? with
  | none =>
      have hnil : below r (s.publishers i) = [] := List.getLast?_eq_none_iff.mp hlast
      have hempty : (s.tables.table.runs.filter fun row =>
          row.run.scriptId = i ∧ row.id < r ∧ row.run.result.isSome) = [] := by
        refine List.filter_eq_nil_iff.mpr fun row hrow hsel => ?_
        obtain ⟨hscript, hlt, hsome⟩ := of_decide_eq_true hsel
        have hmem := hselected row hrow hscript hlt hsome
        rw [hnil] at hmem
        cases hmem
      rw [hempty]
      rfl
  | some p =>
      obtain ⟨row, hrow, rfl⟩ := hthere p hlast
      obtain ⟨hmem, hlt⟩ := mem_below.mp (List.mem_of_getLast? hlast)
      obtain ⟨⟨n, hknown, hn⟩, hsome⟩ := hI.publishers i row.id hmem
      have hscript : row.run.scriptId = i := by rw [← hn, ← hknown.eq row hrow rfl]
      have hsel : row ∈ s.tables.table.runs.filter fun row =>
          row.run.scriptId = i ∧ row.id < r ∧ row.run.result.isSome := by
        refine List.mem_filter.mpr ⟨hrow, decide_eq_true ⟨hscript, hlt, ?_⟩⟩
        rw [hI.results row hrow, Sys.value, Option.isSome_map, hsome]
      -- the query finds a row, and its id is the greatest
      obtain ⟨found, hfound⟩ : ∃ found, (s.tables.table.runs.filter fun row =>
          row.run.scriptId = i ∧ row.id < r ∧ row.run.result.isSome).argmax Row.id = some found := by
        refine Option.ne_none_iff_exists'.mp fun hnone => ?_
        rw [List.argmax_eq_none.mp hnone] at hsel
        cases hsel
      obtain ⟨hthere', hfsel⟩ := List.mem_filter.mp (List.argmax_mem hfound)
      obtain ⟨hfscript, hflt, hfsome⟩ := of_decide_eq_true hfsel
      have hle : row.id ≤ found.id := List.le_of_mem_argmax hsel hfound
      have hge : found.id ≤ row.id :=
        le_getLast (hs.sublist List.filter_sublist) hlast
          (hselected found hthere' hfscript hflt hfsome)
      rw [hfound, Option.bind_some, Option.bind_some, hI.results found hthere',
        Nat.le_antisymm hge hle]

end Invariant

/-! ## Runs in turn -/

/-- What the runs of a script below `r` have come to. -/
def Sys.state (s : Sys) (i : Int) (r : RunId) : Option Value :=
  last s.value (below r (s.publishers i))

/-- The input of a run that has published. -/
def Sys.inputOf (s : Sys) (r : RunId) : Value := ((s.published r).map Prod.fst).getD .null

/-- The script leaves `f` of what it is started with.  Its attempts are fed; the row they
are to find is there; none publishes after a later run has been started. -/
def InTurn (i : Int) (f : Value → Value) (s : Sys) : Label → Prop
  | .start _ r feedPrevResult => ∀ row ∈ s.tables.table.runs, row.id = r →
      row.run.scriptId = i → feedPrevResult = true
  | .feed k answered => ∀ a, s.attempts k = some a → a.job.scriptId = i →
      answered = true ∧ ∀ p, (below a.run (s.publishers i)).getLast? = some p →
        ∃ row ∈ s.tables.table.runs, row.id = p
  | .exit k result => ∀ a g v, s.attempts k = some a → a.job.scriptId = i →
      a.given = some g → result = some v → v = f g
  | .publish k => ∀ a, s.attempts k = some a → a.job.scriptId = i →
      ∀ k' a', s.attempts k' = some a' → a'.job.scriptId = i → a.run < a'.run → a'.given = none
  | _ => True

/-- An attempt of the script was started with the state below its run, and leaves `f` of
that. -/
structure AttemptOk (i : Int) (f : Value → Value) (s : Sys) (a : Attempt) : Prop where
  feeds : a.feedPrevResult = true
  fed : ∀ g, a.given = some g → g = feed a.job.input (s.state i a.run)
  running : a.phase = .running → a.given.isSome = true
  exited : ∀ v, a.phase = .exited v → ∃ g, a.given = some g ∧ v = f g

structure Turn (i : Int) (f : Value → Value) (s : Sys) : Prop where
  sorted : (s.publishers i).Pairwise (· < ·)
  started : ∀ p ∈ s.publishers i, ∃ k a, s.attempts k = some a ∧ a.run = p ∧
    a.job.scriptId = i ∧ a.given.isSome = true
  attempts : ∀ k a, s.attempts k = some a → a.job.scriptId = i → AttemptOk i f s a
  chained : ∀ p ∈ s.publishers i, s.value p = some (f (feed (s.inputOf p) (s.state i p)))

section Turn

variable {i : Int} {f : Value → Value} {s s' : Sys}

theorem turn_init : Turn i f init := by
  refine ⟨List.Pairwise.nil, ?_, ?_, ?_⟩
  · rintro p ⟨⟩
  · rintro k a ⟨⟩
  · rintro p ⟨⟩

theorem AttemptOk.congr {a : Attempt} (h : AttemptOk i f s a)
    (hstate : a.given.isSome = true → s'.state i a.run = s.state i a.run) : AttemptOk i f s' a := by
  refine ⟨h.feeds, fun g hg => ?_, h.running, h.exited⟩
  rw [hstate (by rw [hg]; rfl)]
  exact h.fed g hg

/-- An attempt begins or goes on. -/
theorem Turn.setAttempt (hT : Turn i f s) {k : Nat} {a : Attempt}
    (hold : ∀ b, s.attempts k = some b → a.run = b.run ∧ a.job = b.job ∧
      (b.given.isSome = true → a.given.isSome = true))
    (hok : a.job.scriptId = i → AttemptOk i f s a) : Turn i f (s.setAttempt k a) := by
  refine ⟨hT.sorted, ?_, ?_, hT.chained⟩
  · intro p hp
    obtain ⟨k', b, hb, hrun, hscript, hgiven⟩ := hT.started p hp
    by_cases hkk : k' = k
    · subst hkk
      obtain ⟨hr, hj, hg⟩ := hold b hb
      exact ⟨k', a, Function.update_self _ _ _, hr.trans hrun, by rw [hj, hscript], hg hgiven⟩
    · exact ⟨k', b, (Function.update_of_ne hkk _ _).trans hb, hrun, hscript, hgiven⟩
  · intro k' b hb hscript
    simp only [Sys.setAttempt, Function.update_apply] at hb
    split_ifs at hb
    · cases hb
      exact (hok hscript).congr fun _ => rfl
    · exact (hT.attempts k' b hb hscript).congr fun _ => rfl

/-- Nothing is published. -/
theorem Turn.same (hT : Turn i f s) (hattempts : s'.attempts = s.attempts)
    (hpublished : s'.published = s.published) (hpublishers : s'.publishers = s.publishers) :
    Turn i f s' := by
  have hvalue : s'.value = s.value := by
    funext r
    rw [Sys.value, hpublished]
    rfl
  have hstate : ∀ r, s'.state i r = s.state i r := by
    intro r
    rw [Sys.state, hvalue, hpublishers]
    rfl
  refine ⟨hpublishers ▸ hT.sorted, ?_, ?_, ?_⟩
  · rw [hpublishers, hattempts]
    exact hT.started
  · rw [hattempts]
    exact fun k a hk hscript => (hT.attempts k a hk hscript).congr fun _ => hstate a.run
  · intro p hp
    rw [hpublishers] at hp
    rw [hvalue, hstate, Sys.inputOf, hpublished]
    exact hT.chained p hp

/-- What another run publishes leaves the state below a run. -/
theorem state_publish {a : Attempt} {v : Value} {r : RunId} (hI : Inv s)
    (hjob : Known s.tables.table a.run a.job) (hr : a.job.scriptId = i → r ≤ a.run) :
    (s.publish a v).state i r = s.state i r := by
  by_cases hthere : ∃ row ∈ s.tables.table.runs, row.id = a.run
  · obtain ⟨row, hrow, hid⟩ := hthere
    obtain ⟨hpub, hpubs⟩ := publish_there (v := v) hrow hid
    have hbelow : below r ((s.publish a v).publishers i) = below r (s.publishers i) := by
      rw [hpubs, Function.update_apply]
      split_ifs with hi
      · rw [← hi, below_record (hr hi.symm)]
      · rfl
    rw [Sys.state, Sys.state, hbelow]
    refine last_congr fun x hx => ?_
    obtain ⟨hmem, hlt⟩ := mem_below.mp hx
    -- the run is none of those below
    have hne : x ≠ a.run := by
      rintro rfl
      obtain ⟨⟨n, hknown, hn⟩, -⟩ := hI.publishers i _ hmem
      have hscript : a.job.scriptId = i := by
        rw [← hn, ← hknown.eq row hrow hid, hjob.eq row hrow hid]
      exact absurd hlt (Nat.not_lt.mpr (hr hscript))
    rw [Sys.value, hpub, Function.update_of_ne hne]
    rfl
  · obtain ⟨hpub, hpubs⟩ := publish_gone (v := v) fun row hrow heq => hthere ⟨row, hrow, heq⟩
    have hvalue : (s.publish a v).value = s.value := by
      funext x
      rw [Sys.value, hpub]
      rfl
    rw [Sys.state, Sys.state, hvalue, hpubs]

theorem publish_attempts (s : Sys) (a : Attempt) (v : Value) :
    (s.publish a v).attempts = s.attempts := by
  unfold Sys.publish
  dsimp only
  split_ifs <;> rfl

/-- A result is published in turn. -/
theorem Turn.publish (hT : Turn i f s) (hI : Inv s) {k : Nat} {a : Attempt} {v : Value}
    (hk : s.attempts k = some a) (hphase : a.phase = .exited v)
    (hturn : a.job.scriptId = i → ∀ k' a', s.attempts k' = some a' → a'.job.scriptId = i →
      a.run < a'.run → a'.given = none) : Turn i f (s.publish a v) := by
  have hjob := hI.jobs k a hk
  by_cases hthere : ∃ row ∈ s.tables.table.runs, row.id = a.run
  · obtain ⟨row, hrow, hid⟩ := hthere
    obtain ⟨hpub, hpubs⟩ := publish_there (v := v) hrow hid
    have hmine : ∀ p ∈ s.publishers i, p = a.run → a.job.scriptId = i := by
      rintro p hp rfl
      obtain ⟨⟨n, hknown, hn⟩, -⟩ := hI.publishers i _ hp
      rw [← hn, ← hknown.eq row hrow hid, hjob.eq row hrow hid]
    -- the publishers so far are not later
    have hearlier : a.job.scriptId = i → ∀ p ∈ s.publishers i, p ≤ a.run := by
      intro hscript p hp
      by_contra hlt
      obtain ⟨k', b, hb, rfl, hbscript, hgiven⟩ := hT.started p hp
      rw [hturn hscript k' b hb hbscript (Nat.lt_of_not_le hlt)] at hgiven
      cases hgiven
    have hnew : ∀ p, p ∈ (s.publish a v).publishers i →
        p ∈ s.publishers i ∨ p = a.run ∧ a.job.scriptId = i := by
      intro p hp
      rw [hpubs, Function.update_apply] at hp
      split_ifs at hp with hi
      · exact (mem_record.mp hp).imp (fun h => hi ▸ h) fun h => ⟨h, hi.symm⟩
      · exact .inl hp
    refine ⟨?_, ?_, ?_, ?_⟩
    · rw [hpubs, Function.update_apply]
      split_ifs with hi
      · rw [← hi]
        exact sorted_record hT.sorted (hearlier hi.symm)
      · exact hT.sorted
    · intro p hp
      rw [publish_attempts]
      rcases hnew p hp with hold | ⟨rfl, hscript⟩
      · exact hT.started p hold
      · obtain ⟨g, hg, -⟩ := (hT.attempts k a hk hscript).exited v hphase
        exact ⟨k, a, hk, rfl, hscript, by rw [hg]; rfl⟩
    · rw [publish_attempts]
      intro k' b hb hscript
      refine (hT.attempts k' b hb hscript).congr fun hgiven => state_publish hI hjob ?_
      intro hi
      by_contra hlt
      rw [hturn hi k' b hb hscript (Nat.lt_of_not_le hlt)] at hgiven
      cases hgiven
    · intro p hp
      have hstate : (s.publish a v).state i p = s.state i p := by
        refine state_publish hI hjob fun hi => ?_
        rcases hnew p hp with hold | ⟨rfl, -⟩
        · exact hearlier hi p hold
        · exact Nat.le_refl _
      rw [hstate, Sys.value, Sys.inputOf, hpub, Function.update_apply]
      split_ifs with heq
      · have hscript : a.job.scriptId = i :=
          (hnew p hp).elim (fun h => hmine p h heq) fun h => h.2
        obtain ⟨g, hg, rfl⟩ := (hT.attempts k a hk hscript).exited v hphase
        have hfed := (hT.attempts k a hk hscript).fed g hg
        rw [heq, hfed]
        rfl
      · have hold : p ∈ s.publishers i := (hnew p hp).resolve_right fun h => heq h.1
        exact hT.chained p hold
  · obtain ⟨hpub, hpubs⟩ := publish_gone (v := v) fun row hrow heq => hthere ⟨row, hrow, heq⟩
    exact hT.same (publish_attempts s a v) hpub hpubs

/-- **One step** in turn keeps it. -/
theorem Turn.step {l : Label} (hT : Turn i f s) (hI : Inv s) (hC : InTurn i f s l)
    (h : step s l = some s') : Turn i f s' := by
  cases l with
  | tables a =>
      obtain ⟨-, h⟩ := Option.ite_none_right_eq_some.mp h
      obtain ⟨t, -, rfl⟩ := Option.map_eq_some_iff.mp h
      exact hT.same rfl rfl rfl
  | start k r feedPrevResult =>
      obtain ⟨hfree, h⟩ := Option.ite_none_right_eq_some.mp h
      obtain ⟨row, hrow, rfl⟩ := Option.map_eq_some_iff.mp h
      refine hT.setAttempt (fun b hb => ?_) fun hscript => ?_
      · rw [hb] at hfree
        cases hfree
      · have hfeeds := hC row (List.mem_of_find?_eq_some hrow)
          (by simpa using List.find?_some hrow) hscript
        refine ⟨hfeeds, ?_, ?_, ?_⟩
        · rintro g ⟨⟩
        · rintro ⟨⟩
        · rintro v ⟨⟩
  | feed k answered =>
      obtain ⟨a, hk, h⟩ := Option.bind_eq_some_iff.mp h
      split at h
      · cases h
        refine hT.setAttempt (fun b hb => ?_) fun hscript => ?_
        · cases hk.symm.trans hb
          exact ⟨rfl, rfl, fun _ => rfl⟩
        · obtain ⟨hanswered, hthere⟩ := hC a hk hscript
          have hok := hT.attempts k a hk hscript
          refine ⟨hok.feeds, ?_, fun _ => rfl, ?_⟩
          · rintro g ⟨⟩
            rw [Sys.jobInput, if_pos hok.feeds, if_pos hanswered, hscript,
              lastResultForScript_eq hI hT.sorted hthere]
            rfl
          · rintro v ⟨⟩
      · cases h
  | exit k result =>
      obtain ⟨a, hk, h⟩ := Option.bind_eq_some_iff.mp h
      split at h
      · next hphase =>
          cases h
          refine hT.setAttempt (fun b hb => ?_) fun hscript => ?_
          · cases hk.symm.trans hb
            exact ⟨rfl, rfl, fun h => h⟩
          · have hok := hT.attempts k a hk hscript
            refine ⟨hok.feeds, hok.fed, fun _ => hok.running hphase, fun v hv => ?_⟩
            obtain ⟨g, hg⟩ := Option.isSome_iff_exists.mp (hok.running hphase)
            cases result with
            | none => cases hv
            | some w =>
                cases hv
                exact ⟨g, hg, hC a g v hk hscript hg rfl⟩
      · cases h
  | publish k =>
      obtain ⟨a, hk, h⟩ := Option.bind_eq_some_iff.mp h
      split at h
      · next v hphase =>
          cases h
          refine (hT.publish hI hk hphase (hC a hk)).setAttempt (fun b hb => ?_) fun hscript => ?_
          · rw [publish_attempts] at hb
            cases hk.symm.trans hb
            exact ⟨rfl, rfl, fun h => h⟩
          · have hok := hT.attempts k a hk hscript
            refine AttemptOk.congr (s := s) ⟨hok.feeds, hok.fed, ?_, ?_⟩ fun _ =>
              state_publish hI (hI.jobs k a hk) fun _ => Nat.le_refl _
            · rintro ⟨⟩
            · rintro w ⟨⟩
      · cases h
  | stop k =>
      obtain ⟨a, hk, rfl⟩ := Option.map_eq_some_iff.mp h
      refine hT.setAttempt (fun b hb => ?_) fun hscript => ?_
      · cases hk.symm.trans hb
        exact ⟨rfl, rfl, fun h => h⟩
      · have hok := hT.attempts k a hk hscript
        refine ⟨hok.feeds, hok.fed, ?_, ?_⟩
        · rintro ⟨⟩
        · rintro v ⟨⟩

theorem turn_run {l : List Label} (h : Machine.run step init l = some s)
    (hC : Machine.Along step (InTurn i f) init l) : Inv s ∧ Turn i f s :=
  Machine.inv_run (I := fun s => Inv s ∧ Turn i f s)
    (fun _ _ _ hI hC h => ⟨hI.1.step h, hI.2.step hI.1 hC h⟩) ⟨inv_init, turn_init⟩ hC h

/-- What the runs of a script come to, one after the other. -/
def Sys.folded (s : Sys) (i : Int) (f : Value → Value) (r : RunId) : Option Value :=
  thread (fun p prev => f (feed (s.inputOf p) prev)) (below r (s.publishers i))

theorem Turn.state_eq_folded (hT : Turn i f s) (r : RunId) : s.state i r = s.folded i f r :=
  last_below_eq_thread (f := fun p prev => f (feed (s.inputOf p) prev)) hT.sorted hT.chained r

/-- **Monitors fold.**  In every interleaving of attempts, inserts, claims, requeues and
sweeps in which the results of the script are published in turn: what an attempt was
started with is its input, fed what the runs of the script below its own have come to,
each applied to what the ones before it came to; and what the query answers is the
same, as long as the row it should find is there. -/
theorem monitor_folds {l : List Label} (h : Machine.run step init l = some s)
    (hC : Machine.Along step (InTurn i f) init l) :
    (∀ k a g, s.attempts k = some a → a.job.scriptId = i → a.given = some g →
      g = feed a.job.input (s.folded i f a.run)) ∧
    ∀ r, (∀ p, (below r (s.publishers i)).getLast? = some p →
        ∃ row ∈ s.tables.table.runs, row.id = p) →
      lastResultForScript s.tables.table i r = s.folded i f r := by
  obtain ⟨hI, hT⟩ := turn_run h hC
  refine ⟨fun k a g hk hscript hg => ?_, fun r hthere => ?_⟩
  · rw [← hT.state_eq_folded]
    exact (hT.attempts k a hk hscript).fed g hg
  · rw [← hT.state_eq_folded]
    exact lastResultForScript_eq hI hT.sorted hthere

/-! ### A monitor -/

/-- The monitor repeats what it was fed. -/
def repeats (given : Value) : Value := .obj [("seen", (given.get? "prev_result").getD .null)]

def firstResult : Value := .obj [("seen", .null)]

def monitorRun : NewRun where
  scriptId := 1
  input := .obj []
  agentId := some "a"
  inputBlobs := none
  captureOutput := false
  idempotencyKey := none

/-- Two runs of the monitor, the second started when the first has published. -/
def oneByOne : List Label :=
  [ .tables (.table (.insert monitorRun))
  , .tables (.table (.insert monitorRun))
  , .start 0 0 true
  , .feed 0 true
  , .exit 0 (some firstResult)
  , .publish 0
  , .start 1 1 true
  , .feed 1 true ]

theorem oneByOne_inTurn : Machine.Along step (InTurn 1 repeats) init oneByOne := by
  refine ⟨trivial, fun s hs => ?_⟩
  cases hs
  refine ⟨trivial, fun s hs => ?_⟩
  cases hs
  refine ⟨fun _ _ _ _ => rfl, fun s hs => ?_⟩
  cases hs
  refine ⟨?_, fun s hs => ?_⟩
  · rintro a ⟨⟩ _
    refine ⟨rfl, ?_⟩
    rintro p ⟨⟩
  cases hs
  refine ⟨?_, fun s hs => ?_⟩
  · rintro a g v ⟨⟩ _ ⟨⟩ ⟨⟩
    rfl
  cases hs
  refine ⟨?_, fun s hs => ?_⟩
  · -- there is no other attempt
    rintro a ⟨⟩ _ k' a' hk' _ hlt
    by_cases hk : k' = 0
    · subst hk
      cases hk'
      cases hlt
    · simp [Sys.setAttempt, hk, init] at hk'
  cases hs
  refine ⟨fun _ _ _ _ => rfl, fun s hs => ?_⟩
  cases hs
  refine ⟨?_, fun _ _ => trivial⟩
  rintro a ⟨⟩ _
  refine ⟨rfl, ?_⟩
  rintro p ⟨⟩
  exact ⟨_, List.mem_cons_self, rfl⟩

/-- `monitor_folds` of the second run. -/
theorem monitor_folds_second : ∃ s, Machine.run step init oneByOne = some s ∧
    ∃ a, s.attempts 1 = some a ∧
      a.given = some (.obj [("prev_result", firstResult)]) := by
  refine ⟨_, rfl, _, rfl, ?_⟩
  have hfold := (monitor_folds (l := oneByOne) rfl oneByOne_inTurn).1 1 _ _ rfl rfl rfl
  exact congrArg some hfold

/-- The second run is started between `finish_run` and `set_run_result` of the first. -/
def overlapping : List Label :=
  [ .tables (.table (.insert monitorRun))
  , .tables (.table (.insert monitorRun))
  , .start 0 0 true
  , .feed 0 true
  , .exit 0 (some firstResult)
  , .tables (.table (.write (.finish 0 true (some 0) none)))
  , .start 1 1 true
  , .feed 1 true
  , .publish 0 ]

/-- It is started as if it were the first. -/
theorem not_monitor_folds : ∃ s, Machine.run step init overlapping = some s ∧
    (∃ a, s.attempts 1 = some a ∧ a.given = some (.obj [("prev_result", .null)])) ∧
      lastResultForScript s.tables.table 1 1 = some firstResult :=
  ⟨_, rfl, ⟨_, rfl, rfl⟩, rfl⟩

end Turn

end Dokan.Ports.PrevResult
