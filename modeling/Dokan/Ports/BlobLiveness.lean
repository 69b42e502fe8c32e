import Dokan.Ports.RunScript
import Dokan.Ports.RunTable

/-!
# The blobs of waiting runs

`resolve_files` asks for every handle whether its blob is there, and the row
that mounts the blobs is inserted later.  `gc_blobs` spares what a run or an
enabled schedule mounts, and what was stored or read not long ago; asking for a
blob is not reading it.  Whoever has a map of handles in hand and no row with it
in the tables is a *holder*: a call between its checks and its insert, a ticker
whose schedule has been disabled, a reproduction.

Statements take effect one after another, `gc_old` and `gc_blobs` at one point
each.

## Main results

* `BlobInv.step` — what tables and holders mount is there, as long as no sweep
  takes a blob from a holder.
* `blobs_live` — then so is what waiting runs and enabled schedules mount.
-/

namespace Dokan.Ports.BlobLiveness

open Dokan.Verified
open Dokan.Verified.Json
open Dokan.Ports.RunRow
open Dokan.Ports.RunTable (Table Statement isTerminal)
open Dokan.Ports.RunScript (mentions validName)

/-! ## The tables -/

/-- What a sweep or a tick reads of a row of `schedules`. -/
structure Schedule where
  id : Nat
  scriptId : Int
  enabled : Bool
  inputBlobs : Option Value

/-- Who holds a map. -/
inductive Role
  | runScript
  | schedule
  | ticker
  | reproduce
deriving DecidableEq

/-- A map of handles that is on its way into a table, and the files that
`resolve_files` has not come to. -/
structure Holder where
  role : Role
  left : List (String × String)
  blobs : Option Value

/-- `runs`, `schedules`, `blobs` with the `last_used_at` of each handle, and who
holds what. -/
structure Sys where
  table : Table
  blobs : String → Option Nat
  schedules : List Schedule
  nextSchedule : Nat
  holders : Nat → Option Holder

def init : Sys where
  table := .empty
  blobs := fun _ => none
  schedules := []
  nextSchedule := 0
  holders := fun _ => none

/-- A run or an enabled schedule mounts the blob. -/
def Sys.references (s : Sys) (sha : String) : Bool :=
  (s.table.runs.any fun row =>
      mentions row.run.inputBlobs sha || mentions row.run.outputBlobs sha) ||
    s.schedules.any fun sc => sc.enabled && mentions sc.inputBlobs sha

/-- `last_used_at < now() - age`, and nothing mounts it. -/
def Sys.doomed (s : Sys) (age : Nat) (sha : String) : Bool :=
  (s.blobs sha).any (fun used => used + age < s.table.now) && !s.references sha

/-- `Db::gc_blobs`. -/
def Sys.gcBlobs (s : Sys) (age : Nat) : Sys :=
  { s with blobs := fun sha => if s.doomed age sha then none else s.blobs sha }

/-- `Db::put_blob`. -/
def Sys.putBlob (s : Sys) (sha : String) : Sys :=
  { s with blobs := Function.update s.blobs sha (some s.table.now) }

/-- `Db::get_blob`. -/
def Sys.getBlob (s : Sys) (sha : String) : Sys :=
  if (s.blobs sha).isSome then s.putBlob sha else s

def Sys.setHolder (s : Sys) (h : Nat) (holder : Option Holder) : Sys :=
  { s with holders := Function.update s.holders h holder }

/-- The map with one more file. -/
def addFile (name handle : String) : Option Value → Option Value
  | some (.obj map) => some (.obj (Value.insertKey name (.str handle) map))
  | _ => some (.obj [(name, .str handle)])

/-- The next turn of the loop of `resolve_files`; an invalid name or an unknown
handle ends the call. -/
def Sys.check (s : Sys) (h : Nat) (holder : Holder) : Option Sys :=
  match holder.left with
  | [] => none
  | (name, handle) :: left =>
      some (s.setHolder h
        (if validName name && (s.blobs handle).isSome then
          some { holder with left, blobs := addFile name handle holder.blobs }
        else none))

/-! ## The machine -/

/-- Runs that come from elsewhere mount no files. -/
def withoutFiles : RunTable.Label → RunTable.Label
  | .insert n => .insert { n with inputBlobs := none }
  | a => a

inductive Label
  /-- a statement on `runs` and `logs`, or time passes -/
  | table (a : RunTable.Label)
  | putBlob (sha : String)
  | getBlob (sha : String)
  | gcBlobs (age : Nat)
  /-- a call of `run_script` or `schedule` comes to `resolve_files` -/
  | resolveFiles (h : Nat) (role : Role) (files : List (String × String))
  | check (h : Nat)
  /-- the insert of `run_script`, a tick or a reproduction -/
  | insertRun (h : Nat) (n : NewRun)
  | insertSchedule (h : Nat) (scriptId : Int)
  /-- a daemon starts the ticker of an enabled schedule -/
  | load (h : Nat) (id : Nat)
  /-- `reproduce_run` reads the row of the run -/
  | reproduce (h : Nat) (r : RunTable.RunId)
  /-- the call is answered without an insert, or its process is gone -/
  | drop (h : Nat)
  | disable (id : Nat)
  | deleteScript (id : Int)

def step (s : Sys) : Label → Option Sys
  | .table a => (RunTable.step s.table (withoutFiles a)).map fun table => { s with table }
  | .putBlob sha => some (s.putBlob sha)
  | .getBlob sha => some (s.getBlob sha)
  | .gcBlobs age => some (s.gcBlobs age)
  | .resolveFiles h role files =>
      if (s.holders h).isNone && (role = .runScript || role = .schedule) then
        some (s.setHolder h (some { role, left := files, blobs := none }))
      else none
  | .check h => (s.holders h).bind (s.check h)
  | .insertRun h n =>
      (s.holders h).bind fun holder =>
        if holder.left.isEmpty && holder.role ≠ .schedule then
          some
            { s with
              table := s.table.insert
                (insertRunWithBlobs s.table.now { n with inputBlobs := holder.blobs })
              -- a ticker goes on
              holders := Function.update s.holders h
                (if holder.role = .ticker then some holder else none) }
        else none
  | .insertSchedule h scriptId =>
      (s.holders h).bind fun holder =>
        if holder.left.isEmpty && holder.role = .schedule then
          some
            { s with
              schedules := s.schedules ++
                [{ id := s.nextSchedule, scriptId, enabled := true, inputBlobs := holder.blobs }]
              nextSchedule := s.nextSchedule + 1
              -- the call reads its row back and starts the ticker
              holders := Function.update s.holders h (some { holder with role := .ticker }) }
        else none
  | .load h id =>
      if (s.holders h).isNone then
        (s.schedules.find? fun sc => sc.enabled && sc.id = id).map fun sc =>
          s.setHolder h (some { role := .ticker, left := [], blobs := sc.inputBlobs })
      else none
  | .reproduce h r =>
      if (s.holders h).isNone then
        (s.table.runs.find? fun row => row.id = r).map fun row =>
          s.setHolder h (some { role := .reproduce, left := [], blobs := row.run.inputBlobs })
      else none
  | .drop h => some (s.setHolder h none)
  | .disable id =>
      some { s with schedules := s.schedules.map fun sc =>
        if sc.id = id then { sc with enabled := false } else sc }
  | .deleteScript id =>
      some { s with
        table := { s.table with
          runs := s.table.runs.filter fun row => row.run.scriptId ≠ id
          logs := s.table.logs.filter fun line =>
            line.runId ∉ (s.table.runs.filter fun row => row.run.scriptId = id).map
              RunTable.Row.id }
        schedules := s.schedules.filter fun sc => sc.scriptId ≠ id }

/-- What waiting runs and enabled schedules mount is there. -/
def Live (s : Sys) : Prop :=
  (∀ row ∈ s.table.runs, isTerminal row.run.status = false →
    ∀ sha, mentions row.run.inputBlobs sha = true → (s.blobs sha).isSome = true) ∧
  ∀ sc ∈ s.schedules, sc.enabled = true →
    ∀ sha, mentions sc.inputBlobs sha = true → (s.blobs sha).isSome = true

/-- A sweep takes nothing that a holder mounts. -/
def Spares (s : Sys) : Label → Prop
  | .gcBlobs age => ∀ h holder, s.holders h = some holder →
      ∀ sha, mentions holder.blobs sha = true → s.doomed age sha = false
  | _ => True

/-! ## The invariant -/

/-- Every blob of the map is there. -/
def Sys.Held (s : Sys) (blobs : Option Value) : Prop :=
  ∀ sha, mentions blobs sha = true → (s.blobs sha).isSome = true

/-- Every blob that tables and holders mount is there. -/
structure BlobInv (s : Sys) : Prop where
  runs : ∀ row ∈ s.table.runs, s.Held row.run.inputBlobs
  schedules : ∀ sc ∈ s.schedules, sc.enabled = true → s.Held sc.inputBlobs
  holders : ∀ h holder, s.holders h = some holder → s.Held holder.blobs

section Steps

variable {s s' : Sys}

/-- A step that takes no blob, and mounts only what is there. -/
theorem BlobInv.next (hblobs : ∀ sha, (s.blobs sha).isSome = true → (s'.blobs sha).isSome = true)
    (hruns : ∀ row ∈ s'.table.runs, s.Held row.run.inputBlobs)
    (hschedules : ∀ sc ∈ s'.schedules, sc.enabled = true → s.Held sc.inputBlobs)
    (hholders : ∀ h holder, s'.holders h = some holder → s.Held holder.blobs) : BlobInv s' :=
  ⟨fun row hrow sha hm => hblobs sha (hruns row hrow sha hm),
    fun sc hsc hen sha hm => hblobs sha (hschedules sc hsc hen sha hm),
    fun h holder hh sha hm => hblobs sha (hholders h holder hh sha hm)⟩

theorem held_none : s.Held none := by
  rintro sha ⟨⟩

/-- A statement leaves what the insert of a run fixed. -/
theorem toNewRun_apply (now : Nat) (id : RunTable.RunId) (run : Run) (w : Statement) :
    (w.apply now id run).toNewRun = run.toNewRun := by
  cases w with
  | claim r =>
      simp only [Statement.apply, claimRun]
      split_ifs <;> rfl
  | finish r succeeded exitCode error =>
      simp only [Statement.apply, finishRun]
      split_ifs <;> rfl
  | cancel r reason =>
      simp only [Statement.apply, cancelRun]
      split_ifs <;> rfl
  | touch r =>
      simp only [Statement.apply, touchRun]
      split_ifs <;> rfl
  | reap lease =>
      simp only [Statement.apply, reapOrphanRun]
      split_ifs <;> rfl
  | failStale maxAge =>
      simp only [Statement.apply, failStalePending]
      split_ifs <;> rfl
  | markAttempt r | requeue r | setResult r v | setOutputBlobs r v | setReceipt r v =>
      simp only [Statement.apply]
      split_ifs <;> rfl

/-- A map with one more file mounts that and what it did. -/
theorem mentions_addFile {name handle sha : String} {blobs : Option Value}
    (h : mentions (addFile name handle blobs) sha = true) :
    sha = handle ∨ mentions blobs sha = true := by
  have hone : ∀ {v : Value}, v.asStr? = some sha → v = .str handle → sha = handle := by
    rintro v hv rfl
    exact (Option.some.inj hv).symm
  unfold addFile at h
  split at h
  · next map =>
      rw [mentions] at h
      obtain ⟨p, hp, hsha⟩ := List.any_eq_true.mp h
      rcases Value.mem_insertKey hp with rfl | hp
      · exact .inl (hone (of_decide_eq_true hsha) rfl)
      · exact .inr (List.any_eq_true.mpr ⟨p, hp, hsha⟩)
  · obtain ⟨p, hp, hsha⟩ := List.any_eq_true.mp h
    obtain rfl := List.mem_singleton.mp hp
    exact .inl (hone (of_decide_eq_true hsha) rfl)

/-- A statement on `runs` mounts nothing new. -/
theorem held_tableStep (hI : BlobInv s) {a : RunTable.Label} {table : Table}
    (h : RunTable.step s.table (withoutFiles a) = some table) :
    ∀ row ∈ table.runs, s.Held row.run.inputBlobs := by
  intro row' hrow'
  rcases RunTable.step_rows h hrow' with hrow | ⟨w, row, _, hrow, rfl⟩ | ⟨_, hnew⟩
  · exact hI.runs row' hrow
  · rw [RunTable.Row.write, toNewRun_apply]
    exact hI.runs row hrow
  · rcases hnew with ⟨n, ha, hrun⟩ | ⟨n, reason, _, hrun⟩
    · -- the insert is one without files
      have hnone : n.inputBlobs = none := by
        cases a with
        | insert n' =>
            cases ha
            rfl
        | wait d | refuse n' reason | write w | appendLog r seq | gcOld age | gcLogs age =>
            cases ha
      rw [hrun]
      show s.Held n.inputBlobs
      rw [hnone]
      exact held_none
    · rw [hrun]
      exact held_none

/-- The sweep spares what a row or a holder mounts. -/
theorem gcBlobs_held {age : Nat} {blobs : Option Value} (hheld : s.Held blobs)
    (hspared : ∀ sha, mentions blobs sha = true → s.doomed age sha = false) :
    (s.gcBlobs age).Held blobs := by
  intro sha hm
  rw [Sys.gcBlobs]
  simp only [hspared sha hm]
  exact hheld sha hm

theorem doomed_of_references {age : Nat} {sha : String} (h : s.references sha = true) :
    s.doomed age sha = false := by
  rw [Sys.doomed, h, Bool.not_true, Bool.and_false]

theorem doomed_of_absent {age : Nat} {sha : String} (h : s.blobs sha = none) :
    s.doomed age sha = false := by
  rw [Sys.doomed, h]
  rfl

theorem BlobInv.gcBlobs (hI : BlobInv s) {age : Nat} (hC : Spares s (.gcBlobs age)) :
    BlobInv (s.gcBlobs age) := by
  refine ⟨fun row hrow => ?_, fun sc hsc hen => ?_, fun h holder hh => ?_⟩
  · refine gcBlobs_held (hI.runs row hrow) fun sha hm => doomed_of_references ?_
    rw [Sys.references, Bool.or_eq_true]
    exact .inl (List.any_eq_true.mpr ⟨row, hrow, by rw [hm, Bool.true_or]⟩)
  · refine gcBlobs_held (hI.schedules sc hsc hen) fun sha hm => doomed_of_references ?_
    rw [Sys.references, Bool.or_eq_true]
    exact .inr (List.any_eq_true.mpr ⟨sc, hsc, by rw [hen, hm, Bool.true_and]⟩)
  · exact gcBlobs_held (hI.holders h holder hh) (hC h holder hh)

theorem BlobInv.putBlob (hI : BlobInv s) (sha : String) : BlobInv (s.putBlob sha) := by
  refine BlobInv.next (s := s) ?_ hI.runs hI.schedules hI.holders
  intro sha' hsome
  rw [Sys.putBlob]
  simp only [Function.update_apply]
  split_ifs
  · rfl
  · exact hsome

/-- One holder changes. -/
theorem held_update (hI : BlobInv s) {h : Nat} {o : Option Holder}
    (ho : ∀ holder, o = some holder → s.Held holder.blobs) :
    ∀ h' holder, Function.update s.holders h o h' = some holder → s.Held holder.blobs := by
  intro h' holder hh
  rw [Function.update_apply] at hh
  split_ifs at hh
  · exact ho holder hh
  · exact hI.holders h' holder hh

theorem BlobInv.setHolder (hI : BlobInv s) {h : Nat} {o : Option Holder}
    (ho : ∀ holder, o = some holder → s.Held holder.blobs) : BlobInv (s.setHolder h o) :=
  BlobInv.next (s := s) (fun _ h => h) hI.runs hI.schedules (held_update hI ho)

theorem BlobInv.check (hI : BlobInv s) {h : Nat} {holder : Holder}
    (hh : s.holders h = some holder) (hs : s.check h holder = some s') : BlobInv s' := by
  unfold Sys.check at hs
  split at hs
  · cases hs
  · next name handle left _ =>
      cases hs
      refine hI.setHolder fun holder' ho => ?_
      split_ifs at ho with hthere
      cases ho
      rw [Bool.and_eq_true] at hthere
      intro sha hm
      rcases mentions_addFile hm with rfl | hm
      · exact hthere.2
      · exact hI.holders h holder hh sha hm

/-- **One step** keeps it, unless a sweep takes something from a holder. -/
theorem BlobInv.step {a : Label} (hI : BlobInv s) (hC : Spares s a)
    (h : step s a = some s') : BlobInv s' := by
  cases a with
  | table a =>
      obtain ⟨table, htable, rfl⟩ := Option.map_eq_some_iff.mp h
      exact BlobInv.next (s := s) (fun _ h => h) (held_tableStep hI htable) hI.schedules
        hI.holders
  | putBlob sha =>
      cases h
      exact hI.putBlob sha
  | getBlob sha =>
      cases h
      unfold Sys.getBlob
      split_ifs
      · exact hI.putBlob sha
      · exact hI
  | gcBlobs age =>
      cases h
      exact hI.gcBlobs hC
  | resolveFiles h' role files =>
      simp only [BlobLiveness.step] at h
      split_ifs at h
      cases h
      refine hI.setHolder fun holder ho => ?_
      cases ho
      exact held_none
  | check h' =>
      obtain ⟨holder, hh, hs⟩ := Option.bind_eq_some_iff.mp h
      exact hI.check hh hs
  | insertRun h' n =>
      obtain ⟨holder, hh, hs⟩ := Option.bind_eq_some_iff.mp h
      obtain ⟨_, hs⟩ := Option.ite_none_right_eq_some.mp hs
      cases hs
      refine BlobInv.next (s := s) (fun _ h => h) ?_ hI.schedules (held_update hI ?_)
      · intro row hrow
        rcases RunTable.mem_insert hrow with hrow | ⟨_, hrun⟩
        · exact hI.runs row hrow
        · rw [hrun]
          exact hI.holders h' holder hh
      · intro holder' ho
        split_ifs at ho
        cases ho
        exact hI.holders h' holder hh
  | insertSchedule h' scriptId =>
      obtain ⟨holder, hh, hs⟩ := Option.bind_eq_some_iff.mp h
      split_ifs at hs
      cases hs
      refine BlobInv.next (s := s) (fun _ h => h) hI.runs ?_ (held_update hI ?_)
      · intro sc hsc hen
        rcases List.mem_append.mp hsc with hsc | hsc
        · exact hI.schedules sc hsc hen
        · rw [List.mem_singleton.mp hsc]
          exact hI.holders h' holder hh
      · rintro holder' ⟨⟩
        exact hI.holders h' holder hh
  | load h' id =>
      simp only [BlobLiveness.step] at h
      split_ifs at h
      obtain ⟨sc, hsc, rfl⟩ := Option.map_eq_some_iff.mp h
      have hfound := List.find?_some hsc
      simp only [Bool.and_eq_true] at hfound
      refine hI.setHolder fun holder ho => ?_
      cases ho
      exact hI.schedules sc (List.mem_of_find?_eq_some hsc) hfound.1
  | reproduce h' r =>
      simp only [BlobLiveness.step] at h
      split_ifs at h
      obtain ⟨row, hrow, rfl⟩ := Option.map_eq_some_iff.mp h
      refine hI.setHolder fun holder ho => ?_
      cases ho
      exact hI.runs row (List.mem_of_find?_eq_some hrow)
  | drop h' =>
      cases h
      refine hI.setHolder fun holder ho => ?_
      cases ho
  | disable id =>
      cases h
      refine BlobInv.next (s := s) (fun _ h => h) hI.runs ?_ hI.holders
      intro sc' hsc' hen
      obtain ⟨sc, hsc, rfl⟩ := List.mem_map.mp hsc'
      -- a schedule that is still enabled is another one
      split_ifs at hen ⊢
      exact hI.schedules sc hsc hen
  | deleteScript id =>
      cases h
      refine BlobInv.next (s := s) (fun _ h => h) ?_ ?_ hI.holders
      · exact fun row hrow => hI.runs row (List.mem_filter.mp hrow).1
      · exact fun sc hsc hen => hI.schedules sc (List.mem_filter.mp hsc).1 hen

end Steps

theorem blobInv_init : BlobInv init := by
  refine ⟨?_, ?_, ?_⟩
  · rintro row ⟨⟩
  · rintro sc ⟨⟩
  · rintro h holder ⟨⟩

/-- **Blobs stay.**  In every interleaving of uploads, checks, inserts, ticks,
the life of runs and sweeps of any age, what a waiting run or an enabled
schedule mounts is there, as long as every sweep spares what a holder mounts. -/
theorem blobs_live {l : List Label} {s : Sys} (hrun : Machine.run step init l = some s)
    (hC : Machine.Along step Spares init l) : Live s := by
  have hI : BlobInv s :=
    Machine.inv_run (fun _ _ _ hI hC h => hI.step hC h) blobInv_init hC hrun
  exact ⟨fun row hrow _ => hI.runs row hrow, hI.schedules⟩

/-! ## A sweep between the check and the insert -/

/-- A run of script 1. -/
def plainRun : NewRun where
  scriptId := 1
  input := .object []
  agentId := some "a"
  inputBlobs := none
  captureOutput := false
  idempotencyKey := none

/-- A blob is stored; `idle` later a call mounts it, and a sweep of the blobs
unused for ten units comes before its insert. -/
def sweptCall (idle : Nat) : List Label :=
  [ .putBlob "b0"
  , .table (.wait idle)
  , .resolveFiles 0 .runScript [("data.csv", "b0")]
  , .check 0
  , .gcBlobs 10
  , .insertRun 0 plainRun ]

/-- The call was told that the blob is there, and its run waits without it. -/
theorem not_blobs_live :
    ¬ ∀ l s, Machine.run step init l = some s → Live s := by
  intro h
  have hlive := (h (sweptCall 11) _ rfl).1 _ List.mem_cons_self rfl "b0" (by decide)
  exact absurd hlive (by decide)

/-- `blobs_live` for a blob that was stored shortly before. -/
theorem blobs_live_fresh :
    ∃ s, Machine.run step init (sweptCall 10) = some s ∧
      Machine.Along step Spares init (sweptCall 10) ∧ Live s := by
  have hC : Machine.Along step Spares init (sweptCall 10) := by
    refine ⟨trivial, fun s hs => ?_⟩
    cases hs
    refine ⟨trivial, fun s hs => ?_⟩
    cases hs
    refine ⟨trivial, fun s hs => ?_⟩
    cases hs
    refine ⟨trivial, fun s hs => ?_⟩
    cases hs
    refine ⟨?_, fun s hs => ?_⟩
    · -- the blob is younger than the age, and there is no other
      intro h holder _ sha _
      by_cases hsha : sha = "b0"
      · subst hsha
        rfl
      · exact doomed_of_absent (Function.update_of_ne hsha _ _)
    · cases hs
      exact ⟨trivial, fun _ _ => trivial⟩
  exact ⟨_, rfl, hC, blobs_live (l := sweptCall 10) rfl hC⟩

end Dokan.Ports.BlobLiveness
