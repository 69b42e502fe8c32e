import Dokan.Verified.Machine
import Dokan.Ports.AgentQuota
import Dokan.Ports.CacheKey
import Dokan.Ports.FlowDriver
import Dokan.Ports.PumpLogs

/-!
# The gates of `run_script`

A call of `run_script` looks the script up, checks the input files, may recall
a run from the cache, checks the agent and its quota, and inserts its run last,
under the request's idempotency key if it has one.  Every gate is a statement
of its own, and any of them may answer.

The machine here interleaves the statements of any number of calls with
uploads, secrets, other enqueues, workers and the retention sweeps.  What a
worker writes into a row is left open; so is what the budget query answers.
Statements sent to Postgres succeed, except an insert whose script is gone.

`asked` and `created` are history and decide nothing.

## Main results

* `Inv.step` — a run's script is there as long as the run is, two runs have
  two keys, and a run carries the script and the key of its request.
* `rowsStep_step` — ids are not given out twice, and what the insert of a run
  fixed stays.
* `blob_kept` — no sweep takes a blob from a run.
-/

namespace Dokan.Ports.RunScript

open Dokan.Verified
open Dokan.Verified.Json
open Dokan.Ports.Receipt (Crypto)
open Dokan.Ports.CacheKey
open Dokan.Ports.RunRow
open Dokan.Ports.AgentQuota (Refusal quotaDecide agentMaxConcurrent inFlightOf)
open Dokan.Ports.FlowDriver (runtimeSpec)

abbrev Proc := Nat
abbrev RunId := Nat
abbrev CallId := Nat

/-- What the machine does not choose. -/
structure World where
  crypto : Crypto
  /-- the characters `Debug` prints as they are -/
  plain : Char → Bool
  /-- `serde_json::from_str` -/
  fromStr : String → Option Value

/-! ## The request -/

/-- `RunArgs`; the files in the order in which their map iterates. -/
structure RunArgs where
  scriptId : Int
  input : Option Value
  cache : Option Bool
  agentId : String
  idempotencyKey : Option String
  files : Option (List (String × String))
  captureOutput : Option Bool

/-- `destringify`. -/
def destringify (W : World) : Value → Value
  | .str s =>
      match W.fromStr s with
      | some (.obj m) => .obj m
      | some (.arr a) => .arr a
      | _ => .str s
  | v => v

/-- `str::contains` for a text. -/
def containsText (pat t : List Char) : Bool := t.tails.any fun rest => pat.isPrefixOf rest

/-- The dest names `resolve_files` takes. -/
def validName (name : String) : Bool :=
  !name.toList.isEmpty && !name.toList.contains '/' && !containsText ['.', '.'] name.toList

/-- `agent_id.trim()`. -/
def RunArgs.aid (a : RunArgs) : String := String.ofList (PumpLogs.trim a.agentId.toList)

def RunArgs.fileList (a : RunArgs) : List (String × String) := a.files.getD []

/-- The columns of the run it inserts. -/
def RunArgs.newRun (W : World) (a : RunArgs) (inputBlobs : Option Value) : NewRun where
  scriptId := a.scriptId
  input := destringify W (a.input.getD (.object []))
  agentId := some a.aid
  inputBlobs
  captureOutput := a.captureOutput.getD false
  idempotencyKey := a.idempotencyKey

/-! ## The database -/

/-- The columns of `scripts` that `run_script` reads. -/
structure Script where
  runtime : String
  source : String

/-- A row of `runs`. -/
structure Row where
  id : RunId
  run : Run
  cacheKey : Option String
  /-- the request it was inserted for -/
  asked : Option RunArgs

/-- What a call answers. -/
inductive Reply
  | scriptNotFound (id : Int)
  | invalidFileName (name : String)
  | unknownBlobHandle (name handle : String)
  | recalled (r : RunId) (exit : Option Int) (result : Option Value) (cacheKey : String)
  | agentIdRequired
  | refused (refusal : Refusal)
  | idempotent (r : RunId) (status : RunStatus)
  | pending (r : RunId) (cacheKey : Option String)
  /-- a statement failed -/
  | internal

/-- The `run_id` of an answer. -/
def Reply.runId : Reply → Option RunId
  | .recalled r _ _ _ | .idempotent r _ | .pending r _ => some r
  | _ => none

/-- The point a call has reached. -/
inductive CallPc
  /-- before `get_script` -/
  | script
  /-- before `blob_exists`, with the files that follow and the map so far -/
  | file (script : Script) (name handle : String) (left : List (String × String))
      (map : List (String × Value))
  /-- before `secrets_generation` -/
  | generation (script : Script) (blobs : Option Value)
  /-- before `image_digest` -/
  | digest (script : Script) (blobs : Option Value) (gen : Int)
  /-- before `find_cached_run` -/
  | find (blobs : Option Value) (key : String)
  /-- before `agent_running_count` -/
  | count (blobs : Option Value) (cacheKey : Option String)
  /-- before `agent_compute_seconds` -/
  | spent (blobs : Option Value) (cacheKey : Option String) (inFlight : Nat)
  /-- before the insert -/
  | insert (blobs : Option Value) (cacheKey : Option String)
  /-- in `insert_run_idempotent`, after a conflict -/
  | readBack (key : String)
  /-- before `find_run_by_idempotency` -/
  | status (r : RunId) (key : String)
  /-- before `set_run_cache_key` -/
  | tag (r : RunId) (key : String)
  | answered (reply : Reply)

structure Call where
  proc : Proc
  args : RunArgs
  pc : CallPc

/-- The database, the image digests of each process, and the calls. -/
structure Sys where
  now : Nat
  scripts : Int → Option Script
  /-- handles in `blobs` -/
  blobs : String → Bool
  secretsGen : Int
  /-- rows of `runs`, in the order of their ids -/
  runs : List Row
  nextRun : RunId
  /-- `WarmPool::digests` -/
  digests : Proc → String → Option String
  calls : List Call
  /-- calls that have inserted a row -/
  created : List CallId

def init : Sys where
  now := 0
  scripts := fun _ => none
  blobs := fun _ => false
  secretsGen := 0
  runs := []
  nextRun := 0
  digests := fun _ _ => none
  calls := []
  created := []

/-- The rows of a key; `uq_runs_idempotency` says there is at most one. -/
def Sys.withKey (s : Sys) (key : String) : List Row :=
  s.runs.filter fun row => row.run.idempotencyKey = some key

/-- `Db::find_cached_run`. -/
def Sys.findCachedRun (s : Sys) (key : String) : Option Row :=
  (s.runs.filter fun row => row.cacheKey = some key && row.run.status = .succeeded).getLast?

/-- `Db::agent_running_count`. -/
def Sys.agentRunningCount (s : Sys) (agent : String) : Nat :=
  s.runs.countP fun row => inFlightOf agent row.run

/-- `Executor::image_digest`. -/
def Sys.imageDigest (s : Sys) (p : Proc) (runtime : String) : Option String :=
  (runtimeSpec runtime).bind fun spec => s.digests p spec.1

/-- The row an `INSERT` without a conflict puts into the table. -/
def Sys.insert (s : Sys) (n : NewRun) (asked : Option RunArgs) : Sys :=
  { s with
    runs := s.runs ++
      [{ id := s.nextRun, run := insertRunWithBlobs s.now n, cacheKey := none, asked }]
    nextRun := s.nextRun + 1 }

/-- The key on which the `INSERT` of a run collides. -/
def Sys.conflict (s : Sys) (key : Option String) : Option String :=
  key.filter fun k => !(s.withKey k).isEmpty

/-- The `INSERT` of a run goes through: no row has its key, and its script is
there, as the foreign key wants it. -/
def Sys.admits (s : Sys) (scriptId : Int) (key : Option String) : Bool :=
  (s.conflict key).isNone && (s.scripts scriptId).isSome

/-! ## A call -/

/-- Past the cache: the check of the agent, up to the next statement. -/
def RunArgs.pastCache (a : RunArgs) (blobs : Option Value) (cacheKey : Option String) : CallPc :=
  if a.aid.toList.isEmpty then .answered .agentIdRequired else .count blobs cacheKey

/-- Past `resolve_files`. -/
def RunArgs.pastFiles (a : RunArgs) (script : Script) (blobs : Option Value) : CallPc :=
  if a.cache.getD false then .generation script blobs else a.pastCache blobs none

/-- The loop of `resolve_files`, up to the next statement. -/
def RunArgs.nextFile (a : RunArgs) (script : Script) :
    List (String × String) → List (String × Value) → CallPc
  | [], map => a.pastFiles script (some (.obj map))
  | (name, handle) :: left, map =>
      if validName name then .file script name handle left map
      else .answered (.invalidFileName name)

/-- `resolve_files`. -/
def RunArgs.resolveFiles (a : RunArgs) (script : Script) : CallPc :=
  if a.fileList.isEmpty then a.pastFiles script none else a.nextFile script a.fileList []

/-- Past `quota::check`. -/
def CallPc.pastCheck (blobs : Option Value) (cacheKey : Option String) :
    Option Refusal → CallPc
  | some refusal => .answered (.refused refusal)
  | none => .insert blobs cacheKey

/-- Past the insert of run `r`. -/
def CallPc.pastInsert (r : RunId) : Option String → CallPc
  | some key => .tag r key
  | none => .answered (.pending r none)

/-- `Db::set_run_cache_key`. -/
def Sys.setRunCacheKey (s : Sys) (r : RunId) (key : String) : Sys :=
  { s with runs := s.runs.map fun row =>
      if row.id = r then { row with cacheKey := some key } else row }

def Sys.setCall (s : Sys) (c : CallId) (call : Call) : Sys :=
  { s with calls := s.calls.set c call }

/-- Where the next statement of a call leads; the budget query answers
`seconds`. -/
def Sys.nextPc (W : World) (s : Sys) (call : Call) (seconds : Rat) : CallPc :=
  let a := call.args
  match call.pc with
  | .script =>
      match s.scripts a.scriptId with
      | none => .answered (.scriptNotFound a.scriptId)
      | some script => a.resolveFiles script
  | .file script name handle left map =>
      if s.blobs handle then a.nextFile script left (Value.insertKey name (.str handle) map)
      else .answered (.unknownBlobHandle name handle)
  | .generation script blobs => .digest script blobs s.secretsGen
  | .digest script blobs gen =>
      .find blobs (runCacheKey W.crypto W.plain script.runtime
        ((s.imageDigest call.proc script.runtime).getD "") script.source
        (a.newRun W blobs).input gen blobs)
  | .find blobs key =>
      match s.findCachedRun key with
      | some row => .answered (.recalled row.id row.run.exitCode row.run.result key)
      | none => a.pastCache blobs (some key)
  | .count blobs cacheKey =>
      let inFlight := s.agentRunningCount a.aid
      if agentMaxConcurrent ≤ inFlight then .pastCheck blobs cacheKey (quotaDecide inFlight 0)
      else .spent blobs cacheKey inFlight
  | .spent blobs cacheKey inFlight => .pastCheck blobs cacheKey (quotaDecide inFlight seconds)
  | .insert _ cacheKey =>
      match s.conflict a.idempotencyKey with
      | some key => .readBack key
      | none =>
          if (s.scripts a.scriptId).isSome then .pastInsert s.nextRun cacheKey
          else .answered .internal
  | .readBack key =>
      match (s.withKey key).head? with
      | some row => .status row.id key
      | none => .answered .internal
  | .status r key =>
      .answered (.idempotent r
        (((s.withKey key).getLast?.map fun row => row.run.status).getD .pending))
  | .tag r key => .answered (.pending r (some key))
  | .answered reply => .answered reply

/-- What the next statement of a call writes. -/
def Sys.written (W : World) (s : Sys) (c : CallId) (call : Call) : Sys :=
  match call.pc with
  | .insert blobs _ =>
      if s.admits call.args.scriptId call.args.idempotencyKey then
        { s.insert (call.args.newRun W blobs) (some call.args) with created := c :: s.created }
      else s
  | .tag r key => s.setRunCacheKey r key
  | _ => s

def CallPc.isAnswered : CallPc → Bool
  | .answered _ => true
  | _ => false

/-- The next statement of a call. -/
def Sys.stepCall (W : World) (s : Sys) (c : CallId) (call : Call) (seconds : Rat) : Option Sys :=
  if call.pc.isAnswered then none
  else some ((s.written W c call).setCall c { call with pc := s.nextPc W call seconds })

/-! ## The machine -/

/-- `jsonb_each_text` of a map of blobs has the handle. -/
def mentions (blobs : Option Value) (handle : String) : Bool :=
  match blobs with
  | some (.obj m) => m.any fun p => p.2.asStr? = some handle
  | _ => false

/-- A run keeps the blob from `gc_blobs`. -/
def Row.keeps (row : Row) (handle : String) : Bool :=
  mentions row.run.inputBlobs handle || mentions row.run.outputBlobs handle

inductive Label
  /-- a call of `run_script` -/
  | arrive (p : Proc) (a : RunArgs)
  | call (c : CallId) (seconds : Rat)
  /-- a run that comes some other way: a webhook, a tick, a trigger, a flow -/
  | enqueue (n : NewRun)
  /-- a statement of a worker, a flow or a sweep writes a row -/
  | write (r : RunId) (run : Run)
  /-- `gc_old` -/
  | gcOld (doomed : List RunId)
  /-- `upload_script`, a new row or an upsert -/
  | upload (id : Int) (script : Script)
  | deleteScript (id : Int)
  | putBlob (handle : String)
  /-- `gc_blobs` -/
  | gcBlobs (doomed : List String)
  | setSecret
  /-- what a process knows of image digests changes -/
  | resolve (p : Proc) (digests : String → Option String)
  | wait (d : Nat)

/-- A write leaves the columns of the insert. -/
def Row.write (run : Run) (row : Row) : Row :=
  { row with run := { run with toNewRun := row.run.toNewRun } }

def step (W : World) (s : Sys) : Label → Option Sys
  | .arrive p a => some { s with calls := s.calls ++ [{ proc := p, args := a, pc := .script }] }
  | .call c seconds =>
      match s.calls[c]? with
      | none => none
      | some call => s.stepCall W c call seconds
  | .enqueue n =>
      some (if s.admits n.scriptId n.idempotencyKey then s.insert n none else s)
  | .write r run =>
      some { s with runs := s.runs.map fun row => if row.id = r then row.write run else row }
  | .gcOld doomed =>
      some { s with runs := s.runs.filter fun row =>
        !(doomed.contains row.id && row.run.finishedAt.isSome) }
  | .upload id script => some { s with scripts := Function.update s.scripts id (some script) }
  | .deleteScript id =>
      some { s with
        scripts := Function.update s.scripts id none
        runs := s.runs.filter fun row => row.run.scriptId ≠ id }
  | .putBlob handle => some { s with blobs := Function.update s.blobs handle true }
  | .gcBlobs doomed =>
      some { s with
        blobs := fun handle =>
          s.blobs handle && !(doomed.contains handle && !s.runs.any fun row => row.keeps handle) }
  | .setSecret => some { s with secretsGen := s.secretsGen + 1 }
  | .resolve p digests => some { s with digests := Function.update s.digests p digests }
  | .wait d => some { s with now := s.now + d }

/-! ## The table of runs -/

/-- What an insert fixes. -/
def Row.core (row : Row) : RunId × Option RunArgs × NewRun :=
  (row.id, row.asked, row.run.toNewRun)

section Rows

variable {W : World} {s s' : Sys} {row row' : Row} {a : Label}

theorem core_eq (h : row.core = row'.core) :
    row.id = row'.id ∧ row.asked = row'.asked ∧ row.run.toNewRun = row'.run.toNewRun := by
  injection h with hid h
  injection h with hasked hnew
  exact ⟨hid, hasked, hnew⟩

/-- The row is new: its insert went through, on behalf of a call that had
passed its gates or of somebody else. -/
structure Fresh (W : World) (s : Sys) (row : Row) : Prop where
  id : row.id = s.nextRun
  admits : s.admits row.run.scriptId row.run.idempotencyKey
  asked : ∀ args ∈ row.asked, ∃ call ∈ s.calls, call.args = args ∧
    ∃ blobs cacheKey, call.pc = .insert blobs cacheKey ∧ row.run.toNewRun = args.newRun W blobs

/-- The rows are in the order of their ids, all of them given out. -/
structure Ordered (s : Sys) : Prop where
  lt : ∀ row ∈ s.runs, row.id < s.nextRun
  sorted : s.runs.Pairwise fun row row' => row.id < row'.id

/-- What a step does to the table of runs. -/
structure RowsStep (W : World) (s s' : Sys) : Prop where
  ordered : Ordered s → Ordered s'
  next : s.nextRun ≤ s'.nextRun
  row : ∀ row' ∈ s'.runs, (∃ row ∈ s.runs, row.core = row'.core) ∨
    s.nextRun < s'.nextRun ∧ Fresh W s row'
  scripts : ∀ row' ∈ s'.runs, (s.scripts row'.run.scriptId).isSome →
    (s'.scripts row'.run.scriptId).isSome

theorem RowsStep.of_eq (hruns : s'.runs = s.runs) (hnext : s'.nextRun = s.nextRun)
    (hscripts : ∀ i, (s.scripts i).isSome → (s'.scripts i).isSome) : RowsStep W s s' where
  ordered hO := ⟨by rw [hruns, hnext]; exact hO.lt, by rw [hruns]; exact hO.sorted⟩
  next := Nat.le_of_eq hnext.symm
  row row' hrow' := .inl ⟨row', hruns ▸ hrow', rfl⟩
  scripts _ _ := hscripts _

/-- Rows are written. -/
theorem RowsStep.of_map {f : Row → Row} (hruns : s'.runs = s.runs.map f)
    (hnext : s'.nextRun = s.nextRun) (hscripts : s'.scripts = s.scripts)
    (hf : ∀ row, (f row).core = row.core) : RowsStep W s s' where
  ordered hO := by
    have hid : ∀ row, (f row).id = row.id := fun row => (core_eq (hf row)).1
    refine ⟨fun row' hrow' => ?_, ?_⟩
    · rw [hruns] at hrow'
      obtain ⟨row, hrow, rfl⟩ := List.mem_map.mp hrow'
      rw [hid, hnext]
      exact hO.lt row hrow
    · rw [hruns, List.pairwise_map]
      simpa only [hid] using hO.sorted
  next := Nat.le_of_eq hnext.symm
  row row' hrow' := by
    rw [hruns] at hrow'
    obtain ⟨row, hrow, rfl⟩ := List.mem_map.mp hrow'
    exact .inl ⟨row, hrow, (hf row).symm⟩
  scripts row' _ h := by rw [hscripts]; exact h

/-- Rows are deleted. -/
theorem RowsStep.of_filter {f : Row → Bool} (hruns : s'.runs = s.runs.filter f)
    (hnext : s'.nextRun = s.nextRun)
    (hscripts : ∀ row, f row → (s.scripts row.run.scriptId).isSome →
      (s'.scripts row.run.scriptId).isSome) : RowsStep W s s' where
  ordered hO := by
    refine ⟨fun row hrow => ?_, ?_⟩
    · rw [hnext]
      exact hO.lt row (List.mem_filter.mp (hruns ▸ hrow)).1
    · rw [hruns]
      exact hO.sorted.filter f
  next := Nat.le_of_eq hnext.symm
  row row' hrow' := .inl ⟨row', (List.mem_filter.mp (hruns ▸ hrow')).1, rfl⟩
  scripts row' hrow' := hscripts row' (List.mem_filter.mp (hruns ▸ hrow')).2

/-- A row is inserted. -/
theorem RowsStep.of_insert {n : NewRun} {asked : Option RunArgs}
    (hruns : s'.runs = (s.insert n asked).runs) (hnext : s'.nextRun = s.nextRun + 1)
    (hscripts : s'.scripts = s.scripts) (hadmits : s.admits n.scriptId n.idempotencyKey)
    (hasked : ∀ args ∈ asked, ∃ call ∈ s.calls, call.args = args ∧
      ∃ blobs cacheKey, call.pc = .insert blobs cacheKey ∧ n = args.newRun W blobs) :
    RowsStep W s s' where
  ordered hO := by
    refine ⟨fun row hrow => ?_, ?_⟩
    · rw [hruns] at hrow
      rw [hnext]
      rcases List.mem_append.mp hrow with hrow | hrow
      · exact Nat.lt_succ_of_lt (hO.lt row hrow)
      · rw [List.mem_singleton.mp hrow]
        exact Nat.lt_succ_self _
    · rw [hruns]
      refine List.pairwise_append.mpr ⟨hO.sorted, List.pairwise_singleton _ _, ?_⟩
      intro row hrow row' hrow'
      rw [List.mem_singleton.mp hrow']
      exact hO.lt row hrow
  next := by rw [hnext]; exact Nat.le_succ _
  row row' hrow' := by
    rw [hruns] at hrow'
    rcases List.mem_append.mp hrow' with hrow' | hrow'
    · exact .inl ⟨row', hrow', rfl⟩
    · rw [List.mem_singleton.mp hrow']
      exact .inr ⟨hnext ▸ Nat.lt_succ_self _, rfl, hadmits, hasked⟩
  scripts row' _ h := by rw [hscripts]; exact h

/-- A statement of a call on the table. -/
theorem rowsStep_written {c : CallId} {call : Call} (hcall : s.calls[c]? = some call) :
    RowsStep W s (s.written W c call) := by
  unfold Sys.written
  split
  · next blobs cacheKey hpc =>
      split_ifs with hadmits
      · refine .of_insert rfl rfl rfl hadmits fun args hargs => ?_
        cases hargs
        exact ⟨call, List.mem_of_getElem? hcall, rfl, blobs, cacheKey, hpc, rfl⟩
      · exact .of_eq rfl rfl fun _ h => h
  · refine .of_map rfl rfl rfl fun row => ?_
    split_ifs <;> rfl
  · exact .of_eq rfl rfl fun _ h => h

@[simp] theorem written_calls (c : CallId) (call : Call) :
    (s.written W c call).calls = s.calls := by
  unfold Sys.written
  split
  · split_ifs <;> rfl
  · rfl
  · rfl

/-- **One step**: a row it leaves is an old one with what its insert fixed, or
the one it inserts. -/
theorem rowsStep_step (h : step W s a = some s') : RowsStep W s s' := by
  cases a with
  | arrive p args | putBlob handle | gcBlobs doomed | setSecret | resolve p digests | wait d =>
      cases h
      exact .of_eq rfl rfl fun _ h => h
  | call c seconds =>
      simp only [step] at h
      split at h
      · cases h
      · next call hcall =>
          unfold Sys.stepCall at h
          split_ifs at h
          cases h
          have hW := rowsStep_written (W := W) hcall
          exact ⟨fun hO => ⟨(hW.ordered hO).lt, (hW.ordered hO).sorted⟩, hW.next, hW.row,
            hW.scripts⟩
  | enqueue n =>
      cases h
      split_ifs with hadmits
      · exact .of_insert rfl rfl rfl hadmits fun args hargs => by cases hargs
      · exact .of_eq rfl rfl fun _ h => h
  | write r run =>
      cases h
      refine .of_map rfl rfl rfl fun row => ?_
      split_ifs <;> rfl
  | gcOld doomed =>
      cases h
      exact .of_filter rfl rfl fun _ _ h => h
  | upload id script =>
      cases h
      refine .of_eq rfl rfl fun i hi => ?_
      by_cases heq : i = id
      · subst heq
        simp
      · simpa [heq] using hi
  | deleteScript id =>
      cases h
      refine .of_filter rfl rfl fun row hrow hsome => ?_
      have hne : row.run.scriptId ≠ id := of_decide_eq_true hrow
      simpa [hne] using hsome

/-- A blob that a run mounts or has captured stays. -/
theorem blob_kept {handle : String} (h : step W s a = some s') (hrow : row ∈ s.runs)
    (hkeeps : row.keeps handle) (hblob : s.blobs handle) : s'.blobs handle := by
  cases a with
  | call c seconds =>
      simp only [step] at h
      split at h
      · cases h
      · next call hcall =>
          unfold Sys.stepCall at h
          split_ifs at h
          cases h
          unfold Sys.written
          split
          · split_ifs <;> exact hblob
          · exact hblob
          · exact hblob
  | enqueue n =>
      cases h
      split_ifs <;> exact hblob
  | putBlob other =>
      cases h
      by_cases heq : handle = other
      · subst heq
        simp
      · simpa [heq] using hblob
  | gcBlobs doomed =>
      cases h
      have hany : s.runs.any (fun row => row.keeps handle) = true :=
        List.any_eq_true.mpr ⟨row, hrow, hkeeps⟩
      simp [hblob, hany]
  | arrive p args | write r run | gcOld doomed | upload id script | deleteScript id
  | setSecret | resolve p digests | wait d =>
      cases h
      exact hblob

end Rows

/-! ## What a call has checked -/

/-- What `run_script` checks of a request alone. -/
structure RunArgs.Valid (a : RunArgs) : Prop where
  names : ∀ f ∈ a.fileList, validName f.1
  agent : a.aid.toList.isEmpty = false

/-- What a call has checked when it has come to a point. -/
def RunArgs.Checked (a : RunArgs) : CallPc → Prop
  | .file _ name handle left _ => ∃ before, a.fileList = before ++ (name, handle) :: left ∧
      ∀ f ∈ before ++ [(name, handle)], validName f.1
  | .generation _ _ | .digest _ _ _ | .find _ _ => ∀ f ∈ a.fileList, validName f.1
  | .count _ _ | .insert _ _ => a.Valid
  | .spent _ _ inFlight => a.Valid ∧ inFlight < agentMaxConcurrent
  | .script | .readBack _ | .status _ _ | .tag _ _ | .answered _ => True

section Checked

-- or whether the id is empty is computed again and again
attribute [local irreducible] RunArgs.aid

variable {W : World} {s s' : Sys} {a : RunArgs} {call : Call} {seconds : Rat}

theorem pastCache_checked (hnames : ∀ f ∈ a.fileList, validName f.1) (blobs : Option Value)
    (cacheKey : Option String) : a.Checked (a.pastCache blobs cacheKey) := by
  unfold RunArgs.pastCache
  split_ifs with hagent
  · trivial
  · exact ⟨hnames, by simpa using hagent⟩

theorem pastFiles_checked (hnames : ∀ f ∈ a.fileList, validName f.1) (script : Script)
    (blobs : Option Value) : a.Checked (a.pastFiles script blobs) := by
  unfold RunArgs.pastFiles
  split_ifs
  · exact hnames
  · exact pastCache_checked hnames blobs none

/-- The loop goes on after the files it has checked. -/
theorem nextFile_checked {before left : List (String × String)}
    (hfiles : a.fileList = before ++ left) (hbefore : ∀ f ∈ before, validName f.1)
    (script : Script) (map : List (String × Value)) : a.Checked (a.nextFile script left map) := by
  cases left with
  | nil =>
      refine pastFiles_checked (fun f hf => hbefore f ?_) script _
      rw [hfiles, List.append_nil] at hf
      exact hf
  | cons f left =>
      obtain ⟨name, handle⟩ := f
      simp only [RunArgs.nextFile]
      split_ifs with hname
      · refine ⟨before, hfiles, fun f hf => ?_⟩
        rcases List.mem_append.mp hf with hf | hf
        · exact hbefore f hf
        · rw [List.mem_singleton.mp hf]
          exact hname
      · trivial

theorem resolveFiles_checked (script : Script) : a.Checked (a.resolveFiles script) := by
  unfold RunArgs.resolveFiles
  split_ifs with hempty
  · refine pastFiles_checked (fun f hf => ?_) script none
    rw [List.isEmpty_iff.mp hempty] at hf
    exact absurd hf List.not_mem_nil
  · exact nextFile_checked rfl (fun f hf => absurd hf List.not_mem_nil) script []

/-- **One statement** leaves a call with what it must have checked. -/
theorem nextPc_checked (h : call.args.Checked call.pc) :
    call.args.Checked (s.nextPc W call seconds) := by
  unfold Sys.nextPc
  cases hpc : call.pc with
  | script =>
      simp only
      split
      · trivial
      · exact resolveFiles_checked _
  | file script name handle left map =>
      rw [hpc] at h
      obtain ⟨before, hfiles, hbefore⟩ := h
      simp only
      split_ifs
      · exact nextFile_checked (by rw [hfiles, List.append_assoc]; rfl) hbefore script _
      · trivial
  | generation script blobs | digest script blobs gen =>
      rw [hpc] at h
      exact h
  | find blobs key =>
      rw [hpc] at h
      simp only
      split
      · trivial
      · exact pastCache_checked h blobs _
  | count blobs cacheKey =>
      rw [hpc] at h
      simp only
      split_ifs with hle
      · unfold CallPc.pastCheck
        split
        · trivial
        · exact h
      · exact ⟨h, Nat.not_le.mp hle⟩
  | spent blobs cacheKey inFlight =>
      rw [hpc] at h
      simp only
      unfold CallPc.pastCheck
      split
      · trivial
      · exact h.1
  | insert blobs cacheKey =>
      simp only
      split
      · trivial
      · split_ifs
        · unfold CallPc.pastInsert
          split <;> trivial
        · trivial
  | readBack key =>
      simp only
      split <;> trivial
  | status r key | tag r key | answered reply => trivial

end Checked

/-! ## The invariant -/

section Invariant

variable {W : World} {s s' : Sys} {a : Label}

structure Inv (s : Sys) : Prop where
  ordered : Ordered s
  keys : ∀ row ∈ s.runs, ∀ row' ∈ s.runs, ∀ key, row.run.idempotencyKey = some key →
    row'.run.idempotencyKey = some key → row.id = row'.id
  scripts : ∀ row ∈ s.runs, (s.scripts row.run.scriptId).isSome
  asked : ∀ row ∈ s.runs, ∀ args ∈ row.asked, args.Valid ∧ row.run.scriptId = args.scriptId ∧
    row.run.idempotencyKey = args.idempotencyKey
  calls : ∀ call ∈ s.calls, call.args.Checked call.pc
  created : ∀ c ∈ s.created, c < s.calls.length

/-- A run that is there is one row. -/
theorem Inv.row_unique (hI : Inv s) {row row' : Row} (hrow : row ∈ s.runs)
    (hrow' : row' ∈ s.runs) (hid : row.id = row'.id) : row = row' := by
  have hnodup : (s.runs.map Row.id).Nodup :=
    List.pairwise_map.mpr (hI.ordered.sorted.imp fun hlt => Nat.ne_of_lt hlt)
  exact List.inj_on_of_nodup_map hnodup hrow hrow' hid

/-- No row has the key of a row that can be inserted. -/
theorem key_ne_of_admits {i : Int} {idemKey : Option String} (h : s.admits i idemKey)
    {row : Row} (hrow : row ∈ s.runs) {key : String} (hkey : idemKey = some key) :
    row.run.idempotencyKey ≠ some key := by
  intro heq
  have hmem : row ∈ s.withKey key := List.mem_filter.mpr ⟨hrow, decide_eq_true heq⟩
  have hfree := (Bool.and_eq_true_iff.mp h).1
  rw [hkey] at hfree
  simp [Sys.conflict, List.ne_nil_of_mem hmem] at hfree

theorem Inv.step_calls (hI : Inv s) (h : step W s a = some s') :
    ∀ call ∈ s'.calls, call.args.Checked call.pc := by
  cases a with
  | arrive p args =>
      cases h
      intro call hcall
      rcases List.mem_append.mp hcall with hcall | hcall
      · exact hI.calls call hcall
      · rw [List.mem_singleton.mp hcall]
        trivial
  | call c seconds =>
      simp only [step] at h
      split at h
      · cases h
      · next call hcall =>
          unfold Sys.stepCall at h
          split_ifs at h
          cases h
          intro call' hcall'
          simp only [Sys.setCall, written_calls] at hcall'
          rcases List.mem_or_eq_of_mem_set hcall' with hcall' | rfl
          · exact hI.calls call' hcall'
          · exact nextPc_checked (hI.calls call (List.mem_of_getElem? hcall))
  | enqueue n =>
      cases h
      split_ifs <;> exact hI.calls
  | write r run | gcOld doomed | upload id script | deleteScript id | putBlob handle
  | gcBlobs doomed | setSecret | resolve p digests | wait d =>
      cases h
      exact hI.calls

theorem Inv.step_created (hI : Inv s) (h : step W s a = some s') :
    ∀ c ∈ s'.created, c < s'.calls.length := by
  cases a with
  | arrive p args =>
      cases h
      intro c hc
      rw [List.length_append]
      exact Nat.lt_of_lt_of_le (hI.created c hc) (Nat.le_add_right _ _)
  | call c seconds =>
      simp only [step] at h
      split at h
      · cases h
      · next call hcall =>
          unfold Sys.stepCall at h
          split_ifs at h
          cases h
          have hlt := (List.getElem?_eq_some_iff.mp hcall).1
          intro c' hc'
          simp only [Sys.setCall, List.length_set, written_calls]
          unfold Sys.setCall Sys.written at hc'
          split at hc'
          · split_ifs at hc'
            · rcases List.mem_cons.mp hc' with rfl | hc'
              · exact hlt
              · exact hI.created c' hc'
            · exact hI.created c' hc'
          · exact hI.created c' hc'
          · exact hI.created c' hc'
  | enqueue n =>
      cases h
      split_ifs <;> exact hI.created
  | write r run | gcOld doomed | upload id script | deleteScript id | putBlob handle
  | gcBlobs doomed | setSecret | resolve p digests | wait d =>
      cases h
      exact hI.created

/-- **Every step** keeps the invariant. -/
theorem Inv.step (hI : Inv s) (h : step W s a = some s') : Inv s' := by
  have hR := rowsStep_step h
  have hnew : ∀ row ∈ s.runs, ∀ row' ∈ s'.runs, row.core = row'.core → row'.id = row.id ∧
      row'.run.idempotencyKey = row.run.idempotencyKey ∧
      row'.run.scriptId = row.run.scriptId ∧ row'.asked = row.asked := by
    intro row _ row' _ hcore
    obtain ⟨hid, hasked, hcols⟩ := core_eq hcore
    exact ⟨hid.symm, by rw [hcols], by rw [hcols], hasked.symm⟩
  refine ⟨hR.ordered hI.ordered, fun row₁ hrow₁ row₂ hrow₂ key hkey₁ hkey₂ => ?_,
    fun row' hrow' => ?_, fun row' hrow' args hargs => ?_, hI.step_calls h, hI.step_created h⟩
  · rcases hR.row row₁ hrow₁ with ⟨old₁, hold₁, hcore₁⟩ | ⟨_, hfresh₁⟩
    · obtain ⟨hid₁, hk₁, _⟩ := hnew old₁ hold₁ row₁ hrow₁ hcore₁
      rcases hR.row row₂ hrow₂ with ⟨old₂, hold₂, hcore₂⟩ | ⟨_, hfresh₂⟩
      · obtain ⟨hid₂, hk₂, _⟩ := hnew old₂ hold₂ row₂ hrow₂ hcore₂
        rw [hid₁, hid₂]
        exact hI.keys old₁ hold₁ old₂ hold₂ key (hk₁ ▸ hkey₁) (hk₂ ▸ hkey₂)
      · exact absurd (hk₁ ▸ hkey₁) (key_ne_of_admits hfresh₂.admits hold₁ hkey₂)
    · rcases hR.row row₂ hrow₂ with ⟨old₂, hold₂, hcore₂⟩ | ⟨_, hfresh₂⟩
      · obtain ⟨_, hk₂, _⟩ := hnew old₂ hold₂ row₂ hrow₂ hcore₂
        exact absurd (hk₂ ▸ hkey₂) (key_ne_of_admits hfresh₁.admits hold₂ hkey₁)
      · rw [hfresh₁.id, hfresh₂.id]
  · refine hR.scripts row' hrow' ?_
    rcases hR.row row' hrow' with ⟨row, hrow, hcore⟩ | ⟨_, hfresh⟩
    · rw [(hnew row hrow row' hrow' hcore).2.2.1]
      exact hI.scripts row hrow
    · exact (Bool.and_eq_true_iff.mp hfresh.admits).2
  · rcases hR.row row' hrow' with ⟨row, hrow, hcore⟩ | ⟨_, hfresh⟩
    · obtain ⟨_, hk, hs, hasked⟩ := hnew row hrow row' hrow' hcore
      rw [hk, hs]
      exact hI.asked row hrow args (hasked ▸ hargs)
    · obtain ⟨call, hcall, rfl, blobs, cacheKey, hpc, hcols⟩ := hfresh.asked args hargs
      have hchecked := hI.calls call hcall
      rw [hpc] at hchecked
      exact ⟨hchecked, by rw [hcols]; rfl, by rw [hcols]; rfl⟩

theorem inv_init : Inv init where
  ordered := ⟨(fun row hrow => by cases hrow), List.Pairwise.nil⟩
  keys row hrow := by cases hrow
  scripts row hrow := by cases hrow
  asked row hrow := by cases hrow
  calls call hcall := by cases hcall
  created c hc := by cases hc

/-- Every reachable state meets the invariant. -/
theorem inv_run {l : List Label} (h : Machine.run (RunScript.step W) init l = some s) : Inv s :=
  Machine.inv_run (C := fun _ _ => True) (fun _ _ _ hI _ hs => hI.step hs) inv_init
    (Machine.along_of_forall fun _ _ => trivial) h

end Invariant

end Dokan.Ports.RunScript
