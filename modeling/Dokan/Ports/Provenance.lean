import Dokan.Verified.Machine
import Dokan.Verified.VersionMemo
import Dokan.Ports.CacheKey
import Dokan.Ports.ExecJob
import Dokan.Ports.FlowDriver

/-!
# What a run is asked for, runs with, and attests

A run is asked for by `run_script` or a flow's `run_step`, executed by a worker
or the flow itself, and described by a receipt; `reproduce_run` asks for it
again.  Each of these reads the script, the secrets and the image digests for
itself, one statement at a time, while `upload_script` and `set_secret` write
them.  The machine here interleaves any number of calls, executions and writers
in any number of processes.

An execution is `ExecJob`'s automaton, entered after `exec_job` has read the
secrets and with `build_receipt` opened up.  Statements sent to Postgres
succeed, and an image's name means one image.

The fields `updates`, `asked`, `ranWith`, `binding`, `sealed` and `repeats` are
history: they record what was read and decide nothing.
-/

namespace Dokan.Ports.Provenance

open Dokan.Verified.Json
open Dokan.Verified.VersionMemo
open Dokan.Ports.Receipt
open Dokan.Ports.CacheKey
open Dokan.Ports.RunRow
open Dokan.Ports.ExecJob (ExecPc execStep Cid)
open Dokan.Ports.FlowDriver (runtimeSpec)

abbrev ScriptId := Int
abbrev RunId := Nat
abbrev ProcId := Nat
abbrev CallId := Nat
abbrev ExecId := Nat
abbrev ReproId := Nat

/-- What the machine does not choose. -/
structure World where
  crypto : Crypto
  signer : Signer
  /-- `DOKAN_TRUSTED_RECEIPT_KEYS` -/
  trusted : Option (List String)
  /-- the characters `Debug` prints as they are -/
  plain : Char → Bool
  /-- the digest of the image a name means -/
  imageId : String → String

/-! ## Scripts and secrets -/

/-- The columns of `scripts` that an execution is handed. -/
structure Script where
  runtime : String
  source : String
  network : Bool
  feedPrevResult : Bool
  /-- how many statements have written the row -/
  updates : Nat
deriving DecidableEq

abbrev SecretMap := String → Option String

/-- The tables `secrets` and `agent_secrets`, decrypted. -/
structure Secrets where
  globals : SecretMap
  agents : String → SecretMap

/-- Scoped secrets override global ones. -/
def merge (globals own : SecretMap) : SecretMap := fun name =>
  (own name).or (globals name)

/-- `Db::load_secrets_for`, both queries at once. -/
def Secrets.visible (s : Secrets) : Option String → SecretMap
  | none => s.globals
  | some a => merge s.globals (s.agents a)

/-- The upsert of `Db::upsert_secret`. -/
def Secrets.set (s : Secrets) (name value : String) : Option String → Secrets
  | none => { s with globals := Function.update s.globals name (some value) }
  | some a =>
      { s with
        agents := Function.update s.agents a (Function.update (s.agents a) name (some value)) }

/-- `exec::secret_allowed`. -/
def secretAllowed (name : String) : Option (List String) → Bool
  | none => true
  | some list => list.contains name

/-- The secrets of `m` that are injected. -/
def permitted (allow : Option (List String)) (m : SecretMap) : SecretMap := fun name =>
  if secretAllowed name allow then m name else none

/-- What a process keeps in memory. -/
structure Proc where
  /-- `WarmPool::digests` -/
  digests : String → Option String
  /-- `Db::secrets_cache` -/
  secretsCache : Memo (Option String) SecretMap

def Proc.fresh : Proc where
  digests := fun _ => none
  secretsCache := ⟨-1, fun _ => none⟩

/-- `resolve_digest` got an answer. -/
def Proc.resolve (p : Proc) (image d : String) : Proc :=
  { p with digests := Function.update p.digests image (some d) }

def Proc.recache (p : Proc)
    (f : Memo (Option String) SecretMap → Memo (Option String) SecretMap) : Proc :=
  { p with secretsCache := f p.secretsCache }

/-- `Executor::image_digest`. -/
def Proc.imageDigest (p : Proc) (runtime : String) : Option String :=
  (runtimeSpec runtime).bind fun spec => p.digests spec.1

/-! ## Runs -/

/-- What a call with the cache on asks for and has read. -/
structure Asked where
  new : NewRun
  script : Script
  imageDigest : String
  secretsGen : Int

/-- Its `run_cache_key`. -/
def Asked.key (W : World) (a : Asked) : String :=
  runCacheKey W.crypto W.plain a.script.runtime a.imageDigest a.script.source a.new.input
    a.secretsGen a.new.inputBlobs

/-- What an execution is called with. -/
structure Job extends NewRun where
  runId : RunId
  script : Script

/-- What the container of an execution ran with. -/
structure Used where
  job : Job
  /-- `DOKAN_INPUT` -/
  input : Value
  /-- the digest of the container's image -/
  digest : String
  allow : Option (List String)
  /-- what `all_secrets_for` read -/
  secretsGen : Int
  secrets : SecretMap

/-- A row of `runs`. -/
structure Row where
  run : Run
  cacheKey : Option String := none
  asked : Option Asked := none
  /-- the execution whose exit code the row has -/
  ranWith : Option Used := none
  /-- the execution whose receipt the row has, and what the receipt binds -/
  sealed : Option (Used × Binding) := none
  /-- what a run of `reproduce_run` is to repeat -/
  repeats : Option (Used × Binding) := none

/-- `DOKAN_INPUT`: the input, with the previous result if the script asks for
it. -/
def jobInput (job : Job) (prev : Option Value) : Value :=
  if job.script.feedPrevResult then
    match job.input with
    | .obj m => .obj (Value.insertKey "prev_result" (prev.getD .null) m)
    | v => .object [("input", v), ("prev_result", prev.getD .null)]
  else job.input

/-! ## Executions -/

/-- The point an execution has reached. -/
inductive Phase
  /-- before `last_result_for_script` -/
  | claimed
  /-- in `run_inner`, before the container -/
  | acquire (input : Value)
  /-- in `exec_job`, before `run_secrets_allowlist` -/
  | allowlist (input : Value)
  /-- in `all_secrets_for`, before `secrets_generation` -/
  | generation (input : Value) (allow : Option (List String))
  /-- before the look into the cache -/
  | lookup (input : Value) (allow : Option (List String)) (gen : Int)
  /-- before the `SELECT` on `secrets` -/
  | globals (input : Value) (allow : Option (List String)) (gen : Int)
  /-- before the `SELECT` on `agent_secrets` -/
  | agentSecrets (input : Value) (allow : Option (List String)) (gen : Int) (m : SecretMap)
  /-- before the insert into the cache -/
  | store (input : Value) (allow : Option (List String)) (gen : Int) (m : SecretMap)
  /-- from `create_exec` on -/
  | job (u : Used) (pc : ExecPc)
  /-- in `build_receipt`, before `secrets_generation` -/
  | attest (u : Used) (code : Int) (result : Option Value) (digest : String)
  /-- `run_inner` failed before the secrets were read -/
  | broken (msg : String)

structure Exec where
  proc : ProcId
  job : Job
  phase : Phase
  cid : Cid := 0
  /-- the map `capture_output` returned -/
  outputs : Option Value := none
  /-- what the receipt binds -/
  binding : Option Binding := none

/-! ## Calls -/

inductive Request
  /-- `run_script`, its input destringified and its files resolved -/
  | runScript (n : NewRun) (cache : Bool)
  /-- `run_step` of a flow -/
  | runStep (i : ScriptId) (stepInput : Value) (cache : Bool)

/-- The columns of the run a call inserts. -/
def Request.new : Request → NewRun
  | .runScript n _ => n
  | .runStep i stepInput _ =>
      { scriptId := i, input := stepInput, agentId := none, inputBlobs := none
        captureOutput := false, idempotencyKey := none }

def Request.cache : Request → Bool
  | .runScript _ cache | .runStep _ _ cache => cache

/-- The call executes its run itself. -/
def Request.flow : Request → Bool
  | .runScript _ _ => false
  | .runStep _ _ _ => true

inductive CallPc
  /-- before `get_script` -/
  | script
  /-- before `secrets_generation` -/
  | generation (s : Script)
  /-- before `image_digest` -/
  | digest (s : Script) (gen : Int)
  /-- before `find_cached_run` -/
  | find (a : Asked)
  /-- before the insert -/
  | insert (s : Script) (a : Option Asked)
  /-- before `set_run_cache_key` -/
  | tag (s : Script) (r : RunId) (a : Asked)
  /-- a flow's run, before `Executor::run` -/
  | start (s : Script) (r : RunId) (a : Option Asked)
  /-- a flow's run is being executed -/
  | await (s : Script) (a : Option Asked)
  | recalled (r : RunId)
  | done

structure Call where
  proc : ProcId
  req : Request
  pc : CallPc

/-- The run it inserts. -/
def Call.row (now : Nat) (k : Call) (a : Option Asked) : Row where
  run := insertRunWithBlobs now k.req.new
  asked := a

/-- Its execution of run `r`. -/
def Call.exec (k : Call) (script : Script) (r : RunId) : Exec where
  proc := k.proc
  job := { k.req.new with runId := r, script }
  phase := .claimed

/-- The execution of a claimed run. -/
def Row.exec (p : ProcId) (r : RunId) (row : Row) (script : Script) : Exec where
  proc := p
  job := { row.run.toNewRun with runId := r, script }
  phase := .claimed

/-! ## Reproducing -/

inductive ReproVerdict
  | inconclusive (reason : String)
  | tampered
  | reproduced
  | diverged
deriving DecidableEq

inductive ReproPc
  /-- before `run_receipt` -/
  | receipt
  /-- before `run_reproduce_inputs` -/
  | inputs (orig : Value)
  /-- before `get_script` -/
  | script (orig : Value) (n : NewRun)
  | insert (orig : Value) (n : NewRun)
  /-- polling `run_status` of the new run -/
  | poll (orig : Value) (r : RunId)
  /-- before `run_receipt` of the new run -/
  | compare (orig : Value) (r : RunId)
  | done (v : ReproVerdict)

/-- A call of `reproduce_run`; `agentId` is trimmed and not empty. -/
structure Repro where
  runId : RunId
  agentId : Option String
  pc : ReproPc
  /-- what the original receipt binds -/
  original : Option (Used × Binding) := none
  /-- the two receipts that were compared -/
  compared : Option (Value × Value) := none

/-- The run it inserts. -/
def Repro.row (now : Nat) (w : Repro) (n : NewRun) : Row where
  run := insertRunWithBlobs now n
  repeats := w.original

/-! ## The state -/

structure Sys where
  now : Nat
  scripts : ScriptId → Option Script
  /-- `scripts.secrets_allowlist` -/
  allowlists : ScriptId → Option (List String)
  /-- the secrets under `secrets_generation` -/
  secrets : Versioned Secrets
  procs : ProcId → Proc
  rows : RunId → Option Row
  nextRun : RunId
  calls : CallId → Option Call
  execs : ExecId → Option Exec
  repros : ReproId → Option Repro

/-- `Db::find_cached_run`. -/
def Sys.findCachedRun (s : Sys) (k : String) : Option RunId :=
  (List.range s.nextRun).reverse.find? fun r =>
    (s.rows r).any fun row => row.cacheKey = some k && row.run.status = .succeeded

/-- `Db::last_result_for_script`. -/
def Sys.lastResult (s : Sys) (i : ScriptId) (before : RunId) : Option Value :=
  (List.range before).reverse.findSome? fun r =>
    (s.rows r).bind fun row => if row.run.scriptId = i then row.run.result else none

/-- `Db::run_status`. -/
def Sys.runStatus (s : Sys) (r : RunId) : Option RunStatus :=
  (s.rows r).map fun row => row.run.status

/-- A statement on row `r`. -/
def Sys.write (s : Sys) (r : RunId) (f : Row → Row) : Sys :=
  { s with rows := Function.update s.rows r ((s.rows r).map f) }

def Sys.insert (s : Sys) (row : Row) : Sys :=
  { s with rows := Function.update s.rows s.nextRun (some row), nextRun := s.nextRun + 1 }

def Sys.setExec (s : Sys) (e : ExecId) (x : Exec) : Sys :=
  { s with execs := Function.update s.execs e (some x) }

def Sys.setCall (s : Sys) (c : CallId) (k : Call) : Sys :=
  { s with calls := Function.update s.calls c (some k) }

def Sys.setRepro (s : Sys) (q : ReproId) (w : Repro) : Sys :=
  { s with repros := Function.update s.repros q (some w) }

def Sys.setProc (s : Sys) (p : ProcId) (x : Proc) : Sys :=
  { s with procs := Function.update s.procs p x }

/-! ## An execution steps -/

/-- What lets an execution go on: its own next statement, or an answer of the
outside world. -/
inductive ExecEvent
  | sql
  | reply (r : ExecJob.Reply)

/-- The row after a statement of an execution that has reached `pc`. -/
def Row.written (u : Used) (binding : Option Binding) (pc : ExecPc) (f : Run → Run)
    (row : Row) : Row :=
  { row with
    run := f row.run
    ranWith :=
      match pc with
      | .finish _ _ => if row.run.status = .canceled then row.ranWith else some u
      | _ => row.ranWith
    sealed :=
      match pc with
      | .storeReceipt _ _ => binding.map fun b => (u, b)
      | _ => row.sealed }

/-- What the secrets step of `exec_job` leaves. -/
def Exec.inject (W : World) (x : Exec) (input : Value) (allow : Option (List String))
    (gen : Int) (m : SecretMap) : Exec :=
  { x with
    phase := .job
      { job := x.job
        input
        digest := ((runtimeSpec x.job.script.runtime).map fun spec => W.imageId spec.1).getD ""
        allow
        secretsGen := gen
        secrets := permitted allow m }
      (.createExec x.cid) }

/-- What `build_receipt` is called with and reads. -/
def Exec.bind (x : Exec) (u : Used) (code : Int) (result : Option Value) (digest : String)
    (gen : Int) : Binding where
  runId := x.job.runId
  image := ((runtimeSpec x.job.script.runtime).map Prod.fst).getD ""
  source := x.job.script.source
  input := u.input
  result
  exitCode := code
  network := x.job.script.network
  inputBlobs := x.job.inputBlobs
  outputBlobs := x.outputs
  digest
  secretsGen := gen

/-- What a step of an execution does: where it leaves the execution, what it
writes to the row and to the process' cache. -/
structure ExecOut where
  exec : Option Exec
  write : Row → Row := id
  cache : Memo (Option String) SecretMap → Memo (Option String) SecretMap := id

/-- The next thing an execution does. -/
def execMove (W : World) (s : Sys) (x : Exec) (ev : ExecEvent) : Option ExecOut :=
  let goto (phase : Phase) : ExecOut := { exec := some { x with phase } }
  match x.phase, ev with
  | .claimed, .sql =>
      some (goto (.acquire (jobInput x.job (s.lastResult x.job.scriptId x.job.runId))))
  | .acquire input, .reply (.container cid) =>
      if (runtimeSpec x.job.script.runtime).isSome then
        some { exec := some { x with phase := .allowlist input, cid } }
      else none
  | .acquire _, .reply (.error msg) => some (goto (.broken msg))
  | .allowlist input, .sql => some (goto (.generation input (s.allowlists x.job.scriptId)))
  | .generation input allow, .sql => some (goto (.lookup input allow s.secrets.version))
  | .lookup input allow gen, .sql =>
      match (s.procs x.proc).secretsCache.lookup gen x.job.agentId with
      | some m => some { exec := some (x.inject W input allow gen m) }
      | none => some (goto (.globals input allow gen))
  | .globals input allow gen, .sql =>
      if x.job.agentId.isSome then
        some (goto (.agentSecrets input allow gen s.secrets.value.globals))
      else some (goto (.store input allow gen s.secrets.value.globals))
  | .agentSecrets input allow gen m, .sql => do
      let a ← x.job.agentId
      return goto (.store input allow gen (merge m (s.secrets.value.agents a)))
  | .store input allow gen m, .sql =>
      some
        { exec := some (x.inject W input allow gen m)
          cache := fun cache => cache.store gen x.job.agentId m }
  | .job u (.buildReceipt code result), .sql => do
      let (image, _) ← runtimeSpec x.job.script.runtime
      return goto (.attest u code result (((s.procs x.proc).digests image).getD image))
  | .attest u code result digest, .sql => do
      let b := x.bind u code result digest s.secrets.version
      let out ← execStep s.now x.job.captureOutput (fun _ => false) (.buildReceipt code result)
        (.receipt (buildReceipt W.crypto W.signer b))
      return { exec := some { x with phase := .job u out.pc, binding := some b } }
  | .job _ (.buildReceipt _ _), .reply _ => none
  | .job u pc, .reply reply => do
      let out ← execStep s.now x.job.captureOutput (fun _ => false) pc reply
      let outputs := match reply with
        | .captured map => map
        | _ => x.outputs
      return {
        exec := some { x with phase := .job u out.pc, outputs }
        write := Row.written u x.binding pc out.write }
  | .broken msg, .sql =>
      some
        { exec := none
          write := fun row =>
            { row with run := finishRun s.now .failed none (some msg) row.run } }
  | _, _ => none

def Sys.stepExec (W : World) (s : Sys) (e : ExecId) (ev : ExecEvent) : Option Sys := do
  let x ← s.execs e
  let out ← execMove W s x ev
  return { s.write x.job.runId out.write with
    execs := Function.update s.execs e out.exec
    procs := Function.update s.procs x.proc ((s.procs x.proc).recache out.cache) }

/-! ## A call steps -/

/-- What a step of a call does: where it leaves the call, the row it inserts,
the row it tags, the execution it starts. -/
structure CallOut where
  pc : CallPc
  insert : Option Row := none
  tag : Option (RunId × String) := none
  start : Option Exec := none

/-- The next statement of a call. -/
def callMove (W : World) (s : Sys) (k : Call) : Option CallOut :=
  match k.pc with
  | .script => do
      let script ← s.scripts k.req.new.scriptId
      if k.req.flow && (runtimeSpec script.runtime).isNone then return { pc := .done }
      else if k.req.cache then return { pc := .generation script }
      else return { pc := .insert script none }
  | .generation script => some { pc := .digest script s.secrets.version }
  | .digest script gen =>
      some
        { pc := .find
            { new := k.req.new
              script
              imageDigest := ((s.procs k.proc).imageDigest script.runtime).getD ""
              secretsGen := gen } }
  | .find a =>
      match s.findCachedRun (a.key W) with
      | some r => some { pc := .recalled r }
      | none => some { pc := .insert a.script (some a) }
  | .insert script a =>
      some
        { pc := match a with
            | some a => .tag script s.nextRun a
            | none => if k.req.flow then .start script s.nextRun none else .done
          insert := some (k.row s.now a) }
  | .tag script r a =>
      some
        { pc := if k.req.flow then .start script r (some a) else .done
          tag := some (r, a.key W) }
  | .start script r a =>
      some
        { pc := .await script a
          start := some (k.exec script r) }
  | .await script a => some { pc := .insert script a }
  | .recalled _ | .done => none

/-- The next statement of call `c`; an execution it starts is `e`. -/
def Sys.stepCall (W : World) (s : Sys) (c : CallId) (e : ExecId) : Option Sys := do
  let k ← s.calls c
  let out ← callMove W s k
  if out.start.isSome && (s.execs e).isSome then none
  else
    let s := match out.insert with
      | some row => s.insert row
      | none => s
    let s := match out.tag with
      | some (r, key) => s.write r fun row => { row with cacheKey := some key }
      | none => s
    let s := match out.start with
      | some x => s.setExec e x
      | none => s
    return s.setCall c { k with pc := out.pc }

/-! ## A reproduction steps -/

/-- What a step of a reproduction does, and the row it inserts. -/
structure ReproOut where
  repro : Repro
  insert : Option Row := none

/-- The next statement of a reproduction. -/
def reproMove (W : World) (s : Sys) (w : Repro) : Option ReproOut :=
  let goto (pc : ReproPc) : ReproOut := { repro := { w with pc } }
  let inconclusive (reason : String) : ReproOut := goto (.done (.inconclusive reason))
  match w.pc with
  | .receipt =>
      match (s.rows w.runId).bind fun row => row.run.receipt with
      | none => some (inconclusive "no_receipt")
      | some orig =>
          if ((orig.get? "network").bind Value.asBool?).getD true then
            some (inconclusive "non_deterministic")
          else
            match verifyReceiptWith W.crypto orig W.trusted with
            | .error _ => none
            | .ok rep =>
                if rep.ok && verifyHmac W.crypto W.signer orig then
                  some { repro := { w with
                    pc := .inputs orig
                    original := (s.rows w.runId).bind fun row => row.sealed } }
                else some (goto (.done .tampered))
  | .inputs orig =>
      match s.rows w.runId with
      | none => some (inconclusive "run_not_found")
      | some row =>
          some (goto (.script orig
            { row.run.toNewRun with
              agentId := some ((w.agentId.or row.run.agentId).getD "reproduce")
              idempotencyKey := none }))
  | .script orig n =>
      match s.scripts n.scriptId with
      | none => some (inconclusive "script_not_found")
      | some script =>
          if sourceHash W.crypto script.source ≠ textOr "" (orig.get? "source_sha256") then
            some (inconclusive "source_changed")
          else some (goto (.insert orig n))
  | .insert orig n =>
      some
        { repro := { w with pc := .poll orig s.nextRun }
          insert := some (w.row s.now n) }
  | .poll orig r =>
      match s.runStatus r with
      | some .succeeded | some .failed => some (goto (.compare orig r))
      | some .canceled => some (inconclusive "timeout_or_unrunnable")
      | _ => none
  | .compare orig r =>
      match (s.rows r).bind fun row => row.run.receipt with
      | none => some (inconclusive "no_repro_receipt")
      | some repro =>
          let same :=
            textOr "" (repro.get? "output_sha256") = textOr "" (orig.get? "output_sha256") &&
              canonicalInputBlobs (repro.get? "output_blobs") =
                canonicalInputBlobs (orig.get? "output_blobs")
          some { repro := { w with
            pc := .done (if same then .reproduced else .diverged)
            compared := some (orig, repro) } }
  | .done _ => none

def Sys.stepRepro (W : World) (s : Sys) (q : ReproId) : Option Sys := do
  let w ← s.repros q
  let out ← reproMove W s w
  let s := match out.insert with
    | some row => s.insert row
    | none => s
  return s.setRepro q out.repro

/-! ## The machine -/

/-- A statement of the queue on one row. -/
inductive QueueWrite
  | requeue
  | reap (lease : Nat)
  | cancel (reason : String)
  | failStale (maxAge : Nat)

def QueueWrite.apply (now : Nat) : QueueWrite → Run → Run
  | .requeue => RunRow.requeue
  | .reap lease => reapOrphanRun now lease
  | .cancel reason => cancelRun now reason
  | .failStale maxAge => failStalePending now maxAge

inductive Event
  | tick (d : Nat)
  /-- `insert_script` or `update_script` -/
  | putScript (i : ScriptId) (runtime source : String) (network feed : Bool)
  | updateScriptMeta (i : ScriptId) (runtime : String) (network feed : Bool)
  | setScriptSecrets (i : ScriptId) (names : Option (List String))
  | setSecret (agentId : Option String) (name value : String)
  /-- `resolve_digest` -/
  | resolve (p : ProcId) (image : String)
  /-- the process dies with its calls and executions, and starts anew -/
  | restart (p : ProcId)
  /-- any other enqueue: a cron, a webhook, a trigger -/
  | enqueue (n : NewRun)
  | queue (r : RunId) (w : QueueWrite)
  | call (c : CallId) (p : ProcId) (req : Request)
  | stepCall (c : CallId) (e : ExecId)
  /-- the call returns or its future is dropped -/
  | endCall (c : CallId)
  /-- `claim_run` -/
  | claim (p : ProcId) (r : RunId) (e : ExecId)
  | exec (e : ExecId) (ev : ExecEvent)
  | endExec (e : ExecId)
  | reproduce (q : ReproId) (r : RunId) (agentId : Option String)
  | stepRepro (q : ReproId)
  /-- the poll of the new run times out -/
  | timeoutRepro (q : ReproId)

/-- The script after a statement that writes it. -/
def Sys.updates (s : Sys) (i : ScriptId) : Nat :=
  ((s.scripts i).map fun x => x.updates + 1).getD 0

def step (W : World) (s : Sys) : Event → Option Sys
  | .tick d => some { s with now := s.now + d }
  | .putScript i runtime source network feed =>
      some { s with
        scripts := Function.update s.scripts i
          (some ⟨runtime, source, network, feed, s.updates i⟩) }
  | .updateScriptMeta i runtime network feed => do
      let x ← s.scripts i
      return { s with
        scripts := Function.update s.scripts i
          (some ⟨runtime, x.source, network, feed, s.updates i⟩) }
  | .setScriptSecrets i names =>
      some { s with allowlists := Function.update s.allowlists i names }
  | .setSecret agentId name value =>
      -- the counter is a `BIGINT`
      if s.secrets.version + 1 < 2 ^ 63 then
        some { s with secrets := s.secrets.write fun x => x.set name value agentId }
      else none
  | .resolve p image =>
      if ((s.procs p).digests image).isSome then some s
      else some (s.setProc p ((s.procs p).resolve image (W.imageId image)))
  | .restart p =>
      some
        { s.setProc p .fresh with
          calls := fun c => (s.calls c).filter fun k => k.proc ≠ p
          execs := fun e => (s.execs e).filter fun x => x.proc ≠ p }
  | .enqueue n => some (s.insert { run := insertRunWithBlobs s.now n })
  | .queue r w => some (s.write r fun row => { row with run := w.apply s.now row.run })
  | .call c p req =>
      if (s.calls c).isSome then none
      else some (s.setCall c { proc := p, req, pc := .script })
  | .stepCall c e => s.stepCall W c e
  | .endCall c => some { s with calls := Function.update s.calls c none }
  | .claim p r e => do
      let row ← s.rows r
      let script ← s.scripts row.run.scriptId
      if row.run.status = .pending ∧ (s.execs e).isNone then
        return (s.setExec e (row.exec p r script)).write r
          fun row => { row with run := claimRun s.now row.run }
      else none
  | .exec e ev => s.stepExec W e ev
  | .endExec e => some { s with execs := Function.update s.execs e none }
  | .reproduce q r agentId =>
      if (s.repros q).isSome then none
      else some (s.setRepro q { runId := r, agentId, pc := .receipt })
  | .stepRepro q => s.stepRepro W q
  | .timeoutRepro q => do
      let w ← s.repros q
      match w.pc with
      | .poll _ _ =>
          return s.setRepro q { w with pc := .done (.inconclusive "timeout_or_unrunnable") }
      | _ => none

/-- Some scripts and secrets, and nothing that runs or has run. -/
structure Start (s : Sys) : Prop where
  rows : ∀ r, s.rows r = none
  calls : ∀ c, s.calls c = none
  execs : ∀ e, s.execs e = none
  repros : ∀ q, s.repros q = none
  procs : ∀ p, s.procs p = .fresh

end Dokan.Ports.Provenance
