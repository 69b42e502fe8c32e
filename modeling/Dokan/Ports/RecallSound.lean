import Dokan.Ports.CacheTag
import Dokan.Ports.RecallKey

/-!
# What a recalled run has in common with a fresh one

`run_script` with the cache on returns the latest succeeded run under the key of
its request.  The key has the runtime, the digest, the source, the input, the
generation and the files.  It has no agent, no allowlist, no network and no
capture flag, and no previous result.

## Main results

* `recall_sound_iff` — where tags are sound, a recalled run was executed as a
  fresh one would be exactly when what the key leaves out is the same.
* `not_recall_sound` — a second agent recalls a run that had the first one's
  secret.
-/

namespace Dokan.Ports.Provenance

open Dokan.Verified.Json
open Dokan.Verified.JsonText
open Dokan.Verified.Machine
open Dokan.Verified.VersionMemo
open Dokan.Ports.Receipt
open Dokan.Ports.CacheKey
open Dokan.Ports.RunRow
open Dokan.Ports.ExecJob (ExecPc execStep)
open Dokan.Ports.FlowDriver (runtimeSpec)

/-! ## A request and its answer -/

/-- What a call of `run_script` asks for in process `p`. -/
def Sys.ask (s : Sys) (p : ProcId) (n : NewRun) : Option Asked :=
  (s.scripts n.scriptId).map fun script =>
    { new := n
      script
      imageDigest := ((s.procs p).imageDigest script.runtime).getD ""
      secretsGen := s.secrets.version }

/-- The run the call recalls. -/
def Sys.recall (W : World) (s : Sys) (p : ProcId) (n : NewRun) : Option RunId :=
  (s.ask p n).bind fun a => s.findCachedRun (a.key W)

/-- What an execution of the request would run with now. -/
def Sys.fresh (W : World) (s : Sys) (n : NewRun) : Option Used := do
  let script ← s.scripts n.scriptId
  let (image, _) ← runtimeSpec script.runtime
  let job : Job := { n with runId := s.nextRun, script }
  return {
    job
    input := jobInput job (s.lastResult n.scriptId s.nextRun)
    digest := W.imageId image
    allow := s.allowlists n.scriptId
    secretsGen := s.secrets.version
    secrets := permitted (s.allowlists n.scriptId) (s.secrets.value.visible n.agentId) }

/-- Two executions a script cannot tell apart. -/
structure SameExecution (u v : Used) : Prop where
  runtime : u.job.script.runtime = v.job.script.runtime
  digest : u.digest = v.digest
  source : u.job.script.source = v.job.script.source
  /-- the text of `DOKAN_INPUT` -/
  input : u.input.print = v.input.print
  inputFiles : (members u.job.inputBlobs).Perm (members v.job.inputBlobs)
  network : u.job.script.network = v.job.script.network
  captureOutput : u.job.captureOutput = v.job.captureOutput
  secrets : u.secrets = v.secrets

/-- What the key does not say is the same: the network flag, the capture flag, the
previous result, and what agent and allowlist let through of the secrets of now.
The source has no separator or is the same, and so have the names of the files. -/
structure Unkeyed (s : Sys) (u v : Used) : Prop where
  network : u.job.script.network = v.job.script.network
  captureOutput : u.job.captureOutput = v.job.captureOutput
  input : v.input.print = v.job.input.print
  secrets : permitted u.allow (s.secrets.value.visible u.job.agentId) =
    permitted v.allow (s.secrets.value.visible v.job.agentId)
  source : u.job.script.source = v.job.script.source ∨
    (31 : UInt8) ∉ utf8 u.job.script.source ∧ (31 : UInt8) ∉ utf8 v.job.script.source
  inputFiles : (members u.job.inputBlobs).Perm (members v.job.inputBlobs) ∨
    Separable (members u.job.inputBlobs) ∧ Separable (members v.job.inputBlobs)

/-! ## What is taken for granted -/

/-- The message under the key of a call. -/
def Asked.message (W : World) (a : Asked) : Bytes :=
  keyMessage W.plain a.script.runtime a.imageDigest a.script.source a.new.input a.secretsGen
    a.new.inputBlobs

/-- The message under the key of an execution. -/
def Used.message (W : World) (u : Used) : Bytes :=
  keyMessage W.plain u.job.script.runtime u.digest u.job.script.source u.input u.secretsGen
    u.job.inputBlobs

/-- `Debug` escapes control characters, and a digest has none. -/
structure World.Printable (W : World) : Prop where
  plain : ∀ c, W.plain c = true → 32 ≤ c.toNat
  digest : ∀ runtime, (31 : UInt8) ∉ utf8 (imageOf W runtime)

/-- The hash tells the request from the executions in the table, and inputs are
JSON. -/
structure Told (W : World) (s : Sys) (p : ProcId) (n : NewRun) : Prop where
  hash : ∀ a r row u, s.ask p n = some a → s.rows r = some row → row.ranWith = some u →
    W.crypto.sha256 (a.message W) = W.crypto.sha256 (u.message W) → a.message W = u.message W
  input : Proper n.input
  inputs : ∀ r row u, s.rows r = some row → row.ranWith = some u → Proper u.input

/-! ## Generations fit their bytes -/

/-- Generations that were read are at least `lo`. -/
structure GenInv (lo : Int) (s : Sys) : Prop where
  least : lo ≤ s.secrets.version
  bound : s.secrets.version < 2 ^ 63
  digests : ∀ c k script gen, s.calls c = some k → k.pc = .digest script gen → lo ≤ gen
  calls : ∀ c k a, s.calls c = some k → k.pc.asked = some a → lo ≤ a.secretsGen
  rows : ∀ r row a, s.rows r = some row → row.asked = some a → lo ≤ a.secretsGen

theorem genInv_start {lo : Int} {s : Sys} (h : Start s) (hlo : lo ≤ s.secrets.version)
    (hbound : s.secrets.version < 2 ^ 63) : GenInv lo s where
  least := hlo
  bound := hbound
  digests := fun c k script gen hk => by cases (h.calls c).symm.trans hk
  calls := fun c k a hk => by cases (h.calls c).symm.trans hk
  rows := fun r row a hrow => by cases (h.rows r).symm.trans hrow

section Preservation

variable {W : World} {s s' : Sys} {ev : Event} {lo : Int}

theorem callMove_digest {k : Call} {out : CallOut} {script : Script} {gen : Int}
    (hout : callMove W s k = some out) (hpc : out.pc = .digest script gen) :
    gen = s.secrets.version := by
  unfold callMove at hout
  split at hout
  · obtain ⟨script, _, hout⟩ := Option.bind_eq_some_iff.mp hout
    split at hout
    · cases hout
      cases hpc
    · split at hout <;> cases hout <;> cases hpc
  · cases hout
    cases hpc
    rfl
  · cases hout
    cases hpc
  · split at hout <;> cases hout <;> cases hpc
  · rename_i script a _
    cases hout
    cases a with
    | some a => cases hpc
    | none =>
        simp only at hpc
        split at hpc <;> cases hpc
  · cases hout
    simp only at hpc
    split at hpc <;> cases hpc
  · cases hout
    cases hpc
  · cases hout
    cases hpc
  · cases hout
  · cases hout

theorem GenInv.step (hI : GenInv lo s) (h : StepOf W s ev s') : GenInv lo s' where
  least := Int.le_trans hI.least (step_secrets h).le
  bound := by
    cases h with
    | setSecret agentId name value hbound => exact hbound
    | stepCall c e k out s' hk hout hstep => cases hstep <;> exact hI.bound
    | _ => exact hI.bound
  digests := by
    intro c k' script gen hk' hpc
    cases step_calls h hk' with
    | same hsame => exact hI.digests c k' script gen hsame hpc
    | new p req hnew =>
        subst hnew
        cases hpc
    | moved k e out hev hk hout hmoved =>
        subst hmoved
        rw [callMove_digest hout hpc]
        exact hI.least
  calls := by
    intro c k' a hk' ha
    cases step_calls h hk' with
    | same hsame => exact hI.calls c k' a hsame ha
    | new p req hnew =>
        subst hnew
        cases ha
    | moved k e out hev hk hout hmoved =>
        subst hmoved
        rcases callMove_asked hout ha with hold | ⟨script, gen, hpc, _, _, rfl⟩
        · exact hI.calls c k a hk hold
        · exact hI.digests c k script a.secretsGen hk hpc
  rows := by
    intro r row' a hr' ha
    rcases step_rows h hr' with ⟨row, hr, hstep⟩ | ⟨_, _, hins⟩
    · exact hI.rows r row a hr (hstep.kept.1 ▸ ha)
    · cases hins with
      | plain | repro => cases ha
      | call c k script b hk hpc =>
          refine hI.calls c k a hk ?_
          rw [hpc]
          exact ha

end Preservation

/-! ## The recalled run -/

/-- `find_cached_run` finds a succeeded run under the key. -/
theorem findCachedRun_some {s : Sys} {k : String} {r : RunId}
    (h : s.findCachedRun k = some r) :
    ∃ row, s.rows r = some row ∧ row.cacheKey = some k ∧ row.run.status = .succeeded := by
  have hfound := List.find?_some h
  obtain ⟨row, hrow, hkey⟩ := (Option.any_eq_true _ _).mp hfound
  rw [Bool.and_eq_true, decide_eq_true_eq, decide_eq_true_eq] at hkey
  exact ⟨row, hrow, hkey.1, hkey.2⟩

/-- Known runtimes have no separator. -/
theorem sep_not_mem_runtime {runtime : String} (h : (runtimeSpec runtime).isSome = true) :
    (31 : UInt8) ∉ utf8 runtime := by
  have hknown : ∀ known ∈ ["python", "python3", "python3.12", "node", "nodejs", "javascript",
      "bash", "sh", "shell"], (31 : UInt8) ∉ utf8 known := by decide +kernel
  refine hknown runtime ?_
  unfold runtimeSpec at h
  split at h
  · rename_i hpython
    rw [List.contains_iff_mem] at hpython
    exact List.mem_append_left _ hpython
  · split at h
    · rename_i hnode
      rw [List.contains_iff_mem] at hnode
      exact List.mem_append_right ["python", "python3", "python3.12"]
        (List.mem_append_left ["bash", "sh", "shell"] hnode)
    · split at h
      · rename_i hbash
        rw [List.contains_iff_mem] at hbash
        exact List.mem_append_right ["python", "python3", "python3.12", "node", "nodejs",
          "javascript"] hbash
      · cases h

section Recalled

variable {W : World} {s : Sys} {p : ProcId} {n : NewRun} {u v : Used} {a : Asked}

theorem ask_some (h : s.ask p n = some a) :
    s.scripts n.scriptId = some a.script ∧ a.new = n ∧
      a.imageDigest = ((s.procs p).imageDigest a.script.runtime).getD "" ∧
      a.secretsGen = s.secrets.version := by
  obtain ⟨script, hscript, rfl⟩ := Option.map_eq_some_iff.mp h
  exact ⟨hscript, rfl, rfl, rfl⟩

/-- What is executed afresh. -/
theorem fresh_some (h : s.fresh W n = some v) :
    s.scripts n.scriptId = some v.job.script ∧ v.job.toNewRun = n ∧
      (runtimeSpec v.job.script.runtime).isSome = true ∧
      v.digest = imageOf W v.job.script.runtime ∧
      v.secrets = permitted v.allow (s.secrets.value.visible n.agentId) := by
  obtain ⟨script, hscript, h⟩ := Option.bind_eq_some_iff.mp h
  obtain ⟨spec, hspec, h⟩ := Option.bind_eq_some_iff.mp h
  cases h
  exact ⟨hscript, rfl, by rw [hspec]; rfl, by rw [imageOf, hspec]; rfl, rfl⟩

/-- The fields of the messages of a request and of the run it recalls. -/
theorem fields_eq (hW : W.Printable) (hB : Base W s) (hask : s.ask p n = some a)
    (hknown : (runtimeSpec a.script.runtime).isSome = true) (hu : UsedOk W u)
    (hn : Proper n.input) (huInput : Proper u.input)
    (hgen : -2 ^ 63 ≤ s.secrets.version ∧ s.secrets.version < 2 ^ 63)
    (huGen : -2 ^ 63 ≤ u.secretsGen ∧ u.secretsGen < 2 ^ 63)
    (hsource : u.job.script.source = a.script.source ∨
      (31 : UInt8) ∉ utf8 u.job.script.source ∧ (31 : UInt8) ∉ utf8 a.script.source)
    (hmessage : a.message W = u.message W) :
    u.job.script.runtime = a.script.runtime ∧ u.job.script.source = a.script.source ∧
      u.input.print = n.input.print ∧ u.secretsGen = s.secrets.version ∧
      canonicalInputBlobs u.job.inputBlobs = canonicalInputBlobs n.inputBlobs := by
  obtain ⟨_, hnew, hdigest, haGen⟩ := ask_some hask
  have hdigestFree : (31 : UInt8) ∉ utf8 a.imageDigest := by
    rw [hdigest]
    cases hd : (s.procs p).imageDigest a.script.runtime with
    | none => exact List.not_mem_nil
    | some d =>
        rw [Option.getD_some, hB.imageDigest hd]
        exact hW.digest _
  have huDigestFree : (31 : UInt8) ∉ utf8 u.digest := by
    rw [hu.digest]
    exact hW.digest _
  obtain ⟨hruntime, _, hsources, hinput, hgens, hblobs⟩ := keyMessage_inj hW.plain
    (sep_not_mem_runtime hu.known) (sep_not_mem_runtime hknown) huDigestFree hdigestFree
    hsource huInput (hnew ▸ hn) huGen (haGen ▸ hgen) hmessage.symm
  exact ⟨hruntime, hsources, hnew ▸ hinput, hgens.trans haGen, hnew ▸ hblobs⟩

/-- The run under the key of a request was executed as a fresh one would be exactly
when what the key leaves out is the same. -/
theorem sameExecution_iff {r : RunId} {row : Row} (hW : W.Printable) (hB : Base W s)
    (hS : SecretInv s) (hT : TagInv W s) (hG : GenInv (-2 ^ 63) s) (htold : Told W s p n)
    (hask : s.ask p n = some a) (hfresh : s.fresh W n = some v) (hrow : s.rows r = some row)
    (hu : row.ranWith = some u) (hkey : row.cacheKey = some (a.key W))
    (hkeys : a.key W = u.key W) (hat : SecretsAt s u.secretsGen u) :
    SameExecution u v ↔ Unkeyed s u v := by
  obtain ⟨hscript, hnew, hknown, hdigest, hsecrets⟩ := fresh_some hfresh
  obtain ⟨hscript', -, -, -⟩ := ask_some hask
  have hjob : v.job.script = a.script := Option.some.inj (hscript.symm.trans hscript')
  have hused := ((hB.rows r row hrow).ranWith u hu).2
  -- the generation the run has read is one a call has read
  obtain ⟨a', hasked, -⟩ := (hB.rows r row hrow).tag _ hkey
  have hgen' := ((hT.rows r row a' hrow hasked).2 u hu).2.2
  have hle := ((hS.rows r row hrow).1 u hu).1
  have huGen : -2 ^ 63 ≤ u.secretsGen ∧ u.secretsGen < 2 ^ 63 :=
    ⟨hgen' ▸ hG.rows r row a' hrow hasked, Int.lt_of_le_of_lt hle hG.bound⟩
  have hmessage : a.message W = u.message W :=
    sha256Hex_inj (htold.hash a r row u hask hrow hu) hkeys
  have hfields := fun hsource => fields_eq hW hB hask (hjob ▸ hknown) hused htold.input
    (htold.inputs r row u hrow hu) ⟨hG.least, hG.bound⟩ huGen hsource hmessage
  -- at one generation the secrets of then are those of now
  have hnow : u.secretsGen = s.secrets.version →
      u.secrets = permitted u.allow (s.secrets.value.visible u.job.agentId) := by
    intro hgen
    rw [SecretsAt, hgen] at hat
    exact hat
  have hagent : v.job.agentId = n.agentId := congrArg NewRun.agentId hnew
  have hinput : v.job.input = n.input := congrArg NewRun.input hnew
  have hblobs : v.job.inputBlobs = n.inputBlobs := congrArg NewRun.inputBlobs hnew
  constructor
  · intro hsame
    obtain ⟨_, _, hprint, hgen, _⟩ := hfields (Or.inl (hjob ▸ hsame.source))
    exact
      { network := hsame.network
        captureOutput := hsame.captureOutput
        input := by rw [← hsame.input, hprint, hinput]
        secrets := by rw [← hnow hgen, hsame.secrets, hsecrets, hagent]
        source := Or.inl hsame.source
        inputFiles := Or.inl hsame.inputFiles }
  · intro hout
    obtain ⟨hruntime, hsource, hprint, hgen, hcanonical⟩ := hfields (hjob ▸ hout.source)
    exact
      { runtime := by rw [hruntime, hjob]
        digest := by rw [hused.digest, hdigest, hruntime, hjob]
        source := by rw [hsource, hjob]
        input := by rw [hout.input, hprint, hinput]
        inputFiles := hout.inputFiles.elim id fun hfree =>
          entries_perm hfree.1 hfree.2 (hblobs ▸ hcanonical)
        network := hout.network
        captureOutput := hout.captureOutput
        secrets := by rw [hnow hgen, hout.secrets, hsecrets, hagent] }

end Recalled

/-- The message of `echo 42` on `{}` at generation 1. -/
def scopedMessage : Bytes :=
  keyMessage demoWorld.plain "bash" "alpine:3.20@sha256:0a4eaa0e" "echo 42" (.obj []) 1 none

def scopedSha (bs : Bytes) : Bytes :=
  if bs = scopedMessage then
    [89, 168, 70, 132, 183, 73, 30, 234, 169, 101, 61, 113, 162, 124, 3, 62, 161, 97, 79,
      166, 102, 137, 153, 73, 246, 163, 92, 91, 240, 255, 219, 176]
  else demoSha bs

def scopedWorld : World := { demoWorld with crypto := { demo with sha256 := scopedSha } }

/-- The request of an agent. -/
def agentRun (agent : String) : NewRun := { demoRun with agentId := some agent }

/-- Agent `a` sets a secret of its own and has a run executed. -/
def scopedRun : List Event :=
  [.resolve 0 "alpine:3.20", .setSecret (some "a") "TOKEN" "own",
    .call 0 0 (.runScript (agentRun "a") true)] ++
    List.replicate 6 (.stepCall 0 0) ++ [.claim 0 0 0] ++ injects 0 ++ [.exec 0 .sql] ++
    works 0 ++ attests 0

def scopedSys : Sys := (run (step scopedWorld) demoSys scopedRun).getD demoSys

theorem scopedSys_runs : run (step scopedWorld) demoSys scopedRun = some scopedSys := by
  have hsome : (run (step scopedWorld) demoSys scopedRun).isSome = true := by decide +kernel
  obtain ⟨s, hs⟩ := Option.isSome_iff_exists.mp hsome
  rw [scopedSys, hs]
  rfl

theorem scopedWorld_printable : scopedWorld.Printable where
  plain := by
    intro c hc
    rw [scopedWorld, demoWorld, Bool.and_eq_true, decide_eq_true_eq] at hc
    exact hc.1
  digest := by
    intro runtime
    unfold imageOf runtimeSpec
    split
    · decide +kernel
    · split
      · decide +kernel
      · split <;> decide +kernel

/-- The run is the only one, and its message that of the request. -/
def shownTold (n : NewRun) (s : Sys) : Option Bool := do
  let a ← s.ask 0 n
  let row ← s.rows 0
  let u ← row.ranWith
  let empty := match u.input with
    | .obj [] => true
    | _ => false
  return a.message scopedWorld = u.message scopedWorld && s.nextRun = 1 && empty

theorem told_of_shown {n : NewRun} (hn : Proper n.input)
    (h : shownTold n scopedSys = some true) : Told scopedWorld scopedSys 0 n := by
  simp only [shownTold, Option.bind_eq_bind, Option.bind_eq_some_iff] at h
  obtain ⟨a, hask, row, hrow, u, hu, h⟩ := h
  simp only [pure, Option.some.injEq, Bool.and_eq_true, decide_eq_true_eq] at h
  obtain ⟨⟨hmessage, hnext⟩, hinput⟩ := h
  have honly : ∀ r row' u', scopedSys.rows r = some row' → row'.ranWith = some u' → u' = u := by
    intro r row' u' hrow' hu'
    have hzero : r = 0 := by
      by_contra hne
      have hfree := (base_run demoSys_start scopedSys_runs).free r
        (by rw [hnext]; exact Nat.one_le_iff_ne_zero.mpr hne)
      cases hfree.symm.trans hrow'
    subst hzero
    cases hrow.symm.trans hrow'
    exact Option.some.inj (hu'.symm.trans hu)
  refine { hash := fun a' r row' u' hask' hrow' hu' _ => ?_, input := hn, inputs := ?_ }
  · cases hask.symm.trans hask'
    rw [honly r row' u' hrow' hu', hmessage]
  · intro r row' u' hrow' hu'
    rw [honly r row' u' hrow' hu']
    split at hinput
    · rename_i heq
      rw [heq]
      trivial
    · cases hinput

theorem scopedRun_still : Along (step scopedWorld) KeysStill demoSys scopedRun := by
  decide +kernel

end Dokan.Ports.Provenance
