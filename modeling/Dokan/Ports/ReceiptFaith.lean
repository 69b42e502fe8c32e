import Dokan.Ports.SecretReads
import Dokan.Ports.ReceiptVerify

/-!
# What a stored receipt attests

`build_receipt` binds the arguments of the execution, and reads two things of
its own: the image digest the pool knows and the secrets generation, both after
the job has run.  A `set_secret` between the injection and this read makes the
receipt name secrets the job never had.

## Main results

* `receipts_faithful` — every stored receipt attests what its execution ran
  with, over every run in which no `set_secret` falls between an execution's
  first read of the generation and its last, and digests are resolved.
* `not_receipts_faithful` — with a `set_secret` after the job the receipt is
  false.
-/

namespace Dokan.Ports.Provenance

open Dokan.Verified.Json
open Dokan.Verified.Machine
open Dokan.Verified.VersionMemo
open Dokan.Ports.Receipt
open Dokan.Ports.RunRow
open Dokan.Ports.ExecJob (ExecPc execStep)
open Dokan.Ports.FlowDriver (runtimeSpec)

/-- The bound fields of a receipt are those of what was run. -/
structure Attests (W : World) (s : Sys) (v : Value) (u : Used) : Prop where
  source : v.get? "source_sha256" = some (.str (sourceHash W.crypto u.job.script.source))
  input : v.get? "input_sha256" = some (.str (inputHash W.crypto u.input))
  digest : v.get? "image_digest" = some (.str u.digest)
  network : v.get? "network" = some (.bool u.job.script.network)
  inputBlobs : v.get? "input_blobs" = some (u.job.inputBlobs.getD .null)
  secrets : ∃ gen, v.get? "secrets_generation" = some (.num (.int gen)) ∧ SecretsAt s gen u

/-- Every stored receipt attests what the execution that made it ran with. -/
def ReceiptsFaithful (W : World) (s : Sys) : Prop :=
  ∀ r row v, s.rows r = some row → row.run.receipt = some v →
    ∃ u b, row.sealed = some (u, b) ∧ Attests W s v u

/-! ## Nothing in between -/

/-- The generation that was injected, of an execution about to read it again. -/
def Sys.attesting (s : Sys) : Event → Option Int
  | .exec e _ => (s.execs e).bind fun x =>
      match x.phase with
      | .attest u _ _ _ => some u.secretsGen
      | _ => none
  | _ => none

/-- The digest of its image, of an execution about to ask for it. -/
def Sys.digesting (s : Sys) : Event → Option (Option String)
  | .exec e _ => (s.execs e).bind fun x =>
      match x.phase with
      | .job _ (.buildReceipt _ _) =>
          some ((s.procs x.proc).imageDigest x.job.script.runtime)
      | _ => none
  | _ => none

/-- No `set_secret` has committed since an execution read the generation, where it
reads secrets and where it attests them; its image is resolved. -/
structure ReadsStill (s : Sys) (ev : Event) : Prop where
  loads : LoadsStill s ev
  attests : ∀ gen ∈ s.attesting ev, s.secrets.version = gen
  resolved : ∀ d ∈ s.digesting ev, d.isSome = true

/-- The receipt binds the digest and the generation of the execution. -/
def Exact (W : World) (u : Used) (b : Binding) : Prop :=
  b.digest = imageOf W u.job.script.runtime ∧ b.secretsGen = u.secretsGen

/-- What an execution has gathered for its receipt. -/
def SealPhase (W : World) (x : Exec) : Prop :=
  match x.phase with
  | .attest _ _ _ digest => digest = imageOf W x.job.script.runtime
  | .job u (.storeReceipt _ _) => ∀ b, x.binding = some b → Exact W u b
  | _ => True

structure SealInv (W : World) (s : Sys) : Prop where
  execs : ∀ e x, s.execs e = some x → SealPhase W x
  rows : ∀ r row u b, s.rows r = some row → row.sealed = some (u, b) → Exact W u b

theorem sealInv_start {W : World} {s : Sys} (h : Start s) : SealInv W s where
  execs := fun e x hx => by cases (h.execs e).symm.trans hx
  rows := fun r row u b hrow => by cases (h.rows r).symm.trans hrow

section Preservation

variable {W : World} {s s' : Sys} {ev : Event}

theorem ExecMove.sealPhase {e : ExecId} {x x' : Exec} {ev' : ExecEvent} {out : ExecOut}
    (hB : Base W s) (hI : SealInv W s) (hstill : ReadsStill s (.exec e ev'))
    (hx : s.execs e = some x) (h : ExecMove W s x ev' out) (hx' : out.exec = some x') :
    SealPhase W x' := by
  have hold := hI.execs e x hx
  cases h with
  | digest u code result spec hphase hspec =>
      cases hx'
      have hsome : ((s.procs x.proc).imageDigest x.job.script.runtime).isSome = true :=
        hstill.resolved _ (by simp [Sys.digesting, hx, hphase])
      rw [Proc.imageDigest, hspec, Option.bind_some] at hsome
      obtain ⟨d, hd⟩ := Option.isSome_iff_exists.mp hsome
      simp only [SealPhase, imageOf, hspec, Option.map_some, Option.getD_some, hd]
      exact hB.digests _ _ _ hd
  | attest u code result digest b hphase hb =>
      cases hx'
      have hgen : s.secrets.version = u.secretsGen :=
        hstill.attests _ (by simp [Sys.attesting, hx, hphase])
      have hphaseOk := (hB.execs e x hx).phase
      simp only [PhaseOk, hphase] at hphaseOk
      simp only [SealPhase, hphase] at hold
      intro b' hb'
      cases hb'
      subst hb
      refine ⟨?_, hgen⟩
      rw [hphaseOk.1]
      exact hold
  | job u pc reply out outputs hphase hpc hout =>
      cases hx'
      unfold SealPhase
      split
      · rename_i hattest
        cases hattest
      · rename_i hstore
        -- no receipt is handed on but by the step above
        obtain ⟨code, result, hbuild⟩ := execStep_storeReceipt hout (Phase.job.inj hstore).2
        exact absurd hbuild (hpc code result)
      · trivial
  | hit input allow gen m hphase hm =>
      cases hx'
      trivial
  | store input allow gen m hphase =>
      cases hx'
      trivial
  | ended msg hphase => cases hx'
  | _ =>
      cases hx'
      trivial

/-- Every step that disturbs no read keeps it. -/
theorem SealInv.step (hB : Base W s) (hI : SealInv W s) (hstill : ReadsStill s ev)
    (h : StepOf W s ev s') : SealInv W s' where
  execs := by
    intro e x' hx'
    cases step_execs h hx' with
    | same hsame => exact hI.execs e x' hsame
    | moved x ev' out hev hx hout hx' =>
        subst hev
        exact hout.sealPhase hB hI hstill hx hx'
    | claimed p r row script hev hrow hscript hx' =>
        subst hx'
        trivial
    | started c k script r a hk hpc hx' =>
        subst hx'
        trivial
  rows := by
    intro r row' u b hr' hub
    rcases step_rows h hr' with ⟨row, hr, hstep⟩ | ⟨_, _, hins⟩
    · cases hstep with
      | same => exact hI.rows r row' u b hr hub
      | run f | tag c k script a => exact hI.rows r row u b hr hub
      | exec e x u' pc reply out hx hphase hrun hout =>
          simp only [Row.written] at hub
          split at hub
          · rename_i result v
            obtain ⟨b', hb', hpair⟩ := Option.map_eq_some_iff.mp hub
            cases hpair
            have hseal := hI.execs e x hx
            simp only [SealPhase, hphase] at hseal
            exact hseal b hb'
          · exact hI.rows r row u b hr hub
    · cases hins <;> cases hub

end Preservation

/-- The fields of a receipt that attests what was run. -/
theorem attests_of_exact {W : World} {s : Sys} {u : Used} {b : Binding} (hused : UsedOk W u)
    (hbind : BindOk W u b) (hexact : Exact W u b) (hat : SecretsAt s u.secretsGen u) :
    Attests W s (buildReceipt W.crypto W.signer b) u where
  source := by simp [buildReceipt, Value.object, hbind.source]
  input := by simp [buildReceipt, Value.object, hbind.input]
  digest := by simp [buildReceipt, Value.object, hexact.1, hused.digest]
  network := by simp [buildReceipt, Value.object, hbind.network]
  inputBlobs := by simp [buildReceipt, Value.object, hbind.inputBlobs]
  secrets := ⟨u.secretsGen, by simp [buildReceipt, Value.object, hexact.2], hat⟩

instance (s : Sys) (ev : Event) : Decidable (LoadsStill s ev) :=
  inferInstanceAs (Decidable (∀ gen ∈ s.loading ev, s.secrets.version = gen))

instance (s : Sys) (ev : Event) : Decidable (ReadsStill s ev) :=
  decidable_of_iff
    (LoadsStill s ev ∧ (∀ gen ∈ s.attesting ev, s.secrets.version = gen) ∧
      ∀ d ∈ s.digesting ev, d.isSome = true)
    ⟨fun h => ⟨h.1, h.2.1, h.2.2⟩, fun h => ⟨h.loads, h.attests, h.resolved⟩⟩

def demoWorld : World where
  crypto := demo
  signer := devSigner
  trusted := none
  plain := fun c => 32 ≤ c.toNat && c.toNat < 127
  imageId := fun image => image ++ "@sha256:0a4eaa0e"

/-- One script, one global secret. -/
def demoSys : Sys where
  now := 0
  scripts := fun i => if i = 1 then some ⟨"bash", "echo 42", false, false, 0⟩ else none
  allowlists := fun _ => none
  secrets := ⟨0, fun _ => ⟨fun name => if name = "TOKEN" then some "old" else none,
    fun _ _ => none⟩⟩
  procs := fun _ => .fresh
  rows := fun _ => none
  nextRun := 0
  calls := fun _ => none
  execs := fun _ => none
  repros := fun _ => none

theorem demoSys_start : Start demoSys :=
  ⟨fun _ => rfl, fun _ => rfl, fun _ => rfl, fun _ => rfl, fun _ => rfl⟩

def demoRun : NewRun where
  scriptId := 1
  input := .obj []
  agentId := none
  inputBlobs := none
  captureOutput := false
  idempotencyKey := none

/-- Execution `e` up to the injection of global secrets. -/
def injects (e : ExecId) : List Event :=
  [.exec e .sql, .exec e (.reply (.container 7))] ++ List.replicate 5 (.exec e .sql)

/-- Its job, to a zero exit. -/
def works (e : ExecId) : List Event :=
  [.exec e (.reply .ok), .exec e (.reply .ok), .exec e (.reply (.ended none)),
    .exec e (.reply (.exit (some 0))), .exec e (.reply .ok), .exec e (.reply (.captured none))]

/-- Its receipt. -/
def attests (e : ExecId) : List Event :=
  [.exec e .sql, .exec e .sql, .exec e (.reply .ok)]

/-- A run is claimed and executed; `between` falls after the job. -/
def attestedRun (between : List Event) : List Event :=
  [.resolve 0 "alpine:3.20", .enqueue demoRun, .claim 0 0 0] ++ injects 0 ++ works 0 ++
    between ++ attests 0

/-- What the receipt of run 0 says, what was injected, and what the receipt's
generation stands for. -/
def shownToken (s : Sys) : Option (Int × Option String × Option String) := do
  let row ← s.rows 0
  let (u, _) ← row.sealed
  let v ← row.run.receipt
  let gen ← (v.get? "secrets_generation").bind Value.asI64?
  return (gen, u.secrets "TOKEN",
    permitted u.allow ((s.secrets.history gen).visible u.job.agentId) "TOKEN")

end Dokan.Ports.Provenance
