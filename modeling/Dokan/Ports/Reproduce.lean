import Dokan.Ports.ReceiptFaith
import Dokan.Ports.ReceiptComplete

/-!
# What `reproduce_run` compares

The re-run goes through the queue: the claim reads the script again, and
`build_receipt` the image digest and the secrets generation.  The source is
checked before the insert and nothing after it, and at the end only the hashes
of the outputs are compared.

## Main results

* `like_with_like` — a verdict compares two receipts of the same source, input,
  image, secrets and input files, over every run in which these are still what
  they were for the original.
* `not_like_with_like` — a `set_secret` between the two runs, and the verdict
  compares runs of different secrets.
-/

namespace Dokan.Ports.Provenance

open Dokan.Verified.Json
open Dokan.Verified.Machine
open Dokan.Verified.VersionMemo
open Dokan.Ports.Receipt
open Dokan.Ports.RunRow
open Dokan.Ports.ExecJob (ExecPc execStep)
open Dokan.Ports.FlowDriver (runtimeSpec)

/-- The receipt of a re-run binds what the original's does, without network. -/
structure SameRun (orig repro : Value) : Prop where
  source : repro.get? "source_sha256" = orig.get? "source_sha256"
  input : repro.get? "input_sha256" = orig.get? "input_sha256"
  digest : repro.get? "image_digest" = orig.get? "image_digest"
  secrets : repro.get? "secrets_generation" = orig.get? "secrets_generation"
  inputBlobs : repro.get? "input_blobs" = orig.get? "input_blobs"
  network : repro.get? "network" = some (.bool false)

def Compares (w : Repro) : Prop :=
  ∃ orig repro, w.compared = some (orig, repro) ∧ SameRun orig repro

/-- Every verdict compares like with like. -/
def LikeWithLike (s : Sys) : Prop :=
  ∀ q w, s.repros q = some w →
    w.pc = .done .reproduced ∨ w.pc = .done .diverged → Compares w

/-! ## Nothing has moved -/

/-- The original of the run of a claim, and the script the claim reads. -/
def Sys.reclaiming (s : Sys) : Event → Option (Used × Script)
  | .claim _ r _ => do
      let row ← s.rows r
      let (u, _) ← row.repeats
      return (u, ← s.scripts row.run.scriptId)
  | _ => none

/-- The original receipt of a re-run about to ask for its image digest, and the
answer. -/
def Sys.redigesting (s : Sys) : Event → Option (Binding × String)
  | .exec e _ => do
      let x ← s.execs e
      let row ← s.rows x.job.runId
      let (_, b) ← row.repeats
      let (image, _) ← runtimeSpec x.job.script.runtime
      match x.phase with
      | .job _ (.buildReceipt _ _) => some (b, ((s.procs x.proc).digests image).getD image)
      | _ => none
  | _ => none

/-- The original receipt of a re-run about to read the generation for its own. -/
def Sys.reattesting (s : Sys) : Event → Option Binding
  | .exec e _ => do
      let x ← s.execs e
      let row ← s.rows x.job.runId
      let (_, b) ← row.repeats
      match x.phase with
      | .attest _ _ _ _ => some b
      | _ => none
  | _ => none

/-- The re-run claims the source and the network flag of the original, neither is
fed a previous result, and its `build_receipt` reads the digest and the
generation that the original's read. -/
structure RepeatsStill (s : Sys) (ev : Event) : Prop where
  claimed : ∀ p ∈ s.reclaiming ev,
    p.2.source = p.1.job.script.source ∧ p.2.network = p.1.job.script.network ∧
      p.2.feedPrevResult = false ∧ p.1.job.script.feedPrevResult = false
  digested : ∀ p ∈ s.redigesting ev, p.2 = p.1.digest
  attested : ∀ b ∈ s.reattesting ev, s.secrets.version = b.secretsGen

/-! ## The invariant -/

/-- Two receipts bind the same, the second without network. -/
structure Like (b b' : Binding) : Prop where
  source : b'.source = b.source
  input : b'.input = b.input
  digest : b'.digest = b.digest
  secretsGen : b'.secretsGen = b.secretsGen
  inputBlobs : b'.inputBlobs = b.inputBlobs
  network : b'.network = false

theorem sameRun_of_like (W : World) {b b' : Binding} (h : Like b b') :
    SameRun (buildReceipt W.crypto W.signer b) (buildReceipt W.crypto W.signer b') where
  source := by simp [buildReceipt, Value.object, h.source]
  input := by simp [buildReceipt, Value.object, h.input]
  digest := by simp [buildReceipt, Value.object, h.digest]
  secrets := by simp [buildReceipt, Value.object, h.secretsGen]
  inputBlobs := by simp [buildReceipt, Value.object, h.inputBlobs]
  network := by simp [buildReceipt, Value.object, h.network]

/-- An execution without network, and what its receipt binds. -/
structure Original (W : World) (u : Used) (b : Binding) : Prop where
  used : UsedOk W u
  bind : BindOk W u b
  network : b.network = false

/-- A run is to repeat an execution. -/
def Repeats (n : NewRun) (u : Used) : Prop :=
  n.input = u.job.input ∧ n.inputBlobs = u.job.inputBlobs

/-- What a reproduction knows at its point. -/
def ReproOk (W : World) (s : Sys) (w : Repro) : Prop :=
  match w.pc with
  | .receipt => True
  | .inputs orig =>
      ∃ u b row, w.original = some (u, b) ∧ Original W u b ∧
        orig = buildReceipt W.crypto W.signer b ∧ s.rows w.runId = some row ∧
        Repeats row.run.toNewRun u
  | .script orig n | .insert orig n =>
      ∃ u b, w.original = some (u, b) ∧ Original W u b ∧
        orig = buildReceipt W.crypto W.signer b ∧ Repeats n u
  | .poll orig r | .compare orig r =>
      ∃ u b row, orig = buildReceipt W.crypto W.signer b ∧ s.rows r = some row ∧
        row.repeats = some (u, b)
  | .done v => v = .reproduced ∨ v = .diverged → Compares w

/-- What an execution of a re-run has read. -/
def Reruns (u : Used) (b : Binding) (x : Exec) : Prop :=
  (x.job.script.source = u.job.script.source ∧
    x.job.script.network = u.job.script.network ∧ x.job.script.feedPrevResult = false ∧
      u.job.script.feedPrevResult = false) ∧
    match x.phase with
    | .attest _ _ _ digest => digest = b.digest
    | .job _ (.storeReceipt _ _) => ∀ b', x.binding = some b' → Like b b'
    | _ => True

structure RepeatRow (W : World) (row : Row) (u : Used) (b : Binding) : Prop where
  original : Original W u b
  repeats : Repeats row.run.toNewRun u
  sealed : ∀ u' b', row.sealed = some (u', b') → Like b b'

structure ReproInv (W : World) (s : Sys) : Prop where
  rows : ∀ r row u b, s.rows r = some row → row.repeats = some (u, b) → RepeatRow W row u b
  execs : ∀ e x row u b, s.execs e = some x → s.rows x.job.runId = some row →
    row.repeats = some (u, b) → Reruns u b x
  repros : ∀ q w, s.repros q = some w → ReproOk W s w

theorem reproInv_start {W : World} {s : Sys} (h : Start s) : ReproInv W s where
  rows := fun r row u b hrow => by cases (h.rows r).symm.trans hrow
  execs := fun e x row u b hx => by cases (h.execs e).symm.trans hx
  repros := fun q w hw => by cases (h.repros q).symm.trans hw

section Preservation

variable {W : World} {s s' : Sys} {ev : Event}

/-- What a run is to repeat never changes. -/
theorem Base.repeats (hB : Base W s) (h : StepOf W s ev s') {r : RunId} {row row' : Row}
    (hr : s.rows r = some row) (hr' : s'.rows r = some row') : row'.repeats = row.repeats := by
  obtain ⟨row₀, hrow₀, _, _, hrepeats⟩ := hB.kept h hr
  cases hr'.symm.trans hrow₀
  exact hrepeats

/-! ## Executions -/

/-- `build_receipt` of a re-run binds what the original's bound. -/
theorem like_of_bind {x : Exec} {u u' : Used} {b : Binding} {code : Int}
    {result : Option Value} {digest : String} {gen : Int} {row : Row}
    (hrow : RepeatRow W row u b) (hnew : row.run.toNewRun = x.job.toNewRun)
    (hjob : u'.job = x.job) (hused : UsedOk W u') (hreruns : Reruns u b x)
    (hdigest : digest = b.digest) (hgen : gen = b.secretsGen) :
    Like b (x.bind u' code result digest gen) := by
  obtain ⟨⟨hsource, hnetwork, hfed, hfed'⟩, _⟩ := hreruns
  obtain ⟨hinput, hblobs⟩ := hrow.repeats
  have horig := hrow.original
  have hbindInput : u'.input = b.input := by
    rw [hused.input (hjob ▸ hfed), hjob, horig.bind.input, horig.used.input hfed', ← hinput,
      hnew]
  exact
    { source := hsource.trans horig.bind.source.symm
      input := hbindInput
      digest := hdigest
      secretsGen := hgen
      inputBlobs := by
        rw [horig.bind.inputBlobs, ← hblobs, hnew]
        rfl
      network := by
        rw [← horig.network, horig.bind.network, ← hnetwork]
        rfl }

/-- A re-run goes on as its original went. -/
theorem ExecMove.reruns {e : ExecId} {x x' : Exec} {ev' : ExecEvent} {out : ExecOut}
    {row : Row} {u : Used} {b : Binding} (hB : Base W s)
    (hstill : RepeatsStill s (.exec e ev')) (hx : s.execs e = some x)
    (hrow : s.rows x.job.runId = some row) (hub : row.repeats = some (u, b))
    (hrepeat : RepeatRow W row u b) (h : ExecMove W s x ev' out) (hx' : out.exec = some x')
    (hold : Reruns u b x) : Reruns u b x' := by
  have hexec := hB.execs e x hx
  obtain ⟨hsame, hphaseOld⟩ := hold
  cases h with
  | digest u' code result spec hphase hspec =>
      cases hx'
      have hmem : (b, ((s.procs x.proc).digests spec.1).getD spec.1) ∈
          s.redigesting (.exec e .sql) := by
        simp [Sys.redigesting, hx, hrow, hub, hspec, hphase]
      exact ⟨hsame, hstill.digested _ hmem⟩
  | attest u' code result digest b' hphase hb =>
      cases hx'
      refine ⟨hsame, fun b₀ hb₀ => ?_⟩
      cases hb₀
      subst hb
      have hgen := hstill.attested b (by simp [Sys.reattesting, hx, hrow, hub, hphase])
      have hphaseOk := hexec.phase
      simp only [PhaseOk, hphase] at hphaseOk
      obtain ⟨own, hown, hnew⟩ := hexec.row
      cases hrow.symm.trans hown
      have hdigest : digest = b.digest := by
        simp only [hphase] at hphaseOld
        exact hphaseOld
      exact like_of_bind hrepeat hnew hphaseOk.1 hphaseOk.2.1 ⟨hsame, hphaseOld⟩ hdigest hgen
  | job u' pc reply out outputs hphase hpc hout =>
      cases hx'
      refine ⟨hsame, ?_⟩
      split
      · rename_i hattest
        cases hattest
      · rename_i hstore
        obtain ⟨code, result, hbuild⟩ := execStep_storeReceipt hout (Phase.job.inj hstore).2
        exact absurd hbuild (hpc code result)
      · trivial
  | ended msg hphase => cases hx'
  | _ =>
      cases hx'
      exact ⟨hsame, trivial⟩

theorem ReproInv.execs_step (hB : Base W s) (hI : ReproInv W s) (hstill : RepeatsStill s ev)
    (h : StepOf W s ev s') {e : ExecId} {x' : Exec} {row' : Row} {u : Used} {b : Binding}
    (hx' : s'.execs e = some x') (hr' : s'.rows x'.job.runId = some row')
    (hub : row'.repeats = some (u, b)) : Reruns u b x' := by
  cases step_execs h hx' with
  | same hsame =>
      obtain ⟨row, hr, _⟩ := (hB.execs e x' hsame).row
      exact hI.execs e x' row u b hsame hr ((hB.repeats h hr hr').symm.trans hub)
  | moved x ev' out hev hx hout hx' =>
      subst hev
      obtain ⟨row, hr, _⟩ := (hB.execs e x hx).row
      rw [(hout.kept hx').2] at hr'
      have hrepeats := (hB.repeats h hr hr').symm.trans hub
      exact hout.reruns hB hstill hx hr hrepeats (hI.rows _ row u b hr hrepeats) hx'
        (hI.execs e x row u b hx hr hrepeats)
  | claimed p r row script hev hr hscript hx' =>
      subst hx' hev
      have hrepeats := (hB.repeats h hr hr').symm.trans hub
      exact ⟨hstill.claimed (u, script) (by simp [Sys.reclaiming, hr, hscript, hrepeats]),
        trivial⟩
  | started c k script r a hk hpc hx' =>
      subst hx'
      -- the run of a call repeats nothing
      have hcall := hB.calls c k hk
      simp only [CallOk, hpc] at hcall
      obtain ⟨_, _, row, hr, _, _, hnone⟩ := hcall
      cases hnone.symm.trans ((hB.repeats h hr hr').symm.trans hub)

/-! ## Rows -/

/-- A re-run is inserted for what its reproduction has read. -/
theorem Inserted.repeatRow {row : Row} {u : Used} {b : Binding} (hI : ReproInv W s)
    (h : Inserted s row) (hub : row.repeats = some (u, b)) : RepeatRow W row u b := by
  cases h with
  | plain | call => cases hub
  | repro q w orig n hw hpc =>
      have hrepro := hI.repros q w hw
      simp only [ReproOk, hpc] at hrepro
      obtain ⟨u', b', horiginal, hval, _, hrepeats⟩ := hrepro
      cases hub.symm.trans horiginal
      exact
        { original := hval
          repeats := hrepeats
          sealed := (fun u' b' hsealed => by cases hsealed) }

theorem ReproInv.rows_step (hI : ReproInv W s) (h : StepOf W s ev s')
    {r : RunId} {row' : Row} {u : Used} {b : Binding} (hr' : s'.rows r = some row')
    (hub : row'.repeats = some (u, b)) : RepeatRow W row' u b := by
  rcases step_rows h hr' with ⟨row, hr, hstep⟩ | ⟨_, _, hins⟩
  · obtain ⟨_, hrepeats, hnew⟩ := hstep.kept
    rw [hrepeats] at hub
    have hold := hI.rows r row u b hr hub
    refine { original := hold.original, repeats := hnew ▸ hold.repeats, sealed := ?_ }
    cases hstep with
    | same | run | tag => exact hold.sealed
    | exec e x u' pc reply out hx hphase hrun hout =>
        intro u₁ b₁ hsealed
        simp only [Row.written] at hsealed
        split at hsealed
        · obtain ⟨b', hb', hpair⟩ := Option.map_eq_some_iff.mp hsealed
          cases hpair
          rw [← hrun] at hr
          obtain ⟨_, hreruns⟩ := hI.execs e x row u b hx hr hub
          simp only [hphase] at hreruns
          exact hreruns b₁ hb'
        · exact hold.sealed u₁ b₁ hsealed
  · exact hins.repeatRow hI hub

/-! ## Reproductions -/

/-- Later steps take nothing from a reproduction. -/
theorem ReproOk.step {w : Repro} (hB : Base W s) (h : StepOf W s ev s')
    (hold : ReproOk W s w) : ReproOk W s' w := by
  unfold ReproOk at hold ⊢
  split at hold
  · trivial
  · obtain ⟨u, b, row, horiginal, hval, horig, hr, hrepeats⟩ := hold
    obtain ⟨row', hr', hnew, _⟩ := hB.kept h hr
    exact ⟨u, b, row', horiginal, hval, horig, hr', hnew ▸ hrepeats⟩
  · exact hold
  · exact hold
  · obtain ⟨u, b, row, horig, hr, hub⟩ := hold
    obtain ⟨row', hr', _, _, hrepeats⟩ := hB.kept h hr
    exact ⟨u, b, row', horig, hr', hrepeats.trans hub⟩
  · obtain ⟨u, b, row, horig, hr, hub⟩ := hold
    obtain ⟨row', hr', _, _, hrepeats⟩ := hB.kept h hr
    exact ⟨u, b, row', horig, hr', hrepeats.trans hub⟩
  · exact hold

/-- The network flag of a receipt that is taken up. -/
theorem network_of_receipt {b : Binding}
    (h : ((((buildReceipt W.crypto W.signer b).get? "network").bind Value.asBool?).getD true) ≠
      true) : b.network = false := by
  simpa [buildReceipt, Value.object, Value.asBool?] using h

/-- Taking up the original: its receipt is what it was sealed with. -/
theorem original_of_receipt (hB : Base W s) {r : RunId} {orig : Value}
    (horig : (s.rows r).bind (fun row => row.run.receipt) = some orig)
    (hnetwork : ((orig.get? "network").bind Value.asBool?).getD true ≠ true) :
    ∃ u b row, (s.rows r).bind (fun row => row.sealed) = some (u, b) ∧ Original W u b ∧
      orig = buildReceipt W.crypto W.signer b ∧ s.rows r = some row ∧
      Repeats row.run.toNewRun u := by
  obtain ⟨row, hr, hreceipt⟩ := Option.bind_eq_some_iff.mp horig
  have hok := hB.rows r row hr
  obtain ⟨u, b, hsealed, rfl⟩ := hok.receipt orig hreceipt
  obtain ⟨hnew, hused, hbind, _⟩ := hok.sealed u b hsealed
  refine ⟨u, b, row, by rw [hr]; exact hsealed, ⟨hused, hbind, network_of_receipt hnetwork⟩,
    rfl, hr, ?_⟩
  rw [← hnew]
  exact ⟨rfl, rfl⟩

/-- An inconclusive verdict compares nothing. -/
theorem reproOk_inconclusive (w : Repro) (reason : String) :
    ReproOk W s { w with pc := .done (.inconclusive reason) } := by
  rintro (h | h) <;> cases h

/-- Every statement of a reproduction keeps what it knows. -/
theorem ReproOk.moved {q : ReproId} {w : Repro} {out : ReproOut} (hB : Base W s)
    (hI : ReproInv W s) (h : StepOf W s ev s') (hw : s.repros q = some w)
    (hout : reproMove W s w = some out)
    (hrow : ∀ orig n, w.pc = .insert orig n → s'.rows s.nextRun = some (w.row s.now n)) :
    ReproOk W s' out.repro := by
  have hold := hI.repros q w hw
  unfold reproMove at hout
  split at hout
  · split at hout
    · cases hout
      exact reproOk_inconclusive w _
    · rename_i orig horig
      split at hout
      · cases hout
        exact reproOk_inconclusive w _
      · rename_i hnetwork
        split at hout
        · cases hout
        · split at hout
          · cases hout
            obtain ⟨u, b, row, hub, hrest⟩ := original_of_receipt hB horig hnetwork
            exact ReproOk.step hB h ⟨u, b, row, hub, hrest⟩
          · cases hout
            rintro (h | h) <;> cases h
  · rename_i orig hpc
    simp only [ReproOk, hpc] at hold
    obtain ⟨u, b, row, horiginal, hval, horig, hr, hrepeats⟩ := hold
    split at hout
    · cases hout
      exact reproOk_inconclusive w _
    · rename_i row' hr'
      cases hr.symm.trans hr'
      cases hout
      exact ⟨u, b, horiginal, hval, horig, hrepeats⟩
  · rename_i orig n hpc
    simp only [ReproOk, hpc] at hold
    split at hout
    · cases hout
      exact reproOk_inconclusive w _
    · split at hout
      · cases hout
        exact reproOk_inconclusive w _
      · cases hout
        exact hold
  · rename_i orig n hpc
    simp only [ReproOk, hpc] at hold
    obtain ⟨u, b, horiginal, _, horig, _⟩ := hold
    cases hout
    exact ⟨u, b, w.row s.now n, horig, hrow orig n hpc, horiginal⟩
  · rename_i orig r hpc
    simp only [ReproOk, hpc] at hold
    split at hout
    · cases hout
      exact ReproOk.step hB h hold
    · cases hout
      exact ReproOk.step hB h hold
    · cases hout
      exact reproOk_inconclusive w _
    · cases hout
  · rename_i orig r hpc
    simp only [ReproOk, hpc] at hold
    obtain ⟨u, b, row, rfl, hr, hub⟩ := hold
    split at hout
    · cases hout
      exact reproOk_inconclusive w _
    · rename_i repro hrepro
      obtain ⟨row', hr', hreceipt⟩ := Option.bind_eq_some_iff.mp hrepro
      cases hr.symm.trans hr'
      -- the re-run's receipt is what its execution was sealed with
      obtain ⟨u', b', hsealed, rfl⟩ := (hB.rows r row hr).receipt repro hreceipt
      have hlike := (hI.rows r row u b hr hub).sealed u' b' hsealed
      cases hout
      exact fun _ => ⟨_, _, rfl, sameRun_of_like W hlike⟩
  · cases hout

/-- **A step after which nothing has moved keeps it.** -/
theorem ReproInv.step (hB : Base W s) (hI : ReproInv W s) (hstill : RepeatsStill s ev)
    (h : StepOf W s ev s') : ReproInv W s' where
  rows := fun _ _ _ _ hr' hub => hI.rows_step h hr' hub
  execs := fun _ _ _ _ _ hx' hr' hub => hI.execs_step hB hstill h hx' hr' hub
  repros := by
    intro q w' hw'
    cases step_repros h hw' with
    | same hsame => exact (hI.repros q w' hsame).step hB h
    | moved w out hw hout hnext hrow =>
        subst hnext
        exact .moved hB hI h hw hout hrow
    | new r agentId hnew =>
        subst hnew
        trivial
    | timedOut w orig r hw hpc hnew =>
        subst hnew
        exact reproOk_inconclusive w _

end Preservation

/-- A genuine receipt of a run without network is taken up. -/
theorem reproMove_receipt {W : World} {s : Sys} {w : Repro} {row : Row} {b : Binding}
    {trusted : List String} (hpc : w.pc = .receipt) (hrow : s.rows w.runId = some row)
    (hreceipt : row.run.receipt = some (buildReceipt W.crypto W.signer b))
    (hnetwork : b.network = false) (htrusted : W.trusted = some trusted)
    (hW : Works W.crypto W.signer b) (hkey : W.crypto.encodeBase64 W.signer.edPublic ∈ trusted)
    (htyped : b.Typed) :
    reproMove W s w =
      some { repro := { w with
        pc := .inputs (buildReceipt W.crypto W.signer b), original := row.sealed } } := by
  have hflag : (((buildReceipt W.crypto W.signer b).get? "network").bind
      Value.asBool?).getD true = false := by
    simp [buildReceipt, Value.object, Value.asBool?, hnetwork]
  obtain ⟨hverify, hok⟩ := ok_of_verified (classifyWith_buildReceipt hW (trusts_some hkey))
  rw [← htrusted] at hverify hok
  simp only [reproMove, hpc, hrow, Option.bind_some, hreceipt, hflag, hverify, hok,
    verifyHmac_buildReceipt W.crypto W.signer htyped, Bool.and_self, if_true,
    Bool.false_eq_true, if_false]

/-- A call of `reproduce_run` on run `r` has read and verified its receipt. -/
def Sys.takeUp (s : Sys) (q : ReproId) (r : RunId) (v : Value) : Sys :=
  (s.setRepro q { runId := r, agentId := none, pc := .receipt }).setRepro q
    { runId := r, agentId := none, pc := .inputs v
      original := (s.rows r).bind Row.sealed }

theorem takeUp_runs {W : World} {s : Sys} {q : ReproId} {r : RunId} {row : Row} {b : Binding}
    {trusted : List String} (hfree : s.repros q = none) (hrow : s.rows r = some row)
    (hreceipt : row.run.receipt = some (buildReceipt W.crypto W.signer b))
    (hnetwork : b.network = false) (htrusted : W.trusted = some trusted)
    (hW : Works W.crypto W.signer b) (hkey : W.crypto.encodeBase64 W.signer.edPublic ∈ trusted)
    (htyped : b.Typed) :
    run (step W) s [.reproduce q r none, .stepRepro q] =
      some (s.takeUp q r (buildReceipt W.crypto W.signer b)) := by
  have hmove := reproMove_receipt (W := W)
    (s := s.setRepro q { runId := r, agentId := none, pc := .receipt })
    (w := { runId := r, agentId := none, pc := .receipt }) rfl hrow hreceipt hnetwork htrusted
    hW hkey htyped
  have hfirst : step W s (.reproduce q r none) =
      some (s.setRepro q { runId := r, agentId := none, pc := .receipt }) := by
    simp [step, hfree]
  have hsecond : step W (s.setRepro q { runId := r, agentId := none, pc := .receipt })
      (.stepRepro q) = some (s.takeUp q r (buildReceipt W.crypto W.signer b)) := by
    have hget : (s.setRepro q { runId := r, agentId := none, pc := .receipt }).repros q =
        some { runId := r, agentId := none, pc := .receipt } := Function.update_self _ _ _
    simp only [step, Sys.stepRepro, hget, Option.bind_eq_bind, Option.bind_some, hmove]
    simp only [Sys.takeUp, hrow, Option.bind_some, pure]
  rw [run_cons, hfirst, Option.bind_some, run_cons, hsecond, Option.bind_some, run_nil]

instance (s : Sys) (ev : Event) : Decidable (RepeatsStill s ev) :=
  decidable_of_iff
    ((∀ p ∈ s.reclaiming ev,
        p.2.source = p.1.job.script.source ∧ p.2.network = p.1.job.script.network ∧
          p.2.feedPrevResult = false ∧ p.1.job.script.feedPrevResult = false) ∧
      (∀ p ∈ s.redigesting ev, p.2 = p.1.digest) ∧
      ∀ b ∈ s.reattesting ev, s.secrets.version = b.secretsGen)
    ⟨fun h => ⟨h.1, h.2.1, h.2.2⟩, fun h => ⟨h.claimed, h.digested, h.attested⟩⟩

/-- What the receipt of the first run binds. -/
def quietBinding : Binding :=
  { demoBinding with
    runId := 0, network := false, digest := "alpine:3.20@sha256:0a4eaa0e" }

def quietSignature : Bytes :=
  [87, 101, 90, 63, 175, 56, 174, 211, 210, 98, 189, 131, 209, 117, 233, 181, 43, 227, 90, 16,
    84, 226, 198, 112, 133, 126, 48, 106, 7, 61, 123, 9, 62, 187, 235, 45, 239, 45, 126, 8,
    149, 211, 137, 217, 236, 148, 67, 194, 235, 59, 240, 173, 51, 202, 242, 247, 164, 13, 202,
    194, 154, 134, 0, 10]

/-- The message a receipt signs. -/
def messageOf (b : Binding) : Bytes :=
  dssePae dssePayloadType (toVec (statement demoHash b))

/-- The development signer on the messages of the two runs. -/
def quietSigner : Signer where
  key := utf8 "dokan-dev-receipt-key"
  edSign msg :=
    if msg = messageOf quietBinding then quietSignature
    else if msg = messageOf { quietBinding with runId := 1 } then
      [244, 230, 79, 37, 166, 25, 38, 228, 218, 118, 67, 78, 160, 254, 206, 117, 64, 57, 90,
        67, 4, 242, 205, 20, 255, 220, 191, 179, 17, 239, 100, 151, 102, 86, 189, 100, 147,
        158, 254, 179, 186, 168, 2, 135, 17, 19, 172, 152, 131, 49, 218, 131, 86, 140, 195,
        242, 99, 233, 216, 202, 240, 18, 117, 8]
    else
      [231, 17, 155, 98, 204, 23, 96, 46, 93, 105, 253, 130, 212, 180, 145, 134, 155, 33, 197,
        162, 42, 4, 229, 21, 248, 173, 102, 187, 119, 41, 4, 20, 59, 97, 73, 13, 113, 85, 254,
        109, 24, 126, 1, 242, 238, 111, 173, 146, 12, 188, 124, 225, 100, 197, 184, 109, 178,
        176, 100, 206, 187, 157, 250, 14]
  edPublic := devPublic

def quietWorld : World :=
  { demoWorld with
    crypto := demoSigned (statement demoHash quietBinding) quietSignature
    signer := quietSigner
    trusted := some [devKey] }

/-- A binding is the first run's. -/
def isQuiet (b : Binding) : Bool :=
  b.runId = 0 && b.image = "alpine:3.20" && b.source = "echo 42" && b.result.isNone &&
    b.exitCode = 0 && !b.network && b.inputBlobs.isNone && b.outputBlobs.isNone &&
    b.digest = "alpine:3.20@sha256:0a4eaa0e" && b.secretsGen = 0 &&
    match b.input with
    | .obj [] => true
    | _ => false

theorem eq_of_isQuiet {b : Binding} (h : isQuiet b = true) : b = quietBinding := by
  obtain ⟨runId, image, source, input, result, exitCode, network, inputBlobs, outputBlobs,
    digest, gen⟩ := b
  simp only [isQuiet, Bool.and_eq_true, decide_eq_true_eq, Option.isNone_iff_eq_none,
    Bool.not_eq_true'] at h
  obtain ⟨⟨⟨⟨⟨⟨⟨⟨⟨⟨rfl, rfl⟩, rfl⟩, rfl⟩, rfl⟩, rfl⟩, rfl⟩, rfl⟩, rfl⟩, rfl⟩, hinput⟩ := h
  split at hinput
  · rfl
  · cases hinput

/-- The first run is over. -/
def quietSys : Sys := (run (step quietWorld) demoSys (attestedRun [])).getD demoSys

/-- Its receipt has been taken up. -/
def takenSys : Sys :=
  quietSys.takeUp 0 0 (buildReceipt quietWorld.crypto quietWorld.signer quietBinding)

/-- The rest of the reproduction, whose run has an agent; `between` falls before
the claim. -/
def reproduction (between : List Event) : List Event :=
  List.replicate 3 (.stepRepro 0) ++ between ++ [.claim 0 1 1] ++ injects 1 ++
    [.exec 1 .sql] ++ works 1 ++ attests 1 ++ List.replicate 2 (.stepRepro 0)

/-- A run is executed and reproduced. -/
def reproducedRun (between : List Event) : List Event :=
  attestedRun [] ++ ([.reproduce 0 0 none, .stepRepro 0] ++ reproduction between)

theorem quietSys_runs : run (step quietWorld) demoSys (attestedRun []) = some quietSys := by
  have hsome : (run (step quietWorld) demoSys (attestedRun [])).isSome = true := by
    decide +kernel
  obtain ⟨s, hs⟩ := Option.isSome_iff_exists.mp hsome
  rw [quietSys, hs]
  rfl

/-- Run 0 has the receipt. -/
theorem quietSys_receipt :
    ∃ row u, quietSys.rows 0 = some row ∧ row.sealed = some (u, quietBinding) ∧
      row.run.receipt =
        some (buildReceipt quietWorld.crypto quietWorld.signer quietBinding) := by
  have hshown : ((quietSys.rows 0).any fun row =>
      row.run.receipt.isSome && row.sealed.any fun p => isQuiet p.2) = true := by
    decide +kernel
  obtain ⟨row, hrow, hshown⟩ := (Option.any_eq_true _ _).mp hshown
  rw [Bool.and_eq_true] at hshown
  obtain ⟨v, hv⟩ := Option.isSome_iff_exists.mp hshown.1
  obtain ⟨⟨u, b⟩, hub, hquiet⟩ := (Option.any_eq_true _ _).mp hshown.2
  cases eq_of_isQuiet hquiet
  obtain ⟨u', b', hub', rfl⟩ := ((base_run demoSys_start quietSys_runs).rows 0 row hrow).receipt
    v hv
  cases hub.symm.trans hub'
  exact ⟨row, u, hrow, hub, hv⟩

theorem quietSigner_edSign :
    quietSigner.edSign (messageOf quietBinding) = quietSignature := by
  simp only [quietSigner, if_true]

theorem quiet_works : Works (demoSigned (statement demoHash quietBinding) quietSignature)
    quietSigner quietBinding := by
  have hne : base64 (toVec (statement demoHash quietBinding)) ≠ base64 devPublic := by
    decide +kernel
  exact works_demoSigned hne rfl quietSigner_edSign rfl

theorem takenSys_runs :
    run (step quietWorld) quietSys [.reproduce 0 0 none, .stepRepro 0] = some takenSys := by
  obtain ⟨row, u, hrow, _, hreceipt⟩ := quietSys_receipt
  have hfree : (quietSys.repros 0).isNone = true := by decide +kernel
  have hkey : quietWorld.crypto.encodeBase64 quietWorld.signer.edPublic ∈ [devKey] :=
    List.mem_singleton.mpr devKey_eq
  exact takeUp_runs (Option.isNone_iff_eq_none.mp hfree) hrow hreceipt rfl rfl quiet_works hkey
    ⟨by decide, by decide⟩

theorem reproducedRun_runs {between : List Event} {s : Sys}
    (h : run (step quietWorld) takenSys (reproduction between) = some s) :
    run (step quietWorld) demoSys (reproducedRun between) = some s := by
  rw [reproducedRun, run_append, quietSys_runs, Option.bind_some, run_append, takenSys_runs,
    Option.bind_some, h]

/-- Whether the verdict is REPRODUCED, and the generations compared. -/
def shownVerdict (s : Sys) : Option (Bool × Int × Int) := do
  let w ← s.repros 0
  let (orig, repro) ← w.compared
  let reproduced :=
    match w.pc with
    | .done v => v = .reproduced
    | _ => false
  return (reproduced, ← (orig.get? "secrets_generation").bind Value.asI64?,
    ← (repro.get? "secrets_generation").bind Value.asI64?)

end Dokan.Ports.Provenance
