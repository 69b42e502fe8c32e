import Dokan.Ports.ProvenanceSteps

/-!
# Where everything comes from

Whatever the interleaving, an execution has the columns of its row and a script
that was read from its script's row, a tag is the key of what its call had read,
and a receipt is what `build_receipt` makes of the execution's own arguments.
What can be wrong is only what is read a second time: the script, the secrets,
the digest.

## Main results

* `Base.step`, `base_run` — the invariant holds in every run.
-/

namespace Dokan.Ports.Provenance

open Dokan.Verified.Json
open Dokan.Verified.Machine
open Dokan.Verified.VersionMemo
open Dokan.Ports.Receipt
open Dokan.Ports.RunRow
open Dokan.Ports.ExecJob (ExecPc execStep exitStatus asI32)
open Dokan.Ports.FlowDriver (runtimeSpec)

/-! ## What is known of scripts, executions and receipts -/

/-- `x` was read from row `i`, and is what the row says as long as nothing writes
it. -/
def ReadFrom (s : Sys) (i : ScriptId) (x : Script) : Prop :=
  ∃ now, s.scripts i = some now ∧ x.updates ≤ now.updates ∧
    (now.updates = x.updates → now = x)

/-- The digest of the image of a runtime. -/
def imageOf (W : World) (runtime : String) : String :=
  ((runtimeSpec runtime).map fun spec => W.imageId spec.1).getD ""

/-- `DOKAN_INPUT` is the input of the run, unless the script asks for more. -/
def InputOk (job : Job) (input : Value) : Prop :=
  job.script.feedPrevResult = false → input = job.input

structure UsedOk (W : World) (u : Used) : Prop where
  known : (runtimeSpec u.job.script.runtime).isSome = true
  digest : u.digest = imageOf W u.job.script.runtime
  input : InputOk u.job u.input

/-- A receipt binds the arguments of its execution; its digest is the image's or,
unresolved, the image's name. -/
structure BindOk (W : World) (u : Used) (b : Binding) : Prop where
  source : b.source = u.job.script.source
  input : b.input = u.input
  network : b.network = u.job.script.network
  inputBlobs : b.inputBlobs = u.job.inputBlobs
  digest : ∃ spec, runtimeSpec u.job.script.runtime = some spec ∧
    (b.digest = W.imageId spec.1 ∨ b.digest = spec.1)

/-- What an execution knows at its phase. -/
def PhaseOk (W : World) (x : Exec) : Prop :=
  match x.phase with
  | .claimed | .broken _ => True
  | .acquire input => InputOk x.job input
  | .allowlist input | .generation input _ | .lookup input _ _ | .globals input _ _
  | .agentSecrets input _ _ _ | .store input _ _ _ =>
      InputOk x.job input ∧ (runtimeSpec x.job.script.runtime).isSome = true
  | .job u pc =>
      u.job = x.job ∧ UsedOk W u ∧ ∀ result r, pc = .storeReceipt result r →
        ∃ b, x.binding = some b ∧ r = buildReceipt W.crypto W.signer b ∧ BindOk W u b
  | .attest u _ _ digest =>
      u.job = x.job ∧ UsedOk W u ∧
        ∃ spec, runtimeSpec x.job.script.runtime = some spec ∧
          (digest = W.imageId spec.1 ∨ digest = spec.1)

structure ExecOk (W : World) (s : Sys) (x : Exec) : Prop where
  read : ReadFrom s x.job.scriptId x.job.script
  row : ∃ row, s.rows x.job.runId = some row ∧ row.run.toNewRun = x.job.toNewRun
  phase : PhaseOk W x

/-- What a call with the cache on has read is about its own request. -/
def Fits (k : Call) (script : Script) (a : Option Asked) : Prop :=
  ∀ b, a = some b → b.new = k.req.new ∧ b.script = script

/-- Run `r` was inserted by the call. -/
def Owns (s : Sys) (k : Call) (r : RunId) (a : Option Asked) : Prop :=
  ∃ row, s.rows r = some row ∧ row.run.toNewRun = k.req.new ∧ row.asked = a ∧
    row.repeats = none

/-- What a call knows at its point. -/
def CallOk (s : Sys) (k : Call) : Prop :=
  match k.pc with
  | .script | .recalled _ | .done => True
  | .generation script | .digest script _ => ReadFrom s k.req.new.scriptId script
  | .find a => ReadFrom s k.req.new.scriptId a.script ∧ a.new = k.req.new
  | .insert script a | .await script a =>
      ReadFrom s k.req.new.scriptId script ∧ Fits k script a
  | .tag script r a =>
      ReadFrom s k.req.new.scriptId script ∧ Fits k script (some a) ∧ Owns s k r (some a)
  | .start script r a =>
      ReadFrom s k.req.new.scriptId script ∧ Fits k script a ∧ Owns s k r a

structure RowOk (W : World) (s : Sys) (r : RunId) (row : Row) : Prop where
  asked : ∀ a, row.asked = some a → a.new = row.run.toNewRun
  tag : ∀ k, row.cacheKey = some k → ∃ a, row.asked = some a ∧ k = a.key W
  ran : row.run.status = .succeeded → row.ranWith.isSome = true
  ranWith : ∀ u, row.ranWith = some u →
    u.job.toNewRun = row.run.toNewRun ∧ UsedOk W u
  sealed : ∀ u b, row.sealed = some (u, b) →
    u.job.toNewRun = row.run.toNewRun ∧ UsedOk W u ∧ BindOk W u b ∧
      ReadFrom s u.job.scriptId u.job.script
  receipt : ∀ v, row.run.receipt = some v →
    ∃ u b, row.sealed = some (u, b) ∧ v = buildReceipt W.crypto W.signer b

/-- **Where everything comes from.** -/
structure Base (W : World) (s : Sys) : Prop where
  free : ∀ r, s.nextRun ≤ r → s.rows r = none
  digests : ∀ p image d, (s.procs p).digests image = some d → d = W.imageId image
  calls : ∀ c k, s.calls c = some k → CallOk s k
  execs : ∀ e x, s.execs e = some x → ExecOk W s x
  rows : ∀ r row, s.rows r = some row → RowOk W s r row

theorem base_start {W : World} {s : Sys} (h : Start s) : Base W s where
  free := fun r _ => h.rows r
  digests := fun p image d hd => by
    rw [h.procs p] at hd
    cases hd
  calls := fun c k hk => by cases (h.calls c).symm.trans hk
  execs := fun e x hx => by cases (h.execs e).symm.trans hx
  rows := fun r row hrow => by cases (h.rows r).symm.trans hrow

section Preservation

variable {W : World} {s s' : Sys} {ev : Event}

/-! ## Scripts -/

theorem ReadFrom.now {i : ScriptId} {x : Script} (h : s.scripts i = some x) : ReadFrom s i x :=
  ⟨x, h, Nat.le_refl _, fun _ => rfl⟩

/-- Statements on scripts only count on. -/
theorem ReadFrom.grow {i : ScriptId} {x : Script} (h : ReadFrom s i x)
    (hgrow : ScriptsGrow s s') : ReadFrom s' i x := by
  obtain ⟨now, hnow, hle, hsame⟩ := h
  obtain ⟨y, hy, hle', hsame'⟩ := hgrow i now hnow
  refine ⟨y, hy, Nat.le_trans hle hle', fun heq => ?_⟩
  have hstill : now.updates = x.updates := by omega
  exact (hsame' (heq.trans hstill.symm)).trans (hsame hstill)

/-! ## Rows -/

theorem RowStep.kept {r : RunId} {row row' : Row} (h : RowStep W s r row row') :
    row'.asked = row.asked ∧ row'.repeats = row.repeats ∧
      row'.run.toNewRun = row.run.toNewRun := by
  cases h with
  | same | tag => exact ⟨rfl, rfl, rfl⟩
  | run f hnew => exact ⟨rfl, rfl, hnew⟩
  | exec e x u pc reply out hx hphase hrun hout =>
      refine ⟨rfl, rfl, ?_⟩
      have hwrites := ExecJob.execStep_writes hout
      change (out.write row.run).toNewRun = _
      generalize out.write = f at hwrites
      cases hwrites with
      | finish st hst c m => exact (finishRun_new _ _ _ _ _).1
      | _ => rfl

/-- What one statement of an execution writes. -/
theorem execStep_row {now : Nat} {cap : Bool} {killed : ExecJob.Cid → Bool} {pc : ExecPc}
    {reply : ExecJob.Reply} {out : ExecJob.ExecOut}
    (h : execStep now cap killed pc reply = some out) :
    (∃ code result, pc = .finish code result ∧
      out.write = finishRun now (exitStatus code) (some (asI32 code)) none) ∨
    (∃ result r, pc = .storeReceipt result r ∧ out.write = setRunReceipt r) ∨
    ((∀ code result, pc ≠ .finish code result) ∧ (∀ result r, pc ≠ .storeReceipt result r) ∧
      ∀ run, (out.write run).receipt = run.receipt ∧
        ((out.write run).status = .succeeded → run.status = .succeeded)) := by
  have hfailed : ∀ m run, (finishRun now .failed none (some m) run).receipt = run.receipt ∧
      ((finishRun now .failed none (some m) run).status = .succeeded →
        run.status = .succeeded) := by
    intro m run
    refine ⟨(finishRun_new _ _ _ _ _).2, fun hst => ?_⟩
    rw [finishRun_status] at hst
    split at hst <;> cases hst
  revert h
  fun_cases execStep now cap killed pc reply <;> intro h <;> cases h
  all_goals first
    | exact Or.inl ⟨_, _, rfl, rfl⟩
    | exact Or.inr (Or.inl ⟨_, _, rfl, rfl⟩)
    | exact Or.inr (Or.inr ⟨fun _ _ h => (by cases h), fun _ _ h => (by cases h),
        fun run => ⟨rfl, id⟩⟩)
    | exact Or.inr (Or.inr ⟨fun _ _ h => (by cases h), fun _ _ h => (by cases h),
        hfailed _⟩)

/-- A receipt is handed to the statement that stores it by `build_receipt`. -/
theorem execStep_storeReceipt {now : Nat} {cap : Bool} {killed : ExecJob.Cid → Bool}
    {pc : ExecPc} {reply : ExecJob.Reply} {out : ExecJob.ExecOut} {result : Option Value}
    {r : Value} (h : execStep now cap killed pc reply = some out)
    (hpc : out.pc = .storeReceipt result r) : ∃ code result', pc = .buildReceipt code result' := by
  revert h
  fun_cases execStep now cap killed pc reply <;> intro h <;> cases h
  all_goals first
    | exact ⟨_, _, rfl⟩
    | cases hpc
    | (unfold ExecJob.afterOutputs at hpc; split at hpc <;> cases hpc)
    | (unfold ExecJob.afterReceipt at hpc; split at hpc <;> cases hpc)

/-- Every statement keeps what is known of its row. -/
theorem RowOk.step {r : RunId} {row row' : Row} (hB : Base W s) (hgrow : ScriptsGrow s s')
    (hrow : s.rows r = some row) (h : RowStep W s r row row') : RowOk W s' r row' := by
  have hold := hB.rows r row hrow
  obtain ⟨hasked, _, hnew⟩ := h.kept
  have hsealed : ∀ u b, row.sealed = some (u, b) →
      u.job.toNewRun = row'.run.toNewRun ∧ UsedOk W u ∧ BindOk W u b ∧
        ReadFrom s' u.job.scriptId u.job.script := by
    intro u b hub
    obtain ⟨hu, hused, hbind, hread⟩ := hold.sealed u b hub
    exact ⟨hu.trans hnew.symm, hused, hbind, hread.grow hgrow⟩
  have hranWith : ∀ u, row.ranWith = some u →
      u.job.toNewRun = row'.run.toNewRun ∧ UsedOk W u := by
    intro u hu
    obtain ⟨hu', hused⟩ := hold.ranWith u hu
    exact ⟨hu'.trans hnew.symm, hused⟩
  have hnewAsked : ∀ a, row'.asked = some a → a.new = row'.run.toNewRun := by
    intro a ha
    exact (hold.asked a (hasked ▸ ha)).trans hnew.symm
  cases h with
  | same =>
      exact
        { asked := hold.asked, tag := hold.tag, ran := hold.ran, ranWith := hold.ranWith
          sealed := hsealed, receipt := hold.receipt }
  | run f hnew' hstatus hreceipt =>
      exact
        { asked := hnewAsked, tag := hold.tag, ran := fun hst => hold.ran (hstatus hst)
          ranWith := hranWith, sealed := hsealed
          receipt := fun v hv => hold.receipt v (hreceipt ▸ hv) }
  | tag c k script a hk hpc =>
      have hcall := hB.calls c k hk
      simp only [CallOk, hpc] at hcall
      obtain ⟨_, _, own, hown, _, hownAsked, _⟩ := hcall
      cases hrow.symm.trans hown
      refine
        { asked := hold.asked, tag := fun key hkey => ?_, ran := hold.ran
          ranWith := hold.ranWith, sealed := hsealed, receipt := hold.receipt }
      cases hkey
      exact ⟨a, hownAsked, rfl⟩
  | exec e x u pc reply out hx hphase hrun hout =>
      have hexec := hB.execs e x hx
      have hphaseOk := hexec.phase
      simp only [PhaseOk, hphase] at hphaseOk
      obtain ⟨hjob, hused, hbound⟩ := hphaseOk
      obtain ⟨own, hown, hownNew⟩ := hexec.row
      rw [hrun] at hown
      cases hrow.symm.trans hown
      have hu : u.job.toNewRun = row.run.toNewRun := by rw [hjob, hownNew]
      have hread : ReadFrom s' u.job.scriptId u.job.script := by
        rw [hjob]
        exact hexec.read.grow hgrow
      rcases execStep_row hout with ⟨code, result, rfl, hwrite⟩ | ⟨result, v, rfl, hwrite⟩ |
        ⟨hnotFinish, hnotStore, hplain⟩
      · -- the run ends: its row remembers this execution, unless it was canceled
        refine
          { asked := hnewAsked, tag := hold.tag, ran := fun hst => ?_, ranWith := fun u' hu' => ?_
            sealed := hsealed, receipt := fun v hv => ?_ }
        · change (out.write row.run).status = _ at hst
          rw [hwrite, finishRun_status] at hst
          simp only [Row.written]
          split at hst
          · cases hst
          · rename_i hlive
            rw [if_neg hlive]
            rfl
        · simp only [Row.written] at hu'
          split at hu'
          · exact hranWith u' hu'
          · cases hu'
            exact ⟨hu.trans hnew.symm, hused⟩
        · change (out.write row.run).receipt = _ at hv
          rw [hwrite, (finishRun_new _ _ _ _ _).2] at hv
          exact hold.receipt v hv
      · -- the receipt is stored with what it binds
        obtain ⟨b, hb, rfl, hbind⟩ := hbound result v rfl
        refine
          { asked := hnewAsked, tag := hold.tag, ran := fun hst => ?_, ranWith := hranWith
            sealed := fun u' b' hub => ?_, receipt := fun v hv => ?_ }
        · change (out.write row.run).status = _ at hst
          rw [hwrite] at hst
          exact hold.ran hst
        · simp only [Row.written, hb, Option.map_some, Option.some.injEq, Prod.mk.injEq] at hub
          obtain ⟨rfl, rfl⟩ := hub
          exact ⟨hu.trans hnew.symm, hused, hbind, hread⟩
        · change (out.write row.run).receipt = _ at hv
          rw [hwrite] at hv
          cases hv
          exact ⟨u, b, by simp [Row.written, hb], rfl⟩
      · -- anything else leaves the row's history alone
        have hranEq : (Row.written u x.binding pc out.write row).ranWith = row.ranWith := by
          cases pc <;> first | rfl | exact absurd rfl (hnotFinish _ _)
        have hsealedEq : (Row.written u x.binding pc out.write row).sealed = row.sealed := by
          cases pc <;> first | rfl | exact absurd rfl (hnotStore _ _)
        refine
          { asked := hnewAsked, tag := hold.tag, ran := fun hst => ?_, ranWith := ?_
            sealed := ?_, receipt := fun v hv => ?_ }
        · rw [hranEq]
          exact hold.ran ((hplain row.run).2 hst)
        · rw [hranEq]
          exact hranWith
        · rw [hsealedEq]
          exact hsealed
        · rw [hsealedEq]
          exact hold.receipt v ((hplain row.run).1 ▸ hv)

/-- A new row. -/
theorem Inserted.ok {r : RunId} {row : Row} (hB : Base W s) (h : Inserted s row) :
    RowOk W s' r row := by
  cases h with
  | plain n | repro q w orig n hw hpc =>
      exact
        { asked := (fun a ha => by cases ha), tag := (fun k hk => by cases hk)
          ran := (fun hst => by cases hst), ranWith := (fun u hu => by cases hu)
          sealed := (fun u b hub => by cases hub), receipt := (fun v hv => by cases hv) }
  | call c k script a hk hpc =>
      have hcall := hB.calls c k hk
      simp only [CallOk, hpc] at hcall
      exact
        { asked := fun b hb => (hcall.2 b hb).1, tag := (fun k hk => by cases hk)
          ran := (fun hst => by cases hst), ranWith := (fun u hu => by cases hu)
          sealed := (fun u b hub => by cases hub), receipt := (fun v hv => by cases hv) }

/-! ## Executions -/

theorem ExecMove.kept {x x' : Exec} {ev' : ExecEvent} {out : ExecOut}
    (h : ExecMove W s x ev' out) (hx' : out.exec = some x') :
    x'.proc = x.proc ∧ x'.job = x.job := by
  cases h <;> cases hx' <;> exact ⟨rfl, rfl⟩

theorem jobInput_ok (job : Job) (prev : Option Value) : InputOk job (jobInput job prev) := by
  intro hfeed
  rw [jobInput, if_neg (by rw [hfeed]; exact Bool.false_ne_true)]

theorem Exec.inject_ok (x : Exec) {input : Value} (allow : Option (List String)) (gen : Int)
    (m : SecretMap)
    (h : InputOk x.job input ∧ (runtimeSpec x.job.script.runtime).isSome = true) :
    PhaseOk W (x.inject W input allow gen m) := by
  refine ⟨rfl, ⟨h.2, rfl, h.1⟩, fun result r hpc => ?_⟩
  cases hpc

/-- Every step of an execution keeps what it knows. -/
theorem ExecMove.phaseOk {x x' : Exec} {ev' : ExecEvent} {out : ExecOut}
    (hdigests : ∀ p image d, (s.procs p).digests image = some d → d = W.imageId image)
    (h : ExecMove W s x ev' out) (hx' : out.exec = some x') (hold : PhaseOk W x) :
    PhaseOk W x' := by
  cases h with
  | input hphase =>
      cases hx'
      exact jobInput_ok _ _
  | acquired input cid hphase hspec =>
      cases hx'
      simp only [PhaseOk, hphase] at hold
      exact ⟨hold, hspec⟩
  | broke input msg hphase =>
      cases hx'
      trivial
  | allowlist input hphase =>
      cases hx'
      simp only [PhaseOk, hphase] at hold
      exact hold
  | generation input allow hphase =>
      cases hx'
      simp only [PhaseOk, hphase] at hold
      exact hold
  | hit input allow gen m hphase hm =>
      cases hx'
      simp only [PhaseOk, hphase] at hold
      exact x.inject_ok allow gen m hold
  | miss input allow gen hphase =>
      cases hx'
      simp only [PhaseOk, hphase] at hold
      exact hold
  | globals input allow gen hphase =>
      cases hx'
      simp only [PhaseOk, hphase] at hold
      exact hold
  | globalsOnly input allow gen hphase hagent =>
      cases hx'
      simp only [PhaseOk, hphase] at hold
      exact hold
  | agentSecrets input allow gen m a hphase hagent =>
      cases hx'
      simp only [PhaseOk, hphase] at hold
      exact hold
  | store input allow gen m hphase =>
      cases hx'
      simp only [PhaseOk, hphase] at hold
      exact x.inject_ok allow gen m hold
  | digest u code result spec hphase hspec =>
      cases hx'
      simp only [PhaseOk, hphase] at hold
      refine ⟨hold.1, hold.2.1, spec, hspec, ?_⟩
      cases hd : (s.procs x.proc).digests spec.1 with
      | none => exact Or.inr rfl
      | some d => exact Or.inl (hdigests _ _ _ hd)
  | attest u code result digest b hphase hb =>
      cases hx'
      simp only [PhaseOk, hphase] at hold
      obtain ⟨hjob, hused, spec, hspec, hdigest⟩ := hold
      refine ⟨hjob, hused, fun result' r hpc => ?_⟩
      cases hpc
      refine ⟨b, rfl, rfl, ?_⟩
      subst hb
      rw [← hjob] at hspec
      exact ⟨by rw [hjob]; rfl, rfl, by rw [hjob]; rfl, by rw [hjob]; rfl, spec, hspec, hdigest⟩
  | job u pc reply out outputs hphase hpc hout =>
      cases hx'
      simp only [PhaseOk, hphase] at hold
      refine ⟨hold.1, hold.2.1, fun result r hstore => ?_⟩
      obtain ⟨code, result', hbuild⟩ := execStep_storeReceipt hout hstore
      exact absurd hbuild (hpc code result')
  | ended msg hphase => cases hx'

/-- What never changes of a row. -/
theorem Base.kept (hB : Base W s) (h : StepOf W s ev s') {r : RunId} {row : Row}
    (hr : s.rows r = some row) :
    ∃ row', s'.rows r = some row' ∧ row'.run.toNewRun = row.run.toNewRun ∧
      row'.asked = row.asked ∧ row'.repeats = row.repeats := by
  obtain ⟨row', hr', hstep⟩ := step_keeps h (hB.free _ (Nat.le_refl _)) hr
  obtain ⟨hasked, hrepeats, hnew⟩ := hstep.kept
  exact ⟨row', hr', hnew, hasked, hrepeats⟩

theorem Owns.step {k : Call} {r : RunId} {a : Option Asked} (hB : Base W s)
    (h : StepOf W s ev s') (hown : Owns s k r a) : Owns s' k r a := by
  obtain ⟨row, hr, hnew, hasked, hrepeats⟩ := hown
  obtain ⟨row', hr', hnew', hasked', hrepeats'⟩ := hB.kept h hr
  exact ⟨row', hr', hnew'.trans hnew, hasked'.trans hasked, hrepeats'.trans hrepeats⟩

theorem ExecOk.step {e : ExecId} {x' : Exec} (hB : Base W s) (h : StepOf W s ev s')
    (hchange : ExecChange W s ev e x') : ExecOk W s' x' := by
  have hgrow := step_scripts h
  have hrow : ∀ r row, s.rows r = some row → ∃ row', s'.rows r = some row' ∧
      row'.run.toNewRun = row.run.toNewRun := by
    intro r row hr
    obtain ⟨row', hr', hnew, _⟩ := hB.kept h hr
    exact ⟨row', hr', hnew⟩
  have hold : ∀ x, ExecOk W s x → ∀ job, x.job = job → ReadFrom s' job.scriptId job.script ∧
      ∃ row, s'.rows job.runId = some row ∧ row.run.toNewRun = job.toNewRun := by
    rintro x hx job rfl
    obtain ⟨row, hr, hnew⟩ := hx.row
    obtain ⟨row', hr', hnew'⟩ := hrow _ row hr
    exact ⟨hx.read.grow hgrow, row', hr', hnew'.trans hnew⟩
  cases hchange with
  | same hsame =>
      have hx := hB.execs e x' hsame
      obtain ⟨hread, hrow⟩ := hold x' hx _ rfl
      exact ⟨hread, hrow, hx.phase⟩
  | moved x ev' out hev hx hout hx' =>
      have hxOk := hB.execs e x hx
      obtain ⟨_, hjob⟩ := hout.kept hx'
      obtain ⟨hread, hrow⟩ := hold x hxOk _ hjob.symm
      exact ⟨hread, hrow, hout.phaseOk hB.digests hx' hxOk.phase⟩
  | claimed p r row script hev hr hscript hx' =>
      subst hx'
      obtain ⟨row', hr', hnew⟩ := hrow r row hr
      exact ⟨(ReadFrom.now hscript).grow hgrow, ⟨row', hr', hnew⟩, trivial⟩
  | started c k script r a hk hpc hx' =>
      subst hx'
      have hcall := hB.calls c k hk
      simp only [CallOk, hpc] at hcall
      obtain ⟨hread, _, row, hr, hnew, _⟩ := hcall
      obtain ⟨row', hr', hnew'⟩ := hrow r row hr
      exact ⟨hread.grow hgrow, ⟨row', hr', hnew'.trans hnew⟩, trivial⟩

theorem CallOk.step {c : CallId} {k' : Call} (hB : Base W s) (h : StepOf W s ev s')
    (hchange : CallChange W s ev c k') : CallOk s' k' := by
  have hgrow := step_scripts h
  cases hchange with
  | same hsame =>
      have hold := hB.calls c k' hsame
      unfold CallOk at hold ⊢
      split at hold
      · trivial
      · trivial
      · trivial
      · exact hold.grow hgrow
      · exact hold.grow hgrow
      · exact ⟨hold.1.grow hgrow, hold.2⟩
      · exact ⟨hold.1.grow hgrow, hold.2⟩
      · exact ⟨hold.1.grow hgrow, hold.2⟩
      · exact ⟨hold.1.grow hgrow, hold.2.1, hold.2.2.step hB h⟩
      · exact ⟨hold.1.grow hgrow, hold.2.1, hold.2.2.step hB h⟩
  | new p req hk' =>
      subst hk'
      trivial
  | moved k e out hev hk hout hk' =>
      subst hk'
      have hold := hB.calls c k hk
      have hins : ∀ script a, k.pc = .insert script a →
          s'.rows s.nextRun = some (k.row s.now a) := by
        intro script a hpc
        subst hev
        exact step_insert h hk hpc
      unfold callMove at hout
      split at hout
      · obtain ⟨script, hscript, hout⟩ := Option.bind_eq_some_iff.mp hout
        have hread := (ReadFrom.now hscript).grow hgrow
        split at hout
        · cases hout
          trivial
        · split at hout
          · cases hout
            exact hread
          · cases hout
            exact ⟨hread, fun b hb => by cases hb⟩
      · rename_i hpc
        simp only [CallOk, hpc] at hold
        cases hout
        exact hold.grow hgrow
      · rename_i hpc
        simp only [CallOk, hpc] at hold
        cases hout
        exact ⟨hold.grow hgrow, rfl⟩
      · rename_i a hpc
        simp only [CallOk, hpc] at hold
        split at hout
        · cases hout
          trivial
        · cases hout
          refine ⟨hold.1.grow hgrow, fun b hb => ?_⟩
          cases hb
          exact ⟨hold.2, rfl⟩
      · rename_i script a hpc
        simp only [CallOk, hpc] at hold
        have hown := hins script a hpc
        cases hout
        cases a with
        | some a => exact ⟨hold.1.grow hgrow, hold.2, _, hown, rfl, rfl, rfl⟩
        | none =>
            simp only
            split
            · exact ⟨hold.1.grow hgrow, hold.2, _, hown, rfl, rfl, rfl⟩
            · trivial
      · rename_i script r a hpc
        simp only [CallOk, hpc] at hold
        cases hout
        simp only
        split
        · exact ⟨hold.1.grow hgrow, hold.2.1, hold.2.2.step hB h⟩
        · trivial
      · rename_i script r a hpc
        simp only [CallOk, hpc] at hold
        cases hout
        exact ⟨hold.1.grow hgrow, hold.2.1⟩
      · rename_i script a hpc
        simp only [CallOk, hpc] at hold
        cases hout
        exact ⟨hold.1.grow hgrow, hold.2⟩
      · cases hout
      · cases hout

/-- **Every step keeps it.** -/
theorem Base.step (hB : Base W s) (h : StepOf W s ev s') : Base W s' where
  free := by
    intro r hr
    by_contra hne
    obtain ⟨row, hrow⟩ := Option.ne_none_iff_exists'.mp hne
    have hle := step_nextRun h
    rcases step_rows h hrow with ⟨old, hold, _⟩ | ⟨heq, hnext, _⟩
    · cases (hB.free r (Nat.le_trans hle hr)).symm.trans hold
    · rw [heq, hnext] at hr
      exact Nat.not_succ_le_self _ hr
  digests := by
    intro p image d hd
    rcases step_digests h p image d hd with hold | hnew
    · exact hB.digests p image d hold
    · exact hnew
  calls := fun c k hk => CallOk.step hB h (step_calls h hk)
  execs := fun e x hx => ExecOk.step hB h (step_execs h hx)
  rows := by
    intro r row hr
    rcases step_rows h hr with ⟨old, hold, hstep⟩ | ⟨_, _, hins⟩
    · exact RowOk.step hB (step_scripts h) hold hstep
    · exact hins.ok hB

end Preservation

/-- It holds in every run. -/
theorem base_run {W : World} {s₀ s : Sys} {l : List Event} (hstart : Start s₀)
    (hrun : run (step W) s₀ l = some s) : Base W s := by
  have hkeep : ∀ t a t', Base W t → True → step W t a = some t' → Base W t' :=
    fun _ _ _ hB _ h => hB.step (step_inv h)
  exact inv_run hkeep (base_start hstart) (along_of_forall fun _ _ => trivial) hrun

end Dokan.Ports.Provenance
