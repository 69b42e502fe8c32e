import Dokan.Ports.ReceiptFaith

/-!
# What a cache tag stands for

`run_script` and `run_step` compute the cache key before the run exists, from the
script, the secrets generation and the image digest as they find them.  The
execution reads the script again at the claim, the secrets again at the
injection, and may add the previous result to the input.  The tag of a succeeded
run is the key of what the run ran with when none of these has moved.

## Main results

* `tags_sound` — the tag of every succeeded run is the key of what it ran with,
  over every run in which nothing falls between the two readings.
* `not_tags_sound` — an `upload_script` between the call and the claim leaves the
  tag of one source on the run of another.
-/

namespace Dokan.Ports.Provenance

open Dokan.Verified.Json
open Dokan.Verified.Machine
open Dokan.Verified.VersionMemo
open Dokan.Ports.Receipt
open Dokan.Ports.CacheKey
open Dokan.Ports.RunRow
open Dokan.Ports.ExecJob (ExecPc execStep)
open Dokan.Ports.FlowDriver (runtimeSpec)

/-- `run_cache_key` of what an execution ran with. -/
def Used.key (W : World) (u : Used) : String :=
  runCacheKey W.crypto W.plain u.job.script.runtime u.digest u.job.script.source u.input
    u.secretsGen u.job.inputBlobs

/-- The tag of every succeeded run is the key of what it ran with, its secrets
being those of the generation in the key. -/
def TagsSound (W : World) (s : Sys) : Prop :=
  ∀ r row k, s.rows r = some row → row.run.status = .succeeded → row.cacheKey = some k →
    ∃ u, row.ranWith = some u ∧ k = u.key W ∧ SecretsAt s u.secretsGen u

/-! ## Nothing in between -/

/-- The script of a call about to compute its key, and the digest it will find. -/
def Sys.keying (s : Sys) : Event → Option (Script × Option String)
  | .stepCall c _ => (s.calls c).bind fun k =>
      match k.pc with
      | .digest script _ => some (script, (s.procs k.proc).imageDigest script.runtime)
      | _ => none
  | _ => none

/-- What the run of a claim was asked for under, and its script now. -/
def Sys.claiming (s : Sys) : Event → Option (Asked × Script)
  | .claim _ r _ => do
      let row ← s.rows r
      return (← row.asked, ← s.scripts row.run.scriptId)
  | _ => none

/-- The script of an execution of a run with a tag, before its input is made. -/
def Sys.feeding (s : Sys) : Event → Option Script
  | .exec e _ => do
      let x ← s.execs e
      let row ← s.rows x.job.runId
      let _ ← row.asked
      match x.phase with
      | .claimed => some x.job.script
      | _ => none
  | _ => none

/-- What the run of an execution was asked for under, before the generation is
read. -/
def Sys.generating (s : Sys) : Event → Option Asked
  | .exec e _ => do
      let x ← s.execs e
      let row ← s.rows x.job.runId
      match x.phase with
      | .generation _ _ => row.asked
      | _ => none
  | _ => none

/-- A key is computed from a resolved digest.  Until the claim no statement
changes the runtime or the source, until the injection no `set_secret` commits,
and the script is not fed its previous result. -/
structure KeysStill (s : Sys) (ev : Event) : Prop where
  loads : LoadsStill s ev
  keyed : ∀ p ∈ s.keying ev, (runtimeSpec p.1.runtime).isSome = true → p.2.isSome = true
  claimed : ∀ p ∈ s.claiming ev,
    p.2.runtime = p.1.script.runtime ∧ p.2.source = p.1.script.source
  fed : ∀ script ∈ s.feeding ev, script.feedPrevResult = false
  generated : ∀ a ∈ s.generating ev, s.secrets.version = a.secretsGen

/-! ## The invariant -/

/-- The digest a call has found is its image's. -/
def AskOk (W : World) (a : Asked) : Prop :=
  (runtimeSpec a.script.runtime).isSome = true → a.imageDigest = imageOf W a.script.runtime

/-- What the call of a key has read. -/
def CallPc.asked : CallPc → Option Asked
  | .find a | .tag _ _ a => some a
  | .insert _ a | .start _ _ a | .await _ a => a
  | _ => none

/-- The script that is executed is the one under the key. -/
def SameScript (a : Asked) (job : Job) : Prop :=
  job.script.runtime = a.script.runtime ∧ job.script.source = a.script.source

/-- An execution of a run asked for under `a` reads what `a` says. -/
def Follows (a : Asked) (x : Exec) : Prop :=
  SameScript a x.job ∧
    match x.phase with
    | .claimed | .broken _ => True
    | .acquire _ | .allowlist _ | .generation _ _ => x.job.script.feedPrevResult = false
    | .lookup _ _ gen | .globals _ _ gen | .agentSecrets _ _ gen _ | .store _ _ gen _ =>
        x.job.script.feedPrevResult = false ∧ gen = a.secretsGen
    | .job u _ | .attest u _ _ _ =>
        x.job.script.feedPrevResult = false ∧ u.secretsGen = a.secretsGen

structure TagInv (W : World) (s : Sys) : Prop where
  calls : ∀ c k a, s.calls c = some k → k.pc.asked = some a → AskOk W a
  rows : ∀ r row a, s.rows r = some row → row.asked = some a →
    AskOk W a ∧ ∀ u, row.ranWith = some u →
      SameScript a u.job ∧ u.job.script.feedPrevResult = false ∧ u.secretsGen = a.secretsGen
  execs : ∀ e x row a, s.execs e = some x → s.rows x.job.runId = some row →
    row.asked = some a → Follows a x

theorem tagInv_start {W : World} {s : Sys} (h : Start s) : TagInv W s where
  calls := fun c k a hk => by cases (h.calls c).symm.trans hk
  rows := fun r row a hrow => by cases (h.rows r).symm.trans hrow
  execs := fun e x row a hx => by cases (h.execs e).symm.trans hx

section Preservation

variable {W : World} {s s' : Sys} {ev : Event}

/-- A call goes on with what it has asked for, or asks. -/
theorem callMove_asked {k : Call} {out : CallOut} {a : Asked}
    (hout : callMove W s k = some out) (ha : out.pc.asked = some a) :
    k.pc.asked = some a ∨ ∃ script gen, k.pc = .digest script gen ∧ a.script = script ∧
      a.imageDigest = ((s.procs k.proc).imageDigest script.runtime).getD "" ∧
      a.secretsGen = gen := by
  unfold callMove at hout
  split at hout
  · obtain ⟨script, _, hout⟩ := Option.bind_eq_some_iff.mp hout
    split at hout
    · cases hout
      cases ha
    · split at hout <;> cases hout <;> cases ha
  · cases hout
    cases ha
  · rename_i script gen hpc
    cases hout
    cases ha
    exact Or.inr ⟨script, gen, hpc, rfl, rfl, rfl⟩
  · rename_i b hpc
    split at hout <;> cases hout <;> cases ha
    exact Or.inl (by rw [hpc]; rfl)
  · rename_i script b hpc
    cases hout
    rw [hpc]
    cases b with
    | some b => exact Or.inl ha
    | none =>
        simp only at ha
        split at ha <;> cases ha
  · rename_i script r b hpc
    cases hout
    rw [hpc]
    simp only at ha
    split at ha
    · exact Or.inl ha
    · cases ha
  · rename_i script r b hpc
    cases hout
    rw [hpc]
    exact Or.inl ha
  · rename_i script b hpc
    cases hout
    rw [hpc]
    exact Or.inl ha
  · cases hout
  · cases hout

/-- The digest a process has for a runtime is its image's. -/
theorem Base.imageDigest (hB : Base W s) {p : ProcId} {runtime d : String}
    (h : (s.procs p).imageDigest runtime = some d) : d = imageOf W runtime := by
  obtain ⟨spec, hspec, hd⟩ := Option.bind_eq_some_iff.mp h
  rw [imageOf, hspec]
  exact hB.digests p spec.1 d hd

/-- A call asks with a resolved digest. -/
theorem TagInv.calls_step (hB : Base W s) (hI : TagInv W s) (hstill : KeysStill s ev)
    (h : StepOf W s ev s') {c : CallId} {k' : Call} {a : Asked}
    (hk' : s'.calls c = some k') (ha : k'.pc.asked = some a) : AskOk W a := by
  cases step_calls h hk' with
  | same hsame => exact hI.calls c k' a hsame ha
  | new p req hnew =>
      subst hnew
      cases ha
  | moved k e out hev hk hout hmoved =>
      subst hmoved
      rcases callMove_asked hout ha with hold | ⟨script, gen, hpc, hscript, hdigest, _⟩
      · exact hI.calls c k a hk hold
      · intro hknown
        subst hev
        rw [hscript] at hknown ⊢
        have hsome : ((s.procs k.proc).imageDigest script.runtime).isSome = true :=
          hstill.keyed (script, (s.procs k.proc).imageDigest script.runtime)
            (by simp [Sys.keying, hk, hpc]) hknown
        obtain ⟨d, hd⟩ := Option.isSome_iff_exists.mp hsome
        rw [hdigest, hd, Option.getD_some]
        exact hB.imageDigest hd

/-- An execution that follows goes on following. -/
theorem ExecMove.follows {e : ExecId} {x x' : Exec} {ev' : ExecEvent} {out : ExecOut}
    {row : Row} {a : Asked} (hstill : KeysStill s (.exec e ev')) (hx : s.execs e = some x)
    (hrow : s.rows x.job.runId = some row) (ha : row.asked = some a)
    (h : ExecMove W s x ev' out) (hx' : out.exec = some x') (hold : Follows a x) :
    Follows a x' := by
  obtain ⟨hsame, hold⟩ := hold
  cases h with
  | input hphase =>
      cases hx'
      exact ⟨hsame, hstill.fed _ (by simp [Sys.feeding, hx, hrow, ha, hphase])⟩
  | generation input allow hphase =>
      cases hx'
      simp only [hphase] at hold
      exact ⟨hsame, hold, hstill.generated a (by simp [Sys.generating, hx, hrow, ha, hphase])⟩
  | broke input msg hphase =>
      cases hx'
      exact ⟨hsame, trivial⟩
  | ended msg hphase => cases hx'
  | acquired _ _ hphase | allowlist _ hphase | hit _ _ _ _ hphase | miss _ _ _ hphase
  | globals _ _ _ hphase | globalsOnly _ _ _ hphase | agentSecrets _ _ _ _ _ hphase
  | store _ _ _ _ hphase | digest _ _ _ _ hphase | attest _ _ _ _ _ hphase
  | job _ _ _ _ _ hphase =>
      cases hx'
      simp only [hphase] at hold
      exact ⟨hsame, hold⟩

/-- What a run was asked for under never changes. -/
theorem Base.asked (hB : Base W s) (h : StepOf W s ev s') {r : RunId} {row row' : Row}
    (hr : s.rows r = some row) (hr' : s'.rows r = some row') : row'.asked = row.asked := by
  obtain ⟨row₀, hrow₀, _, hasked, _⟩ := hB.kept h hr
  cases hr'.symm.trans hrow₀
  exact hasked

theorem TagInv.execs_step (hB : Base W s) (hI : TagInv W s) (hstill : KeysStill s ev)
    (h : StepOf W s ev s') {e : ExecId} {x' : Exec} {row' : Row} {a : Asked}
    (hx' : s'.execs e = some x') (hr' : s'.rows x'.job.runId = some row')
    (ha : row'.asked = some a) : Follows a x' := by
  cases step_execs h hx' with
  | same hsame =>
      obtain ⟨row, hr, _⟩ := (hB.execs e x' hsame).row
      exact hI.execs e x' row a hsame hr ((hB.asked h hr hr').symm.trans ha)
  | moved x ev' out hev hx hout hx' =>
      subst hev
      obtain ⟨row, hr, _⟩ := (hB.execs e x hx).row
      rw [(hout.kept hx').2] at hr'
      have hasked := (hB.asked h hr hr').symm.trans ha
      exact hout.follows hstill hx hr hasked hx' (hI.execs e x row a hx hr hasked)
  | claimed p r row script hev hr hscript hx' =>
      subst hx' hev
      have hasked := (hB.asked h hr hr').symm.trans ha
      exact ⟨hstill.claimed (a, script) (by simp [Sys.claiming, hr, hscript, hasked]), trivial⟩
  | started c k script r b hk hpc hx' =>
      subst hx'
      have hcall := hB.calls c k hk
      simp only [CallOk, hpc] at hcall
      obtain ⟨_, hfits, row, hr, _, hrowAsked, _⟩ := hcall
      have hasked := (hB.asked h hr hr').symm.trans ha
      obtain ⟨_, rfl⟩ := hfits a (hrowAsked.symm.trans hasked)
      exact ⟨⟨rfl, rfl⟩, trivial⟩

theorem TagInv.rows_step (hB : Base W s) (hI : TagInv W s) (h : StepOf W s ev s')
    {r : RunId} {row' : Row} {a : Asked} (hr' : s'.rows r = some row')
    (ha : row'.asked = some a) :
    AskOk W a ∧ ∀ u, row'.ranWith = some u →
      SameScript a u.job ∧ u.job.script.feedPrevResult = false ∧
        u.secretsGen = a.secretsGen := by
  rcases step_rows h hr' with ⟨row, hr, hstep⟩ | ⟨_, _, hins⟩
  · have hasked : row.asked = some a := by rw [← hstep.kept.1, ha]
    have hold := hI.rows r row a hr hasked
    cases hstep with
    | same | run | tag => exact hold
    | exec e x u pc reply out hx hphase hrun hout =>
        refine ⟨hold.1, fun u' hu' => ?_⟩
        have hphaseOk := (hB.execs e x hx).phase
        simp only [PhaseOk, hphase] at hphaseOk
        rw [← hrun] at hr
        obtain ⟨hsame, hfollows⟩ := hI.execs e x row a hx hr hasked
        simp only [hphase] at hfollows
        simp only [Row.written] at hu'
        split at hu'
        · split at hu'
          · exact hold.2 u' hu'
          · cases hu'
            rw [hphaseOk.1]
            exact ⟨hsame, hfollows⟩
        · exact hold.2 u' hu'
  · cases hins with
    | plain | repro => cases ha
    | call c k script b hk hpc =>
        refine ⟨hI.calls c k a hk ?_, (fun u hu => by cases hu)⟩
        rw [hpc]
        exact ha

/-- **A step that falls in between no two readings keeps it.** -/
theorem TagInv.step (hB : Base W s) (hI : TagInv W s) (hstill : KeysStill s ev)
    (h : StepOf W s ev s') : TagInv W s' where
  calls := fun _ _ _ hk' ha => hI.calls_step hB hstill h hk' ha
  rows := fun _ _ _ hr' ha => hI.rows_step hB h hr' ha
  execs := fun _ _ _ _ hx' hr' ha => hI.execs_step hB hstill h hx' hr' ha

end Preservation

/-- The key of a call is the key of an execution that followed it. -/
theorem key_eq {W : World} {a : Asked} {u : Used} (hask : AskOk W a) (hused : UsedOk W u)
    (hnew : u.job.toNewRun = a.new) (hsame : SameScript a u.job)
    (hfed : u.job.script.feedPrevResult = false) (hgen : u.secretsGen = a.secretsGen) :
    a.key W = u.key W := by
  obtain ⟨hruntime, hsource⟩ := hsame
  have hdigest : a.imageDigest = u.digest := by
    rw [hused.digest, hruntime]
    exact hask (hruntime ▸ hused.known)
  have hinput : a.new.input = u.input := by
    rw [hused.input hfed, ← hnew]
  have hblobs : a.new.inputBlobs = u.job.inputBlobs := by
    rw [← hnew]
  rw [Asked.key, Used.key, hdigest, hinput, hblobs, hruntime, hsource, hgen]

theorem tagsSound_of_inv {W : World} {s : Sys} (hB : Base W s) (hS : SecretInv s)
    (hT : TagInv W s) : TagsSound W s := by
  intro r row k hrow hst hk
  have hok := hB.rows r row hrow
  obtain ⟨a, hasked, rfl⟩ := hok.tag k hk
  obtain ⟨u, hu⟩ := Option.isSome_iff_exists.mp (hok.ran hst)
  obtain ⟨hnew, hused⟩ := hok.ranWith u hu
  obtain ⟨hask, hran⟩ := hT.rows r row a hrow hasked
  obtain ⟨hsame, hfed, hgen⟩ := hran u hu
  refine ⟨u, hu, ?_, ((hS.rows r row hrow).1 u hu).2⟩
  exact key_eq hask hused (hnew.trans (hok.asked a hasked).symm) hsame hfed hgen

instance (s : Sys) (ev : Event) : Decidable (KeysStill s ev) :=
  decidable_of_iff
    (LoadsStill s ev ∧
      (∀ p ∈ s.keying ev, (runtimeSpec p.1.runtime).isSome = true → p.2.isSome = true) ∧
      (∀ p ∈ s.claiming ev,
        p.2.runtime = p.1.script.runtime ∧ p.2.source = p.1.script.source) ∧
      (∀ script ∈ s.feeding ev, script.feedPrevResult = false) ∧
      ∀ a ∈ s.generating ev, s.secrets.version = a.secretsGen)
    ⟨fun h => ⟨h.1, h.2.1, h.2.2.1, h.2.2.2.1, h.2.2.2.2⟩,
      fun h => ⟨h.loads, h.keyed, h.claimed, h.fed, h.generated⟩⟩

/-- The message under the key of a run of a bash `source` on `{}`. -/
def bashMessage (source : String) : Bytes :=
  keyMessage demoWorld.plain "bash" "alpine:3.20@sha256:0a4eaa0e" source (.obj []) 0 none

def taggedSha (bs : Bytes) : Bytes :=
  if bs = bashMessage "echo 42" then
    [31, 0, 19, 69, 236, 220, 39, 65, 13, 3, 144, 19, 58, 81, 193, 75, 207, 208, 1, 179, 113,
      214, 110, 101, 240, 140, 53, 242, 82, 212, 8, 109]
  else if bs = bashMessage "echo 43" then
    [250, 134, 196, 165, 18, 243, 50, 168, 9, 187, 114, 98, 85, 137, 37, 65, 178, 175, 178,
      233, 151, 246, 55, 73, 199, 19, 188, 148, 136, 247, 98, 215]
  else demoSha bs

def taggedWorld : World := { demoWorld with crypto := { demo with sha256 := taggedSha } }

/-- `run_script` asks for run 0, which is claimed and executed; `between` falls in
the queue. -/
def taggedRun (between : List Event) : List Event :=
  [.resolve 0 "alpine:3.20", .call 0 0 (.runScript demoRun true)] ++
    List.replicate 6 (.stepCall 0 0) ++ between ++ [.claim 0 0 0] ++ injects 0 ++ works 0 ++
    attests 0

/-- Whether run 0 has succeeded, its tag, and the key of what it ran with. -/
def shownTag (s : Sys) : Option (Bool × String × String) := do
  let row ← s.rows 0
  let k ← row.cacheKey
  let u ← row.ranWith
  return (row.run.status = .succeeded, k, u.key taggedWorld)

end Dokan.Ports.Provenance
