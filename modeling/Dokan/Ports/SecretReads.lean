import Dokan.Ports.ProvenanceInv

/-!
# The secrets an execution was given

`all_secrets_for` reads the generation and then the secrets, and keeps what it
read under that generation for whoever comes next.  If no `set_secret` falls
between the two reads of any execution, what is injected is what the tables held
at the generation that was read, cache or no cache.

## Main results

* `SecretInv.step` — a step that disturbs no read keeps that true.
-/

namespace Dokan.Ports.Provenance

open Dokan.Verified.Json
open Dokan.Verified.VersionMemo
open Dokan.Ports.Receipt
open Dokan.Ports.RunRow
open Dokan.Ports.ExecJob (ExecPc execStep)

/-- What was injected is what the agent saw at the generation that was read, less
what the allowlist withholds. -/
def SecretsAt (s : Sys) (gen : Int) (u : Used) : Prop :=
  u.secrets = permitted u.allow ((s.secrets.history gen).visible u.job.agentId)

/-- The generation read by an execution that is about to `SELECT` secrets. -/
def Sys.loading (s : Sys) : Event → Option Int
  | .exec e _ => (s.execs e).bind fun x =>
      match x.phase with
      | .globals _ _ gen | .agentSecrets _ _ gen _ => some gen
      | _ => none
  | _ => none

/-- No `set_secret` has committed between the two reads. -/
def LoadsStill (s : Sys) (ev : Event) : Prop := ∀ gen ∈ s.loading ev, s.secrets.version = gen

/-- What an execution has read of the secrets so far. -/
def SecretPhase (s : Sys) (x : Exec) : Prop :=
  match x.phase with
  | .lookup _ _ gen | .globals _ _ gen => gen ≤ s.secrets.version
  | .agentSecrets _ _ gen m =>
      gen ≤ s.secrets.version ∧ m = (s.secrets.history gen).globals
  | .store _ _ gen m =>
      gen ≤ s.secrets.version ∧ m = (s.secrets.history gen).visible x.job.agentId
  | .job u _ | .attest u _ _ _ =>
      u.secretsGen ≤ s.secrets.version ∧ SecretsAt s u.secretsGen u
  | .claimed | .acquire _ | .allowlist _ | .generation _ _ | .broken _ => True

/-- What the rows' executions were given. -/
def SecretRow (s : Sys) (row : Row) : Prop :=
  (∀ u, row.ranWith = some u → u.secretsGen ≤ s.secrets.version ∧ SecretsAt s u.secretsGen u) ∧
    ∀ u b, row.sealed = some (u, b) →
      u.secretsGen ≤ s.secrets.version ∧ SecretsAt s u.secretsGen u

structure SecretInv (s : Sys) : Prop where
  caches : ∀ p, (s.procs p).secretsCache.Sound Secrets.visible s.secrets
  execs : ∀ e x, s.execs e = some x → SecretPhase s x
  rows : ∀ r row, s.rows r = some row → SecretRow s row

theorem secretInv_start {s : Sys} (h : Start s) : SecretInv s where
  caches := fun p => by
    rw [h.procs p]
    exact Memo.sound_of_empty _
  execs := fun e x hx => by cases (h.execs e).symm.trans hx
  rows := fun r row hrow => by cases (h.rows r).symm.trans hrow

section Preservation

variable {W : World} {s s' : Sys} {ev : Event}

theorem SecretsAt.extends {gen : Int} {u : Used} (h : SecretsAt s gen u)
    (hle : gen ≤ s.secrets.version) (hext : s.secrets.Extends s'.secrets) :
    SecretsAt s' gen u := by
  unfold SecretsAt at h ⊢
  rw [hext.same gen hle]
  exact h

/-- Later writes of secrets change nothing an execution has read. -/
theorem SecretPhase.extends {x : Exec} (h : SecretPhase s x)
    (hext : s.secrets.Extends s'.secrets) : SecretPhase s' x := by
  have hle : ∀ gen, gen ≤ s.secrets.version → gen ≤ s'.secrets.version :=
    fun _ h => Int.le_trans h hext.le
  unfold SecretPhase at h ⊢
  split at h
  · exact hle _ h
  · exact hle _ h
  · exact ⟨hle _ h.1, by rw [hext.same _ h.1]; exact h.2⟩
  · exact ⟨hle _ h.1, by rw [hext.same _ h.1]; exact h.2⟩
  · exact ⟨hle _ h.1, h.2.extends h.1 hext⟩
  · exact ⟨hle _ h.1, h.2.extends h.1 hext⟩
  all_goals trivial

theorem SecretRow.extends {row : Row} (h : SecretRow s row)
    (hext : s.secrets.Extends s'.secrets) : SecretRow s' row := by
  refine ⟨fun u hu => ?_, fun u b hub => ?_⟩
  · obtain ⟨hle, hat⟩ := h.1 u hu
    exact ⟨Int.le_trans hle hext.le, hat.extends hle hext⟩
  · obtain ⟨hle, hat⟩ := h.2 u b hub
    exact ⟨Int.le_trans hle hext.le, hat.extends hle hext⟩

/-- What is injected is what was read. -/
theorem secretsAt_inject (x : Exec) (input : Value) (allow : Option (List String)) {gen : Int}
    {m : SecretMap} (hle : gen ≤ s.secrets.version)
    (hm : m = (s.secrets.history gen).visible x.job.agentId) :
    SecretPhase s (x.inject W input allow gen m) :=
  ⟨hle, congrArg (permitted allow) hm⟩

/-- An execution reads on. -/
theorem ExecMove.secretPhase {e : ExecId} {x x' : Exec} {ev' : ExecEvent} {out : ExecOut}
    (hI : SecretInv s) (hstill : LoadsStill s (.exec e ev')) (hx : s.execs e = some x)
    (h : ExecMove W s x ev' out) (hx' : out.exec = some x') : SecretPhase s x' := by
  have hold := hI.execs e x hx
  cases h with
  | input hphase | acquired input cid hphase hspec | broke input msg hphase
  | allowlist input hphase =>
      cases hx'
      trivial
  | generation input allow hphase =>
      cases hx'
      exact Int.le_refl _
  | hit input allow gen m hphase hm =>
      cases hx'
      simp only [SecretPhase, hphase] at hold
      exact secretsAt_inject x input allow hold ((hI.caches x.proc).lookup hm)
  | miss input allow gen hphase =>
      cases hx'
      simp only [SecretPhase, hphase] at hold
      exact hold
  | globals input allow gen hphase =>
      cases hx'
      have hgen : s.secrets.version = gen := hstill gen (by simp [Sys.loading, hx, hphase])
      subst hgen
      exact ⟨Int.le_refl _, rfl⟩
  | globalsOnly input allow gen hphase hagent =>
      cases hx'
      have hgen : s.secrets.version = gen := hstill gen (by simp [Sys.loading, hx, hphase])
      subst hgen
      refine ⟨Int.le_refl _, ?_⟩
      rw [hagent]
      rfl
  | agentSecrets input allow gen m a hphase hagent =>
      cases hx'
      have hgen : s.secrets.version = gen := hstill gen (by simp [Sys.loading, hx, hphase])
      simp only [SecretPhase, hphase] at hold
      subst hgen
      refine ⟨Int.le_refl _, ?_⟩
      rw [hagent, hold.2]
      rfl
  | store input allow gen m hphase =>
      cases hx'
      simp only [SecretPhase, hphase] at hold
      exact secretsAt_inject x input allow hold.1 hold.2
  | digest u code result spec hphase hspec =>
      cases hx'
      simp only [SecretPhase, hphase] at hold
      exact hold
  | attest u code result digest b hphase hb =>
      cases hx'
      simp only [SecretPhase, hphase] at hold
      exact hold
  | job u pc reply out outputs hphase hpc hout =>
      cases hx'
      simp only [SecretPhase, hphase] at hold
      exact hold
  | ended msg hphase => cases hx'

/-- A row remembers executions that were given what they read. -/
theorem SecretRow.step {r : RunId} {row row' : Row} (hI : SecretInv s)
    (hrow : s.rows r = some row) (h : RowStep W s r row row') : SecretRow s row' := by
  have hold := hI.rows r row hrow
  cases h with
  | same | run | tag => exact hold
  | exec e x u pc reply out hx hphase hrun hout =>
      have hu := hI.execs e x hx
      simp only [SecretPhase, hphase] at hu
      refine ⟨fun u' hu' => ?_, fun u' b hub => ?_⟩
      · simp only [Row.written] at hu'
        split at hu'
        · split at hu'
          · exact hold.1 u' hu'
          · cases hu'
            exact hu
        · exact hold.1 u' hu'
      · simp only [Row.written] at hub
        split at hub
        · obtain ⟨b', _, hpair⟩ := Option.map_eq_some_iff.mp hub
          cases hpair
          exact hu
        · exact hold.2 u' b hub

theorem Inserted.secretRow {row : Row} (h : Inserted s row) : SecretRow s' row := by
  cases h <;> exact ⟨(fun _ hu => by cases hu), (fun _ _ hub => by cases hub)⟩

/-- **A step that disturbs no read keeps what was read true.** -/
theorem SecretInv.step (hI : SecretInv s) (hstill : LoadsStill s ev)
    (h : StepOf W s ev s') : SecretInv s' where
  caches := by
    intro p
    have hext := step_secrets h
    rcases step_caches h p with hsame | hempty | ⟨e, x, input, allow, gen, m, hx, hphase, hstore⟩
    · rw [hsame]
      exact (hI.caches p).extends hext
    · rw [hempty]
      exact Memo.sound_of_empty _
    · have hread := hI.execs e x hx
      simp only [SecretPhase, hphase] at hread
      rw [hstore]
      exact ((hI.caches p).store hread.1 hread.2).extends hext
  execs := by
    intro e x' hx'
    refine SecretPhase.extends ?_ (step_secrets h)
    cases step_execs h hx' with
    | same hsame => exact hI.execs e x' hsame
    | moved x ev' out hev hx hout hx' =>
        subst hev
        exact hout.secretPhase hI hstill hx hx'
    | claimed p r row script hev hrow hscript hx' =>
        subst hx'
        trivial
    | started c k script r a hk hpc hx' =>
        subst hx'
        trivial
  rows := by
    intro r row' hr'
    rcases step_rows h hr' with ⟨row, hr, hstep⟩ | ⟨_, _, hins⟩
    · exact (SecretRow.step hI hr hstep).extends (step_secrets h)
    · exact hins.secretRow

end Preservation

end Dokan.Ports.Provenance
