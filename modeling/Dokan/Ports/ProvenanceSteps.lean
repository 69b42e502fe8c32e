import Dokan.Ports.Provenance

/-!
# What one step may do to scripts, secrets, rows and tasks

Each lemma says, for one table, everything a step may have done to it.

## Main results

* `step_scripts`, `step_secrets`, `step_digests` — scripts, secrets and digests
  only move forward.
* `step_rows`, `step_execs`, `step_calls`, `step_repros` — where a row, an
  execution, a call or a reproduction comes from.
-/

namespace Dokan.Ports.Provenance

open Dokan.Verified.Json
open Dokan.Verified.VersionMemo
open Dokan.Ports.Receipt
open Dokan.Ports.RunRow
open Dokan.Ports.ExecJob (ExecPc execStep)
open Dokan.Ports.FlowDriver (runtimeSpec)

section Effects

variable {W : World} {s s' : Sys} {ev : Event}

/-- A row goes through one statement. -/
inductive RowStep (W : World) (s : Sys) (r : RunId) (row : Row) : Row → Prop
  | same : RowStep W s r row row
  /-- a claim, the queue, or an execution that broke down -/
  | run (f : Run → Run) (hnew : (f row.run).toNewRun = row.run.toNewRun)
      (hstatus : (f row.run).status = .succeeded → row.run.status = .succeeded)
      (hreceipt : (f row.run).receipt = row.run.receipt) :
      RowStep W s r row { row with run := f row.run }
  | tag (c : CallId) (k : Call) (script : Script) (a : Asked) (hk : s.calls c = some k)
      (hpc : k.pc = .tag script r a) :
      RowStep W s r row { row with cacheKey := some (a.key W) }
  | exec (e : ExecId) (x : Exec) (u : Used) (pc : ExecPc) (reply : ExecJob.Reply)
      (out : ExecJob.ExecOut) (hx : s.execs e = some x) (hphase : x.phase = .job u pc)
      (hrun : x.job.runId = r)
      (hout : execStep s.now x.job.captureOutput (fun _ => false) pc reply = some out) :
      RowStep W s r row (Row.written u x.binding pc out.write row)

/-- Where a new row comes from. -/
inductive Inserted (s : Sys) : Row → Prop
  | plain (n : NewRun) : Inserted s { run := insertRunWithBlobs s.now n }
  | call (c : CallId) (k : Call) (script : Script) (a : Option Asked)
      (hk : s.calls c = some k) (hpc : k.pc = .insert script a) :
      Inserted s (k.row s.now a)
  | repro (q : ReproId) (w : Repro) (orig : Value) (n : NewRun) (hw : s.repros q = some w)
      (hpc : w.pc = .insert orig n) :
      Inserted s (w.row s.now n)

/-- The steps of an execution. -/
inductive ExecMove (W : World) (s : Sys) (x : Exec) : ExecEvent → ExecOut → Prop
  | input (hphase : x.phase = .claimed) :
      ExecMove W s x .sql
        { exec := some { x with
            phase := .acquire (jobInput x.job (s.lastResult x.job.scriptId x.job.runId)) } }
  | acquired (input : Value) (cid : ExecJob.Cid) (hphase : x.phase = .acquire input)
      (hspec : (runtimeSpec x.job.script.runtime).isSome = true) :
      ExecMove W s x (.reply (.container cid))
        { exec := some { x with phase := .allowlist input, cid } }
  | broke (input : Value) (msg : String) (hphase : x.phase = .acquire input) :
      ExecMove W s x (.reply (.error msg)) { exec := some { x with phase := .broken msg } }
  | allowlist (input : Value) (hphase : x.phase = .allowlist input) :
      ExecMove W s x .sql
        { exec := some { x with
            phase := .generation input (s.allowlists x.job.scriptId) } }
  | generation (input : Value) (allow : Option (List String))
      (hphase : x.phase = .generation input allow) :
      ExecMove W s x .sql
        { exec := some { x with phase := .lookup input allow s.secrets.version } }
  | hit (input : Value) (allow : Option (List String)) (gen : Int) (m : SecretMap)
      (hphase : x.phase = .lookup input allow gen)
      (hm : (s.procs x.proc).secretsCache.lookup gen x.job.agentId = some m) :
      ExecMove W s x .sql { exec := some (x.inject W input allow gen m) }
  | miss (input : Value) (allow : Option (List String)) (gen : Int)
      (hphase : x.phase = .lookup input allow gen) :
      ExecMove W s x .sql { exec := some { x with phase := .globals input allow gen } }
  | globals (input : Value) (allow : Option (List String)) (gen : Int)
      (hphase : x.phase = .globals input allow gen) :
      ExecMove W s x .sql
        { exec := some { x with
            phase := .agentSecrets input allow gen s.secrets.value.globals } }
  | globalsOnly (input : Value) (allow : Option (List String)) (gen : Int)
      (hphase : x.phase = .globals input allow gen) (hagent : x.job.agentId = none) :
      ExecMove W s x .sql
        { exec := some { x with phase := .store input allow gen s.secrets.value.globals } }
  | agentSecrets (input : Value) (allow : Option (List String)) (gen : Int) (m : SecretMap)
      (a : String) (hphase : x.phase = .agentSecrets input allow gen m)
      (hagent : x.job.agentId = some a) :
      ExecMove W s x .sql
        { exec := some { x with
            phase := .store input allow gen (merge m (s.secrets.value.agents a)) } }
  | store (input : Value) (allow : Option (List String)) (gen : Int) (m : SecretMap)
      (hphase : x.phase = .store input allow gen m) :
      ExecMove W s x .sql
        { exec := some (x.inject W input allow gen m)
          cache := fun cache => cache.store gen x.job.agentId m }
  | digest (u : Used) (code : Int) (result : Option Value) (spec : String × String)
      (hphase : x.phase = .job u (.buildReceipt code result))
      (hspec : runtimeSpec x.job.script.runtime = some spec) :
      ExecMove W s x .sql
        { exec := some { x with
            phase := .attest u code result (((s.procs x.proc).digests spec.1).getD spec.1) } }
  | attest (u : Used) (code : Int) (result : Option Value) (digest : String) (b : Binding)
      (hphase : x.phase = .attest u code result digest)
      (hb : b = x.bind u code result digest s.secrets.version) :
      ExecMove W s x .sql
        { exec := some { x with
            phase := .job u (.storeReceipt result (buildReceipt W.crypto W.signer b))
            binding := some b } }
  | job (u : Used) (pc : ExecPc) (reply : ExecJob.Reply) (out : ExecJob.ExecOut)
      (outputs : Option Value) (hphase : x.phase = .job u pc)
      (hpc : ∀ code result, pc ≠ .buildReceipt code result)
      (hout : execStep s.now x.job.captureOutput (fun _ => false) pc reply = some out) :
      ExecMove W s x (.reply reply)
        { exec := some { x with phase := .job u out.pc, outputs }
          write := Row.written u x.binding pc out.write }
  | ended (msg : String) (hphase : x.phase = .broken msg) :
      ExecMove W s x .sql
        { exec := none
          write := fun row =>
            { row with run := finishRun s.now .failed none (some msg) row.run } }

/-- Where an execution comes from. -/
inductive ExecChange (W : World) (s : Sys) (ev : Event) (e : ExecId) (x' : Exec) : Prop
  | same (h : s.execs e = some x')
  | moved (x : Exec) (ev' : ExecEvent) (out : ExecOut) (hev : ev = .exec e ev')
      (hx : s.execs e = some x) (hout : ExecMove W s x ev' out) (hx' : out.exec = some x')
  | claimed (p : ProcId) (r : RunId) (row : Row) (script : Script) (hev : ev = .claim p r e)
      (hrow : s.rows r = some row) (hscript : s.scripts row.run.scriptId = some script)
      (hx' : x' = row.exec p r script)
  | started (c : CallId) (k : Call) (script : Script) (r : RunId) (a : Option Asked)
      (hk : s.calls c = some k) (hpc : k.pc = .start script r a)
      (hx' : x' = k.exec script r)

/-- Where a call comes from. -/
inductive CallChange (W : World) (s : Sys) (ev : Event) (c : CallId) (k' : Call) : Prop
  | same (h : s.calls c = some k')
  | moved (k : Call) (e : ExecId) (out : CallOut) (hev : ev = .stepCall c e)
      (hk : s.calls c = some k) (hout : callMove W s k = some out)
      (hk' : k' = { k with pc := out.pc })
  | new (p : ProcId) (req : Request) (hk' : k' = { proc := p, req, pc := .script })

/-- Where a reproduction comes from. -/
inductive ReproChange (W : World) (s s' : Sys) (q : ReproId) (w' : Repro) : Prop
  | same (h : s.repros q = some w')
  | moved (w : Repro) (out : ReproOut) (hw : s.repros q = some w)
      (hout : reproMove W s w = some out) (hw' : w' = out.repro)
      (hrow : ∀ orig n, w.pc = .insert orig n →
        s'.rows s.nextRun = some (w.row s.now n))
  | new (r : RunId) (agentId : Option String) (hw' : w' = { runId := r, agentId, pc := .receipt })
  | timedOut (w : Repro) (orig : Value) (r : RunId) (hw : s.repros q = some w)
      (hpc : w.pc = .poll orig r)
      (hw' : w' = { w with pc := .done (.inconclusive "timeout_or_unrunnable") })

/-! ## Steps taken apart -/

theorem execMove_inv {x : Exec} {ev : ExecEvent} {out : ExecOut}
    (h : execMove W s x ev = some out) : ExecMove W s x ev out := by
  unfold execMove at h
  split at h
  · cases h
    exact .input ‹_›
  · split at h
    · cases h
      exact .acquired _ _ ‹_› ‹_›
    · cases h
  · cases h
    exact .broke _ _ ‹_›
  · cases h
    exact .allowlist _ ‹_›
  · cases h
    exact .generation _ _ ‹_›
  · split at h
    · cases h
      exact .hit _ _ _ _ ‹_› ‹_›
    · cases h
      exact .miss _ _ _ ‹_›
  · split at h
    · cases h
      exact .globals _ _ _ ‹_›
    · rename_i hagent
      cases h
      exact .globalsOnly _ _ _ ‹_› (by simpa using hagent)
  · obtain ⟨a, hagent, h⟩ := Option.bind_eq_some_iff.mp h
    cases h
    exact .agentSecrets _ _ _ _ a ‹_› hagent
  · cases h
    exact .store _ _ _ _ ‹_›
  · obtain ⟨spec, hspec, h⟩ := Option.bind_eq_some_iff.mp h
    cases h
    exact .digest _ _ _ spec ‹_› hspec
  · cases h
    exact .attest _ _ _ _ _ ‹_› rfl
  · cases h
  · rename_i reply hnot hphase
    obtain ⟨out', hout, h⟩ := Option.bind_eq_some_iff.mp h
    cases h
    exact .job _ _ reply out' _ hphase hnot hout
  · cases h
    exact .ended _ ‹_›
  · cases h

theorem stepExec_inv {e : ExecId} {ev' : ExecEvent} (h : s.stepExec W e ev' = some s') :
    ∃ x out, s.execs e = some x ∧ ExecMove W s x ev' out ∧
      s' = { s.write x.job.runId out.write with
        execs := Function.update s.execs e out.exec
        procs := Function.update s.procs x.proc ((s.procs x.proc).recache out.cache) } := by
  obtain ⟨x, hx, h⟩ := Option.bind_eq_some_iff.mp h
  obtain ⟨out, hout, h⟩ := Option.bind_eq_some_iff.mp h
  cases h
  exact ⟨x, out, hx, execMove_inv hout, rfl⟩

/-- The steps of a call, by what they touch. -/
inductive CallStep (W : World) (s : Sys) (c : CallId) (e : ExecId) (k : Call) :
    CallPc → Sys → Prop
  | goto (pc : CallPc) (hpc : ∀ script a, k.pc ≠ .insert script a) :
      CallStep W s c e k pc (s.setCall c { k with pc })
  | insert (pc : CallPc) (script : Script) (a : Option Asked)
      (hpc : k.pc = .insert script a) :
      CallStep W s c e k pc ((s.insert (k.row s.now a)).setCall c { k with pc })
  | tag (pc : CallPc) (script : Script) (r : RunId) (a : Asked)
      (hpc : k.pc = .tag script r a) :
      CallStep W s c e k pc
        ((s.write r fun row => { row with cacheKey := some (a.key W) }).setCall c
          { k with pc })
  | start (pc : CallPc) (script : Script) (r : RunId) (a : Option Asked)
      (hpc : k.pc = .start script r a) (hfree : s.execs e = none) :
      CallStep W s c e k pc ((s.setExec e (k.exec script r)).setCall c { k with pc })

theorem stepCall_inv {c : CallId} {e : ExecId} (h : s.stepCall W c e = some s') :
    ∃ k out, s.calls c = some k ∧ callMove W s k = some out ∧
      CallStep W s c e k out.pc s' := by
  obtain ⟨k, hk, h⟩ := Option.bind_eq_some_iff.mp h
  obtain ⟨out, hout, h⟩ := Option.bind_eq_some_iff.mp h
  refine ⟨k, out, hk, hout, ?_⟩
  unfold callMove at hout
  split at hout
  · rename_i hpc
    have hnot : ∀ script a, k.pc ≠ .insert script a := fun _ _ h => by cases hpc.symm.trans h
    obtain ⟨script, _, hout⟩ := Option.bind_eq_some_iff.mp hout
    split at hout
    · cases hout
      cases h
      exact .goto _ hnot
    · split at hout <;> cases hout <;> cases h <;> exact .goto _ hnot
  · rename_i hpc
    cases hout
    cases h
    exact .goto _ fun _ _ h => by cases hpc.symm.trans h
  · rename_i hpc
    cases hout
    cases h
    exact .goto _ fun _ _ h => by cases hpc.symm.trans h
  · rename_i hpc
    have hnot : ∀ script a, k.pc ≠ .insert script a := fun _ _ h => by cases hpc.symm.trans h
    split at hout <;> cases hout <;> cases h <;> exact .goto _ hnot
  · rename_i hpc
    cases hout
    cases h
    exact .insert _ _ _ hpc
  · rename_i hpc
    cases hout
    cases h
    exact .tag _ _ _ _ hpc
  · rename_i hpc
    cases hout
    simp only [Option.isSome_some, Bool.true_and] at h
    split at h
    · cases h
    · rename_i hfree
      cases h
      exact .start _ _ _ _ hpc (by simpa using hfree)
  · rename_i hpc
    cases hout
    cases h
    exact .goto _ fun _ _ h => by cases hpc.symm.trans h
  · cases hout
  · cases hout

/-- A reproduction inserts its run in one place. -/
theorem reproMove_insert {w : Repro} {out : ReproOut} {row : Row}
    (h : reproMove W s w = some out) (hrow : out.insert = some row) :
    ∃ orig n, w.pc = .insert orig n ∧ row = w.row s.now n := by
  revert h
  fun_cases reproMove W s w <;> intro h <;> cases h <;> try cases hrow
  rename_i orig n hpc
  exact ⟨orig, n, hpc, rfl⟩

theorem stepRepro_inv {q : ReproId} (h : s.stepRepro W q = some s') :
    ∃ w out, s.repros q = some w ∧ reproMove W s w = some out ∧
      ((out.insert = none ∧ s' = s.setRepro q out.repro) ∨
        ∃ orig n, w.pc = .insert orig n ∧ s' = (s.insert (w.row s.now n)).setRepro q
          out.repro) := by
  obtain ⟨w, hw, h⟩ := Option.bind_eq_some_iff.mp h
  obtain ⟨out, hout, h⟩ := Option.bind_eq_some_iff.mp h
  refine ⟨w, out, hw, hout, ?_⟩
  cases hins : out.insert with
  | none =>
      rw [hins] at h
      cases h
      exact Or.inl ⟨rfl, rfl⟩
  | some row =>
      rw [hins] at h
      obtain ⟨orig, n, hpc, rfl⟩ := reproMove_insert hout hins
      cases h
      exact Or.inr ⟨orig, n, hpc, rfl⟩

/-- The steps of the machine. -/
inductive StepOf (W : World) (s : Sys) : Event → Sys → Prop
  | tick (d : Nat) : StepOf W s (.tick d) { s with now := s.now + d }
  | putScript (i : ScriptId) (runtime source : String) (network feed : Bool) :
      StepOf W s (.putScript i runtime source network feed)
        { s with
          scripts := Function.update s.scripts i
            (some ⟨runtime, source, network, feed, s.updates i⟩) }
  | updateScriptMeta (i : ScriptId) (runtime source : String) (network feed : Bool) :
      StepOf W s (.updateScriptMeta i runtime network feed)
        { s with
          scripts := Function.update s.scripts i
            (some ⟨runtime, source, network, feed, s.updates i⟩) }
  | setScriptSecrets (i : ScriptId) (names : Option (List String)) :
      StepOf W s (.setScriptSecrets i names)
        { s with allowlists := Function.update s.allowlists i names }
  | setSecret (agentId : Option String) (name value : String)
      (hbound : s.secrets.version + 1 < 2 ^ 63) :
      StepOf W s (.setSecret agentId name value)
        { s with secrets := s.secrets.write fun x => x.set name value agentId }
  | resolved (p : ProcId) (image : String) : StepOf W s (.resolve p image) s
  | resolve (p : ProcId) (image : String) :
      StepOf W s (.resolve p image)
        (s.setProc p ((s.procs p).resolve image (W.imageId image)))
  | restart (p : ProcId) :
      StepOf W s (.restart p)
        { s.setProc p .fresh with
          calls := fun c => (s.calls c).filter fun k => k.proc ≠ p
          execs := fun e => (s.execs e).filter fun x => x.proc ≠ p }
  | enqueue (n : NewRun) :
      StepOf W s (.enqueue n) (s.insert { run := insertRunWithBlobs s.now n })
  | queue (r : RunId) (w : QueueWrite) :
      StepOf W s (.queue r w)
        (s.write r fun row => { row with run := w.apply s.now row.run })
  | call (c : CallId) (p : ProcId) (req : Request) :
      StepOf W s (.call c p req) (s.setCall c { proc := p, req, pc := .script })
  | stepCall (c : CallId) (e : ExecId) (k : Call) (out : CallOut) (s' : Sys)
      (hk : s.calls c = some k) (hout : callMove W s k = some out)
      (hstep : CallStep W s c e k out.pc s') : StepOf W s (.stepCall c e) s'
  | endCall (c : CallId) :
      StepOf W s (.endCall c) { s with calls := Function.update s.calls c none }
  | claim (p : ProcId) (r : RunId) (e : ExecId) (row : Row) (script : Script)
      (hrow : s.rows r = some row) (hscript : s.scripts row.run.scriptId = some script)
      (hpending : row.run.status = .pending) (hfree : s.execs e = none) :
      StepOf W s (.claim p r e)
        ((s.setExec e (row.exec p r script)).write r
          fun row => { row with run := claimRun s.now row.run })
  | exec (e : ExecId) (ev : ExecEvent) (x : Exec) (out : ExecOut)
      (hx : s.execs e = some x) (hout : ExecMove W s x ev out) :
      StepOf W s (.exec e ev)
        { s.write x.job.runId out.write with
          execs := Function.update s.execs e out.exec
          procs := Function.update s.procs x.proc ((s.procs x.proc).recache out.cache) }
  | endExec (e : ExecId) :
      StepOf W s (.endExec e) { s with execs := Function.update s.execs e none }
  | reproduce (q : ReproId) (r : RunId) (agentId : Option String) :
      StepOf W s (.reproduce q r agentId)
        (s.setRepro q { runId := r, agentId, pc := .receipt })
  | stepRepro (q : ReproId) (w : Repro) (out : ReproOut) (hw : s.repros q = some w)
      (hout : reproMove W s w = some out) (hins : out.insert = none) :
      StepOf W s (.stepRepro q) (s.setRepro q out.repro)
  | insertRepro (q : ReproId) (w : Repro) (out : ReproOut) (orig : Value) (n : NewRun)
      (hw : s.repros q = some w) (hout : reproMove W s w = some out)
      (hpc : w.pc = .insert orig n) :
      StepOf W s (.stepRepro q) ((s.insert (w.row s.now n)).setRepro q out.repro)
  | timeoutRepro (q : ReproId) (w : Repro) (orig : Value) (r : RunId)
      (hw : s.repros q = some w) (hpc : w.pc = .poll orig r) :
      StepOf W s (.timeoutRepro q) (s.setRepro q
        { w with pc := .done (.inconclusive "timeout_or_unrunnable") })

theorem step_inv (h : step W s ev = some s') : StepOf W s ev s' := by
  cases ev with
  | tick d => cases h; exact .tick d
  | putScript i runtime source network feed =>
      cases h
      exact .putScript i runtime source network feed
  | updateScriptMeta i runtime network feed =>
      obtain ⟨x, _, h⟩ := Option.bind_eq_some_iff.mp h
      cases h
      exact .updateScriptMeta i runtime x.source network feed
  | setScriptSecrets i names => cases h; exact .setScriptSecrets i names
  | setSecret agentId name value =>
      simp only [step] at h
      split at h
      · rename_i hbound
        cases h
        exact .setSecret agentId name value hbound
      · cases h
  | resolve p image =>
      simp only [step] at h
      split at h
      · cases h
        exact .resolved p image
      · cases h
        exact .resolve p image
  | restart p => cases h; exact .restart p
  | enqueue n => cases h; exact .enqueue n
  | queue r w => cases h; exact .queue r w
  | call c p req =>
      simp only [step] at h
      split at h
      · cases h
      · cases h
        exact .call c p req
  | stepCall c e =>
      obtain ⟨k, out, hk, hout, hstep⟩ := stepCall_inv h
      exact .stepCall c e k out s' hk hout hstep
  | endCall c => cases h; exact .endCall c
  | claim p r e =>
      obtain ⟨row, hrow, h⟩ := Option.bind_eq_some_iff.mp h
      obtain ⟨script, hscript, h⟩ := Option.bind_eq_some_iff.mp h
      split at h
      · rename_i hcan
        cases h
        exact .claim p r e row script hrow hscript hcan.1 (Option.isNone_iff_eq_none.mp hcan.2)
      · cases h
  | exec e ev' =>
      obtain ⟨x, out, hx, hout, rfl⟩ := stepExec_inv h
      exact .exec e ev' x out hx hout
  | endExec e => cases h; exact .endExec e
  | reproduce q r agentId =>
      simp only [step] at h
      split at h
      · cases h
      · cases h
        exact .reproduce q r agentId
  | stepRepro q =>
      obtain ⟨w, out, hw, hout, ⟨hins, rfl⟩ | ⟨orig, n, hpc, rfl⟩⟩ := stepRepro_inv h
      · exact .stepRepro q w out hw hout hins
      · exact .insertRepro q w out orig n hw hout hpc
  | timeoutRepro q =>
      obtain ⟨w, hw, h⟩ := Option.bind_eq_some_iff.mp h
      split at h
      · cases h
        exact .timeoutRepro q w _ _ hw ‹_›
      · cases h

/-! ## Table by table -/

/-- Every script is still there, and unchanged if no statement wrote it. -/
def ScriptsGrow (s s' : Sys) : Prop :=
  ∀ i x, s.scripts i = some x →
    ∃ y, s'.scripts i = some y ∧ x.updates ≤ y.updates ∧ (y.updates = x.updates → y = x)

theorem scriptsGrow_of_eq (h : s'.scripts = s.scripts) : ScriptsGrow s s' := by
  intro i x hx
  exact ⟨x, by rw [h, hx], Nat.le_refl _, fun _ => rfl⟩

/-- A statement that writes a script counts. -/
theorem scriptsGrow_update (i : ScriptId) {y : Script} (hy : y.updates = s.updates i)
    (h : s'.scripts = Function.update s.scripts i (some y)) : ScriptsGrow s s' := by
  intro j x hx
  by_cases hj : j = i
  · subst hj
    have hlater : y.updates = x.updates + 1 := by simp [hy, Sys.updates, hx]
    exact ⟨y, by rw [h, Function.update_self], by omega, fun heq => by omega⟩
  · exact ⟨x, by rw [h, Function.update_of_ne hj, hx], Nat.le_refl _, fun _ => rfl⟩

theorem step_scripts (h : StepOf W s ev s') : ScriptsGrow s s' := by
  cases h with
  | putScript i | updateScriptMeta i => exact scriptsGrow_update i rfl rfl
  | stepCall c e k out s' hk hout hstep => cases hstep <;> exact scriptsGrow_of_eq rfl
  | _ => exact scriptsGrow_of_eq rfl

/-- Only `set_secret` writes secrets. -/
theorem step_secrets (h : StepOf W s ev s') : s.secrets.Extends s'.secrets := by
  cases h with
  | setSecret agentId name value =>
      exact Versioned.extends_write s.secrets fun x => x.set name value agentId
  | stepCall c e k out s' hk hout hstep => cases hstep <;> exact .refl _
  | _ => exact .refl _

/-- A process resolves an image to its digest, or forgets. -/
theorem step_digests (h : StepOf W s ev s') (p : ProcId) (image d : String)
    (hd : (s'.procs p).digests image = some d) :
    (s.procs p).digests image = some d ∨ d = W.imageId image := by
  have hput : ∀ q x, s'.procs = Function.update s.procs q x →
      (x.digests image = some d → (s.procs q).digests image = some d ∨ d = W.imageId image) →
      (s.procs p).digests image = some d ∨ d = W.imageId image := by
    intro q x hprocs hx
    rw [hprocs] at hd
    by_cases hp : p = q
    · subst hp
      rw [Function.update_self] at hd
      exact hx hd
    · rw [Function.update_of_ne hp] at hd
      exact Or.inl hd
  cases h with
  | resolve q image' =>
      refine hput q _ rfl fun hx => ?_
      by_cases himage : image = image'
      · subst himage
        simp only [Proc.resolve, Function.update_self, Option.some.injEq] at hx
        exact Or.inr hx.symm
      · simp only [Proc.resolve, Function.update_of_ne himage] at hx
        exact Or.inl hx
  | restart q => exact hput q _ rfl fun hx => by cases hx
  | exec e ev x out hx hout => exact hput x.proc _ rfl Or.inl
  | stepCall c e k out s' hk hout hstep => cases hstep <;> exact Or.inl hd
  | _ => exact Or.inl hd

/-- A cache is what it was, empty, or has one entry more. -/
theorem step_caches (h : StepOf W s ev s') (p : ProcId) :
    (s'.procs p).secretsCache = (s.procs p).secretsCache ∨
      (s'.procs p).secretsCache = Proc.fresh.secretsCache ∨
      ∃ e x input allow gen m, s.execs e = some x ∧ x.phase = .store input allow gen m ∧
        (s'.procs p).secretsCache =
          (s.procs p).secretsCache.store gen x.job.agentId m := by
  have hput : ∀ q x, s'.procs = Function.update s.procs q x →
      (x.secretsCache = (s.procs q).secretsCache →
        (s'.procs p).secretsCache = (s.procs p).secretsCache) ∧
      (p ≠ q → (s'.procs p).secretsCache = (s.procs p).secretsCache) ∧
      (p = q → (s'.procs p).secretsCache = x.secretsCache) := by
    intro q x hprocs
    rw [hprocs]
    by_cases hp : p = q
    · subst hp
      rw [Function.update_self]
      exact ⟨id, fun hne => absurd rfl hne, fun _ => rfl⟩
    · rw [Function.update_of_ne hp]
      exact ⟨fun _ => rfl, fun _ => rfl, fun heq => absurd heq hp⟩
  cases h with
  | resolve q image => exact Or.inl ((hput q _ rfl).1 rfl)
  | restart q =>
      by_cases hp : p = q
      · exact Or.inr (Or.inl ((hput q _ rfl).2.2 hp))
      · exact Or.inl ((hput q _ rfl).2.1 hp)
  | exec e ev x out hx hout =>
      by_cases hp : p = x.proc
      · subst hp
        have hcache := (hput x.proc _ rfl).2.2 rfl
        cases hout with
        | store input allow gen m hphase =>
            exact Or.inr (Or.inr ⟨e, x, input, allow, gen, m, hx, hphase, hcache⟩)
        | _ => exact Or.inl hcache
      · exact Or.inl ((hput x.proc _ rfl).2.1 hp)
  | stepCall c e k out s' hk hout hstep => cases hstep <;> exact Or.inl rfl
  | _ => exact Or.inl rfl

theorem write_rows {q r : RunId} {f : Row → Row} {row' : Row}
    (h : Function.update s.rows q ((s.rows q).map f) r = some row') :
    s.rows r = some row' ∨ ∃ row, r = q ∧ s.rows r = some row ∧ row' = f row := by
  by_cases hr : r = q
  · subst hr
    rw [Function.update_self] at h
    obtain ⟨row, hrow, rfl⟩ := Option.map_eq_some_iff.mp h
    exact Or.inr ⟨row, rfl, hrow, rfl⟩
  · rw [Function.update_of_ne hr] at h
    exact Or.inl h

theorem insert_rows {r : RunId} {row row' : Row}
    (h : Function.update s.rows s.nextRun (some row) r = some row') :
    s.rows r = some row' ∨ r = s.nextRun ∧ row' = row := by
  by_cases hr : r = s.nextRun
  · subst hr
    rw [Function.update_self] at h
    exact Or.inr ⟨rfl, (Option.some.inj h).symm⟩
  · rw [Function.update_of_ne hr] at h
    exact Or.inl h

theorem finishRun_new (now : Nat) (st : RunStatus) (c : Option Int) (m : Option String)
    (run : Run) :
    (finishRun now st c m run).toNewRun = run.toNewRun ∧
      (finishRun now st c m run).receipt = run.receipt := by
  unfold finishRun
  split <;> exact ⟨rfl, rfl⟩

/-- The queue changes neither what a run is nor what it has shown, and makes
none succeed. -/
theorem queueWrite_apply (now : Nat) (w : QueueWrite) (run : Run) :
    (w.apply now run).toNewRun = run.toNewRun ∧
      ((w.apply now run).status = .succeeded → run.status = .succeeded) ∧
      (w.apply now run).receipt = run.receipt := by
  cases w with
  | requeue => exact ⟨rfl, (fun h => by cases h), rfl⟩
  | reap lease =>
      simp only [QueueWrite.apply, reapOrphanRun]
      split
      · exact ⟨rfl, (fun h => by cases h), rfl⟩
      · exact ⟨rfl, id, rfl⟩
  | cancel reason =>
      simp only [QueueWrite.apply, cancelRun]
      split
      · exact ⟨rfl, id, rfl⟩
      · exact ⟨rfl, (fun h => by cases h), rfl⟩
  | failStale maxAge =>
      simp only [QueueWrite.apply, failStalePending]
      split
      · exact ⟨rfl, (fun h => by cases h), rfl⟩
      · exact ⟨rfl, id, rfl⟩

/-- The write of an execution to its row. -/
theorem execMove_write {e : ExecId} {x : Exec} {ev' : ExecEvent} {out : ExecOut}
    (hx : s.execs e = some x) (h : ExecMove W s x ev' out) (row : Row) :
    RowStep W s x.job.runId row (out.write row) := by
  cases h with
  | job u pc reply out outputs hphase hpc hout =>
      exact .exec e x u pc reply out hx hphase rfl hout
  | ended msg hphase =>
      obtain ⟨hnew, hreceipt⟩ := finishRun_new s.now .failed none (some msg) row.run
      refine .run _ hnew (fun hst => ?_) hreceipt
      rw [finishRun_status] at hst
      split at hst <;> cases hst
  | _ => exact .same

/-- **Where a row comes from.** -/
theorem step_rows (h : StepOf W s ev s') {r : RunId} {row' : Row}
    (hr : s'.rows r = some row') :
    (∃ row, s.rows r = some row ∧ RowStep W s r row row') ∨
      r = s.nextRun ∧ s'.nextRun = s.nextRun + 1 ∧ Inserted s row' := by
  have hinsert : ∀ row, s'.rows = Function.update s.rows s.nextRun (some row) →
      s'.nextRun = s.nextRun + 1 → Inserted s row →
      (∃ row, s.rows r = some row ∧ RowStep W s r row row') ∨
        r = s.nextRun ∧ s'.nextRun = s.nextRun + 1 ∧ Inserted s row' := by
    intro row hrows hnext hins
    rw [hrows] at hr
    rcases insert_rows hr with hold | ⟨hnew, rfl⟩
    · exact Or.inl ⟨row', hold, .same⟩
    · exact Or.inr ⟨hnew, hnext, hins⟩
  have hwrite : ∀ q f, s'.rows = Function.update s.rows q ((s.rows q).map f) →
      (∀ row, s.rows q = some row → RowStep W s q row (f row)) →
      (∃ row, s.rows r = some row ∧ RowStep W s r row row') ∨
        r = s.nextRun ∧ s'.nextRun = s.nextRun + 1 ∧ Inserted s row' := by
    intro q f hrows hstep
    rw [hrows] at hr
    rcases write_rows hr with hold | ⟨row, rfl, hrow, rfl⟩
    · exact Or.inl ⟨row', hold, .same⟩
    · exact Or.inl ⟨row, hrow, hstep row hrow⟩
  cases h with
  | enqueue n => exact hinsert _ rfl rfl (.plain n)
  | queue q w =>
      refine hwrite q _ rfl fun row _ => ?_
      obtain ⟨hnew, hstatus, hreceipt⟩ := queueWrite_apply s.now w row.run
      exact .run _ hnew hstatus hreceipt
  | stepCall c e k out s' hk hout hstep =>
      cases hstep with
      | goto => exact Or.inl ⟨row', hr, .same⟩
      | insert script a hpc => exact hinsert _ rfl rfl (.call c k script a hk hpc)
      | tag script q a hpc => exact hwrite q _ rfl fun row _ => .tag c k script a hk hpc
      | start script q a hpc hfree => exact Or.inl ⟨row', hr, .same⟩
  | claim p q e row script hrow hscript hpending hfree =>
      exact hwrite q _ rfl fun row _ => .run _ rfl (fun hst => by cases hst) rfl
  | exec e ev' x out hx hout =>
      exact hwrite x.job.runId _ rfl fun row _ => execMove_write hx hout row
  | insertRepro q w out orig n hw hout hpc => exact hinsert _ rfl rfl (.repro q w orig n hw hpc)
  | _ => exact Or.inl ⟨row', hr, .same⟩

/-- Rows stay. -/
theorem step_keeps (h : StepOf W s ev s') (hfree : s.rows s.nextRun = none) {r : RunId}
    {row : Row} (hr : s.rows r = some row) :
    ∃ row', s'.rows r = some row' ∧ RowStep W s r row row' := by
  have hne : r ≠ s.nextRun := by
    rintro rfl
    cases hfree.symm.trans hr
  have hwrite : ∀ q f, s'.rows = Function.update s.rows q ((s.rows q).map f) →
      ∃ row', s'.rows r = some row' := by
    intro q f hrows
    rw [hrows]
    by_cases hq : r = q
    · subst hq
      exact ⟨f row, by rw [Function.update_self, hr]; rfl⟩
    · exact ⟨row, by rw [Function.update_of_ne hq, hr]⟩
  have hinsert : ∀ new, s'.rows = Function.update s.rows s.nextRun (some new) →
      ∃ row', s'.rows r = some row' := by
    intro new hrows
    exact ⟨row, by rw [hrows, Function.update_of_ne hne, hr]⟩
  have hsome : ∃ row', s'.rows r = some row' := by
    cases h with
    | enqueue n => exact hinsert _ rfl
    | queue q w => exact hwrite q _ rfl
    | stepCall c e k out s' hk hout hstep =>
        cases hstep with
        | goto => exact ⟨row, hr⟩
        | insert script a hpc => exact hinsert _ rfl
        | tag script q a hpc => exact hwrite q _ rfl
        | start script q a hpc hfree => exact ⟨row, hr⟩
    | claim p q e row script => exact hwrite q _ rfl
    | exec e ev' x out hx hout => exact hwrite x.job.runId _ rfl
    | insertRepro q w out orig n hw hout hpc => exact hinsert _ rfl
    | _ => exact ⟨row, hr⟩
  obtain ⟨row', hr'⟩ := hsome
  rcases step_rows h hr' with ⟨row₀, hrow₀, hstep⟩ | ⟨heq, _, _⟩
  · cases hr.symm.trans hrow₀
    exact ⟨row', hr', hstep⟩
  · exact absurd heq hne

theorem update_some {α : Type} {f : Nat → Option α} {i j : Nat} {a b : α}
    (h : Function.update f i (some a) j = some b) : j = i ∧ b = a ∨ f j = some b := by
  by_cases hj : j = i
  · subst hj
    rw [Function.update_self] at h
    exact Or.inl ⟨rfl, (Option.some.inj h).symm⟩
  · rw [Function.update_of_ne hj] at h
    exact Or.inr h

theorem update_none {α : Type} {f : Nat → Option α} {i j : Nat} {b : α}
    (h : Function.update f i none j = some b) : f j = some b := by
  by_cases hj : j = i
  · subst hj
    rw [Function.update_self] at h
    cases h
  · rwa [Function.update_of_ne hj] at h

/-- **Where an execution comes from.** -/
theorem step_execs (h : StepOf W s ev s') {e : ExecId} {x' : Exec}
    (he : s'.execs e = some x') : ExecChange W s ev e x' := by
  cases h with
  | restart p => exact .same (Option.filter_eq_some_iff.mp he).1
  | stepCall c e' k out s' hk hout hstep =>
      cases hstep with
      | goto | insert | tag => exact .same he
      | start script r a hpc hfree =>
          rcases update_some he with ⟨_, rfl⟩ | hold
          · exact .started c k script r a hk hpc rfl
          · exact .same hold
  | claim p r e' row script hrow hscript hpending hfree =>
      rcases update_some he with ⟨rfl, rfl⟩ | hold
      · exact .claimed p r row script rfl hrow hscript rfl
      · exact .same hold
  | exec e' ev' x out hx hout =>
      replace he : Function.update s.execs e' out.exec e = some x' := he
      by_cases hj : e = e'
      · subst hj
        rw [Function.update_self] at he
        exact .moved x ev' out rfl hx hout he
      · rw [Function.update_of_ne hj] at he
        exact .same he
  | endExec e' => exact .same (update_none he)
  | _ => exact .same he

/-- **Where a call comes from.** -/
theorem step_calls (h : StepOf W s ev s') {c : CallId} {k' : Call}
    (hc : s'.calls c = some k') : CallChange W s ev c k' := by
  cases h with
  | restart p => exact .same (Option.filter_eq_some_iff.mp hc).1
  | call c' p req =>
      rcases update_some hc with ⟨rfl, rfl⟩ | hold
      · exact .new p req rfl
      · exact .same hold
  | stepCall c' e k out s' hk hout hstep =>
      have hcalls : s'.calls = Function.update s.calls c' (some { k with pc := out.pc }) := by
        cases hstep <;> rfl
      rw [hcalls] at hc
      rcases update_some hc with ⟨rfl, rfl⟩ | hold
      · exact .moved k e out rfl hk hout rfl
      · exact .same hold
  | endCall c' => exact .same (update_none hc)
  | _ => exact .same hc

/-- **Where a reproduction comes from.** -/
theorem step_repros (h : StepOf W s ev s') {q : ReproId} {w' : Repro}
    (hq : s'.repros q = some w') : ReproChange W s s' q w' := by
  cases h with
  | reproduce q' r agentId =>
      rcases update_some hq with ⟨rfl, rfl⟩ | hold
      · exact .new r agentId rfl
      · exact .same hold
  | stepRepro q' w out hw hout hins =>
      rcases update_some hq with ⟨rfl, rfl⟩ | hold
      · refine .moved w out hw hout rfl fun orig n hpc => ?_
        simp only [reproMove, hpc, Option.some.injEq] at hout
        subst hout
        cases hins
      · exact .same hold
  | insertRepro q' w out orig n hw hout hpc =>
      rcases update_some hq with ⟨rfl, rfl⟩ | hold
      · refine .moved w out hw hout rfl fun orig' n' hpc' => ?_
        cases hpc.symm.trans hpc'
        exact Function.update_self _ _ _
      · exact .same hold
  | timeoutRepro q' w orig r hw hpc =>
      rcases update_some hq with ⟨rfl, rfl⟩ | hold
      · exact .timedOut w orig r hw hpc rfl
      · exact .same hold
  | stepCall c e k out s' hk hout hstep => cases hstep <;> exact .same hq
  | _ => exact .same hq

/-- The row a call inserts. -/
theorem step_insert {c : CallId} {e : ExecId} {k : Call} {script : Script} {a : Option Asked}
    (h : StepOf W s (.stepCall c e) s') (hk : s.calls c = some k)
    (hpc : k.pc = .insert script a) : s'.rows s.nextRun = some (k.row s.now a) := by
  cases h with
  | stepCall c e k' out s' hk' hout hstep =>
      cases hk.symm.trans hk'
      cases hstep with
      | goto hnot => exact absurd hpc (hnot script a)
      | insert script' a' hpc' =>
          cases hpc.symm.trans hpc'
          exact Function.update_self _ _ _
      | tag script' r a' hpc' => cases hpc.symm.trans hpc'
      | start script' r a' hpc' => cases hpc.symm.trans hpc'

/-- Run ids are handed out in order. -/
theorem step_nextRun (h : StepOf W s ev s') : s.nextRun ≤ s'.nextRun := by
  cases h with
  | enqueue | insertRepro => exact Nat.le_succ _
  | stepCall c e k out s' hk hout hstep =>
      cases hstep with
      | insert => exact Nat.le_succ _
      | goto | tag | start => exact Nat.le_refl _
  | _ => exact Nat.le_refl _

end Effects

end Dokan.Ports.Provenance
