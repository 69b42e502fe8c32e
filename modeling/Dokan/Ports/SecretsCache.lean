import Dokan.Ports.Provenance

/-!
# How fresh the secrets of a call are

`upsert_secret` writes a secret and bumps the generation in one transaction; the
row of the generation is locked from the bump to the commit.  `all_secrets_for`
reads the generation, then looks into the cache of its process, then reads the
two tables one after the other, and keeps what it read under the generation it
began with, whatever the cache holds by then.

What is kept under a generation was therefore read at that generation or a later
one, secret by secret: scoped secrets are read last, and no secret is ever
deleted.  Other row locks of a transaction only take interleavings away.

## Main results

* `Inv.step` — no label is newer than what it is put on.
* `secrets_fresh` — every secret a call returns was in effect at some moment
  since the call began.
-/

namespace Dokan.Ports.SecretsCache

open Dokan.Verified
open Dokan.Verified.VersionMemo
open Dokan.Ports.Provenance (SecretMap Secrets merge)

abbrev ProcId := Nat
abbrev CallId := Nat
abbrev TxId := Nat

/-! ## Transactions and calls -/

/-- The point an `upsert_secret` has reached. -/
inductive TxPc
  /-- before the `INSERT` of the secret -/
  | row
  /-- before the `UPDATE` of the generation -/
  | bump
  /-- before the commit, with the new generation -/
  | commit (v : Int)
  | ended

structure Tx where
  name : String
  value : String
  agentId : Option String
  pc : TxPc

/-- The point an `all_secrets_for` has reached. -/
inductive Pc
  /-- before `secrets_generation` -/
  | generation
  /-- before the lookup in the cache -/
  | lookup (gen : Int)
  /-- before the `SELECT` of global secrets -/
  | globals (gen : Int)
  /-- before the `SELECT` of the agent's secrets -/
  | agentSecrets (gen : Int) (m : SecretMap)
  /-- before the result is put into the cache -/
  | store (gen : Int) (m : SecretMap)
  | returned (m : SecretMap)
  | failed

structure Call where
  proc : ProcId
  agentId : Option String
  /-- history: the generation when the call began -/
  since : Int
  pc : Pc

structure Sys where
  /-- what is committed: the two tables and the generation -/
  secrets : Versioned Secrets
  /-- the transaction that holds the row of the generation -/
  locked : Option TxId
  txs : TxId → Option Tx
  /-- `Db::secrets_cache` -/
  caches : ProcId → Memo (Option String) SecretMap
  calls : CallId → Option Call

def Sys.setTx (s : Sys) (t : TxId) (tx : Tx) : Sys :=
  { s with txs := Function.update s.txs t (some tx) }

def Sys.goto (s : Sys) (c : CallId) (call : Call) (pc : Pc) : Sys :=
  { s with calls := Function.update s.calls c (some { call with pc }) }

/-- The next statement of an `upsert_secret`. -/
def Sys.stepTx (s : Sys) (t : TxId) (tx : Tx) : Option Sys :=
  match tx.pc with
  | .row => some (s.setTx t { tx with pc := .bump })
  | .bump =>
      if s.locked.isNone then
        some { s.setTx t { tx with pc := .commit (s.secrets.version + 1) } with locked := some t }
      else none
  | .commit v =>
      let set := s.secrets.value.set tx.name tx.value tx.agentId
      some { s.setTx t { tx with pc := .ended } with
        locked := none
        secrets := ⟨v, Function.update s.secrets.history v set⟩ }
  | .ended => none

/-- An `upsert_secret` is rolled back. -/
def Sys.rollback (s : Sys) (t : TxId) (tx : Tx) : Option Sys :=
  match tx.pc with
  | .row | .bump => some (s.setTx t { tx with pc := .ended })
  | .commit _ => some { s.setTx t { tx with pc := .ended } with locked := none }
  | .ended => none

/-- The next step of an `all_secrets_for`. -/
def Sys.stepCall (s : Sys) (c : CallId) (call : Call) : Option Sys :=
  match call.pc with
  | .generation => some (s.goto c call (.lookup s.secrets.version))
  | .lookup gen =>
      match (s.caches call.proc).lookup gen call.agentId with
      | some m => some (s.goto c call (.returned m))
      | none => some (s.goto c call (.globals gen))
  | .globals gen =>
      match call.agentId with
      | none => some (s.goto c call (.store gen s.secrets.value.globals))
      | some _ => some (s.goto c call (.agentSecrets gen s.secrets.value.globals))
  | .agentSecrets gen m =>
      call.agentId.map fun a => s.goto c call (.store gen (merge m (s.secrets.value.agents a)))
  | .store gen m =>
      let cache := (s.caches call.proc).store gen call.agentId m
      some { s.goto c call (.returned m) with
        caches := Function.update s.caches call.proc cache }
  | .returned _ | .failed => none

/-- A query of the call fails. -/
def Sys.errCall (s : Sys) (c : CallId) (call : Call) : Option Sys :=
  match call.pc with
  | .generation | .globals _ | .agentSecrets _ _ => some (s.goto c call .failed)
  | .lookup _ | .store _ _ | .returned _ | .failed => none

/-- The process of the call is gone. -/
def Call.lose (p : ProcId) (call : Call) : Call :=
  match call.pc with
  | .returned _ => call
  | _ => if call.proc = p then { call with pc := .failed } else call

inductive Label
  | upsert (t : TxId) (name value : String) (agentId : Option String)
  | tx (t : TxId)
  | rollback (t : TxId)
  | call (c : CallId) (p : ProcId) (agentId : Option String)
  | read (c : CallId)
  | err (c : CallId)
  | restart (p : ProcId)

def step (s : Sys) : Label → Option Sys
  | .upsert t name value agentId =>
      if (s.txs t).isNone then some (s.setTx t ⟨name, value, agentId, .row⟩) else none
  | .tx t => (s.txs t).bind fun tx => s.stepTx t tx
  | .rollback t => (s.txs t).bind fun tx => s.rollback t tx
  | .call c p agentId =>
      if (s.calls c).isNone then
        some (s.goto c ⟨p, agentId, s.secrets.version, .generation⟩ .generation)
      else none
  | .read c => (s.calls c).bind fun call => s.stepCall c call
  | .err c => (s.calls c).bind fun call => s.errCall c call
  | .restart p =>
      some { s with
        caches := Function.update s.caches p ⟨-1, fun _ => none⟩
        calls := fun c => (s.calls c).map (Call.lose p) }

/-- Tables and a generation, and no process has cached anything. -/
def start (secrets : Secrets) (gen : Int) : Sys where
  secrets := ⟨gen, fun _ => secrets⟩
  locked := none
  txs := fun _ => none
  caches := fun _ => ⟨-1, fun _ => none⟩
  calls := fun _ => none

/-! ## What a reader may rely on -/

/-- No secret of `x` is missing in `y`. -/
structure Keeps (x y : Secrets) : Prop where
  globals : ∀ name, x.globals name ≠ none → y.globals name ≠ none
  agents : ∀ a name, x.agents a name ≠ none → y.agents a name ≠ none

theorem Keeps.refl (x : Secrets) : Keeps x x := ⟨fun _ h => h, fun _ _ h => h⟩

theorem Keeps.trans {x y z : Secrets} (h : Keeps x y) (h' : Keeps y z) : Keeps x z :=
  ⟨fun name hx => h'.globals name (h.globals name hx),
    fun a name hx => h'.agents a name (h.agents a name hx)⟩

theorem update_ne_none {m : SecretMap} {name name' value : String} (h : m name' ≠ none) :
    Function.update m name (some value) name' ≠ none := by
  rw [Function.update_apply]
  split_ifs
  · exact Option.some_ne_none value
  · exact h

theorem keeps_set (x : Secrets) (name value : String) (agentId : Option String) :
    Keeps x (x.set name value agentId) := by
  cases agentId with
  | none => exact ⟨fun name' h => update_ne_none h, fun _ _ h => h⟩
  | some a =>
      refine ⟨fun _ h => h, fun a' name' h => ?_⟩
      by_cases ha : a' = a
      · subst ha
        simp only [Secrets.set, Function.update_self]
        exact update_ne_none h
      · simp only [Secrets.set, Function.update_of_ne ha]
        exact h

/-- A visible name stays visible. -/
theorem Keeps.visible {x y : Secrets} (h : Keeps x y) {agentId : Option String} {name : String}
    (hx : x.visible agentId name ≠ none) : y.visible agentId name ≠ none := by
  cases agentId with
  | none => exact h.globals name hx
  | some a =>
      simp only [Secrets.visible, merge, ne_eq, Option.or_eq_none_iff, not_and_or] at hx ⊢
      exact hx.imp (h.agents a name) (h.globals name)

/-- Every secret was in effect at some generation from `gen` on. -/
def Fresh (x : Versioned Secrets) (gen : Int) (agentId : Option String) (m : SecretMap) : Prop :=
  ∀ name, x.Since gen fun secrets => m name = secrets.visible agentId name

theorem Fresh.extends {x y : Versioned Secrets} {gen : Int} {agentId : Option String}
    {m : SecretMap} (h : Fresh x gen agentId m) (hxy : Versioned.Extends x y) :
    Fresh y gen agentId m :=
  fun name => (h name).extends hxy

theorem Fresh.earlier {x : Versioned Secrets} {gen gen' : Int} {agentId : Option String}
    {m : SecretMap} (h : Fresh x gen agentId m) (hle : gen' ≤ gen) : Fresh x gen' agentId m :=
  fun name => (h name).earlier hle

/-- Secrets are never deleted. -/
def Growing (x : Versioned Secrets) : Prop :=
  ∀ i j, i ≤ j → j ≤ x.version → Keeps (x.history i) (x.history j)

theorem Growing.write {x : Versioned Secrets} (h : Growing x) (name value : String)
    (agentId : Option String) :
    Growing (x.write fun secrets => secrets.set name value agentId) := by
  have hold : ∀ i ≤ x.version,
      (x.write fun secrets => secrets.set name value agentId).history i = x.history i :=
    (Versioned.extends_write x _).same
  intro i j hij hj
  have hj : j ≤ x.version + 1 := hj
  by_cases hlast : j ≤ x.version
  · rw [hold i (Int.le_trans hij hlast), hold j hlast]
    exact h i j hij hlast
  · obtain rfl : j = x.version + 1 := by omega
    by_cases hi : i ≤ x.version
    · rw [hold i hi]
      refine (h i x.version hi (Int.le_refl _)).trans ?_
      simp only [Versioned.write, Function.update_self]
      exact keeps_set x.value name value agentId
    · obtain rfl : i = x.version + 1 := by omega
      exact Keeps.refl _

/-- **Two reads.**  Global secrets of one moment and, later, the scoped ones. -/
theorem fresh_merge {x : Versioned Secrets} {gen : Int} {a : String} {m : SecretMap}
    (hgrow : Growing x) (hgen : gen ≤ x.version)
    (hm : x.Since gen fun secrets => m = secrets.globals) :
    Fresh x gen (some a) (merge m (x.value.agents a)) := by
  intro name
  cases hown : x.value.agents a name with
  | some value =>
      refine Versioned.since_value hgen ?_
      simp only [Secrets.visible, merge, hown, Option.some_or]
  | none =>
      -- not scoped now, so not scoped when the global secrets were read
      obtain ⟨i, hgi, hi, rfl⟩ := hm
      refine ⟨i, hgi, hi, ?_⟩
      have hthen : (x.history i).agents a name = none := by
        by_contra hne
        exact (hgrow i x.version hi (Int.le_refl _)).agents a name hne hown
      simp only [Secrets.visible, merge, hown, hthen]

/-! ## The invariant -/

/-- What a call has read so far. -/
def CallOk (x : Versioned Secrets) (call : Call) : Prop :=
  match call.pc with
  | .generation => call.since ≤ x.version
  | .lookup gen | .globals gen => call.since ≤ gen ∧ gen ≤ x.version
  | .agentSecrets gen m =>
      call.since ≤ gen ∧ gen ≤ x.version ∧ x.Since gen fun secrets => m = secrets.globals
  | .store gen m => call.since ≤ gen ∧ Fresh x gen call.agentId m
  | .returned m => Fresh x call.since call.agentId m
  | .failed => True

/-- Nothing is labelled with a generation newer than it. -/
structure Inv (s : Sys) : Prop where
  growing : Growing s.secrets
  locked : ∀ t tx v, s.txs t = some tx → tx.pc = .commit v →
    s.locked = some t ∧ v = s.secrets.version + 1
  caches : ∀ p, (s.caches p).Holds (Fresh s.secrets)
  calls : ∀ c call, s.calls c = some call → CallOk s.secrets call

theorem inv_start (secrets : Secrets) (gen : Int) : Inv (start secrets gen) where
  growing := fun _ _ _ _ => Keeps.refl _
  locked := by rintro t tx v ⟨⟩
  caches := fun _ => Memo.holds_of_empty _
  calls := by rintro c call ⟨⟩

section Preservation

variable {s s' : Sys}

/-- Commits change nothing a call has read. -/
theorem CallOk.extends {x y : Versioned Secrets} {call : Call} (h : CallOk x call)
    (hxy : Versioned.Extends x y) : CallOk y call := by
  have hle : ∀ gen, gen ≤ x.version → gen ≤ y.version := fun _ h => Int.le_trans h hxy.le
  unfold CallOk at h ⊢
  split at h
  · exact hle _ h
  · exact ⟨h.1, hle _ h.2⟩
  · exact ⟨h.1, hle _ h.2⟩
  · exact ⟨h.1, hle _ h.2.1, h.2.2.extends hxy⟩
  · exact ⟨h.1, h.2.extends hxy⟩
  · exact h.extends hxy
  · trivial

/-- A call reads on. -/
theorem Inv.goto (hI : Inv s) {c : CallId} {call : Call} {pc : Pc}
    (hok : CallOk s.secrets { call with pc }) : Inv (s.goto c call pc) where
  growing := hI.growing
  locked := hI.locked
  caches := hI.caches
  calls := by
    intro c' call' hc'
    simp only [Sys.goto, Function.update_apply] at hc'
    split_ifs at hc'
    · cases hc'
      exact hok
    · exact hI.calls c' call' hc'

/-- **One step of a call**: what it puts into the cache is as new as its label. -/
theorem Inv.stepCall (hI : Inv s) {c : CallId} {call : Call} (hc : s.calls c = some call)
    (h : s.stepCall c call = some s') : Inv s' := by
  have hok := hI.calls c call hc
  cases hpc : call.pc with
  | generation =>
      simp only [CallOk, hpc] at hok
      simp only [Sys.stepCall, hpc] at h
      cases h
      exact hI.goto ⟨hok, Int.le_refl _⟩
  | lookup gen =>
      simp only [CallOk, hpc] at hok
      simp only [Sys.stepCall, hpc] at h
      split at h
      · next m hm =>
          -- a hit is as new as the generation that was read
          cases h
          have hfresh : Fresh s.secrets gen call.agentId m := (hI.caches call.proc).lookup hm
          exact hI.goto (hfresh.earlier hok.1)
      · cases h
        exact hI.goto hok
  | globals gen =>
      simp only [CallOk, hpc] at hok
      simp only [Sys.stepCall, hpc] at h
      split at h
      · next hagent =>
          cases h
          refine hI.goto ⟨hok.1, ?_⟩
          rw [hagent]
          exact fun name => Versioned.since_value hok.2 rfl
      · cases h
        exact hI.goto ⟨hok.1, hok.2, Versioned.since_value hok.2 rfl⟩
  | agentSecrets gen m =>
      simp only [CallOk, hpc] at hok
      simp only [Sys.stepCall, hpc] at h
      obtain ⟨a, hagent, rfl⟩ := Option.map_eq_some_iff.mp h
      refine hI.goto ⟨hok.1, ?_⟩
      rw [hagent]
      exact fresh_merge hI.growing hok.2.1 hok.2.2
  | store gen m =>
      simp only [CallOk, hpc] at hok
      simp only [Sys.stepCall, hpc] at h
      cases h
      have hgoto : Inv (s.goto c call (.returned m)) := hI.goto (hok.2.earlier hok.1)
      refine ⟨hgoto.growing, hgoto.locked, ?_, hgoto.calls⟩
      intro p
      simp only [Function.update_apply]
      split_ifs
      · exact (hI.caches call.proc).store hok.2
      · exact hI.caches p
  | returned m =>
      simp only [Sys.stepCall, hpc] at h
      cases h
  | failed =>
      simp only [Sys.stepCall, hpc] at h
      cases h

theorem Inv.errCall (hI : Inv s) {c : CallId} {call : Call} (h : s.errCall c call = some s') :
    Inv s' := by
  unfold Sys.errCall at h
  split at h
  all_goals first
    | cases h; exact hI.goto trivial
    | cases h

/-- A transaction moves, and does not hold the lock. -/
theorem Inv.setTx (hI : Inv s) {t : TxId} {tx : Tx} (hno : ∀ v, tx.pc ≠ .commit v) :
    Inv (s.setTx t tx) := by
  refine ⟨hI.growing, ?_, hI.caches, hI.calls⟩
  intro t' tx' v ht' hv
  simp only [Sys.setTx, Function.update_apply] at ht'
  split_ifs at ht'
  · cases ht'
    exact absurd hv (hno v)
  · exact hI.locked t' tx' v ht' hv

/-- **One statement of a transaction.**  The lock makes a commit a write of the
next generation. -/
theorem Inv.stepTx (hI : Inv s) {t : TxId} {tx : Tx} (ht : s.txs t = some tx)
    (h : s.stepTx t tx = some s') : Inv s' := by
  cases hpc : tx.pc with
  | row =>
      simp only [Sys.stepTx, hpc] at h
      cases h
      exact hI.setTx fun v => TxPc.noConfusion
  | bump =>
      simp only [Sys.stepTx, hpc] at h
      split_ifs at h with hfree
      cases h
      refine ⟨hI.growing, ?_, hI.caches, hI.calls⟩
      intro t' tx' v ht' hv
      simp only [Sys.setTx, Function.update_apply] at ht'
      split_ifs at ht' with heq
      · cases ht'
        cases hv
        exact ⟨by rw [heq], rfl⟩
      · -- nobody else held the lock
        rw [(hI.locked t' tx' v ht' hv).1] at hfree
        cases hfree
  | commit v =>
      obtain ⟨hheld, rfl⟩ := hI.locked t tx v ht hpc
      simp only [Sys.stepTx, hpc] at h
      cases h
      have hext : Versioned.Extends s.secrets
          (s.secrets.write fun secrets => secrets.set tx.name tx.value tx.agentId) :=
        Versioned.extends_write s.secrets _
      refine ⟨hI.growing.write tx.name tx.value tx.agentId, ?_, ?_, ?_⟩
      · intro t' tx' v ht' hv
        simp only [Sys.setTx, Function.update_apply] at ht'
        split_ifs at ht' with heq
        · cases ht'
          cases hv
        · have hother := (hI.locked t' tx' v ht' hv).1
          rw [hheld] at hother
          exact absurd (Option.some.inj hother).symm heq
      · exact fun p => (hI.caches p).mono fun gen agentId m hm => hm.extends hext
      · exact fun c call hc => (hI.calls c call hc).extends hext
  | ended =>
      simp only [Sys.stepTx, hpc] at h
      cases h

theorem Inv.rollback (hI : Inv s) {t : TxId} {tx : Tx} (ht : s.txs t = some tx)
    (h : s.rollback t tx = some s') : Inv s' := by
  have hkeep : Inv (s.setTx t { tx with pc := .ended }) :=
    hI.setTx fun v => TxPc.noConfusion
  cases hpc : tx.pc with
  | row =>
      simp only [Sys.rollback, hpc] at h
      cases h
      exact hkeep
  | bump =>
      simp only [Sys.rollback, hpc] at h
      cases h
      exact hkeep
  | commit v =>
      simp only [Sys.rollback, hpc] at h
      cases h
      refine ⟨hI.growing, ?_, hI.caches, hI.calls⟩
      intro t' tx' v' ht' hv
      simp only [Sys.setTx, Function.update_apply] at ht'
      split_ifs at ht' with heq
      · cases ht'
        cases hv
      · -- nobody else held the lock
        have hother := (hI.locked t' tx' v' ht' hv).1
        rw [(hI.locked t tx v ht hpc).1] at hother
        exact absurd (Option.some.inj hother).symm heq
  | ended =>
      simp only [Sys.rollback, hpc] at h
      cases h

theorem CallOk.lose {x : Versioned Secrets} {call : Call} (h : CallOk x call) (p : ProcId) :
    CallOk x (call.lose p) := by
  unfold Call.lose
  split
  · exact h
  · split_ifs
    · trivial
    · exact h

/-- **One step** of a transaction, a call or a process. -/
theorem Inv.step {a : Label} (hI : Inv s) (h : step s a = some s') : Inv s' := by
  cases a with
  | upsert t name value agentId =>
      simp only [SecretsCache.step] at h
      split_ifs at h
      cases h
      exact hI.setTx fun v => TxPc.noConfusion
  | tx t =>
      obtain ⟨tx, ht, hs⟩ := Option.bind_eq_some_iff.mp h
      exact hI.stepTx ht hs
  | rollback t =>
      obtain ⟨tx, ht, hs⟩ := Option.bind_eq_some_iff.mp h
      exact hI.rollback ht hs
  | call c p agentId =>
      simp only [SecretsCache.step] at h
      split_ifs at h
      cases h
      exact hI.goto (Int.le_refl s.secrets.version)
  | read c =>
      obtain ⟨call, hc, hs⟩ := Option.bind_eq_some_iff.mp h
      exact hI.stepCall hc hs
  | err c =>
      obtain ⟨call, _, hs⟩ := Option.bind_eq_some_iff.mp h
      exact hI.errCall hs
  | restart p =>
      cases h
      refine ⟨hI.growing, hI.locked, ?_, ?_⟩
      · intro p'
        simp only [Function.update_apply]
        split_ifs
        · exact Memo.holds_of_empty _
        · exact hI.caches p'
      · intro c call' hc'
        obtain ⟨call, hc, rfl⟩ := Option.map_eq_some_iff.mp hc'
        exact (hI.calls c call hc).lose p

end Preservation

theorem inv_run {secrets : Secrets} {gen : Int} {l : List Label} {s : Sys}
    (hrun : Machine.run step (start secrets gen) l = some s) : Inv s :=
  Machine.inv_run (fun _ _ _ hI _ h => hI.step h) (inv_start secrets gen)
    (Machine.along_of_forall (P := fun _ => True) fun _ _ => trivial) hrun

/-- **Fresh secrets.**  In every interleaving of calls of any processes with
upserts, every secret a call returned was in effect, scoped before global, at
some generation from the one on at which the call began; and no name is missing
that was visible then. -/
theorem secrets_fresh {secrets : Secrets} {gen : Int} {l : List Label} {s : Sys}
    (hrun : Machine.run step (start secrets gen) l = some s) {c : CallId} {call : Call}
    {m : SecretMap} (hc : s.calls c = some call) (hpc : call.pc = .returned m) :
    (∀ name, ∃ i, call.since ≤ i ∧ i ≤ s.secrets.version ∧
      m name = (s.secrets.history i).visible call.agentId name) ∧
    ∀ name, (s.secrets.history call.since).visible call.agentId name ≠ none →
      m name ≠ none := by
  have hI := inv_run hrun
  have hfresh := hI.calls c call hc
  simp only [CallOk, hpc] at hfresh
  refine ⟨hfresh, fun name hvisible => ?_⟩
  obtain ⟨i, hsince, hi, hm⟩ := hfresh name
  rw [hm]
  exact (hI.growing call.since i hsince hi).visible hvisible

/-- A global key. -/
def oneKey : Secrets where
  globals := fun name => if name = "KEY" then some "old" else none
  agents := fun _ _ => none

/-- A call reads the generation; the key is set, another call caches it; then
the first one goes on and puts an older label on the cache. -/
def lateStore : List Label :=
  [ .call 0 0 none, .read 0
  , .upsert 0 "KEY" "new" none, .tx 0, .tx 0, .tx 0
  , .call 1 0 none, .read 1, .read 1, .read 1, .read 1
  , .read 0, .read 0, .read 0 ]

/-- `secrets_fresh` when generations are installed in the wrong order. -/
theorem secrets_fresh_lateStore :
    ∃ s call m, Machine.run step (start oneKey 0) lateStore = some s ∧
      s.calls 0 = some call ∧ call.pc = .returned m ∧ (s.caches 0).version = 0 ∧
      (∀ name, ∃ i, call.since ≤ i ∧ i ≤ s.secrets.version ∧
        m name = (s.secrets.history i).visible call.agentId name) ∧
      ∀ name, (s.secrets.history call.since).visible call.agentId name ≠ none →
        m name ≠ none := by
  let m := (oneKey.set "KEY" "new" none).globals
  obtain ⟨s, hrun⟩ : ∃ s, Machine.run step (start oneKey 0) lateStore = some s := ⟨_, rfl⟩
  have hc : s.calls 0 = some ⟨0, none, 0, .returned m⟩ ∧ (s.caches 0).version = 0 := by
    cases hrun
    exact ⟨rfl, rfl⟩
  exact ⟨s, _, m, hrun, hc.1, rfl, hc.2, secrets_fresh hrun hc.1 rfl⟩

end Dokan.Ports.SecretsCache
