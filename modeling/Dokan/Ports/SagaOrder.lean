import Dokan.Ports.FlowRecovery

/-!
# The order of compensations

`compensate` goes through the succeeded steps by descending `finished_at` and
leaves a durable flag behind after each call.  A step finishes after everything
it depends on, so its compensation is called first, in one sweep and across
crashes: what was called before a crash is called again only until its flag is
set, and its flag is set before the next call.  The one way around this order
is a step that `compensate` passes over, because it knows no runtime for the
compensation script, and that a later sweep finds runnable.

## Main results

* `Timed.write` — a step finishes later than its dependencies.
* `saga_order` — no call for a step comes after a call for one it depends on,
  unless the step was passed over before.
* `not_saga_order` — a compensation that is passed over and then repaired.
-/

namespace Dokan.Ports.SagaOrder

open Dokan.Verified
open Dokan.Verified.Json
open Dokan.Ports.FlowRow
open Dokan.Ports.FlowSpec
open Dokan.Ports.FlowDriver
open Dokan.Ports.FlowLedger
open Dokan.Ports.FlowMoves
open Dokan.Ports.FlowOrder
open Dokan.Ports.FlowRecovery

/-! ## The calls of `compensate` -/

/-- What `compensate` does about a step. -/
inductive SagaEvent
  /-- `Executor::run` for the compensation of the step -/
  | called (id : String)
  /-- its script has no runtime that `runtime_spec` knows -/
  | passed (id : String)
deriving DecidableEq

/-- What the label does, in the state `s`. -/
def sagaEvent (s : Flow) : Label → Option SagaEvent
  | .drive reply =>
      match s.pc, reply with
      | .compensate (x :: _) _ .insert, .run _ => some (.called x.stepId)
      | .compensate (x :: _) _ .script, .script (some runtime) =>
          if (runtimeSpec runtime).isNone then some (.passed x.stepId) else none
      | _, _ => none
  | _ => none

/-- A flow run, and what `compensate` has done in it. -/
structure Logged where
  flow : Flow
  log : List SagaEvent

def loggedStep (parse : String → Option Value) (s : Logged) (a : Label) : Option Logged :=
  (step parse s.flow a).map fun flow =>
    { flow, log := s.log ++ (sagaEvent s.flow a).toList }

def loggedStart (spec input : Value) : Logged := { flow := start spec input, log := [] }

/-- A statement, as against time and processes. -/
def statement : Label → Bool
  | .drive _ => true
  | .task _ _ => true
  | _ => false

/-- `now()` is later than every time in the ledger. -/
def Later (s : Flow) : Prop := ∀ x ∈ s.steps, ∀ t ∈ x.finishedAt, t < s.now

/-- `compensate` finds the script it looks up. -/
def found : DriverPc → Label → Bool
  | .compensate (_ :: _) _ .script, .drive (.script none) => false
  | _, _ => true

/-- The clock of the database is strictly increasing, every statement is
answered, and no compensation script is deleted. -/
structure OrderCond (s : Logged) (a : Label) : Prop where
  later : statement a = true → Later s.flow
  answered : answered a = true
  kept : found s.flow.pc a = true

instance (s : Flow) : Decidable (Later s) :=
  inferInstanceAs (Decidable (∀ x ∈ s.steps, ∀ t ∈ x.finishedAt, _))

instance (s : Logged) (a : Label) : Decidable (OrderCond s a) :=
  decidable_of_iff ((statement a = true → Later s.flow) ∧ answered a = true ∧
      found s.flow.pc a = true)
    ⟨fun h => ⟨h.1, h.2.1, h.2.2⟩, fun h => ⟨h.later, h.answered, h.kept⟩⟩

/-! ## Times -/

/-- `a` has finished before `b`. -/
def Before (a b : FlowStep) : Prop := ∃ t ∈ a.finishedAt, ∃ u ∈ b.finishedAt, t < u

theorem Before.trans {a b c : FlowStep} (h : Before a b) (h' : Before b c) : Before a c := by
  obtain ⟨t, ht, u, hu, htu⟩ := h
  obtain ⟨u', hu', v, hv, huv⟩ := h'
  cases Option.mem_unique hu hu'
  exact ⟨t, ht, v, hv, Nat.lt_trans htu huv⟩

/-- What finished later is not later in the order of `compensate`. -/
theorem Before.not_finishedAfter {a b : FlowStep} (h : Before a b) :
    finishedAfter a b = false := by
  obtain ⟨t, ht, u, hu, htu⟩ := h
  rw [Option.mem_def] at ht hu
  simp only [finishedAfter, ht, hu, decide_eq_false_iff_not]
  exact Nat.not_le_of_lt htu

theorem finishedAfter_refl (x : FlowStep) : finishedAfter x x = true := by
  unfold finishedAfter
  cases x.finishedAt with
  | none => rfl
  | some t => simp

variable {base steps : List FlowStep} {parse : String → Option Value} {now : Nat} {w : Write}

/-- Succeeded steps have a time, later than those of their dependencies. -/
structure Timed (steps : List FlowStep) : Prop where
  finished : ∀ x ∈ steps, x.status = .succeeded → ∃ t, t ∈ x.finishedAt
  before : ∀ a ∈ steps, ∀ b ∈ steps, a.status = .succeeded → b.status = .succeeded →
    a.stepId ∈ b.dependsOn → Before a b

/-- A row that is succeeded after a legal statement was so before, with the same
time, or has just finished with its dependencies succeeded. -/
theorem succeeded_apply (hL : Ledger base steps) (hbase : NoHash base)
    (hw : Legal base steps w) {x : FlowStep} (hx : x ∈ w.apply now steps)
    (hsucc : x.status = .succeeded) :
    ∃ y ∈ steps, y.stepId = x.stepId ∧ y.dependsOn = x.dependsOn ∧
      (y.status = .succeeded ∧ y.finishedAt = x.finishedAt ∨
        y.status.active = true ∧ ReadyDeps steps y ∧ x.finishedAt = some now ∧
          y.stepId = w.id) := by
  rcases (mem_apply hL hbase hw).mp hx with ⟨hx, _⟩ | ⟨y, hy, hid, rfl⟩ | hx
  · exact ⟨x, hx, rfl, rfl, .inl ⟨hsucc, rfl⟩⟩
  · refine ⟨y, hy, (stepId_row w y).symm, (dependsOn_row w y).symm, ?_⟩
    have hat := hw.target hL hy hid
    cases w with
    | setRunning id runId => cases hsucc
    | finish id status output => exact .inr ⟨hat.2.1, hat.2.2.1, rfl, hid⟩
    | skip id => cases hsucc
    | expand parent children cache => cases hsucc
    | compensated id => exact .inl ⟨hsucc, rfl⟩
  · obtain ⟨_, _, _, _, _, hpend, _⟩ := hw.mem_rows now hx
    rw [hpend] at hsucc
    cases hsucc

/-- A row that a step with succeeded dependencies depends on is not active. -/
theorem not_active_of_readyDeps (hL : Ledger base steps) {x y : FlowStep}
    (hx : ReadyDeps steps x) (hy : y ∈ steps) (hdep : y.stepId ∈ x.dependsOn) :
    y.status.active = false := by
  obtain ⟨t, ht, hid, hsucc⟩ := hx _ hdep
  obtain rfl := Rows.eq_of_key_eq hL.nodup ht hy hid
  rw [hsucc]
  rfl

/-- **A step finishes later than its dependencies.** -/
theorem Timed.write (hT : Timed steps) (hL : Ledger base steps) (hbase : NoHash base)
    (hw : Legal base steps w) (hlater : ∀ x ∈ steps, ∀ t ∈ x.finishedAt, t < now) :
    Timed (w.apply now steps) := by
  refine ⟨fun x hx hsucc => ?_, fun a ha b hb hsa hsb hdep => ?_⟩
  · obtain ⟨y, hy, _, _, ⟨hs, ht⟩ | ⟨_, _, ht, _⟩⟩ := succeeded_apply hL hbase hw hx hsucc
    · rw [← ht]
      exact hT.finished y hy hs
    · exact ⟨now, ht⟩
  · obtain ⟨y, hy, hyid, _, hy'⟩ := succeeded_apply hL hbase hw ha hsa
    obtain ⟨z, hz, _, hzdeps, hz'⟩ := succeeded_apply hL hbase hw hb hsb
    rw [← hyid, ← hzdeps] at hdep
    have hready : ReadyDeps steps z := by
      rcases hz' with ⟨hzs, _⟩ | ⟨_, hzr, _, _⟩
      · exact hL.ordered z hz (by rw [hzs]; rfl)
      · exact hzr
    -- so the dependency had succeeded before the statement
    rcases hy' with ⟨hys, hyt⟩ | ⟨hact, _, _, _⟩
    · rcases hz' with ⟨hzs, hzt⟩ | ⟨_, _, hzt, _⟩
      · have hyz := hT.before y hy z hz hys hzs hdep
        unfold Before at hyz ⊢
        rw [← hyt, ← hzt]
        exact hyz
      · obtain ⟨t, ht⟩ := hT.finished y hy hys
        exact ⟨t, hyt ▸ ht, now, hzt, hlater y hy t ht⟩
    · rw [not_active_of_readyDeps hL hready hy hdep] at hact
      cases hact

/-- The step `j` has `i` in its `depends_on`. -/
def DependsOn (steps : List FlowStep) (i j : String) : Prop :=
  ∃ x ∈ steps, x.stepId = j ∧ i ∈ x.dependsOn

/-- What a succeeded step depends on, however indirectly, has finished before
it. -/
theorem Timed.before_of_transGen (hT : Timed steps) (hL : Ledger base steps) {a b : FlowStep}
    (ha : a ∈ steps) (hb : b ∈ steps) (hsb : b.status = .succeeded)
    (hdep : Relation.TransGen (DependsOn steps) a.stepId b.stepId) : Before a b := by
  have hall : ∀ {j}, Relation.TransGen (DependsOn steps) a.stepId j →
      ∀ c ∈ steps, c.stepId = j → c.status = .succeeded → Before a c := by
    intro j h
    -- one dependency of a succeeded step
    have hone : ∀ {i c}, DependsOn steps i c.stepId → c ∈ steps → c.status = .succeeded →
        ∃ d ∈ steps, d.stepId = i ∧ d.status = .succeeded ∧ Before d c := by
      rintro i c ⟨x, hx, hid, hi⟩ hc hs
      obtain rfl := Rows.eq_of_key_eq hL.nodup hx hc hid
      obtain ⟨d, hd, hdid, hds⟩ := hL.ordered x hx (by rw [hs]; rfl) i hi
      exact ⟨d, hd, hdid, hds, hT.before d hd x hx hds hs (hdid ▸ hi)⟩
    induction h with
    | single h =>
        rintro c hc rfl hs
        obtain ⟨d, hd, hdid, _, hbefore⟩ := hone h hc hs
        obtain rfl := Rows.eq_of_key_eq hL.nodup hd ha hdid
        exact hbefore
    | tail _ h ih =>
        rintro c hc rfl hs
        obtain ⟨d, hd, hdid, hds, hbefore⟩ := hone h hc hs
        exact (ih d hd hdid hds).trans hbefore
  exact hall hdep b hb rfl hsb

/-! ## The invariant -/

variable {log : List SagaEvent} {x : FlowStep} {todo : List FlowStep}

/-- The step has a compensation to be called. -/
def Owed (x : FlowStep) : Prop := x.status = .succeeded ∧ x.compensate ≠ none

def Failed (steps : List FlowStep) : Prop := ∃ x ∈ steps, x.status = .failed

/-- By the time of a call, every step that finished later than the one it is for
has been passed over or is flagged for good. -/
def LogOk (steps : List FlowStep) (log : List SagaEvent) : Prop :=
  ∀ a ∈ steps, ∀ b ∈ steps, Owed b → Before a b →
    ∀ l₁ l₂, log = l₁ ++ .called a.stepId :: l₂ →
      .passed b.stepId ∈ l₁ ∨ b.compensated = true ∧ .called b.stepId ∉ l₂

/-- What a sweep still has before it: the later steps first, none of them
flagged, and everything that is owed. -/
structure Sweep (steps : List FlowStep) (log : List SagaEvent) (todo : List FlowStep) :
    Prop where
  nodup : (todo.map FlowStep.stepId).Nodup
  rows : ∀ x ∈ todo, ∃ y ∈ steps, y.stepId = x.stepId ∧ y.finishedAt = x.finishedAt ∧
    y.compensated = false
  sorted : todo.Pairwise fun x y => finishedAfter x y = true
  covers : ∀ b ∈ steps, Owed b → b.compensated = false →
    (∃ x ∈ todo, x.stepId = b.stepId) ∨ .passed b.stepId ∈ log

/-- Nothing is compensated before a step has failed, and then nothing else is
done. -/
def PcOrder (steps : List FlowStep) (log : List SagaEvent) : DriverPc → Prop
  | .compensate todo _ _ => Failed steps ∧ Sweep steps log todo
  | .writing _ _ _ _ => log = []
  | .await _ _ => log = []
  | _ => log ≠ [] → Failed steps

structure OrderInv (base : List FlowStep) (s : Logged) : Prop where
  inv : Inv base s.flow
  timed : Timed s.flow.steps
  log : LogOk s.flow.steps s.log
  pc : PcOrder s.flow.steps s.log s.flow.pc

theorem logOk_nil (steps : List FlowStep) : LogOk steps [] := by
  intro a _ b _ _ _ l₁ l₂ hlog
  simp at hlog

/-- Compensation starts after a failure. -/
theorem PcOrder.failed {pc : DriverPc} (h : PcOrder steps log pc) (hlog : log ≠ []) :
    Failed steps := by
  unfold PcOrder at h
  split at h
  · exact h.1
  · exact absurd h hlog
  · exact absurd h hlog
  · exact h hlog

/-! ## One sweep -/

theorem toCompensate_sorted (steps : List FlowStep) :
    (toCompensate steps).Pairwise fun x y => finishedAfter x y = true := by
  have htotal : ∀ x y : FlowStep, finishedAfter x y = true ∨ finishedAfter y x = true := by
    intro x y
    unfold finishedAfter
    cases x.finishedAt with
    | none => exact .inr rfl
    | some t =>
        cases y.finishedAt with
        | none => exact .inl rfl
        | some u => simpa using Nat.le_total u t
  have htrans : ∀ x y z : FlowStep, finishedAfter x y = true → finishedAfter y z = true →
      finishedAfter x z = true := by
    intro x y z hxy hyz
    unfold finishedAfter at *
    cases hz : z.finishedAt with
    | none => rfl
    | some v =>
        cases hy : y.finishedAt with
        | none => simp [hz, hy] at hyz
        | some u =>
            cases hx : x.finishedAt with
            | none => simp [hx, hy] at hxy
            | some t =>
                simp only [hx, hy, hz, decide_eq_true_eq] at hxy hyz ⊢
                exact Nat.le_trans hyz hxy
  have : Std.Total fun x y : FlowStep => finishedAfter x y = true := ⟨htotal⟩
  have : IsTrans FlowStep fun x y => finishedAfter x y = true := ⟨htrans⟩
  exact List.pairwise_insertionSort _ _

theorem mem_toCompensate :
    x ∈ toCompensate steps ↔ x ∈ steps ∧ Owed x ∧ x.compensated = false := by
  rw [toCompensate, List.mem_insertionSort, List.mem_filter]
  simp [Owed, Option.isSome_iff_ne_none, and_assoc, and_comm, and_left_comm]

/-- What a sweep starts with. -/
theorem sweep_start (hL : Ledger base steps) (log : List SagaEvent) :
    Sweep steps log (toCompensate steps) := by
  refine ⟨?_, fun x hx => ?_, toCompensate_sorted _, fun b hb howed hflag => ?_⟩
  · have hperm : (toCompensate steps).Perm _ := List.perm_insertionSort _ _
    exact (hperm.map _).nodup_iff.mpr ((List.filter_sublist.map _).nodup hL.nodup)
  · obtain ⟨hx, _, hflag⟩ := mem_toCompensate.mp hx
    exact ⟨x, hx, rfl, rfl, hflag⟩
  · exact .inl ⟨b, mem_toCompensate.mpr ⟨hb, howed, hflag⟩, rfl⟩

/-- A sweep is not disturbed by an event. -/
theorem Sweep.event (h : Sweep steps log todo) (e : SagaEvent) :
    Sweep steps (log ++ [e]) todo :=
  ⟨h.nodup, h.rows, h.sorted, fun b hb ho hf =>
    (h.covers b hb ho hf).imp_right (List.mem_append_left _)⟩

/-- The head of a sweep is passed over. -/
theorem Sweep.passed (h : Sweep steps log (x :: todo)) :
    Sweep steps (log ++ [.passed x.stepId]) todo := by
  obtain ⟨hnodup, hrows, hsorted, hcovers⟩ := h.event (.passed x.stepId)
  refine ⟨(List.nodup_cons.mp hnodup).2, fun y hy => hrows y (List.mem_cons_of_mem _ hy),
    (List.pairwise_cons.mp hsorted).2, fun b hb ho hf => ?_⟩
  rcases hcovers b hb ho hf with ⟨y, hy, hid⟩ | hp
  · rcases List.mem_cons.mp hy with rfl | hy
    · refine .inr ?_
      rw [← hid]
      exact List.mem_append_right _ List.mem_cons_self
    · exact .inl ⟨y, hy, hid⟩
  · exact .inr hp

theorem LogOk.passed (h : LogOk steps log) (id : String) :
    LogOk steps (log ++ [.passed id]) := by
  intro a ha b hb ho hab l₁ l₂ heq
  rcases Machine.split_concat heq with ⟨_, _, he⟩ | ⟨l₃, rfl, hl⟩
  · cases he
  · refine (h a ha b hb ho hab l₁ l₃ hl).imp_right fun ⟨hflag, hnot⟩ => ⟨hflag, ?_⟩
    simpa using hnot

/-- **The head of a sweep is called**: what finished later than it is no longer
before the sweep, so it is flagged or has been passed over. -/
theorem LogOk.called (h : LogOk steps log) (hw : Sweep steps log (x :: todo))
    (hL : Ledger base steps) : LogOk steps (log ++ [.called x.stepId]) := by
  obtain ⟨y, hy, hyid, hyt, hyflag⟩ := hw.rows x List.mem_cons_self
  intro a ha b hb ho hab l₁ l₂ heq
  rcases Machine.split_concat heq with ⟨rfl, rfl, he⟩ | ⟨l₃, rfl, hl⟩
  · -- the call for `a` is the new one
    injection he with he
    obtain rfl := Rows.eq_of_key_eq hL.nodup ha hy (he.symm.trans hyid.symm)
    cases hflag : b.compensated with
    | true => exact .inr ⟨rfl, by simp⟩
    | false =>
        rcases hw.covers b hb ho hflag with ⟨z, hz, hzid⟩ | hp
        · obtain ⟨z', hz', hzid', hzt, _⟩ := hw.rows z hz
          obtain rfl := Rows.eq_of_key_eq hL.nodup hz' hb (hzid'.trans hzid)
          have hlate : finishedAfter x z = true := by
            rcases List.mem_cons.mp hz with rfl | hz
            · exact finishedAfter_refl _
            · exact (List.pairwise_cons.mp hw.sorted).1 z hz
          have hnot := hab.not_finishedAfter
          unfold finishedAfter at hlate hnot
          rw [hyt, hzt, hlate] at hnot
          cases hnot
        · exact .inl hp
  · -- it is an earlier one, and the new one is for a step that is not flagged
    refine (h a ha b hb ho hab l₁ l₃ hl).imp_right fun ⟨hflag, hnot⟩ => ⟨hflag, ?_⟩
    intro hmem
    rcases List.mem_append.mp hmem with hmem | hmem
    · exact hnot hmem
    · have hid : b.stepId = x.stepId := by simpa using hmem
      obtain rfl := Rows.eq_of_key_eq hL.nodup hb hy (hid.trans hyid.symm)
      rw [hyflag] at hflag
      cases hflag

/-! ## `mark_step_compensated` -/

/-- Where a row comes from that is there after the statement. -/
theorem mem_mark (hL : Ledger base steps) (hbase : NoHash base) {id : String}
    (hx : x ∈ (Write.compensated id).apply now steps) :
    ∃ y ∈ steps, y.stepId = x.stepId ∧ y.status = x.status ∧ y.finishedAt = x.finishedAt ∧
      y.compensate = x.compensate ∧
        x.compensated = (y.compensated || decide (y.stepId = id)) := by
  have hw : Legal base steps (.compensated id) := .inl ⟨id, rfl⟩
  rcases (mem_apply hL hbase hw).mp hx with ⟨hx, hne⟩ | ⟨y, hy, hid, rfl⟩ | hx
  · have hne' : x.stepId ≠ id := hne
    exact ⟨x, hx, rfl, rfl, rfl, rfl, by simp [hne']⟩
  · have hid' : y.stepId = id := hid
    exact ⟨y, hy, rfl, rfl, rfl, rfl, by simp [hid', Write.row]⟩
  · cases hx

/-- What the statement makes of a row. -/
theorem mark_of_mem (now : Nat) (id : String) (hL : Ledger base steps) (hbase : NoHash base)
    (hx : x ∈ steps) :
    ∃ y ∈ (Write.compensated id).apply now steps, y.stepId = x.stepId ∧
      y.status = x.status ∧ y.finishedAt = x.finishedAt ∧
      y.compensated = (x.compensated || decide (x.stepId = id)) := by
  have hw : Legal base steps (.compensated id) := .inl ⟨id, rfl⟩
  by_cases hid : x.stepId = id
  · exact ⟨_, (mem_apply hL hbase hw).mpr (.inr (.inl ⟨x, hx, hid, rfl⟩)), rfl, rfl, rfl,
      by simp [hid, Write.row]⟩
  · exact ⟨x, mem_apply_of_ne hL hbase hw hx hid, rfl, rfl, rfl, by simp [hid]⟩

theorem LogOk.mark (h : LogOk steps log) (hL : Ledger base steps) (hbase : NoHash base)
    (id : String) : LogOk ((Write.compensated id).apply now steps) log := by
  intro a ha b hb ho hab l₁ l₂ heq
  obtain ⟨y, hy, hyid, _, hyt, _, _⟩ := mem_mark hL hbase ha
  obtain ⟨z, hz, hzid, hzs, hzt, hzc, hzflag⟩ := mem_mark hL hbase hb
  have hyz : Before y z := by
    unfold Before at hab ⊢
    rw [hyt, hzt]
    exact hab
  rw [← hyid] at heq
  rw [← hzid]
  refine (h y hy z hz ⟨hzs.trans ho.1, hzc ▸ ho.2⟩ hyz l₁ l₂ heq).imp_right ?_
  intro ⟨hflag, hnot⟩
  exact ⟨by rw [hzflag, hflag, Bool.true_or], hnot⟩

/-- The head of a sweep is flagged. -/
theorem Sweep.mark (h : Sweep steps log (x :: todo)) (hL : Ledger base steps)
    (hbase : NoHash base) :
    Sweep ((Write.compensated x.stepId).apply now steps) log todo := by
  obtain ⟨hnodup, hrows, hsorted, hcovers⟩ := h
  rw [List.map_cons, List.nodup_cons] at hnodup
  refine ⟨hnodup.2, fun z hz => ?_, (List.pairwise_cons.mp hsorted).2,
    fun b hb ho hflag => ?_⟩
  · obtain ⟨y, hy, hyid, hyt, hyflag⟩ := hrows z (List.mem_cons_of_mem _ hz)
    obtain ⟨y', hy', hyid', _, hyt', hyflag'⟩ :=
      mark_of_mem now x.stepId hL hbase hy
    refine ⟨y', hy', hyid'.trans hyid, hyt'.trans hyt, ?_⟩
    have hne : y.stepId ≠ x.stepId := fun heq =>
      hnodup.1 (heq ▸ hyid ▸ List.mem_map_of_mem hz)
    rw [hyflag', hyflag, Bool.false_or, decide_eq_false hne]
  · obtain ⟨y, hy, hyid, hys, _, hyc, hyflag⟩ := mem_mark hL hbase hb
    rw [hflag] at hyflag
    obtain ⟨hold, hne⟩ := Bool.or_eq_false_iff.mp hyflag.symm
    rw [← hyid]
    rcases hcovers y hy ⟨hys.trans ho.1, hyc ▸ ho.2⟩ hold with ⟨z, hz, hzid⟩ | hp
    · rcases List.mem_cons.mp hz with rfl | hz
      · exact absurd hzid.symm (of_decide_eq_false hne)
      · exact .inl ⟨z, hz, hzid⟩
    · exact .inr hp

theorem Failed.mark (h : Failed steps) (hL : Ledger base steps) (hbase : NoHash base)
    (id : String) : Failed ((Write.compensated id).apply now steps) := by
  obtain ⟨x, hx, hfailed⟩ := h
  obtain ⟨y, hy, _, hs, _⟩ := mark_of_mem now id hL hbase hx
  exact ⟨y, hy, hs.trans hfailed⟩

/-! ## One step -/

/-- A statement of `compensate` passes over the head of the sweep, calls it,
flags it, or does none of these. -/
theorem compStep_event {f f' : Flow} {failed : Nat} {stage : CompStage} {reply : Reply}
    (hpc : f.pc = .compensate (x :: todo) failed stage)
    (h : compStep f x todo failed stage reply = some f')
    (hans : answered (.drive reply) = true) (hfound : found f.pc (.drive reply) = true) :
    (∃ k st, f'.pc = .compensate todo k st ∧ f'.steps = f.steps ∧
        sagaEvent f (.drive reply) = some (.passed x.stepId)) ∨
      (∃ k st, f'.pc = .compensate (x :: todo) k st ∧ f'.steps = f.steps ∧
        sagaEvent f (.drive reply) = some (.called x.stepId)) ∨
      (∃ k st, f'.pc = .compensate (x :: todo) k st ∧ f'.steps = f.steps ∧
        sagaEvent f (.drive reply) = none) ∨
      ∃ k st, f'.pc = .compensate todo k st ∧
        f'.steps = (Write.compensated x.stepId).apply f.now f.steps ∧
        sagaEvent f (.drive reply) = none := by
  simp only [sagaEvent, hpc, found] at hfound ⊢
  unfold compStep at h
  split at h
  · split_ifs at h with hrt
    · cases h
      exact .inl ⟨_, _, rfl, rfl, if_pos hrt⟩
    · cases h
      exact .inr (.inr (.inl ⟨_, _, rfl, rfl, if_neg hrt⟩))
  · cases hfound
  · cases hans
  · cases h
    exact .inr (.inl ⟨_, _, rfl, rfl, rfl⟩)
  · cases hans
  · cases h
    exact .inr (.inr (.inl ⟨_, _, rfl, rfl, rfl⟩))
  · cases h
    exact .inr (.inr (.inl ⟨_, _, rfl, rfl, rfl⟩))
  · cases hans
  · cases h
    exact .inr (.inr (.inr ⟨_, _, rfl, rfl, rfl⟩))
  · cases hans
  · cases h

/-- Outside `compensate` nothing is called. -/
theorem sagaEvent_eq_none {f : Flow} {a : Label}
    (h : ∀ x todo failed stage, f.pc ≠ .compensate (x :: todo) failed stage) :
    sagaEvent f a = none := by
  unfold sagaEvent
  split
  · split
    · next hat => exact absurd hat (h _ _ _ _)
    · next hat => exact absurd hat (h _ _ _ _)
    · rfl
  · rfl

variable {s s' : Logged}

/-- **Every step of a run under the condition keeps the invariant.** -/
theorem OrderInv.step {a : Label} (hI : OrderInv base s) (hbase : NoHash base)
    (hcond : OrderCond s a) (h : loggedStep parse s a = some s') : OrderInv base s' := by
  obtain ⟨f, hf, rfl⟩ := Option.map_eq_some_iff.mp h
  obtain ⟨hinv, htimed, hlog, hpc⟩ := hI
  have hL := hinv.ledger
  have hinv' := (hinv.step hbase hf).1
  have hfailed := hpc.failed
  -- a step of neither `compensate` nor the ledger
  have hquiet : ∀ {e : List SagaEvent}, e = [] → f.steps = s.flow.steps →
      PcOrder s.flow.steps s.log f.pc → OrderInv base ⟨f, s.log ++ e⟩ := by
    rintro _ rfl hsteps hpc'
    rw [List.append_nil]
    exact ⟨hinv', hsteps ▸ htimed, hsteps ▸ hlog, hsteps ▸ hpc'⟩
  -- a statement on the ledger before anything is compensated
  have hwrite : ∀ {e : List SagaEvent} {w : Write}, e = [] → s.log = [] →
      f.steps = w.apply s.flow.now s.flow.steps → Legal base s.flow.steps w →
      Later s.flow → PcOrder f.steps [] f.pc → OrderInv base ⟨f, s.log ++ e⟩ := by
    rintro _ w rfl hnil hsteps hw hlater hpc'
    rw [List.append_nil, hnil]
    exact ⟨hinv', hsteps ▸ htimed.write hL hbase hw hlater, logOk_nil _, hpc'⟩
  have hnone : (∀ x todo failed stage, s.flow.pc ≠ .compensate (x :: todo) failed stage) →
      (sagaEvent s.flow a).toList = [] := by
    intro hne
    rw [sagaEvent_eq_none hne]
    rfl
  cases step_move hf with
  | tick d => exact hquiet rfl rfl hpc
  | claim hoff hpend => exact hquiet rfl rfl hfailed
  | reap hoff hrun => exact hquiet rfl rfl hpc
  | crash hon => exact hquiet rfl rfl hfailed
  | pass htop =>
      refine hquiet (hnone fun _ _ _ _ h => by rw [htop] at h; cases h) rfl ?_
      show PcOrder s.flow.steps s.log (pass parse s.flow.input s.flow.steps)
      rcases pass_cases parse s.flow.input s.flow.steps with
        ⟨hfail, heq⟩ | ⟨hno, ⟨_, heq⟩ | ⟨_, ws, toRun, heq, _⟩⟩
      · rw [heq]
        exact ⟨hfail, sweep_start hL _⟩
      · rw [heq]
        exact hfailed
      · rw [heq]
        by_contra hne
        obtain ⟨x, hx, hst⟩ := hfailed hne
        exact hno x hx hst
  | readError htop => cases hcond.answered
  | write hat =>
      have hw := hinv.pc
      rw [hat] at hpc hw
      exact hwrite (hnone fun _ _ _ _ h => by rw [hat] at h; cases h) hpc rfl
        (Writing.tail hw).1 (hcond.later rfl) rfl
  | writeError hat => cases hcond.answered
  | @wrote snap toRun p hat =>
      rw [hat] at hpc
      have hnil : s.log = [] := hpc
      refine hquiet (hnone fun _ _ _ _ h => by rw [hat] at h; cases h) rfl ?_
      show PcOrder s.flow.steps s.log (afterWrites snap toRun p)
      unfold afterWrites
      split_ifs
      · exact hnil
      · exact hfailed
      · exact hfailed
  | join hat hdone =>
      exact hquiet (hnone fun _ _ _ _ h => by rw [hat] at h; cases h) rfl hfailed
  | wake hat => exact hquiet (hnone fun _ _ _ _ h => by rw [hat] at h; cases h) rfl hfailed
  | compensated hat =>
      exact hquiet (hnone fun _ _ _ _ h => by rw [hat] at h; cases h) rfl hfailed
  | @comp x todo failed stage reply f' hat hcomp =>
      rw [hat] at hpc
      obtain ⟨hfail, hsweep⟩ := hpc
      rcases compStep_event hat hcomp hcond.answered hcond.kept with
        ⟨k, st, hat', hsteps, hevent⟩ | ⟨k, st, hat', hsteps, hevent⟩ |
        ⟨k, st, hat', hsteps, hevent⟩ | ⟨k, st, hat', hsteps, hevent⟩
      · rw [hevent]
        refine ⟨hinv', hsteps ▸ htimed, hsteps ▸ hlog.passed _, ?_⟩
        rw [hat', hsteps]
        exact ⟨hfail, hsweep.passed⟩
      · rw [hevent]
        refine ⟨hinv', hsteps ▸ htimed, hsteps ▸ hlog.called hsweep hL, ?_⟩
        rw [hat', hsteps]
        exact ⟨hfail, hsweep.event _⟩
      · refine hquiet (by rw [hevent]; rfl) hsteps ?_
        rw [hat']
        exact ⟨hfail, hsweep⟩
      · have hnil : s.log ++ (none : Option SagaEvent).toList = s.log := List.append_nil _
        rw [hevent, hnil]
        refine ⟨hinv', ?_, ?_, ?_⟩
        · rw [hsteps]
          exact htimed.write hL hbase (.inl ⟨_, rfl⟩) (hcond.later rfl)
        · rw [hsteps]
          exact hlog.mark hL hbase _
        · rw [hat', hsteps]
          exact ⟨hfail.mark hL hbase _, hsweep.mark hL hbase⟩
  | finish hat => exact hquiet (hnone fun _ _ _ _ h => by rw [hat] at h; cases h) rfl hfailed
  | finishError hat => cases hcond.answered
  | finishLost hat => cases hcond.answered
  | record hat => exact hquiet (hnone fun _ _ _ _ h => by rw [hat] at h; cases h) rfl hfailed
  | recordError hat => cases hcond.answered
  | task hat ht hstep =>
      rw [hat] at hpc
      exact hquiet (hnone fun _ _ _ _ h => by rw [hat] at h; cases h) rfl hpc
  | @taskWrite i reply snap tasks t pc w hat ht hstep =>
      have hrun := hinv.pc
      rw [hat] at hpc hrun
      have hrun := Awaiting.runnable hrun t (List.mem_of_getElem? ht) (isDone_of_step hstep)
      have hw : Legal base s.flow.steps w := by
        obtain ⟨_, heq | ⟨k, r, _, heq⟩ | ⟨status, output, _, hst, heq⟩⟩ :=
          taskStep_cases hstep
        · cases heq
        · cases heq
          exact hrun.setRunning r
        · cases heq
          exact hrun.finish hst output
      exact hwrite (hnone fun _ _ _ _ h => by rw [hat] at h; cases h) hpc rfl hw
        (hcond.later rfl) rfl

theorem orderInv_start {it : Iteration} {spec : Value}
    (hvalid : validateSpec it spec = .ok ()) (input : Value) :
    OrderInv (ledgerRows spec) (loggedStart spec input) := by
  have hpend : ∀ x ∈ ledgerRows spec, x.status ≠ .succeeded := by
    intro x hx
    rw [← fresh_ledgerRows hx]
    exact fun h => by cases h
  refine ⟨inv_start hvalid input, ⟨fun x hx hs => absurd hs (hpend x hx), ?_⟩, logOk_nil _,
    fun h => absurd rfl h⟩
  exact fun a ha b _ hs => absurd hs (hpend a ha)

/-- **Saga order.**  In every run of a validated spec whose statements are all
answered, at strictly increasing times, and whose compensation scripts are not
deleted: if the succeeded step `b` with a compensation depends on the step `a`,
however indirectly, no call for `b` comes after a call for `a`, unless
`compensate` has passed over `b` before that. -/
theorem saga_order {it : Iteration} {spec : Value} (hvalid : validateSpec it spec = .ok ())
    {input : Value} {l : List Label}
    (hcond : Machine.Along (loggedStep parse) OrderCond (loggedStart spec input) l)
    (hrun : Machine.run (loggedStep parse) (loggedStart spec input) l = some s)
    {a b : FlowStep} (ha : a ∈ s.flow.steps) (hb : b ∈ s.flow.steps) (hob : Owed b)
    (hdep : Relation.TransGen (DependsOn s.flow.steps) a.stepId b.stepId)
    {l₁ l₂ : List SagaEvent} (hlog : s.log = l₁ ++ .called a.stepId :: l₂) :
    .called b.stepId ∈ l₂ → .passed b.stepId ∈ l₁ := by
  have hI : OrderInv (ledgerRows spec) s :=
    Machine.inv_run (fun _ _ _ hI hc hs => hI.step (validateSpec_ledger hvalid).noHash hc hs)
      (orderInv_start hvalid input) hcond hrun
  have hbefore := hI.timed.before_of_transGen hI.inv.ledger ha hb hob.1 hdep
  intro hcalled
  rcases hI.log a ha b hb hob hbefore l₁ l₂ hlog with hp | ⟨_, hnot⟩
  · exact hp
  · exact absurd hcalled hnot

/-! ## A compensation that is repaired -/

/-- `s0`, `s1` after it and `s2` after that; the first two have compensations,
the last no retries. -/
def chainSpec : Value :=
  .obj [("steps", .arr
    [ .obj
        [ ("compensate", .num (.int 9)), ("id", .str "s0")
        , ("script_id", .num (.int 1)) ]
    , .obj
        [ ("compensate", .num (.int 8)), ("depends_on", .arr [.str "s0"])
        , ("id", .str "s1"), ("script_id", .num (.int 2)) ]
    , .obj
        [ ("depends_on", .arr [.str "s1"]), ("id", .str "s2")
        , ("retries", .num (.int 0)), ("script_id", .num (.int 3)) ] ])]

theorem valid_chainSpec : validateSpec inOrder chainSpec = .ok () := by rfl

/-- A pass that runs one step to success. -/
def stepSucceeds (runId : Nat) : List Label :=
  [ .drive .ok, .drive .ok
  , .task 0 (.script (some "bash")), .task 0 (.run runId), .task 0 .ok
  , .task 0 (.ran .succeeded), .task 0 .ok, .task 0 (.stdout none), .task 0 .ok
  , .drive .ok ]

/-- A pass that runs one step to failure, and the next one, which reads that. -/
def stepFails (runId : Nat) : List Label :=
  [ .drive .ok, .drive .ok
  , .task 0 (.script (some "bash")), .task 0 (.run runId), .task 0 .ok
  , .task 0 (.ran .failed), .task 0 .ok, .task 0 .ok
  , .drive .ok, .drive .ok ]

/-- A compensation that succeeds and is flagged. -/
def stepCompensated (runId : Nat) : List Label :=
  [ .drive (.script (some "bash")), .drive (.run runId), .drive (.ran .succeeded)
  , .drive .ok, .drive .ok ]

/-- The compensation script of `s1` is for ruby when the first sweep comes to
it, and for bash when the second one does, after a crash. -/
def repairedStatements : List Label :=
  [.claim] ++ stepSucceeds 0 ++ stepSucceeds 1 ++ stepFails 2 ++
    [.drive (.script (some "ruby"))] ++ stepCompensated 3 ++
    [.crash, .reap, .claim, .drive .ok] ++ stepCompensated 4

/-- The same, one after the other. -/
def repaired : List Label := repairedStatements.flatMap fun a => [.tick 1, a]

/-- A run of `chainSpec`. -/
def runChain (l : List Label) : Option Logged :=
  Machine.run (loggedStep fun _ => none) (loggedStart chainSpec (.obj [])) l

/-- What is to be seen of the steps at the end. -/
def owedSteps (s : Logged) : List (String × List String × Bool) :=
  s.flow.steps.map fun x =>
    (x.stepId, x.dependsOn, decide (x.status = .succeeded) && x.compensate.isSome)

theorem mem_of_owedSteps {s : Logged} {id : String} {deps : List String}
    (h : (id, deps, true) ∈ owedSteps s) :
    ∃ x ∈ s.flow.steps, x.stepId = id ∧ x.dependsOn = deps ∧ Owed x := by
  obtain ⟨x, hx, heq⟩ := List.mem_map.mp h
  simp only [Prod.mk.injEq, Bool.and_eq_true, decide_eq_true_eq,
    Option.isSome_iff_ne_none] at heq
  exact ⟨x, hx, heq.1, heq.2.1, heq.2.2⟩

theorem run_repaired :
    ∃ s, runChain repaired = some s ∧
      s.log = [.passed "s1", .called "s0", .called "s1"] ∧
      ∃ a ∈ s.flow.steps, ∃ b ∈ s.flow.steps, a.stepId = "s0" ∧ b.stepId = "s1" ∧ Owed a ∧
        Owed b ∧ Relation.TransGen (DependsOn s.flow.steps) a.stepId b.stepId := by
  have hview : (runChain repaired).map (fun s => (s.log, owedSteps s)) =
      some ([.passed "s1", .called "s0", .called "s1"],
        [("s0", [], true), ("s1", ["s0"], true), ("s2", ["s1"], false)]) := by
    decide +kernel
  obtain ⟨s, hs, heq⟩ := Option.map_eq_some_iff.mp hview
  obtain ⟨hlog, howed⟩ := Prod.mk.inj heq
  obtain ⟨a, ha, haid, _, hoa⟩ :=
    mem_of_owedSteps (s := s) (show ("s0", [], true) ∈ owedSteps s by simp [howed])
  obtain ⟨b, hb, hbid, hbdeps, hob⟩ :=
    mem_of_owedSteps (s := s) (show ("s1", ["s0"], true) ∈ owedSteps s by simp [howed])
  refine ⟨s, hs, hlog, a, ha, b, hb, haid, hbid, hoa, hob, .single ⟨b, hb, rfl, ?_⟩⟩
  rw [haid, hbdeps]
  exact List.mem_cons_self

theorem along_repaired :
    Machine.Along (loggedStep fun _ => none) OrderCond (loggedStart chainSpec (.obj []))
      repaired := by decide +kernel

/-- The compensation of `s1` is passed over, that of `s0` is called, and after a
crash that of `s1`, which by then can be run. -/
theorem not_saga_order :
    validateSpec inOrder chainSpec = .ok () ∧
      Machine.Along (loggedStep fun _ => none) OrderCond (loggedStart chainSpec (.obj []))
        repaired ∧
      ∃ s, runChain repaired = some s ∧
        ∃ a ∈ s.flow.steps, ∃ b ∈ s.flow.steps, Owed a ∧ Owed b ∧
          Relation.TransGen (DependsOn s.flow.steps) a.stepId b.stepId ∧
          ∃ l₁ l₂, s.log = l₁ ++ .called a.stepId :: l₂ ∧ .called b.stepId ∈ l₂ := by
  refine ⟨valid_chainSpec, along_repaired, ?_⟩
  obtain ⟨s, hs, hlog, a, ha, b, hb, haid, hbid, hoa, hob, hdep⟩ := run_repaired
  refine ⟨s, hs, a, ha, b, hb, hoa, hob, hdep, [.passed "s1"], [.called "s1"], ?_, ?_⟩
  · rw [hlog, haid]
    rfl
  · rw [hbid]
    exact List.mem_cons_self

/-- `saga_order` on the same run. -/
theorem saga_order_repaired :
    ∃ s, runChain repaired = some s ∧
      ∃ b ∈ s.flow.steps, Owed b ∧ .passed b.stepId ∈ [SagaEvent.passed "s1"] := by
  obtain ⟨s, hs, hlog, a, ha, b, hb, haid, hbid, _, hob, hdep⟩ := run_repaired
  have hsplit : s.log = [.passed "s1"] ++ .called a.stepId :: [.called b.stepId] := by
    rw [hlog, haid, hbid]
    rfl
  exact ⟨s, hs, b, hb, hob,
    saga_order valid_chainSpec along_repaired hs ha hb hob hdep hsplit List.mem_cons_self⟩

end Dokan.Ports.SagaOrder
