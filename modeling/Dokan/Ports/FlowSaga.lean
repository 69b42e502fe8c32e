import Dokan.Ports.FlowOrder

/-!
# Whether `failed` means rolled back

A failed flow run is honest when every succeeded step with a compensation has
had a compensation run that ended succeeded.  `compensate` counts its failures
in a local variable while the flag it sets on the step is durable, it passes
over steps whose script it cannot run, and `start` writes `failed` on any
error of the driver; `SagaCond` says where each of the three does no harm.

## Main results

* `saga_honest` — along runs that meet `SagaCond`, `failed` is honest, and a
  saga that is not undone ends `compensation_failed`.
* `not_saga_honest` — a crash, a missing script and a database error that each
  leave a dishonest `failed`.
-/

namespace Dokan.Ports.FlowSaga

open Dokan.Verified
open Dokan.Verified.Json
open Dokan.Ports.RunRow
open Dokan.Ports.FlowRow
open Dokan.Ports.FlowSpec
open Dokan.Ports.FlowDriver
open Dokan.Ports.FlowLedger
open Dokan.Ports.FlowMoves
open Dokan.Ports.FlowOrder

/-! ## What is owed -/

/-- Every succeeded step with a compensation has been undone. -/
def AllUndone (s : Flow) : Prop :=
  ∀ x ∈ s.steps, x.status = .succeeded → x.compensate ≠ none → x.stepId ∈ s.undone

/-- Every step marked as compensated has been undone. -/
def MarkedUndone (s : Flow) : Prop :=
  ∀ x ∈ s.steps, x.compensated = true → x.stepId ∈ s.undone

instance (s : Flow) : Decidable (AllUndone s) :=
  inferInstanceAs (Decidable (∀ x ∈ s.steps, _))

instance (s : Flow) : Decidable (MarkedUndone s) :=
  inferInstanceAs (Decidable (∀ x ∈ s.steps, _))

/-- The answers on which `compensate` passes over a step. -/
def skips : CompStage → Reply → Bool
  | .script, .script (some runtime) => (runtimeSpec runtime).isNone
  | .script, .script none => true
  | .script, .err _ => true
  | .insert, .err _ => true
  | _, _ => false

/-- The condition on the driver's own statements. -/
def SagaDrive (s : Flow) (reply : Reply) : DriverPc → Prop
  | .compensate (x :: _) _ stage => skips stage reply = true → x.stepId ∈ s.undone
  | .errored => if reply.isOk then AllUndone s else MarkedUndone s
  | _ => True

/-- What keeps a saga honest: `compensate` passes over no step that is not
undone, the driver does not stop while a step is marked that is not undone,
and `start` records an error as `failed` only when nothing is owed. -/
def SagaCond (s : Flow) : Label → Prop
  | .crash => MarkedUndone s
  | .drive reply => SagaDrive s reply s.pc
  | _ => True

instance (s : Flow) (reply : Reply) : ∀ pc, Decidable (SagaDrive s reply pc)
  | .compensate (x :: _) _ stage =>
      inferInstanceAs (Decidable (skips stage reply = true → x.stepId ∈ s.undone))
  | .errored =>
      inferInstanceAs (Decidable (if reply.isOk then AllUndone s else MarkedUndone s))
  | .compensate [] _ _ => .isTrue trivial
  | .off => .isTrue trivial
  | .top => .isTrue trivial
  | .writing _ _ _ _ => .isTrue trivial
  | .await _ _ => .isTrue trivial
  | .idle => .isTrue trivial
  | .finish _ => .isTrue trivial

instance (s : Flow) : ∀ a, Decidable (SagaCond s a)
  | .crash => inferInstanceAs (Decidable (MarkedUndone s))
  | .drive reply => inferInstanceAs (Decidable (SagaDrive s reply s.pc))
  | .tick _ => .isTrue trivial
  | .claim => .isTrue trivial
  | .reap => .isTrue trivial
  | .task _ _ => .isTrue trivial

/-! ## The invariant -/

/-- What `compensate` still has to do covers what is owed. -/
def Covered (s : Flow) (todo : List FlowStep) : Prop :=
  ∀ x ∈ s.steps, x.status = .succeeded → x.compensate ≠ none →
    x.stepId ∈ s.undone ∨ ∃ y ∈ todo, y.stepId = x.stepId

/-- A run reported as succeeded undid its step. -/
def StageOk (s : Flow) (x : FlowStep) : CompStage → Prop
  | .status row => row = .succeeded → x.stepId ∈ s.undone
  | .mark ok => ok = true → x.stepId ∈ s.undone
  | _ => True

/-- What the point of the driver says about the saga. -/
def PcSaga (s : Flow) : Prop :=
  match s.pc with
  | .off => s.status = .pending ∨ s.status = .running → MarkedUndone s
  | .writing _ ws _ _ => MarkedUndone s ∧ ∀ w ∈ ws, decides w = true
  | .compensate todo failed stage =>
      (failed = 0 → MarkedUndone s ∧ Covered s todo) ∧
        ∀ x ∈ todo.head?, StageOk s x stage
  | .finish status =>
      status ≠ .pending ∧ status ≠ .running ∧ (status = .failed → AllUndone s)
  | .errored => True
  | _ => MarkedUndone s

/-- A driver that has not left `drive_inner`. -/
def driving : DriverPc → Bool
  | .off => false
  | .errored => false
  | _ => true

/-- The invariant of the saga. -/
structure Saga (s : Flow) : Prop where
  running : driving s.pc = true → s.status = .running
  honest : s.status = .failed → AllUndone s
  pc : PcSaga s

/-! ## Statements and flags -/

variable {now : Nat} {w : Write} {steps : List FlowStep} {x : FlowStep} {s s' : Flow}
variable {parse : String → Option Value}

/-- The rows after any statement, legal or not. -/
theorem mem_apply_cases (h : x ∈ w.apply now steps) :
    x ∈ steps ∨ x ∈ Write.rows w ∨ ∃ y ∈ steps ++ Write.rows w,
      y.stepId = w.id ∧ x = Write.row now w y := by
  have hrows : ∀ new : List FlowStep, ∀ old : List FlowStep,
      ∀ y ∈ new.foldl (Rows.insertNew FlowStep.stepId) old, y ∈ old ++ new := by
    intro new
    induction new with
    | nil =>
        intro old y hy
        simpa using hy
    | cons r new ih =>
        intro old y hy
        have hmem := ih _ y hy
        unfold Rows.insertNew at hmem
        split_ifs at hmem
        · rcases List.mem_append.mp hmem with h | h
          · exact List.mem_append_left _ h
          · exact List.mem_append_right _ (List.mem_cons_of_mem _ h)
        · simpa using hmem
  rw [apply_eq] at h
  obtain ⟨y, hy, rfl⟩ := List.mem_map.mp h
  have hy' := hrows _ _ y hy
  by_cases hid : y.stepId = w.id
  · rw [if_pos hid]
    exact .inr (.inr ⟨y, hy', hid, rfl⟩)
  · rw [if_neg hid]
    rcases List.mem_append.mp hy' with h | h
    · exact .inl h
    · exact .inr (.inl h)

theorem compensated_of_rows (h : x ∈ Write.rows w) : x.compensated = false := by
  cases w with
  | expand parent children cache =>
      obtain ⟨c, _, rfl⟩ := List.mem_map.mp h
      rfl
  | setRunning id runId => cases h
  | finish id status output => cases h
  | skip id => cases h
  | compensated id => cases h

/-- Only `mark_step_compensated` sets the flag. -/
theorem markedUndone_write {pc : DriverPc} (h : MarkedUndone s)
    (hw : ∀ id, w ≠ .compensated id) : MarkedUndone (s.write w pc) := by
  intro x hx hflag
  have hold : ∀ y ∈ s.steps ++ Write.rows w, y.compensated = true →
      y.stepId ∈ s.undone := by
    intro y hy hyflag
    rcases List.mem_append.mp hy with hy | hy
    · exact h y hy hyflag
    · rw [compensated_of_rows hy] at hyflag
      cases hyflag
  rcases mem_apply_cases hx with hx | hx | ⟨y, hy, hid, rfl⟩
  · exact h x hx hflag
  · exact hold x (List.mem_append_right _ hx) hflag
  · rw [stepId_row]
    refine hold y hy ?_
    cases w with
    | compensated id => exact absurd rfl (hw id)
    | setRunning id runId => exact hflag
    | finish id status output => exact hflag
    | skip id => exact hflag
    | expand parent children cache => exact hflag

/-- `mark_step_compensated` changes nothing but the flag of its step. -/
theorem mem_mark (now : Nat) {id : String}
    (h : x ∈ (Write.compensated id).apply now steps) :
    ∃ y ∈ steps, x.stepId = y.stepId ∧ x.status = y.status ∧
      x.compensate = y.compensate ∧
      (x.compensated = true → y.compensated = true ∨ y.stepId = id) := by
  rcases mem_apply_cases h with h | h | ⟨y, hy, hid, rfl⟩
  · exact ⟨x, h, rfl, rfl, rfl, .inl⟩
  · cases h
  · rcases List.mem_append.mp hy with hy | hy
    · exact ⟨y, hy, rfl, rfl, rfl, fun _ => .inr hid⟩
    · cases hy

/-! ## One step -/

/-- What a pass decides, for the saga. -/
theorem pcSaga_pass (h : MarkedUndone s) :
    PcSaga (s.goto (pass parse s.input s.steps)) := by
  rcases pass_cases parse s.input s.steps with
    ⟨_, hpass⟩ | ⟨_, ⟨_, hpass⟩ | ⟨_, ws, toRun, hpass, hws⟩⟩
  · rw [hpass]
    refine ⟨fun _ => ⟨h, ?_⟩, fun _ _ => trivial⟩
    -- a step already marked is undone, every other one is gone through
    intro x hx hstatus hcomp
    cases hflag : x.compensated with
    | true => exact .inl (h x hx hflag)
    | false =>
        refine .inr ⟨x, ?_, rfl⟩
        rw [toCompensate, List.mem_insertionSort, List.mem_filter]
        refine ⟨hx, ?_⟩
        simp [hstatus, hflag, Option.isSome_iff_ne_none, hcomp]
  · rw [hpass]
    exact ⟨by decide, by decide, fun h => by cases h⟩
  · rw [hpass]
    refine ⟨h, ?_⟩
    rcases hws with ⟨rfl, rfl, _⟩ | ⟨_, rfl, rfl⟩
    · exact decides_aggregates
    · exact decides_actions

/-- The steps that remain once the head of the list is dealt with. -/
theorem Covered.tail {todo : List FlowStep} (h : Covered s (x :: todo))
    (hx : x.stepId ∈ s.undone) : Covered s todo := by
  intro y hy hstatus hcomp
  rcases h y hy hstatus hcomp with h | ⟨z, hz, hid⟩
  · exact .inl h
  · rcases List.mem_cons.mp hz with rfl | hz
    · exact .inl (hid ▸ hx)
    · exact .inr ⟨z, hz, hid⟩

/-- What a statement of `compensate` does to the saga. -/
theorem pcSaga_comp {todo : List FlowStep} {failed : Nat} {stage : CompStage}
    {reply : Reply} (h : compStep s x todo failed stage reply = some s')
    (hsaga : failed = 0 → MarkedUndone s ∧ Covered s (x :: todo))
    (hstage : StageOk s x stage)
    (hcond : skips stage reply = true → x.stepId ∈ s.undone) : PcSaga s' := by
  -- the step is passed over
  have hskip : skips stage reply = true → PcSaga (s.goto (.compensate todo failed .script)) := by
    intro hsk
    refine ⟨fun hf => ⟨(hsaga hf).1, (hsaga hf).2.tail (hcond hsk)⟩, ?_⟩
    exact fun _ _ => trivial
  -- the step stays at the head
  have hstay : ∀ stage', StageOk s x stage' →
      PcSaga (s.goto (.compensate (x :: todo) failed stage')) := by
    intro stage' hst
    refine ⟨hsaga, ?_⟩
    intro y hy
    cases hy
    exact hst
  -- the head is done with, and counted unless its run succeeded
  have hdone : ∀ ok, StageOk s x (.mark ok) →
      (if ok then failed else failed + 1) = 0 → failed = 0 ∧ x.stepId ∈ s.undone := by
    intro ok hst hzero
    cases ok with
    | true => exact ⟨hzero, hst rfl⟩
    | false => cases hzero
  unfold compStep at h
  split at h
  · split_ifs at h with hrt
    · cases h
      exact hskip hrt
    · cases h
      exact hstay _ trivial
  · cases h
    exact hskip rfl
  · cases h
    exact hskip rfl
  · cases h
    exact hstay _ trivial
  · cases h
    exact hskip rfl
  · next row =>
      cases h
      have hsub : ∀ id, id ∈ s.undone →
          id ∈ (if row = .succeeded then x.stepId :: s.undone else s.undone) := by
        intro id hid
        split_ifs
        · exact List.mem_cons_of_mem _ hid
        · exact hid
      refine ⟨fun hf => ⟨?_, ?_⟩, ?_⟩
      · exact fun y hy hflag => hsub _ ((hsaga hf).1 y hy hflag)
      · intro y hy hstatus hcomp
        exact ((hsaga hf).2 y hy hstatus hcomp).imp (hsub _) id
      · intro y hy hrow
        cases hy
        rw [if_pos hrow]
        exact List.mem_cons_self
  · cases h
    refine hstay _ ?_
    intro hok
    exact hstage (by simpa using hok)
  · cases h
    refine hstay _ ?_
    intro hok
    cases hok
  · next ok =>
      cases h
      refine ⟨fun hzero => ?_, fun _ _ => trivial⟩
      obtain ⟨hf, hx⟩ := hdone ok hstage hzero
      obtain ⟨hmarked, hcovered⟩ := hsaga hf
      refine ⟨?_, ?_⟩
      · intro y hy hflag
        obtain ⟨z, hz, hid, _, _, hflag'⟩ := mem_mark s.now hy
        rw [hid]
        rcases hflag' hflag with hz' | hz'
        · exact hmarked z hz hz'
        · exact hz' ▸ hx
      · intro y hy hstatus hcomp
        obtain ⟨z, hz, hid, hst, hc, _⟩ := mem_mark s.now hy
        rw [hid]
        exact hcovered.tail hx z hz (hst ▸ hstatus) (hc ▸ hcomp)
  · next ok _ =>
      cases h
      refine ⟨fun hzero => ?_, fun _ _ => trivial⟩
      obtain ⟨hf, hx⟩ := hdone ok hstage hzero
      exact ⟨(hsaga hf).1, (hsaga hf).2.tail hx⟩
  · cases h

/-- **Every step that meets the condition keeps the invariant.** -/
theorem Saga.step {a : Label} (hS : Saga s) (hcond : SagaCond s a)
    (h : step parse s a = some s') : Saga s' := by
  obtain ⟨hrunning, hhonest, hpc⟩ := hS
  -- a driver inside `drive_inner` has not written a status yet
  have hlive : driving s.pc = true → s.status ≠ .failed := by
    intro hd hf
    rw [hrunning hd] at hf
    cases hf
  have hdrive : ∀ pc, driving s.pc = true → PcSaga (s.goto pc) → Saga (s.goto pc) := by
    intro pc hd hp
    exact ⟨fun _ => hrunning hd, fun hf => absurd hf (hlive hd), hp⟩
  have hwrite : ∀ w pc, driving s.pc = true → PcSaga (s.write w pc) →
      Saga (s.write w pc) := by
    intro w pc hd hp
    exact ⟨fun _ => hrunning hd, fun hf => absurd hf (hlive hd), hp⟩
  cases step_move h with
  | tick d => exact ⟨hrunning, hhonest, hpc⟩
  | claim hoff hpend =>
      rw [PcSaga, hoff] at hpc
      exact ⟨(fun _ => rfl), (fun hf => by cases hf), hpc (.inl hpend)⟩
  | reap hoff hrun =>
      unfold PcSaga at hpc
      rw [hoff] at hpc
      refine ⟨fun hd => ?_, (fun hf => by cases hf), ?_⟩
      · rw [show driving s.pc = false from hoff ▸ rfl] at hd
        cases hd
      · unfold PcSaga
        rw [show s.pc = .off from hoff]
        exact fun _ => hpc (.inr hrun)
  | crash hon => exact ⟨(fun hd => by cases hd), hhonest, fun _ => hcond⟩
  | pass htop =>
      have hd : driving s.pc = true := by rw [htop]; rfl
      rw [PcSaga, htop] at hpc
      exact hdrive _ hd (pcSaga_pass hpc)
  | readError htop => exact ⟨(fun hd => by cases hd), hhonest, trivial⟩
  | write hpc' =>
      have hd : driving s.pc = true := by rw [hpc']; rfl
      rw [PcSaga, hpc'] at hpc
      obtain ⟨hmarked, hws⟩ := hpc
      refine hwrite _ _ hd ⟨markedUndone_write hmarked ?_, ?_⟩
      · rintro id rfl
        cases hws _ List.mem_cons_self
      · exact fun w hw => hws w (List.mem_cons_of_mem _ hw)
  | writeError hpc' =>
      have hd : driving s.pc = true := by rw [hpc']; rfl
      rw [PcSaga, hpc'] at hpc
      exact hdrive _ hd ⟨hpc.1, fun w hw => hpc.2 w (List.mem_cons_of_mem _ hw)⟩
  | wrote hpc' =>
      have hd : driving s.pc = true := by rw [hpc']; rfl
      rw [PcSaga, hpc'] at hpc
      refine hdrive _ hd ?_
      unfold afterWrites
      split_ifs
      · exact hpc.1
      · exact hpc.1
      · exact hpc.1
  | join hpc' hdone =>
      have hd : driving s.pc = true := by rw [hpc']; rfl
      rw [PcSaga, hpc'] at hpc
      exact hdrive _ hd hpc
  | wake hidle =>
      have hd : driving s.pc = true := by rw [hidle]; rfl
      rw [PcSaga, hidle] at hpc
      exact hdrive _ hd hpc
  | @compensated failed stage hpc' =>
      have hd : driving s.pc = true := by rw [hpc']; rfl
      rw [PcSaga, hpc'] at hpc
      refine hdrive _ hd ?_
      by_cases hf : failed > 0
      · rw [if_pos hf]
        exact ⟨by decide, by decide, (fun h => by cases h)⟩
      · rw [if_neg hf]
        refine ⟨by decide, by decide, fun _ x hx hstatus hcomp => ?_⟩
        rcases (hpc.1 (by omega)).2 x hx hstatus hcomp with h | ⟨y, hy, _⟩
        · exact h
        · cases hy
  | @comp x todo failed stage reply s' hpc' hcomp =>
      have hd : driving s.pc = true := by rw [hpc']; rfl
      rw [PcSaga, hpc'] at hpc
      have hskip : skips stage reply = true → x.stepId ∈ s.undone := by
        simpa only [SagaCond, SagaDrive, hpc'] using hcond
      obtain ⟨_, hstatus, _, _⟩ := compStep_cases hcomp
      refine ⟨fun _ => hstatus.trans (hrunning hd), fun hf => ?_,
        pcSaga_comp hcomp hpc.1 (hpc.2 x rfl) hskip⟩
      exact absurd (hstatus.symm.trans hf) (hlive hd)
  | finish hpc' =>
      rw [PcSaga, hpc'] at hpc
      obtain ⟨hnp, hnr, hundone⟩ := hpc
      refine ⟨(fun hd => by cases hd), hundone, fun h => ?_⟩
      rcases h with h | h
      · exact absurd h hnp
      · exact absurd h hnr
  | finishError hpc' => exact ⟨(fun hd => by cases hd), hhonest, trivial⟩
  | finishLost hpc' =>
      rw [PcSaga, hpc'] at hpc
      exact ⟨(fun hd => by cases hd), hpc.2.2, trivial⟩
  | record hpc' =>
      have hundone : AllUndone s := by
        simpa [SagaCond, SagaDrive, hpc', Reply.isOk] using hcond
      refine ⟨(fun hd => by cases hd), fun _ => hundone, fun h => ?_⟩
      rcases h with h | h
      · cases h
      · cases h
  | recordError hpc' =>
      have hmarked : MarkedUndone s := by
        simpa [SagaCond, SagaDrive, hpc', Reply.isOk] using hcond
      exact ⟨(fun hd => by cases hd), hhonest, fun _ => hmarked⟩
  | task hpc' ht hstep =>
      have hd : driving s.pc = true := by rw [hpc']; rfl
      rw [PcSaga, hpc'] at hpc
      exact hdrive _ hd hpc
  | taskWrite hpc' ht hstep =>
      have hd : driving s.pc = true := by rw [hpc']; rfl
      rw [PcSaga, hpc'] at hpc
      refine hwrite _ _ hd (markedUndone_write hpc ?_)
      rintro id rfl
      obtain ⟨_, heq | ⟨k, r, _, heq⟩ | ⟨status, output, _, _, heq⟩⟩ :=
        taskStep_cases hstep
      · cases heq
      · cases heq
      · cases heq

theorem saga_start (spec input : Value) : Saga (start spec input) := by
  refine ⟨(fun hd => by cases hd), (fun hf => by cases hf), fun _ x hx hflag => ?_⟩
  obtain ⟨st, _, rfl⟩ := List.mem_map.mp hx
  cases hflag

/-- **Saga honesty.**  Along every run whose steps meet `SagaCond`: a flow run
that is `failed` has every succeeded step with a compensation undone, and one
that ended in failure with a step not undone is `compensation_failed`. -/
theorem saga_honest {spec input : Value} {l : List Label}
    (hcond : Machine.Along (FlowDriver.step parse) SagaCond (start spec input) l)
    (hrun : Machine.run (FlowDriver.step parse) (start spec input) l = some s) :
    (s.status = .failed → AllUndone s) ∧
      (s.status = .failed ∨ s.status = .compensationFailed → ¬ AllUndone s →
        s.status = .compensationFailed) := by
  have hS : Saga s := Machine.inv_run (fun _ _ _ hS hc hs => hS.step hc hs)
    (saga_start spec input) hcond hrun
  refine ⟨hS.honest, fun hend hnot => ?_⟩
  rcases hend with hf | hf
  · exact absurd (hS.honest hf) hnot
  · exact hf

/-! ## Three ways to a dishonest `failed` -/

/-- `s0` with a compensation, then `s1` without retries. -/
def sagaSpec : Value :=
  .obj [("steps", .arr
    [ .obj
        [ ("compensate", .num (.int 9)), ("id", .str "s0")
        , ("script_id", .num (.int 1)) ]
    , .obj
        [ ("depends_on", .arr [.str "s0"]), ("id", .str "s1")
        , ("retries", .num (.int 0)), ("script_id", .num (.int 2)) ] ])]

/-- `s0` succeeds. -/
def s0Succeeds : List Label :=
  [ .claim, .drive .ok, .drive .ok
  , .task 0 (.script (some "bash")), .task 0 (.run 0), .task 0 .ok
  , .task 0 (.ran .succeeded), .task 0 .ok, .task 0 (.stdout none), .task 0 .ok
  , .drive .ok ]

/-- `s1` fails, and the next pass reads that. -/
def s1Fails : List Label :=
  [ .drive .ok, .drive .ok
  , .task 0 (.script (some "bash")), .task 0 (.run 1), .task 0 .ok
  , .task 0 (.ran .failed), .task 0 .ok, .task 0 .ok
  , .drive .ok, .drive .ok ]

/-- The compensation of `s0` ends as given and is marked. -/
def s0Compensated (row : RunStatus) : List Label :=
  [ .drive (.script (some "bash")), .drive (.run 2), .drive (.ran row), .drive .ok
  , .drive .ok ]

/-- The compensation of `s0` fails, the driver dies before it writes a status,
and the next one finds nothing left to compensate. -/
def crashedSaga : List Label :=
  s0Succeeds ++ s1Fails ++ s0Compensated .failed ++
    [.crash, .reap, .claim, .drive .ok, .drive .ok, .drive .ok]

/-- The compensation script of `s0` has been deleted. -/
def deletedScript : List Label :=
  s0Succeeds ++ s1Fails ++ [.drive (.script none), .drive .ok, .drive .ok]

/-- The ledger cannot be read once `s0` has succeeded. -/
def unreadLedger : List Label :=
  s0Succeeds ++ [.drive (.err "pool timed out"), .drive .ok]

/-- A run of `sagaSpec`. -/
def runSaga (l : List Label) : Option Flow :=
  Machine.run (FlowDriver.step fun _ => none) (start sagaSpec (.obj [])) l

/-- `failed`, with a succeeded step that was not undone. -/
def Dishonest (l : List Label) : Prop :=
  ∃ s, runSaga l = some s ∧ s.status = .failed ∧ ¬ AllUndone s

/-- Evaluating the run decides it. -/
theorem dishonest_of_view {l : List Label}
    (h : (runSaga l).map (fun s => (s.status, decide (AllUndone s))) =
      some (.failed, false)) : Dishonest l := by
  obtain ⟨s, hs, hview⟩ := Option.map_eq_some_iff.mp h
  obtain ⟨hstatus, hundone⟩ := Prod.mk.inj hview
  exact ⟨s, hs, hstatus, of_decide_eq_false hundone⟩

/-- A crash, a deleted script and a database error each end in a `failed` that
was not rolled back. -/
theorem not_saga_honest :
    Dishonest crashedSaga ∧ Dishonest deletedScript ∧ Dishonest unreadLedger := by
  refine ⟨dishonest_of_view ?_, dishonest_of_view ?_, dishonest_of_view ?_⟩
  · decide +kernel
  · decide +kernel
  · decide +kernel

/-- The compensation of `s0` succeeds and the driver lives. -/
def rolledBack : List Label :=
  s0Succeeds ++ s1Fails ++ s0Compensated .succeeded ++ [.drive .ok, .drive .ok]

/-- `saga_honest` on a flow run that failed and was rolled back. -/
theorem saga_honest_rolledBack :
    ∃ s, runSaga rolledBack = some s ∧ s.status = .failed ∧ AllUndone s := by
  have hview : (runSaga rolledBack).map (fun s => s.status) = some .failed := by
    decide +kernel
  have hcond : Machine.Along (FlowDriver.step fun _ => none) SagaCond
      (start sagaSpec (.obj [])) rolledBack := by decide +kernel
  obtain ⟨s, hs, hstatus⟩ := Option.map_eq_some_iff.mp hview
  exact ⟨s, hs, hstatus, (saga_honest hcond hs).1 hstatus⟩

end Dokan.Ports.FlowSaga
