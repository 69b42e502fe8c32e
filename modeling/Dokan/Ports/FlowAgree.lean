import Dokan.Ports.FlowEvaluate
import Dokan.Ports.FlowFanout

/-!
# A ledger on the way to its evaluation

`Agrees` says that what is settled in a ledger is what the evaluation says, and
that a fan-out has the rows its elements ask for.  `Right` is what has to hold
of a statement for this to stay so.  It looks at the columns a row keeps for
life and at the evaluation only, so nothing another statement does can take it
away.

## Main results

* `Agrees.write` — a right statement keeps a ledger on the way.
* `decisions_right` — what a pass decides is right.
* `failed_row` — a failed row fails a step of the spec.
-/

namespace Dokan.Ports.FlowAgree

open Dokan.Verified
open Dokan.Verified.Json
open Dokan.Ports.FlowRow
open Dokan.Ports.FlowSpec
open Dokan.Ports.FlowEval
open Dokan.Ports.FlowDriver
open Dokan.Ports.FlowLedger
open Dokan.Ports.FlowMoves
open Dokan.Ports.FlowOutcome
open Dokan.Ports.FlowEvaluate
open Dokan.Ports.FlowFanout

/-- A row that is over records the verdict. -/
def Verdict.Is (x : Verdict) (status : StepStatus) (output : Option String) : Prop :=
  match status with
  | .skipped => x = .skipped
  | .succeeded => x = .succeeded output
  | .failed => x = .failed
  | _ => False

section Agree

variable (parse : String → Option Value) (input : Value)
  (outcome : String → Value → Outcome) (v : String → Verdict) (base steps : List FlowStep)

/-- The turn of the step comes. -/
def Reached (s : FlowStep) : Prop :=
  (∀ d ∈ s.dependsOn, (v d).isSucceeded = true) ∧
    (s.whenCond.any fun cond => !evalWhen parse cond input (depsOf v s)) = false

/-- The elements a map step is run for. -/
def Elements (s : FlowStep) (items : List Value) : Prop :=
  Reached parse input v s ∧ fanoutWithinCap items.length = true ∧
    ∃ mapRef, s.mapRef = some mapRef ∧
      resolveRef parse mapRef input (depsOf v s) = some (.arr items)

/-- What is settled is what the evaluation says. -/
structure Agrees : Prop where
  ran : ∀ s ∈ steps, s.mapRef = none → s.status = .succeeded ∨ s.status = .failed →
    (runOf input outcome v s).Is s.status s.output
  verdict : ∀ s ∈ steps, fresh s ∈ base → s.status.active = false →
    Verdict.Is (v s.stepId) s.status s.output
  skipped : ∀ s ∈ steps, s.status = .skipped → fresh s ∈ base
  fanout : ∀ p ∈ steps, ∀ c ∈ steps, ChildOf p c →
    ∃ items, Elements parse input v p items ∧
      (steps.map fresh).filter (isChildOf p.stepId) =
        items.zipIdx.map fun x => childOf p x.2 x.1

/-- What the statement `w` has to be, about the row `s` it names. -/
def RightAt (s : FlowStep) : Write → Prop
  | .setRunning _ _ => True
  | .finish _ status output =>
      (s.mapRef = none → (runOf input outcome v s).Is status output) ∧
        (fresh s ∈ base → Verdict.Is (v s.stepId) status output)
  | .skip _ => fresh s ∈ base ∧ v s.stepId = .skipped
  | .expand _ children _ =>
      ∃ items, Elements parse input v s items ∧ children = mapChildren s items
  | .compensated _ => True

/-- The statement is right. -/
def Right (w : Write) : Prop :=
  (∃ id, w = .compensated id) ∨
    ∃ s ∈ steps, s.stepId = w.id ∧ RightAt parse input outcome v base s w

end Agree

variable {parse : String → Option Value} {input : Value}
  {outcome : String → Value → Outcome} {v : String → Verdict} {base steps : List FlowStep}
  {s t p : FlowStep} {w w' : Write} {now : Nat}

/-! ## Rightness stays -/

theorem rightAt_fresh : RightAt parse input outcome v base (fresh s) w ↔
    RightAt parse input outcome v base s w := by
  cases w <;> exact Iff.rfl

theorem RightAt.congr (h : RightAt parse input outcome v base s w)
    (hfresh : fresh t = fresh s) : RightAt parse input outcome v base t w := by
  rw [← rightAt_fresh, hfresh, rightAt_fresh]
  exact h

theorem elements_fresh {items : List Value} : Elements parse input v (fresh s) items ↔
    Elements parse input v s items := Iff.rfl

theorem Elements.congr {items : List Value} (h : Elements parse input v s items)
    (hfresh : fresh t = fresh s) : Elements parse input v t items := by
  rw [← elements_fresh, hfresh, elements_fresh]
  exact h

theorem runOf_congr (hfresh : fresh t = fresh s) :
    runOf input outcome v t = runOf input outcome v s := by
  have hself : ∀ x : FlowStep, runOf input outcome v (fresh x) = runOf input outcome v x :=
    fun _ => rfl
  rw [← hself, hfresh, hself]

/-- What is right stays right under another statement. -/
theorem Right.mono (h : Right parse input outcome v base steps w) (hL : Ledger base steps)
    (hbase : NoHash base) (hw' : Legal base steps w') :
    Right parse input outcome v base (w'.apply now steps) w := by
  rcases h with h | ⟨s, hs, hid, hat⟩
  · exact .inl h
  · obtain ⟨t, ht, hfresh, _⟩ := exists_image now hL hbase hw' hs
    exact .inr ⟨t, ht, (stepId_of_fresh hfresh).trans hid, hat.congr hfresh⟩

/-- The row a right statement names. -/
theorem Right.target (h : Right parse input outcome v base steps w)
    (hL : Ledger base steps) (hs : s ∈ steps) (hid : s.stepId = w.id) :
    RightAt parse input outcome v base s w := by
  rcases h with ⟨id, rfl⟩ | ⟨t, ht, hid', hat⟩
  · trivial
  · obtain rfl := Rows.eq_of_key_eq hL.nodup hs ht (hid.trans hid'.symm)
    exact hat

/-! ## A right statement keeps a ledger on the way -/

/-- The fan-outs after a right statement. -/
theorem Agrees.fanout_write (hA : Agrees parse input outcome v base steps)
    (hL : Ledger base steps) (hbase : NoHash base) (hw : Legal base steps w)
    (hr : Right parse input outcome v base steps w) (hp : p ∈ w.apply now steps)
    {c : FlowStep} (hc : c ∈ w.apply now steps) (hchild : ChildOf p c) :
    ∃ items, Elements parse input v p items ∧
      ((w.apply now steps).map fresh).filter (isChildOf p.stepId) =
        items.zipIdx.map fun x => childOf p x.2 x.1 := by
  have hL' : Ledger base (w.apply now steps) := hL.write hbase hw
  have hpb := hL'.base_of_mapRef hp hchild.1
  -- the row of the parent before the statement
  obtain ⟨p₀, hp₀, hp₀b, hfresh⟩ : ∃ p₀ ∈ steps, fresh p₀ ∈ base ∧ fresh p = fresh p₀ := by
    obtain ⟨q, hq, hqp⟩ := hL.kept (fresh p) hpb
    exact ⟨q, hq, hqp ▸ hpb, hqp.symm⟩
  have hid := stepId_of_fresh hfresh
  have hsame : ∀ items : List Value,
      (items.zipIdx.map fun x => childOf p x.2 x.1) =
        items.zipIdx.map fun x => childOf p₀ x.2 x.1 := by
    have hself : ∀ q i item, childOf (fresh q) i item = childOf q i item :=
      fun _ _ _ => rfl
    intro items
    refine List.map_congr_left fun x _ => ?_
    rw [← hself p, hfresh, hself]
  rw [map_fresh_apply hL hbase hw, List.filter_append, filter_rows hbase hw hpb, hid]
  by_cases hnew : Write.rows w ≠ [] ∧ p₀.stepId = w.id
  · -- the rows have just been inserted
    obtain ⟨hne, hpid⟩ := hnew
    rw [if_pos hpid]
    have hat := hw.target hL hp₀ hpid
    have hright := hr.target hL hp₀ hpid
    cases w with
    | expand parent children cache =>
        obtain ⟨hpend, _, _, _, _, _, _, _, rfl⟩ := hat
        obtain ⟨items, hitems, rfl⟩ := hright
        refine ⟨items, hitems.congr hfresh, ?_⟩
        rw [filter_pending hL hbase hp₀ hp₀b hpend, List.nil_append, hsame, Write.rows,
          rows_mapChildren]
    | setRunning id runId => exact absurd rfl hne
    | finish id status output => exact absurd rfl hne
    | skip id => exact absurd rfl hne
    | compensated id => exact absurd rfl hne
  · -- the fan-out was there before
    have hnone : (if p₀.stepId = w.id then Write.rows w else []) = [] := by
      split_ifs with hpid
      · by_contra hne
        exact hnew ⟨hne, hpid⟩
      · rfl
    have hold : ∃ c₀ ∈ steps, ChildOf p₀ c₀ := by
      rcases (mem_apply hL hbase hw).mp hc with ⟨hc, _⟩ | ⟨c₀, hc₀, _, rfl⟩ | hc
      · exact ⟨c, hc, hchild.congr hfresh.symm rfl⟩
      · exact ⟨c₀, hc₀, hchild.congr hfresh.symm (fresh_row w c₀).symm⟩
      · obtain ⟨q, hq, hqid, _, hchild', _⟩ := hw.mem_rows now hc
        have hpq := hL.parent_unique hbase hp₀ hq (hchild.congr hfresh.symm rfl) hchild'
        exact absurd ⟨List.ne_nil_of_mem hc, hpq ▸ hqid⟩ hnew
    obtain ⟨c₀, hc₀, hchild₀⟩ := hold
    obtain ⟨items, hitems, hrows⟩ := hA.fanout p₀ hp₀ c₀ hc₀ hchild₀
    exact ⟨items, hitems.congr hfresh, by rw [hnone, List.append_nil, hsame, hrows]⟩

/-- **A right statement keeps a ledger on the way.** -/
theorem Agrees.write (hA : Agrees parse input outcome v base steps)
    (hL : Ledger base steps) (hbase : NoHash base) (hw : Legal base steps w)
    (hr : Right parse input outcome v base steps w) :
    Agrees parse input outcome v base (w.apply now steps) := by
  refine ⟨?_, ?_, ?_, fun p hp c hc => hA.fanout_write hL hbase hw hr hp hc⟩
  · intro t ht hmap hstatus
    rcases (mem_apply hL hbase hw).mp ht with ⟨ht, _⟩ | ⟨s, hs, hid, rfl⟩ | ht
    · exact hA.ran t ht hmap hstatus
    · have hat := hr.target hL hs hid
      have hmap' : s.mapRef = none := by rwa [mapRef_of_fresh (fresh_row w s)] at hmap
      rw [runOf_congr (fresh_row w s)]
      cases w with
      | setRunning id runId => rcases hstatus with h | h <;> cases h
      | finish id status output => exact hat.1 hmap'
      | skip id => rcases hstatus with h | h <;> cases h
      | expand parent children cache => rcases hstatus with h | h <;> cases h
      | compensated id => exact hA.ran s hs hmap' hstatus
    · obtain ⟨_, _, _, _, _, hpend, _⟩ := hw.mem_rows now ht
      rw [hpend] at hstatus
      rcases hstatus with h | h <;> cases h
  · intro t ht htb hinactive
    rcases (mem_apply hL hbase hw).mp ht with ⟨ht, _⟩ | ⟨s, hs, hid, rfl⟩ | ht
    · exact hA.verdict t ht htb hinactive
    · have hat := hr.target hL hs hid
      rw [fresh_row] at htb
      rw [stepId_row]
      cases w with
      | setRunning id runId => cases hinactive
      | finish id status output => exact hat.2 htb
      | skip id => exact hat.2
      | expand parent children cache => cases hinactive
      | compensated id => exact hA.verdict s hs htb hinactive
    · obtain ⟨_, _, _, _, _, hpend, _⟩ := hw.mem_rows now ht
      rw [hpend] at hinactive
      cases hinactive
  · intro t ht hstatus
    rcases (mem_apply hL hbase hw).mp ht with ⟨ht, _⟩ | ⟨s, hs, hid, rfl⟩ | ht
    · exact hA.skipped t ht hstatus
    · have hlegal := hw.target hL hs hid
      have hat := hr.target hL hs hid
      rw [fresh_row]
      cases w with
      | setRunning id runId => cases hstatus
      | finish id status output =>
          have hstatus' : status = .skipped := hstatus
          rcases hlegal.1 with h | h
          · rw [h] at hstatus'
            cases hstatus'
          · rw [h] at hstatus'
            cases hstatus'
      | skip id => exact hat.1
      | expand parent children cache => cases hstatus
      | compensated id => exact hA.skipped s hs hstatus
    · obtain ⟨_, _, _, _, _, hpend, _⟩ := hw.mem_rows now ht
      rw [hpend] at hstatus
      cases hstatus

/-! ## What a pass decides -/

/-- The verdict on a step whose turn comes. -/
theorem verdictOf_reached {within : Nat → Bool} (h : Reached parse input v s) :
    verdictOf within parse input outcome v s = turnOf within parse input outcome v s := by
  obtain ⟨hdeps, hwhen⟩ := h
  unfold verdictOf
  rw [if_neg, if_neg, hwhen, if_neg Bool.false_ne_true]
  · rintro ⟨d, hd, hnot⟩
    rw [hdeps d hd] at hnot
    cases hnot
  · rintro ⟨d, hd, hskip⟩
    have hsucc := hdeps d hd
    rw [hskip] at hsucc
    cases hsucc

/-- The verdict on a map step that is given its elements. -/
theorem verdictOf_elements {items : List Value} (h : Elements parse input v s items) :
    verdictOf fanoutWithinCap parse input outcome v s =
      gather (elementsOf input outcome v s items) := by
  obtain ⟨hreached, hcap, mapRef, hmap, hitems⟩ := h
  rw [verdictOf_reached hreached]
  simp only [turnOf, hmap, hitems, hcap, if_true]

/-- What the ledger shows of the dependencies of a step whose turn has come. -/
theorem Agrees.dependency (hA : Agrees parse input outcome v base steps)
    (hL : Ledger base steps) {d : String} (hd : ∃ b ∈ base, b.stepId = d)
    (hready : ((outputs steps d).isSome || isSkipped steps d) = true) :
    outputs steps d = (v d).output? ∧
      ((v d).isSucceeded = true ∧ isSkipped steps d = false ∨
        v d = .skipped ∧ isSkipped steps d = true) := by
  obtain ⟨b, hb, rfl⟩ := hd
  obtain ⟨t, ht, rfl⟩ := hL.kept b hb
  have hfind : Rows.find FlowStep.stepId (fresh t).stepId steps = some t :=
    Rows.find_of_mem hL.nodup ht
  have hverdict := hA.verdict t ht hb
  simp only [outputs, isSkipped, hfind] at hready ⊢
  cases hstatus : t.status with
  | succeeded =>
      rw [hstatus] at hverdict
      have hv : v (fresh t).stepId = .succeeded t.output := hverdict rfl
      rw [hv]
      simp [hstatus, Verdict.output?, Verdict.isSucceeded]
  | skipped =>
      rw [hstatus] at hverdict
      have hv : v (fresh t).stepId = .skipped := hverdict rfl
      rw [hv]
      simp [hstatus, Verdict.output?]
  | pending => simp [hstatus] at hready
  | running => simp [hstatus] at hready
  | expanded => simp [hstatus] at hready
  | failed => simp [hstatus] at hready

/-- The dependencies of a row are steps of the spec. -/
theorem known_deps (hvalid : ValidLedger base) (hL : Ledger base steps) (hs : s ∈ steps) :
    ∀ d ∈ s.dependsOn, ∃ b ∈ base, b.stepId = d := by
  rcases hL.origin s hs with hsb | ⟨p, _, hpb, hchild, _⟩
  · exact hvalid.known (fresh s) hsb
  · rw [hchild.dependsOn]
    exact hvalid.known (fresh p) hpb

/-- A child that is not over has seen its dependencies succeed. -/
theorem readyDeps_of_child (hL : Ledger base steps) (hs : s ∈ steps)
    (hact : s.status.active = true) (hsb : fresh s ∉ base) :
    s.whenCond = none ∧ s.dependsOn.any (isSkipped steps) = false := by
  rcases hL.origin s hs with h | ⟨p, hp, _, hchild, _, hexp⟩
  · exact absurd h hsb
  · refine ⟨?_, List.any_eq_false.mpr fun d hd hskip => ?_⟩
    · obtain ⟨_, i, item, heq⟩ := hchild
      simpa [fresh, childOf, childRow] using congrArg FlowStep.whenCond heq
    · rw [hchild.dependsOn] at hd
      obtain ⟨t, ht, rfl, hstatus⟩ := hL.ordered p hp (by rw [hexp hact]; rfl) d hd
      obtain ⟨t', ht', hstatus'⟩ := isSkipped_iff.mp hskip
      rw [Rows.find_of_mem hL.nodup ht] at ht'
      cases ht'
      rw [hstatus] at hstatus'
      cases hstatus'

/-- What is handed to the task of a step. -/
structure Runs (input : Value) (outcome : String → Value → Outcome) (v : String → Verdict)
    (base steps : List FlowStep) (x : FlowStep) (deps : Value) : Prop where
  deps : deps = depsOf v x
  plain : x.mapRef = none
  verdict : fresh x ∈ base → v x.stepId = Outcome.verdict (runOf input outcome v x)
  row : ∃ s ∈ steps, fresh s = fresh x

theorem Runs.mono {x : FlowStep} {deps : Value}
    (h : Runs input outcome v base steps x deps) (hL : Ledger base steps)
    (hbase : NoHash base) (hw : Legal base steps w) :
    Runs input outcome v base (w.apply now steps) x deps := by
  obtain ⟨s, hs, hfresh⟩ := h.row
  obtain ⟨t, ht, hfresh', _⟩ := exists_image now hL hbase hw hs
  exact ⟨h.deps, h.plain, h.verdict, t, ht, hfresh'.trans hfresh⟩

section Pass

variable (hvalid : ValidLedger base)
  (hv : Evaluation fanoutWithinCap parse input outcome base v)
  (hL : Ledger base steps) (hA : Agrees parse input outcome v base steps)

include hv in
/-- The verdict on a row of the spec. -/
theorem verdict_row (hsb : fresh s ∈ base) :
    v s.stepId = verdictOf fanoutWithinCap parse input outcome v s := hv (fresh s) hsb

include hvalid hL hA in
/-- A step whose turn has come sees the outputs of the evaluation. -/
theorem deps_of_ready (hs : s ∈ steps) (hready : depReady steps s = true) :
    buildDeps s.dependsOn (outputs steps) = depsOf v s ∧
      ∀ d ∈ s.dependsOn, (v d).isSucceeded = true ∧ isSkipped steps d = false ∨
        v d = .skipped ∧ isSkipped steps d = true := by
  have hdep := fun d hd => hA.dependency hL (known_deps hvalid hL hs d hd)
    (List.all_eq_true.mp hready d hd)
  refine ⟨?_, fun d hd => (hdep d hd).2⟩
  unfold depsOf buildDeps
  congr 1
  refine List.filterMap_congr fun d hd => ?_
  simp only [(hdep d hd).1]

include hv hL in
/-- What `expand` decides about a step whose turn has come is right. -/
theorem expand_right (hs : s ∈ steps) (hreached : Reached parse input v s)
    {mapRef : String} (hmap : s.mapRef = some mapRef) :
    Right parse input outcome v base steps
      (expand parse input s (depsOf v s) mapRef) := by
  have hsb : fresh s ∈ base := hL.base_of_mapRef hs (by rw [hmap]; simp)
  have hturn := verdict_row hv hsb
  have hfinish : ∀ status output, Verdict.Is (v s.stepId) status output →
      Right parse input outcome v base steps (.finish s.stepId status output) := by
    intro status output h
    refine .inr ⟨s, hs, rfl, fun hnone => ?_, fun _ => h⟩
    rw [hmap] at hnone
    cases hnone
  unfold FlowDriver.expand
  split
  · next items hitems =>
      split_ifs with hempty hcap
      · have hnil : items = [] := List.isEmpty_iff.mp hempty
        subst hnil
        rw [verdictOf_elements ⟨hreached, rfl, mapRef, hmap, hitems⟩] at hturn
        exact hfinish _ _ hturn
      · have hbig : fanoutWithinCap items.length = false := by simpa using hcap
        rw [verdictOf_reached hreached] at hturn
        simp only [turnOf, hmap, hitems, hbig, Bool.false_eq_true, if_false] at hturn
        exact hfinish _ _ hturn
      · have hsmall : fanoutWithinCap items.length = true := by simpa using hcap
        have hparent : ∀ w : Write, w = .expand s.stepId (mapChildren s items) s.cache →
            Right parse input outcome v base steps w := by
          rintro w rfl
          exact .inr ⟨s, hs, rfl, items, ⟨hreached, hsmall, mapRef, hmap, hitems⟩, rfl⟩
        exact hparent _ rfl
  · next hnot =>
      rw [verdictOf_reached hreached] at hturn
      have hfail : turnOf fanoutWithinCap parse input outcome v s = .failed := by
        simp only [turnOf, hmap]
      rw [hfail] at hturn
      exact hfinish _ _ hturn

include hvalid hv hL hA in
/-- What the loop decides about a pending step is right. -/
theorem action_right (hs : s ∈ steps) (hpend : s.status = .pending) :
    (∀ w, action parse input steps s = .write w →
        Right parse input outcome v base steps w) ∧
      ∀ r, action parse input steps s = .run r →
        Runs input outcome v base steps r.step r.deps := by
  have hact : s.status.active = true := by rw [hpend]; rfl
  by_cases hready : depReady steps s = true
  · obtain ⟨hdeps, hseen⟩ := deps_of_ready hvalid hL hA hs hready
    simp only [action, hready, Bool.not_true, Bool.false_eq_true, if_false, hdeps]
    by_cases hskip : s.dependsOn.any (isSkipped steps) = true
    · -- a dependency is skipped
      rw [if_pos hskip]
      refine ⟨?_, fun r h => (by cases h)⟩
      rintro w ⟨⟩
      have hsb : fresh s ∈ base := by
        by_contra hsb
        rw [(readyDeps_of_child hL hs hact hsb).2] at hskip
        cases hskip
      refine .inr ⟨s, hs, rfl, hsb, ?_⟩
      obtain ⟨d, hd, hdskip⟩ := List.any_eq_true.mp hskip
      have hvd : v d = .skipped := by
        rcases hseen d hd with ⟨_, hnot⟩ | ⟨h, _⟩
        · rw [hnot] at hdskip
          cases hdskip
        · exact h
      rw [verdict_row hv hsb, verdictOf, if_pos ⟨d, hd, hvd⟩]
    · rw [if_neg hskip]
      have hsucc : ∀ d ∈ s.dependsOn, (v d).isSucceeded = true := by
        intro d hd
        rcases hseen d hd with ⟨h, _⟩ | ⟨_, h⟩
        · exact h
        · exact absurd (List.any_eq_true.mpr ⟨d, hd, h⟩) hskip
      by_cases hwhen : (s.whenCond.any fun cond => !evalWhen parse cond input
          (depsOf v s)) = true
      · -- the gate is closed
        rw [if_pos hwhen]
        refine ⟨?_, fun r h => (by cases h)⟩
        rintro w ⟨⟩
        have hsb : fresh s ∈ base := by
          by_contra hsb
          rw [(readyDeps_of_child hL hs hact hsb).1] at hwhen
          cases hwhen
        refine .inr ⟨s, hs, rfl, hsb, ?_⟩
        rw [verdict_row hv hsb, verdictOf, if_neg, if_neg, if_pos hwhen]
        · rintro ⟨d, hd, hnot⟩
          rw [hsucc d hd] at hnot
          cases hnot
        · rintro ⟨d, hd, hnot⟩
          have h := hsucc d hd
          rw [hnot] at h
          cases h
      · rw [if_neg hwhen]
        have hreached : Reached parse input v s := ⟨hsucc, by simpa using hwhen⟩
        cases hmap : s.mapRef with
        | some mapRef =>
            refine ⟨?_, fun r h => (by cases h)⟩
            rintro w ⟨⟩
            exact expand_right hv hL hs hreached hmap
        | none =>
            refine ⟨(fun w h => by cases h), ?_⟩
            rintro r ⟨⟩
            refine ⟨rfl, hmap, fun hsb => ?_, s, hs, rfl⟩
            rw [verdict_row hv hsb, verdictOf_reached hreached, turnOf, hmap]
  · rw [Bool.not_eq_true] at hready
    simp only [action, hready, Bool.not_false, if_true]
    exact ⟨(fun w h => by cases h), fun r h => (by cases h)⟩

/-! ### Closing a map parent -/

/-- The rows of a fan-out in the order of the ledger, and their elements. -/
structure FanoutOf (parse : String → Option Value) (input : Value) (v : String → Verdict)
    (steps : List FlowStep) (p : FlowStep) (items : List Value) : Prop where
  elements : Elements parse input v p items
  rows : (steps.filter (isChildOf p.stepId)).map fresh =
    items.zipIdx.map fun x => childOf p x.2 x.1

include hA in
theorem fanoutOf {c : FlowStep} (hp : p ∈ steps) (hc : c ∈ steps) (hchild : ChildOf p c) :
    ∃ items, FanoutOf parse input v steps p items := by
  obtain ⟨items, hitems, hrows⟩ := hA.fanout p hp c hc hchild
  have hself : isChildOf p.stepId ∘ fresh = isChildOf p.stepId := rfl
  rw [List.filter_map, hself] at hrows
  exact ⟨items, hitems, hrows⟩

/-- The elements of a fan-out end as its rows do. -/
theorem FanoutOf.outcomes {items : List Value}
    (h : FanoutOf parse input v steps p items) :
    elementsOf input outcome v p items =
      (steps.filter (isChildOf p.stepId)).map (runOf input outcome v) := by
  have hself : runOf input outcome v ∘ fresh = runOf input outcome v := rfl
  rw [← hself, ← List.map_map, h.rows, List.map_map]
  rfl

/-- The rows of a fan-out already are in index order. -/
theorem FanoutOf.sorted {items : List Value}
    (h : FanoutOf parse input v steps p items) :
    sortedChildren (steps.filter (isChildOf p.stepId)) =
      steps.filter (isChildOf p.stepId) := by
  have hcap : items.length ≤ maxMapFanout := by
    simpa [fanoutWithinCap] using h.elements.2.1
  exact sorted_of_rows h.rows hcap

/-- A row of a fan-out. -/
theorem FanoutOf.child {items : List Value} (h : FanoutOf parse input v steps p items)
    {c : FlowStep} (hc : c ∈ steps.filter (isChildOf p.stepId)) : ChildOf p c := by
  have hmem := List.mem_map_of_mem (f := fresh) hc
  rw [h.rows] at hmem
  obtain ⟨x, _, hx⟩ := List.mem_map.mp hmem
  obtain ⟨_, _, mapRef, hmap, _⟩ := h.elements
  exact ⟨by rw [hmap]; simp, x.2, x.1, hx.symm⟩

/-- A succeeded row fills its slot. -/
theorem slot_of_succeeded {c : FlowStep} {o : Outcome} (hstatus : c.status = .succeeded)
    (h : o.Is c.status c.output) : slot c = Outcome.slot o := by
  rw [hstatus] at h
  have ho : o = .succeeded c.output := h
  rw [slot, hstatus, ho]
  cases c.output <;> rfl

include hvalid hv hL hA in
/-- What the loop over the map parents decides is right. -/
theorem aggregate_right (hp : p ∈ steps) (hexp : p.status = .expanded) {a : Agg}
    (ha : aggregateChildren steps p.stepId = some a) :
    Right parse input outcome v base steps (Agg.write p.stepId a) := by
  have hbase : NoHash base := hvalid.noHash
  obtain ⟨hpb, c₀, hc₀, hchild₀⟩ := hL.parent p hp hexp
  obtain ⟨items, hfan⟩ := fanoutOf hA hp hc₀ hchild₀
  have hfinish : ∀ status output, Verdict.Is (v p.stepId) status output →
      Right parse input outcome v base steps (.finish p.stepId status output) :=
    fun status output h =>
      .inr ⟨p, hp, rfl, fun hnone => absurd hnone hchild₀.1, fun _ => h⟩
  have hverdict : v p.stepId =
      gather ((steps.filter (isChildOf p.stepId)).map (runOf input outcome v)) := by
    rw [verdict_row hv hpb, verdictOf_elements hfan.elements, hfan.outcomes]
  -- what each row of the fan-out has recorded
  have hrow : ∀ c ∈ steps.filter (isChildOf p.stepId), c.status.active = false →
      (c.status = .succeeded ∨ c.status = .failed) ∧
        (runOf input outcome v c).Is c.status c.output := by
    intro c hc hinactive
    have hchild := hfan.child hc
    have hcs := (List.mem_filter.mp hc).1
    have hended : c.status = .succeeded ∨ c.status = .failed := by
      cases hstatus : c.status with
      | succeeded => exact .inl rfl
      | failed => exact .inr rfl
      | skipped => exact absurd (hA.skipped c hcs hstatus) (hchild.not_base hbase)
      | pending => rw [hstatus] at hinactive; cases hinactive
      | running => rw [hstatus] at hinactive; cases hinactive
      | expanded => rw [hstatus] at hinactive; cases hinactive
    exact ⟨hended, hA.ran c hcs hchild.mapRef hended⟩
  simp only [aggregateChildren] at ha
  split_ifs at ha with hempty hactive hfail
  · -- one has failed
    cases ha
    refine hfinish _ _ ?_
    obtain ⟨c, hc, hcf⟩ := List.any_eq_true.mp hfail
    have hstatus : c.status = .failed := by simpa using hcf
    have hout := (hrow c hc (by rw [hstatus]; rfl)).2
    rw [hstatus] at hout
    have hany : ((steps.filter (isChildOf p.stepId)).map (runOf input outcome v)).any
        (fun o => o = .failed) = true :=
      List.any_eq_true.mpr ⟨_, List.mem_map_of_mem hc, decide_eq_true hout⟩
    rw [hverdict, gather, if_pos hany]
    rfl
  · -- all have succeeded
    cases ha
    refine hfinish _ _ ?_
    have hsucc : ∀ c ∈ steps.filter (isChildOf p.stepId), c.status = .succeeded ∧
        (runOf input outcome v c).Is c.status c.output := by
      intro c hc
      have hinactive : c.status.active = false := by
        rw [Bool.eq_false_iff]
        exact fun h => hactive (List.any_eq_true.mpr ⟨c, hc, h⟩)
      obtain ⟨h | h, hout⟩ := hrow c hc hinactive
      · exact ⟨h, hout⟩
      · exact absurd (List.any_eq_true.mpr ⟨c, hc, decide_eq_true h⟩) hfail
    have hany : ((steps.filter (isChildOf p.stepId)).map (runOf input outcome v)).any
        (fun o => o = .failed) = false := by
      rw [List.any_map, List.any_eq_false]
      intro c hc hof
      obtain ⟨hstatus, hout⟩ := hsucc c hc
      rw [hstatus] at hout
      have ho : runOf input outcome v c = .succeeded c.output := hout
      simp [ho] at hof
    have hslots : (steps.filter (isChildOf p.stepId)).map slot =
        ((steps.filter (isChildOf p.stepId)).map (runOf input outcome v)).map
          Outcome.slot := by
      rw [List.map_map]
      exact List.map_congr_left fun c hc =>
        slot_of_succeeded (hsucc c hc).1 (hsucc c hc).2
    rw [hverdict, gather, hany, if_neg Bool.false_ne_true, ← hslots, hfan.sorted]
    rfl

include hvalid hv hL hA in
/-- **A failed row fails a step of the spec.** -/
theorem failed_row (hs : s ∈ steps) (hfail : s.status = .failed) :
    ∃ b ∈ base, v b.stepId = .failed := by
  rcases hL.origin s hs with hsb | ⟨p, hp, hpb, hchild, _⟩
  · have h := hA.verdict s hs hsb (by rw [hfail]; rfl)
    rw [hfail] at h
    exact ⟨fresh s, hsb, h⟩
  · -- a failed row of a fan-out
    refine ⟨fresh p, hpb, ?_⟩
    obtain ⟨items, hfan⟩ := fanoutOf hA hp hs hchild
    have hout := hA.ran s hs hchild.mapRef (.inr hfail)
    rw [hfail] at hout
    have hbase : NoHash base := hvalid.noHash
    have hash := hbase.of_fresh hpb
    obtain ⟨i, hi⟩ := hchild.stepId
    have hmem : s ∈ steps.filter (isChildOf p.stepId) :=
      List.mem_filter.mpr ⟨hs, (isChildOf_childId hash hash hi).mpr rfl⟩
    have hany : ((steps.filter (isChildOf p.stepId)).map (runOf input outcome v)).any
        (fun o => o = .failed) = true :=
      List.any_eq_true.mpr ⟨_, List.mem_map_of_mem hmem, decide_eq_true hout⟩
    have hverdict := verdict_row hv hpb
    rw [verdictOf_elements hfan.elements, hfan.outcomes, gather, if_pos hany] at hverdict
    exact hverdict

include hvalid hv hL hA in
/-- **What a pass decides is right.** -/
theorem decisions_right :
    (∀ w ∈ aggregates steps, Right parse input outcome v base steps w) ∧
      (∀ w ∈ (actions parse input steps).filterMap Action.write?,
        Right parse input outcome v base steps w) ∧
      ∀ r ∈ (actions parse input steps).filterMap Action.run?,
        Runs input outcome v base steps r.step r.deps := by
  have haction : ∀ a ∈ actions parse input steps, ∃ s ∈ steps, s.status = .pending ∧
      action parse input steps s = a := by
    intro a ha
    obtain ⟨s, hs, rfl⟩ := List.mem_map.mp ha
    obtain ⟨hs, hpend⟩ := List.mem_filter.mp hs
    exact ⟨s, hs, by simpa using hpend, rfl⟩
  refine ⟨?_, ?_, ?_⟩
  · intro w hw
    obtain ⟨p, hp, hw⟩ := List.mem_filterMap.mp hw
    obtain ⟨a, ha, rfl⟩ := Option.map_eq_some_iff.mp hw
    obtain ⟨hp, hexp⟩ := List.mem_filter.mp hp
    exact aggregate_right hvalid hv hL hA hp (by simpa using hexp) ha
  · intro w hw
    obtain ⟨a, ha, hw⟩ := List.mem_filterMap.mp hw
    obtain ⟨s, hs, hpend, rfl⟩ := haction a ha
    exact (action_right hvalid hv hL hA hs hpend).1 w (action_write? hw)
  · intro r hr
    obtain ⟨a, ha, hr⟩ := List.mem_filterMap.mp hr
    obtain ⟨s, hs, hpend, rfl⟩ := haction a ha
    exact (action_right hvalid hv hL hA hs hpend).2 r (action_run? hr)

end Pass

end Dokan.Ports.FlowAgree
