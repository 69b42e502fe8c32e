import Dokan.Ports.FlowFanout
import Dokan.Ports.FlowOutcome

/-!
# What a finished map step has recorded

A map step over `n` elements is closed by the statement `aggregates` decides on
when all its children are over.  Its children are found by the prefix of their
ids and put in order by the number after the last `#`, so neither the order of
the rows nor the order in which the children finished is in the result.

## Main results

* `aggregateChildren_perm` — the order of the rows is of no account.
* `Closing.step` — the statement that closes a map step is carried out before
  its pass is over.
* `map_aggregation` — what a map step that has succeeded has recorded, and when
  it is closed.
-/

namespace Dokan.Ports.FlowAggregate

open Dokan.Verified
open Dokan.Verified.Json
open Dokan.Ports.RunRow
open Dokan.Ports.FlowRow
open Dokan.Ports.FlowSpec
open Dokan.Ports.FlowEval
open Dokan.Ports.FlowDriver
open Dokan.Ports.FlowLedger
open Dokan.Ports.FlowMoves
open Dokan.Ports.FlowOrder
open Dokan.Ports.FlowOutcome
open Dokan.Ports.FlowFanout

variable {parse : String → Option Value} {input : Value} {base steps : List FlowStep}
  {p : FlowStep} {w : Write} {items : List Value} {s s' : Flow}

/-! ## The array of a map step that is over -/

/-- The entry of a child: its output as a string, or null. -/
def entry (c : FlowStep) : Value :=
  match c.output with
  | some o => .str o
  | none => .null

/-- The output of `p` is the text of an array of `n` entries, one for each
child, and no child is still active or has failed. -/
def Aggregated (steps : List FlowStep) (p : FlowStep) (n : Nat) : Prop :=
  ∃ entries : List Value, p.output = some (Value.print (.arr entries)) ∧
    entries.length = n ∧
    ∀ i < n, ∃ c ∈ steps, c.stepId = childId p.stepId i ∧ c.status.active = false ∧
      c.status ≠ .failed ∧ entries[i]? = some (entry c)

/-- The slot of a child that is over is its entry. -/
theorem slot_eq_entry (hF : Fanouts parse input steps) {c : FlowStep} (hc : c ∈ steps)
    (hset : c.status.settled = true) : slot c = entry c := by
  unfold slot entry
  cases hstatus : c.status with
  | succeeded => cases c.output <;> rfl
  | skipped =>
      have hblank := hF.blank c hc (by rw [hstatus]; decide) (by rw [hstatus]; decide)
      rw [hblank]
  | pending => rw [hstatus] at hset; cases hset
  | running => rw [hstatus] at hset; cases hset
  | expanded => rw [hstatus] at hset; cases hset
  | failed => rw [hstatus] at hset; cases hset

/-- What a map step with settled children has recorded. -/
theorem aggregated_of_joined (hF : Fanouts parse input steps)
    (hfans : Fans parse input steps p items) (hjoined : Joined steps p p.output) :
    Aggregated steps p items.length := by
  refine ⟨_, hjoined.output, ?_, fun i hi => ?_⟩
  · rw [List.length_map, hfans.length]
  · obtain ⟨c, hc, hchild, hid, hget⟩ := hfans.child hi
    have hset := hjoined.settled c hc hchild
    refine ⟨c, hc, hid, ?_, ?_, ?_⟩
    · rw [Bool.eq_false_iff]
      intro hact
      rw [not_settled_of_active hact] at hset
      cases hset
    · intro hfail
      rw [hfail] at hset
      cases hset
    · rw [List.getElem?_map, hget, Option.map_some, slot_eq_entry hF hc hset]

/-- **A map step that has succeeded** has recorded one entry for each element of
its array. -/
theorem aggregated_of_succeeded (hF : Fanouts parse input steps) (hp : p ∈ steps)
    (hitems : ArrayOf parse input steps p items) (hstatus : p.status = .succeeded) :
    items.length ≤ maxMapFanout ∧ Aggregated steps p items.length := by
  obtain ⟨mapRef, hmap, _⟩ := id hitems
  obtain ⟨⟨items', hfans⟩, hjoined⟩ := hF.closed p hp (by rw [hmap]; simp) hstatus
  obtain rfl := hitems.unique hfans.array
  exact ⟨hfans.cap, aggregated_of_joined hF hfans hjoined⟩

/-! ## The order of the rows -/

/-- Two children of one fan-out have different indices. -/
theorem childIndex_inj (hfans : Fans parse input steps p items) {a b : FlowStep}
    (ha : a ∈ steps.filter (isChildOf p.stepId))
    (hb : b ∈ steps.filter (isChildOf p.stepId)) (h : childIndex a = childIndex b) :
    a = b := by
  have hnd : ((steps.filter (isChildOf p.stepId)).map childIndex).Nodup := by
    rw [index_of_rows hfans.rows hfans.cap]
    exact List.nodup_range'
  exact List.inj_on_of_nodup_map hnd ha hb h

/-- **The order of the rows is of no account** for what the children of a map
step add up to. -/
theorem aggregateChildren_perm (hF : Fanouts parse input steps) (hL : Ledger base steps)
    (hbase : NoHash base) (hp : p ∈ steps) (hmap : p.mapRef ≠ none)
    {rows : List FlowStep} (hrows : rows.Perm steps) :
    aggregateChildren rows p.stepId = aggregateChildren steps p.stepId := by
  have hperm := hrows.filter (isChildOf p.stepId)
  have hsorted : sortedChildren (rows.filter (isChildOf p.stepId)) =
      sortedChildren (steps.filter (isChildOf p.stepId)) := by
    cases hkids : steps.filter (isChildOf p.stepId) with
    | nil => rw [hkids] at hperm; rw [hperm.eq_nil]
    | cons c₀ kids =>
        obtain ⟨hc₀, hchild₀⟩ : c₀ ∈ steps ∧ isChildOf p.stepId c₀ = true :=
          List.mem_filter.mp (hkids ▸ List.mem_cons_self)
        have hchild := childOf_of_isChildOf hL hbase hp (hL.base_of_mapRef hp hmap) hc₀ hchild₀
        obtain ⟨_, _, items, hfans⟩ := hF.whole p hp c₀ hc₀ hchild
        rw [← hkids]
        -- two sorted permutations of rows with distinct indices
        refine List.Perm.eq_of_pairwise (fun a b ha hb hab hba => ?_)
          (List.pairwise_insertionSort _ _) (List.pairwise_insertionSort _ _)
          (((List.perm_insertionSort _ _).trans hperm).trans
            (List.perm_insertionSort _ _).symm)
        have ha := (hperm.mem_iff).mp ((List.mem_insertionSort _).mp ha)
        have hb := (List.mem_insertionSort _).mp hb
        exact childIndex_inj hfans ha hb (Nat.le_antisymm hab hba)
  simp only [aggregateChildren, hperm.isEmpty_eq, hperm.any_eq, hsorted]

/-! ## The pass that closes a map step -/

/-- What the children of a map step add up to when they have all succeeded. -/
theorem aggregates_of_succeeded (hfans : Fans parse input steps p items) (hp : p ∈ steps)
    (hexp : p.status = .expanded) (hne : items ≠ [])
    (hall : ∀ c ∈ steps, isChildOf p.stepId c = true → c.status = .succeeded) :
    ∃ out, Write.finish p.stepId .succeeded (some out) ∈ aggregates steps := by
  have hstatus : ∀ c ∈ steps.filter (isChildOf p.stepId), c.status = .succeeded := by
    intro c hc
    obtain ⟨hc, hchild⟩ := List.mem_filter.mp hc
    exact hall c hc hchild
  have hsome : (steps.filter (isChildOf p.stepId)).isEmpty = false := by
    rw [Bool.eq_false_iff]
    intro hempty
    have hlen := hfans.length
    rw [List.isEmpty_iff.mp hempty] at hlen
    exact hne (List.length_eq_zero_iff.mp hlen.symm)
  have hactive : (steps.filter (isChildOf p.stepId)).any (fun c => c.status.active) = false :=
    List.any_eq_false.mpr fun c hc => by simp [hstatus c hc, StepStatus.active]
  have hfail : (steps.filter (isChildOf p.stepId)).any (fun c => c.status = .failed) =
      false := List.any_eq_false.mpr fun c hc => by simp [hstatus c hc]
  have hagg : aggregateChildren steps p.stepId = some (.succeeded (Value.print
      (.arr ((sortedChildren (steps.filter (isChildOf p.stepId))).map slot)))) := by
    simp only [aggregateChildren, hsome, hactive, hfail]
    rfl
  exact ⟨_, List.mem_filterMap.mpr
    ⟨p, List.mem_filter.mpr ⟨hp, by simpa using hexp⟩, by rw [hagg]; rfl⟩⟩

/-- `w` is still to be carried out in this pass, or its row has succeeded. -/
def Closing (w : Write) (s : Flow) : Prop :=
  (∃ snap ws toRun progressed, s.pc = .writing snap ws toRun progressed ∧ w ∈ ws) ∨
    ∃ x ∈ s.steps, x.stepId = w.id ∧ x.status = .succeeded

/-- **A closing statement is carried out** before the driver is back at the head
of its loop. -/
theorem Closing.step {a : Label} {id : String} {output : Option String}
    (hC : Closing (.finish id .succeeded output) s) (hI : Inv base s) (hbase : NoHash base)
    (hsteady : steady a = true) (h : step parse s a = some s') :
    Closing (.finish id .succeeded output) s' := by
  rcases hC with ⟨snap, ws, toRun, progressed, hpc, hw⟩ | ⟨x, hx, hid, hstatus⟩
  · have hok := hI.pc
    rw [hpc] at hok
    cases step_move h with
    | tick d => exact .inl ⟨snap, ws, toRun, progressed, hpc, hw⟩
    | crash hon => cases hsteady
    | writeError hpc' => cases hsteady
    | @write snap' w' ws' toRun' p hpc' =>
        cases hpc.symm.trans hpc'
        rcases List.mem_cons.mp hw with rfl | hw
        · obtain ⟨hlegal, _⟩ := Writing.tail hok
          obtain ⟨x, hx, hid⟩ : ∃ x ∈ s.steps, x.stepId = id := by
            rcases hlegal with ⟨_, heq⟩ | ⟨x, hx, hid, _⟩
            · cases heq
            · exact ⟨x, hx, hid⟩
          exact .inr ⟨_, (mem_apply hI.ledger hbase hlegal).mpr (.inr (.inl ⟨x, hx, hid, rfl⟩)),
            hid, rfl⟩
        · exact .inl ⟨snap, ws', toRun, true, rfl, hw⟩
    | wrote hpc' => cases hpc.symm.trans hpc'; cases hw
    | claim hoff _ => cases hpc.symm.trans hoff
    | reap hoff _ => cases hpc.symm.trans hoff
    | pass htop => cases hpc.symm.trans htop
    | readError htop => cases hpc.symm.trans htop
    | join hpc' _ => cases hpc.symm.trans hpc'
    | wake hidle => cases hpc.symm.trans hidle
    | compensated hpc' => cases hpc.symm.trans hpc'
    | comp hpc' _ => cases hpc.symm.trans hpc'
    | finish hpc' => cases hpc.symm.trans hpc'
    | finishError hpc' => cases hpc.symm.trans hpc'
    | finishLost hpc' => cases hpc.symm.trans hpc'
    | record hpc' => cases hpc.symm.trans hpc'
    | recordError hpc' => cases hpc.symm.trans hpc'
    | task hpc' _ _ => cases hpc.symm.trans hpc'
    | taskWrite hpc' _ _ => cases hpc.symm.trans hpc'
  · obtain ⟨y, hy, hid', hstatus', _⟩ := (hI.step hbase h).2 x hx (by rw [hstatus]; rfl)
    exact .inr ⟨y, hy, hid'.trans hid, hstatus'.trans hstatus⟩

theorem closing_run {l : List Label} {id : String} {output : Option String}
    (hbase : NoHash base) (hI : Fanned parse base input s)
    (hC : Closing (.finish id .succeeded output) s) (hsteady : ∀ a ∈ l, steady a = true)
    (hrun : Machine.run (FlowDriver.step parse) s l = some s') :
    Fanned parse base input s' ∧ Closing (.finish id .succeeded output) s' :=
  Machine.inv_run (C := fun _ a => steady a = true)
    (I := fun s => Fanned parse base input s ∧ Closing (.finish id .succeeded output) s)
    (fun _ _ _ h ha hs => ⟨h.1.step hbase hs, h.2.step h.1.inv hbase ha hs⟩)
    ⟨hI, hC⟩ (Machine.along_of_forall hsteady) hrun

/-- The statements of a pass that closes map steps are carried out, and the
driver is back at the head of its loop. -/
theorem run_writing (parse : String → Option Value) {snap : List FlowStep}
    {ws : List Write} {progressed : Bool} (s : Flow)
    (hpc : s.pc = .writing snap ws [] progressed) (hsome : ws ≠ [] ∨ progressed = true) :
    ∃ s', Machine.run (step parse) s (List.replicate (ws.length + 1) (.drive .ok)) = some s' ∧
      s'.pc = .top := by
  induction ws generalizing s progressed with
  | nil =>
      obtain rfl : progressed = true := hsome.resolve_left fun h => h rfl
      have hstep : step parse s (.drive .ok) = some (s.goto .top) := by
        simp [step, driveStep, hpc, afterWrites]
      exact ⟨s.goto .top, by simp [Machine.run_cons, hstep], rfl⟩
  | cons w ws ih =>
      have hstep : step parse s (.drive .ok) = some (s.write w (.writing snap ws [] true)) := by
        simp [step, driveStep, hpc]
      obtain ⟨s', hrun, htop⟩ := ih (s.write w (.writing snap ws [] true)) rfl (.inr rfl)
      refine ⟨s', ?_, htop⟩
      rw [List.length_cons, List.replicate_succ, Machine.run_cons, hstep]
      exact hrun

/-- The pass over a ledger with a map step to close. -/
theorem pass_closing (hfail : ∀ x ∈ steps, x.status ≠ .failed) (hp : p ∈ steps)
    (hexp : p.status = .expanded) (hw : w ∈ aggregates steps) :
    pass parse input steps = .writing steps (aggregates steps) [] false := by
  rcases pass_cases parse input steps with
    ⟨⟨x, hx, hf⟩, _⟩ | ⟨_, ⟨hall, _⟩ | ⟨_, ws, toRun, h, hws⟩⟩
  · exact (hfail x hx hf).elim
  · have hact := hall p hp
    rw [hexp] at hact
    cases hact
  · rcases hws with ⟨rfl, rfl, _⟩ | ⟨hnil, _, _⟩
    · exact h
    · rw [hnil] at hw
      cases hw

/-- A row of the spec keeps its columns for life. -/
theorem fresh_of_stepId {steps' : List FlowStep} {p' : FlowStep} (hbase : ValidLedger base)
    (hL' : Ledger base steps') (hpb : fresh p ∈ base) (hp' : p' ∈ steps')
    (hid : p'.stepId = p.stepId) : fresh p' = fresh p := by
  rcases hL'.origin p' hp' with hpb' | ⟨q, _, _, hchild, _⟩
  · exact Rows.eq_of_key_eq hbase.nodup hpb' hpb hid
  · obtain ⟨i, hi⟩ := hchild.stepId
    have hash := NoHash.of_fresh hbase.noHash hpb
    rw [← hid, hi] at hash
    exact (hash (hash_mem_childId _ _)).elim

/-- **Map aggregation.**  In every reachable state of a flow run of a validated
spec, let `p` be a map step whose reference resolves to the array `items`, which
is not empty.  If `p` has succeeded, there are at most `maxMapFanout` elements
and `p` has recorded one entry for each of its children, which are over and have
not failed.  If `p` is expanded, its children have all succeeded and the driver
is about to begin a pass that sees no failed step, then that pass ends, and as
long as the driver lives and the database answers `p` has succeeded when it
does.  The order of the rows is of no account, and no child of another step
counts as one of `p`. -/
theorem map_aggregation {it : Iteration} {spec : Value} (hvalid : validateSpec it spec = .ok ())
    {parse : String → Option Value} {input : Value} {l : List Label} {s : Flow}
    (hrun : Machine.run (step parse) (start spec input) l = some s) {p : FlowStep}
    (hp : p ∈ s.steps) {mapRef : String} (hmap : p.mapRef = some mapRef)
    {items : List Value} (hne : items ≠ [])
    (hitems : resolveRef parse mapRef input (buildDeps p.dependsOn (outputs s.steps)) =
      some (.arr items)) :
    (p.status = .succeeded →
      items.length ≤ maxMapFanout ∧ Aggregated s.steps p items.length) ∧
    (p.status = .expanded → s.pc = .top → (∀ x ∈ s.steps, x.status ≠ .failed) →
      (∀ i < items.length,
        ∃ c ∈ s.steps, c.stepId = childId p.stepId i ∧ c.status = .succeeded) →
      (∃ s', Machine.run (step parse) s
        (List.replicate ((aggregates s.steps).length + 2) (.drive .ok)) = some s' ∧
          s'.pc = .top) ∧
      ∀ l' s', (∀ a ∈ l', steady a = true) →
        Machine.run (step parse) s (.drive .ok :: l') = some s' → s'.pc = .top →
        ∃ p' ∈ s'.steps, p'.stepId = p.stepId ∧ p'.status = .succeeded ∧
          Aggregated s'.steps p' items.length) ∧
    (∀ rows : List FlowStep, rows.Perm s.steps →
      aggregateChildren rows p.stepId = aggregateChildren s.steps p.stepId) ∧
    ∀ q ∈ s.steps, ∀ c ∈ s.steps, ChildOf q c → isChildOf p.stepId c = true → q = p := by
  have hledger := validateSpec_ledger hvalid
  have hbase := hledger.noHash
  have hI := fanned_run hvalid hrun
  have hL := hI.inv.ledger
  have hmap' : p.mapRef ≠ none := by rw [hmap]; simp
  have hpb := hL.base_of_mapRef hp hmap'
  have harray : ArrayOf parse input s.steps p items := ⟨mapRef, hmap, hitems⟩
  refine ⟨aggregated_of_succeeded hI.fanouts hp harray, ?_,
    fun rows hrows => aggregateChildren_perm hI.fanouts hL hbase hp hmap' hrows, ?_⟩
  · intro hexp htop hfail hkids
    obtain ⟨_, c₀, hc₀, hchild₀⟩ := hL.parent p hp hexp
    obtain ⟨_, hready, items', hfans⟩ := hI.fanouts.whole p hp c₀ hc₀ hchild₀
    obtain rfl := harray.unique hfans.array
    have hall : ∀ c ∈ s.steps, isChildOf p.stepId c = true → c.status = .succeeded := by
      intro c hc hchild
      obtain ⟨i, hi⟩ := List.mem_iff_getElem?.mp (List.mem_filter.mpr ⟨hc, hchild⟩)
      have hlt : i < items.length := by
        rw [← hfans.length]
        exact (List.getElem?_eq_some_iff.mp hi).1
      obtain ⟨c', hc', _, hid, hget⟩ := hfans.child hlt
      obtain ⟨c'', hc'', hid', hstatus⟩ := hkids i hlt
      cases hi.symm.trans hget
      obtain rfl := Rows.eq_of_key_eq hL.nodup hc'' hc (hid'.trans hid.symm)
      exact hstatus
    obtain ⟨out, hout⟩ := aggregates_of_succeeded hfans hp hexp hne hall
    have hpass : pass parse s.input s.steps = .writing s.steps (aggregates s.steps) [] false :=
      pass_closing hfail hp hexp hout
    have hfirst : step parse s (.drive .ok) =
        some (s.goto (.writing s.steps (aggregates s.steps) [] false)) := by
      simp [step, driveStep, htop, hpass]
    refine ⟨?_, fun l' s' hsteady hrun' htop' => ?_⟩
    · obtain ⟨s', hrun', htop'⟩ := run_writing parse
        (s.goto (.writing s.steps (aggregates s.steps) [] false)) rfl
        (.inl (List.ne_nil_of_mem hout))
      refine ⟨s', ?_, htop'⟩
      rw [List.replicate_succ, Machine.run_cons, hfirst]
      exact hrun'
    · have hsettled := settled_run hbase hI.inv hrun'
      obtain ⟨s₁, hs₁, hrest⟩ := Machine.run_cons_some hrun'
      cases hfirst.symm.trans hs₁
      have hclosing : Closing (.finish p.stepId .succeeded (some out))
          (s.goto (.writing s.steps (aggregates s.steps) [] false)) :=
        .inl ⟨_, _, _, _, rfl, hout⟩
      obtain ⟨hI', hC⟩ := closing_run hbase (hI.step hbase hfirst) hclosing hsteady hrest
      rcases hC with ⟨_, _, _, _, hpc, _⟩ | ⟨p', hp', hid, hstatus⟩
      · cases htop'.symm.trans hpc
      · refine ⟨p', hp', hid, hstatus, ?_⟩
        have hfresh := fresh_of_stepId hledger hI'.inv.ledger hpb hp' hid
        have harray' := harray.mono hL.nodup hI'.inv.ledger.nodup hsettled hready hfresh
        exact (aggregated_of_succeeded hI'.fanouts hp' harray' hstatus).2
  · intro q hq c hc hchild hprefix
    exact hL.parent_unique hbase hq hp hchild (childOf_of_isChildOf hL hbase hp hpb hc hprefix)

/-! ## A fan-out over two elements -/

/-- The map step `m` over `xs`. -/
def mapSpec : Value :=
  .obj [("steps", .arr
    [ .obj
        [ ("id", .str "m"), ("map", .str "flow_input.xs")
        , ("script_id", .num (.int 1)) ] ])]

theorem valid_mapSpec : validateSpec inOrder mapSpec = .ok () := by rfl

/-- The `i`-th task of a pass runs its script, which prints `line`. -/
def prints (i : Nat) (line : String) : List Label :=
  [ .task i (.script (some "bash")), .task i (.run i), .task i .ok
  , .task i (.ran .succeeded), .task i .ok, .task i (.stdout (some line)), .task i .ok ]

/-- `m` is expanded, its second child finishes before the first, and `m` is
closed. -/
def mapped : List Label :=
  Label.claim :: List.replicate 5 (Label.drive .ok) ++ prints 1 "2" ++ prints 0 "1" ++
    List.replicate 3 (Label.drive .ok)

theorem map_aggregation_two :
    ∃ s, Machine.run (step fun _ => none) (start mapSpec twoItems) mapped = some s ∧
      ∃ p ∈ s.steps, p.status = .succeeded ∧ p.output = some "[\"1\",\"2\"]" ∧
        2 ≤ maxMapFanout ∧ Aggregated s.steps p 2 := by
  have hview : (Machine.run (step fun _ => none) (start mapSpec twoItems) mapped).map
      (fun s => s.steps.head?.map fun p => (p.status, p.output, p.mapRef, p.dependsOn)) =
        some (some (.succeeded, some "[\"1\",\"2\"]", some "flow_input.xs", [])) := by
    decide +kernel
  obtain ⟨s, hs, hhead⟩ := Option.map_eq_some_iff.mp hview
  obtain ⟨p, hp, hp'⟩ := Option.map_eq_some_iff.mp hhead
  obtain ⟨hstatus, hout, hmap, hdeps⟩ : p.status = .succeeded ∧
      p.output = some "[\"1\",\"2\"]" ∧ p.mapRef = some "flow_input.xs" ∧ p.dependsOn = [] := by
    simpa using hp'
  have hmem := List.mem_of_head? hp
  have hitems : resolveRef (fun _ => none) "flow_input.xs" twoItems
      (buildDeps p.dependsOn (outputs s.steps)) =
        some (.arr [.num (.int 1), .num (.int 2)]) := by
    rw [hdeps]
    rfl
  exact ⟨s, hs, p, hmem, hstatus, hout,
    (map_aggregation valid_mapSpec hs hmem hmap (by simp) hitems).1 hstatus⟩

end Dokan.Ports.FlowAggregate
