import Dokan.Ports.FlowMoves

/-!
# The fan-out of a map step

Every child of a map step is there or none is: the rows of a fan-out are written
by one statement, one for each element of the array the reference of the step
resolves to.  `Fanouts` says so of a ledger, and what a map parent that has
succeeded has recorded; `Sound` is what a statement has to be for it to stay so.

## Main results

* `sorted_of_rows` — the rows of a fan-out are in index order.
* `Fanouts.write` — a sound statement keeps the fan-outs.
* `pass_sound` — what a pass decides is sound.
* `fanned_run` — the fan-outs of every reachable flow run.
-/

namespace Dokan.Ports.FlowFanout

open Dokan.Verified
open Dokan.Verified.Json
open Dokan.Ports.RunRow
open Dokan.Ports.FlowRow
open Dokan.Ports.FlowSpec
open Dokan.Ports.FlowEval
open Dokan.Ports.FlowDriver
open Dokan.Ports.FlowLedger
open Dokan.Ports.FlowMoves

variable {parse : String → Option Value} {input : Value} {base steps : List FlowStep}
  {s t p : FlowStep} {w w' : Write} {now : Nat} {items : List Value}

/-! ## The rows of a fan-out -/

theorem map_fresh_rows (w : Write) : (Write.rows w).map fresh = Write.rows w := by
  cases w with
  | expand parent children cache => simp [Write.rows, fresh, childRow]
  | setRunning id runId => rfl
  | finish id status output => rfl
  | skip id => rfl
  | compensated id => rfl

theorem map_fresh_apply (hL : Ledger base steps) (hbase : NoHash base)
    (hw : Legal base steps w) :
    (w.apply now steps).map fresh = steps.map fresh ++ Write.rows w := by
  rw [apply_legal hL hbase hw, Rows.map_update (fresh_row w), List.map_append,
    map_fresh_rows]

/-- The rows a statement inserts, as children of a map step. -/
theorem filter_rows (hbase : NoHash base) (hw : Legal base steps w)
    (hp : fresh p ∈ base) :
    (Write.rows w).filter (isChildOf p.stepId) =
      if p.stepId = w.id then Write.rows w else [] := by
  have hparent : ∀ r ∈ Write.rows w, isChildOf p.stepId r = true ↔ p.stepId = w.id := by
    intro r hr
    obtain ⟨q, _, hqid, hqb, hchild, _⟩ := hw.mem_rows 0 hr
    obtain ⟨i, hi⟩ := hchild.stepId
    rw [isChildOf_childId (hbase.of_fresh hp) (hbase.of_fresh hqb) hi, ← hqid]
    exact eq_comm
  split_ifs with hid
  · exact List.filter_eq_self.mpr fun r hr => (hparent r hr).mpr hid
  · exact List.filter_eq_nil_iff.mpr fun r hr h => hid ((hparent r hr).mp h)

/-- A map step is a child's parent if its id says so. -/
theorem childOf_of_isChildOf {c : FlowStep} (hL : Ledger base steps) (hbase : NoHash base)
    (hp : p ∈ steps) (hpb : fresh p ∈ base) (hc : c ∈ steps)
    (h : isChildOf p.stepId c = true) : ChildOf p c := by
  rcases hL.origin c hc with hcb | ⟨q, hq, hqb, hchild, _⟩
  · rw [isChildOf_eq_false (hbase.of_fresh hcb)] at h
    cases h
  · obtain ⟨i, hi⟩ := hchild.stepId
    have hid := (isChildOf_childId (hbase.of_fresh hpb) (hbase.of_fresh hqb) hi).mp h
    obtain rfl := Rows.eq_of_key_eq hL.nodup hq hp hid
    exact hchild

/-- A pending map step has no rows. -/
theorem filter_pending (hL : Ledger base steps) (hbase : NoHash base) (hp : p ∈ steps)
    (hpb : fresh p ∈ base) (hpend : p.status = .pending) :
    (steps.map fresh).filter (isChildOf p.stepId) = [] := by
  refine List.filter_eq_nil_iff.mpr fun r hr h => ?_
  obtain ⟨c, hc, rfl⟩ := List.mem_map.mp hr
  exact no_children_of_pending hL hbase hp hpend hc
    (childOf_of_isChildOf hL hbase hp hpb hc h)

/-- The indices of the rows of a fan-out, in the order of the ledger. -/
theorem index_of_rows
    (hrows : (steps.filter (isChildOf p.stepId)).map fresh =
      items.zipIdx.map fun x => childOf p x.2 x.1) (hcap : items.length ≤ maxMapFanout) :
    (steps.filter (isChildOf p.stepId)).map childIndex = List.range' 0 items.length := by
  have hself : childIndex ∘ fresh = childIndex := rfl
  rw [← hself, ← List.map_map, hrows, List.map_map, ← List.zipIdx_map_snd]
  refine List.map_congr_left fun x hx => ?_
  have hlt : x.2 < items.length := by
    have hmem : x.2 ∈ items.zipIdx.map Prod.snd := List.mem_map_of_mem hx
    rw [List.zipIdx_map_snd, List.mem_range'_1] at hmem
    omega
  refine childIndex_childId ?_ rfl
  have hmax : maxMapFanout < 2 ^ 64 := by decide
  omega

/-- The rows of a fan-out in the order of the ledger are in index order. -/
theorem sorted_of_rows
    (hrows : (steps.filter (isChildOf p.stepId)).map fresh =
      items.zipIdx.map fun x => childOf p x.2 x.1) (hcap : items.length ≤ maxMapFanout) :
    sortedChildren (steps.filter (isChildOf p.stepId)) =
      steps.filter (isChildOf p.stepId) := by
  have hpair : (steps.filter (isChildOf p.stepId)).Pairwise
      fun a b => childIndex a ≤ childIndex b := by
    rw [← List.pairwise_map (f := childIndex), index_of_rows hrows hcap]
    exact List.pairwise_le_range'
  exact hpair.insertionSort_eq

/-! ## The array of a map step -/

/-- The reference of the map step resolves to the array `items`. -/
def ArrayOf (parse : String → Option Value) (input : Value) (steps : List FlowStep)
    (p : FlowStep) (items : List Value) : Prop :=
  ∃ mapRef, p.mapRef = some mapRef ∧
    resolveRef parse mapRef input (buildDeps p.dependsOn (outputs steps)) = some (.arr items)

theorem ArrayOf.unique {items' : List Value} (h : ArrayOf parse input steps p items)
    (h' : ArrayOf parse input steps p items') : items = items' := by
  obtain ⟨mapRef, hmap, hitems⟩ := h
  obtain ⟨mapRef', hmap', hitems'⟩ := h'
  cases hmap.symm.trans hmap'
  cases hitems.symm.trans hitems'
  rfl

/-- The output of a succeeded dependency stays. -/
theorem outputs_settled {steps' : List FlowStep} (hnd : (steps.map FlowStep.stepId).Nodup)
    (hnd' : (steps'.map FlowStep.stepId).Nodup) (hset : Settled steps steps')
    (hs : s ∈ steps) (hstatus : s.status = .succeeded) :
    outputs steps' s.stepId = outputs steps s.stepId := by
  obtain ⟨t, ht, hid, hst, hout⟩ := hset s hs (by rw [hstatus]; rfl)
  have hfind : Rows.find FlowStep.stepId s.stepId steps = some s := Rows.find_of_mem hnd hs
  have hfind' : Rows.find FlowStep.stepId s.stepId steps' = some t :=
    hid ▸ Rows.find_of_mem hnd' ht
  simp only [outputs, hfind, hfind', Option.filter_some, hst]
  split_ifs <;> simp [hout]

/-- The array of a step whose dependencies have succeeded stays. -/
theorem ArrayOf.mono {steps' : List FlowStep} (h : ArrayOf parse input steps p items)
    (hnd : (steps.map FlowStep.stepId).Nodup) (hnd' : (steps'.map FlowStep.stepId).Nodup)
    (hset : Settled steps steps') (hready : ReadyDeps steps p) {p' : FlowStep}
    (hfresh : fresh p' = fresh p) : ArrayOf parse input steps' p' items := by
  obtain ⟨mapRef, hmap, hitems⟩ := h
  refine ⟨mapRef, (mapRef_of_fresh hfresh).trans hmap, ?_⟩
  have hsame : ∀ d ∈ p.dependsOn, outputs steps' d = outputs steps d := by
    intro d hd
    obtain ⟨t, ht, rfl, hstatus⟩ := hready d hd
    exact outputs_settled hnd hnd' hset ht hstatus
  have hdeps : buildDeps p'.dependsOn (outputs steps') =
      buildDeps p.dependsOn (outputs steps) := by
    rw [dependsOn_of_fresh hfresh, buildDeps, buildDeps]
    refine congrArg Value.object (List.filterMap_congr fun d hd => ?_)
    rw [hsame d hd]
  rw [hdeps]
  exact hitems

/-! ## The fan-outs of a ledger -/

/-- The children of `p` are the rows of the array its reference resolves to. -/
structure Fans (parse : String → Option Value) (input : Value) (steps : List FlowStep)
    (p : FlowStep) (items : List Value) : Prop where
  array : ArrayOf parse input steps p items
  within : fanoutWithinCap items.length = true
  rows : (steps.filter (isChildOf p.stepId)).map fresh =
    items.zipIdx.map fun x => childOf p x.2 x.1

theorem Fans.cap (h : Fans parse input steps p items) : items.length ≤ maxMapFanout := by
  simpa [fanoutWithinCap] using h.within

theorem Fans.length (h : Fans parse input steps p items) :
    (steps.filter (isChildOf p.stepId)).length = items.length := by
  have hlen := congrArg List.length h.rows
  simpa using hlen

/-- The `i`-th child of a fan-out. -/
theorem Fans.child (h : Fans parse input steps p items) {i : Nat} (hi : i < items.length) :
    ∃ c ∈ steps, isChildOf p.stepId c = true ∧ c.stepId = childId p.stepId i ∧
      (steps.filter (isChildOf p.stepId))[i]? = some c := by
  have hlt : i < (steps.filter (isChildOf p.stepId)).length := h.length ▸ hi
  obtain ⟨hc, hchild⟩ := List.mem_filter.mp (List.getElem_mem hlt)
  refine ⟨_, hc, hchild, ?_, List.getElem?_eq_getElem hlt⟩
  have hget := congrArg (fun l => (l.map FlowStep.stepId)[i]?) h.rows
  simpa [hlt, hi, childOf, childRow, fresh] using hget

/-- The children of `p` are settled, and `output` is the text of their slots. -/
structure Joined (steps : List FlowStep) (p : FlowStep) (output : Option String) : Prop where
  settled : ∀ c ∈ steps, isChildOf p.stepId c = true → c.status.settled = true
  output : output =
    some (Value.print (.arr ((steps.filter (isChildOf p.stepId)).map slot)))

/-- The fan-outs of a ledger. -/
structure Fanouts (parse : String → Option Value) (input : Value) (steps : List FlowStep) :
    Prop where
  /-- a step with a child has all of them -/
  whole : ∀ p ∈ steps, ∀ c ∈ steps, ChildOf p c →
    (p.status = .expanded ∨ p.status = .succeeded ∨ p.status = .failed) ∧
      ReadyDeps steps p ∧ ∃ items, Fans parse input steps p items
  /-- only a row that is over has an output -/
  blank : ∀ s ∈ steps, s.status ≠ .succeeded → s.status ≠ .failed → s.output = none
  /-- a map step that has succeeded has the output of its children -/
  closed : ∀ p ∈ steps, p.mapRef ≠ none → p.status = .succeeded →
    (∃ items, Fans parse input steps p items) ∧ Joined steps p p.output

/-- What the statement `w` has to be, about the row `s` it names. -/
def SoundAt (parse : String → Option Value) (input : Value) (steps : List FlowStep)
    (s : FlowStep) : Write → Prop
  | .finish _ status output =>
      status = .succeeded → s.mapRef ≠ none →
        (∃ items, Fans parse input steps s items) ∧ Joined steps s output
  | .expand _ children _ =>
      ∃ items, ArrayOf parse input steps s items ∧ fanoutWithinCap items.length = true ∧
        children = mapChildren s items
  | _ => True

/-- The statement is sound. -/
def Sound (parse : String → Option Value) (input : Value) (steps : List FlowStep)
    (w : Write) : Prop :=
  ∀ s ∈ steps, s.stepId = w.id → SoundAt parse input steps s w

/-! ## What stays under a statement -/

/-- The children of `p` do not depend on what a statement changes. -/
theorem childOf_congr {p' : FlowStep} (hfresh : fresh p' = fresh p) (i : Nat)
    (item : Value) : childOf p' i item = childOf p i item := by
  have hself : ∀ q, childOf (fresh q) i item = childOf q i item := fun _ => rfl
  rw [← hself p', hfresh, hself]

theorem filter_fresh (steps : List FlowStep) (id : String) :
    (steps.filter (isChildOf id)).map fresh = (steps.map fresh).filter (isChildOf id) := by
  have hself : isChildOf id ∘ fresh = isChildOf id := rfl
  rw [List.filter_map, hself]

/-- The rows of a fan-out stay under a statement that adds none. -/
theorem Fans.keep (h : Fans parse input steps p items) (hL : Ledger base steps)
    (hbase : NoHash base) (hw : Legal base steps w) (hpb : fresh p ∈ base)
    (hready : ReadyDeps steps p) (hnone : p.stepId = w.id → Write.rows w = [])
    {p' : FlowStep} (hfresh : fresh p' = fresh p) :
    Fans parse input (w.apply now steps) p' items := by
  have hL' : Ledger base (w.apply now steps) := hL.write hbase hw
  refine ⟨h.array.mono hL.nodup hL'.nodup (settled_write now hL hbase hw) hready hfresh,
    h.within, ?_⟩
  rw [stepId_of_fresh hfresh, filter_fresh, map_fresh_apply hL hbase hw, List.filter_append,
    filter_rows hbase hw hpb, ← filter_fresh, h.rows]
  have hnil : (if p.stepId = w.id then Write.rows w else []) = [] := by
    split_ifs with hid
    · exact hnone hid
    · rfl
  rw [hnil, List.append_nil]
  exact List.map_congr_left fun x _ => (childOf_congr hfresh _ _).symm

/-- A statement leaves the slot of a settled row. -/
theorem row_settled (h : LegalAt base steps s w) (hset : s.status.settled = true) :
    (Write.row now w s).status = s.status ∧ slot (Write.row now w s) = slot s := by
  rcases h.active with hact | ⟨id, rfl⟩
  · rw [not_settled_of_active hact] at hset
    cases hset
  · exact ⟨rfl, rfl⟩

/-- Settled children stay, and so does the text of their slots. -/
theorem Joined.keep {output : Option String} (h : Joined steps p output)
    (hL : Ledger base steps) (hbase : NoHash base) (hw : Legal base steps w)
    (hpb : fresh p ∈ base) (hnone : p.stepId = w.id → Write.rows w = []) {p' : FlowStep}
    (hid : p'.stepId = p.stepId) : Joined (w.apply now steps) p' output := by
  have hnew : (Write.rows w).filter (isChildOf p.stepId) = [] := by
    rw [filter_rows hbase hw hpb]
    split_ifs with hpid
    · exact hnone hpid
    · rfl
  refine ⟨?_, ?_⟩
  · intro c hc hchild
    rw [hid] at hchild
    rcases (mem_apply hL hbase hw).mp hc with ⟨hc, _⟩ | ⟨c₀, hc₀, hcid, rfl⟩ | hc
    · exact h.settled c hc hchild
    · have hset := h.settled c₀ hc₀ (by rwa [isChildOf, stepId_row] at hchild)
      rw [(row_settled (hw.target hL hc₀ hcid) hset).1]
      exact hset
    · exact (List.filter_eq_nil_iff.mp hnew c hc hchild).elim
  · rw [h.output, hid, apply_legal hL hbase hw, Rows.update, List.filter_map]
    have hself : (isChildOf p.stepId ∘ fun r => if r.stepId = w.id then Write.row now w r
        else r) = isChildOf p.stepId := by
      funext r
      simp only [Function.comp_apply, isChildOf]
      split_ifs <;> simp
    rw [hself, List.filter_append, hnew, List.append_nil, List.map_map]
    refine congrArg (fun slots => some (Value.print (.arr slots))) ?_
    refine List.map_congr_left fun c hc => ?_
    obtain ⟨hc, hchild⟩ := List.mem_filter.mp hc
    simp only [Function.comp_apply]
    split_ifs with hcid
    · exact (row_settled (hw.target hL hc hcid) (h.settled c hc hchild)).2.symm
    · rfl

/-- A row before a statement, which is not one it inserts. -/
theorem before_apply (hL : Ledger base steps) (hbase : NoHash base) (hw : Legal base steps w)
    (ht : t ∈ w.apply now steps) (hmap : t.mapRef ≠ none) :
    ∃ s ∈ steps, fresh t = fresh s ∧ (t = s ∧ s.stepId ≠ w.id ∨
      s.stepId = w.id ∧ t = Write.row now w s) := by
  rcases (mem_apply hL hbase hw).mp ht with ⟨ht, hne⟩ | ⟨s, hs, hid, rfl⟩ | ht
  · exact ⟨t, ht, rfl, .inl ⟨rfl, hne⟩⟩
  · exact ⟨s, hs, fresh_row w s, .inr ⟨hid, rfl⟩⟩
  · obtain ⟨_, _, _, _, hchild, _⟩ := hw.mem_rows now ht
    exact (hmap hchild.mapRef).elim

/-! ## A sound statement keeps the fan-outs -/

/-- The children a statement has just given to a step. -/
theorem Fans.created (now : Nat) (hL : Ledger base steps) (hbase : NoHash base)
    (hw : Legal base steps w) (hs : Sound parse input steps w) (hp : p ∈ steps)
    (hid : p.stepId = w.id) (hne : Write.rows w ≠ []) :
    (Write.row now w p).status = .expanded ∧
      ∃ items, Fans parse input (w.apply now steps) (Write.row now w p) items := by
  have hL' : Ledger base (w.apply now steps) := hL.write hbase hw
  have hat := hw.target hL hp hid
  have hsound := hs p hp hid
  cases w with
  | expand parent children cache =>
      obtain ⟨hpend, hpb, hmap, hready, items', _, _, hkids, rfl⟩ := hat
      obtain ⟨items, harray, hwithin, rfl⟩ := hsound
      have hfresh : fresh (Write.row now (.expand parent (mapChildren p items) p.cache) p) =
          fresh p := fresh_row _ p
      refine ⟨rfl, items, harray.mono hL.nodup hL'.nodup (settled_write now hL hbase hw)
        hready hfresh, hwithin, ?_⟩
      rw [stepId_of_fresh hfresh, filter_fresh, map_fresh_apply hL hbase hw,
        List.filter_append, filter_pending hL hbase hp hpb hpend, List.nil_append,
        filter_rows hbase hw hpb, if_pos hid, Write.rows, rows_mapChildren]
      exact List.map_congr_left fun x _ => (childOf_congr hfresh _ _).symm
  | setRunning id runId => exact (hne rfl).elim
  | finish id status output => exact (hne rfl).elim
  | skip id => exact (hne rfl).elim
  | compensated id => exact (hne rfl).elim

/-- A step with children keeps a status that a step with children has. -/
theorem row_parent (h : LegalAt base steps s w) (hmap : s.mapRef ≠ none)
    (hstatus : s.status = .expanded ∨ s.status = .succeeded ∨ s.status = .failed) :
    (Write.row now w s).status = .expanded ∨ (Write.row now w s).status = .succeeded ∨
      (Write.row now w s).status = .failed := by
  have hnot : s.status ≠ .pending := by
    intro hpend
    rw [hpend] at hstatus
    rcases hstatus with h | h | h <;> cases h
  cases w with
  | setRunning id runId => exact (hmap h.2.1).elim
  | finish id status output => exact .inr h.1
  | skip id => exact (hnot h).elim
  | expand parent children cache => exact (hnot h.1).elim
  | compensated id => exact hstatus

/-- After a sound statement a step with a child has all of them. -/
theorem Fanouts.whole_write (hF : Fanouts parse input steps) (hL : Ledger base steps)
    (hbase : NoHash base) (hw : Legal base steps w) (hs : Sound parse input steps w)
    {p c : FlowStep} (hp : p ∈ w.apply now steps) (hc : c ∈ w.apply now steps)
    (hchild : ChildOf p c) :
    (p.status = .expanded ∨ p.status = .succeeded ∨ p.status = .failed) ∧
      ReadyDeps (w.apply now steps) p ∧ ∃ items, Fans parse input (w.apply now steps) p items := by
  have hset := settled_write now hL hbase hw
  obtain ⟨p₀, hp₀, hfresh, hrow⟩ := before_apply hL hbase hw hp hchild.1
  have hpb : fresh p₀ ∈ base :=
    hL.base_of_mapRef hp₀ (by rw [← mapRef_of_fresh hfresh]; exact hchild.1)
  by_cases hnew : p₀.stepId = w.id ∧ Write.rows w ≠ []
  · -- the step has just been given its children
    obtain ⟨hid, hne⟩ := hnew
    obtain rfl : p = Write.row now w p₀ := by
      rcases hrow with ⟨_, hne'⟩ | ⟨_, rfl⟩
      · exact (hne' hid).elim
      · rfl
    obtain ⟨hexp, hfans⟩ := Fans.created now hL hbase hw hs hp₀ hid hne
    have hran : (Write.row now w p₀).status.ran = true := by rw [hexp]; rfl
    have hready : ReadyDeps steps p₀ := (hw.target hL hp₀ hid).row_ran hL hp₀ hran
    exact ⟨.inl hexp, hready.mono hset (dependsOn_of_fresh hfresh), hfans⟩
  · -- the child was there before
    have hnone : p₀.stepId = w.id → Write.rows w = [] := by
      intro hid
      by_contra hne
      exact hnew ⟨hid, hne⟩
    have hold : ∃ c₀ ∈ steps, ChildOf p₀ c₀ := by
      rcases (mem_apply hL hbase hw).mp hc with ⟨hc, _⟩ | ⟨c₀, hc₀, _, rfl⟩ | hc
      · exact ⟨c, hc, hchild.congr hfresh.symm rfl⟩
      · exact ⟨c₀, hc₀, hchild.congr hfresh.symm (fresh_row w c₀).symm⟩
      · obtain ⟨q, hq, hqid, _, hchild', _⟩ := hw.mem_rows now hc
        have hpq := hL.parent_unique hbase hp₀ hq (hchild.congr hfresh.symm rfl) hchild'
        exact absurd ⟨hpq ▸ hqid, List.ne_nil_of_mem hc⟩ hnew
    obtain ⟨c₀, hc₀, hchild₀⟩ := hold
    obtain ⟨hstatus, hready, items, hfans⟩ := hF.whole p₀ hp₀ c₀ hc₀ hchild₀
    refine ⟨?_, hready.mono hset (dependsOn_of_fresh hfresh), items,
      hfans.keep hL hbase hw hpb hready hnone hfresh⟩
    rcases hrow with ⟨rfl, _⟩ | ⟨hid, rfl⟩
    · exact hstatus
    · exact row_parent (hw.target hL hp₀ hid) hchild₀.1 hstatus

/-- After a legal statement only a row that is over has an output. -/
theorem Fanouts.blank_write (hF : Fanouts parse input steps) (hL : Ledger base steps)
    (hbase : NoHash base) (hw : Legal base steps w) {t : FlowStep}
    (ht : t ∈ w.apply now steps) (hns : t.status ≠ .succeeded) (hnf : t.status ≠ .failed) :
    t.output = none := by
  rcases (mem_apply hL hbase hw).mp ht with ⟨ht, _⟩ | ⟨s, hmem, hid, rfl⟩ | ht
  · exact hF.blank t ht hns hnf
  · have hat := hw.target hL hmem hid
    cases w with
    | setRunning id runId =>
        refine hF.blank s hmem (fun h => ?_) fun h => ?_
        · rcases hat.1 with h' | h' <;> (rw [h] at h'; cases h')
        · rcases hat.1 with h' | h' <;> (rw [h] at h'; cases h')
    | finish id status output =>
        rcases hat.1 with rfl | rfl
        · exact (hns rfl).elim
        · exact (hnf rfl).elim
    | skip id =>
        have hpend : s.status = .pending := hat
        exact hF.blank s hmem (by rw [hpend]; decide) (by rw [hpend]; decide)
    | expand parent children cache =>
        exact hF.blank s hmem (by rw [hat.1]; decide) (by rw [hat.1]; decide)
    | compensated id => exact hF.blank s hmem hns hnf
  · obtain ⟨r, hr, heq⟩ : ∃ r ∈ Write.rows w, fresh r = t := by
      rw [← map_fresh_rows w] at ht
      exact List.mem_map.mp ht
    rw [← heq]
    rfl

/-- After a sound statement a map step that has succeeded has the output of its
children. -/
theorem Fanouts.closed_write (hF : Fanouts parse input steps) (hL : Ledger base steps)
    (hbase : NoHash base) (hw : Legal base steps w) (hs : Sound parse input steps w)
    {t : FlowStep} (ht : t ∈ w.apply now steps) (hmap : t.mapRef ≠ none)
    (hstatus : t.status = .succeeded) :
    (∃ items, Fans parse input (w.apply now steps) t items) ∧
      Joined (w.apply now steps) t t.output := by
  obtain ⟨s, hs', hfresh, hrow⟩ := before_apply hL hbase hw ht hmap
  have hmap' : s.mapRef ≠ none := by rwa [mapRef_of_fresh hfresh] at hmap
  have hpb : fresh s ∈ base := hL.base_of_mapRef hs' hmap'
  have hid := stepId_of_fresh hfresh
  have hkeep : ∀ output, ReadyDeps steps s → (s.stepId = w.id → Write.rows w = []) →
      (∃ items, Fans parse input steps s items) ∧ Joined steps s output →
      (∃ items, Fans parse input (w.apply now steps) t items) ∧
        Joined (w.apply now steps) t output := by
    rintro output hready hnone ⟨⟨items, hfans⟩, hjoined⟩
    exact ⟨⟨items, hfans.keep hL hbase hw hpb hready hnone hfresh⟩,
      hjoined.keep hL hbase hw hpb hnone hid⟩
  rcases hrow with ⟨rfl, hne⟩ | ⟨hid', rfl⟩
  · have hready := hL.ordered t hs' (by rw [hstatus]; rfl)
    exact hkeep _ hready (fun h => (hne h).elim) (hF.closed t hs' hmap' hstatus)
  · have hat := hw.target hL hs' hid'
    cases w with
    | setRunning id runId => cases hstatus
    | finish id status output =>
        exact hkeep _ hat.2.2.1 (fun _ => rfl) (hs s hs' hid' hstatus hmap')
    | skip id => cases hstatus
    | expand parent children cache => cases hstatus
    | compensated id =>
        have hstatus' : s.status = .succeeded := hstatus
        have hready := hL.ordered s hs' (by rw [hstatus']; rfl)
        exact hkeep _ hready (fun _ => rfl) (hF.closed s hs' hmap' hstatus')

/-- **A sound statement keeps the fan-outs.** -/
theorem Fanouts.write (hF : Fanouts parse input steps) (hL : Ledger base steps)
    (hbase : NoHash base) (hw : Legal base steps w) (hs : Sound parse input steps w) :
    Fanouts parse input (w.apply now steps) where
  whole _ hp _ hc hchild := hF.whole_write hL hbase hw hs hp hc hchild
  blank _ ht hns hnf := hF.blank_write hL hbase hw ht hns hnf
  closed _ ht hmap hstatus := hF.closed_write hL hbase hw hs ht hmap hstatus

/-- **Soundness survives a legal statement on another row.** -/
theorem Sound.frame (hs : Sound parse input steps w') (hL : Ledger base steps)
    (hbase : NoHash base) (hw : Legal base steps w) (hw' : Legal base steps w')
    (hne : w'.id ≠ w.id) : Sound parse input (w.apply now steps) w' := by
  have hL' : Ledger base (w.apply now steps) := hL.write hbase hw
  intro t ht hid
  rcases hw' with ⟨id, rfl⟩ | ⟨s, hs', hid', hat⟩
  · trivial
  · have hmem : s ∈ w.apply now steps := mem_apply_of_ne hL hbase hw hs' (hid' ▸ hne)
    obtain rfl := Rows.eq_of_key_eq hL'.nodup hmem ht (hid'.trans hid.symm)
    have hsound := hs s hs' hid'
    have hnone : s.stepId = w.id → Write.rows w = [] := by
      intro h
      exact (hne (hid'.symm.trans h)).elim
    cases w' with
    | finish id status output =>
        intro hstatus hmap
        obtain ⟨⟨items, hfans⟩, hjoined⟩ := hsound hstatus hmap
        have hpb := hL.base_of_mapRef hs' hmap
        exact ⟨⟨items, hfans.keep hL hbase hw hpb hat.2.2.1 hnone rfl⟩,
          hjoined.keep hL hbase hw hpb hnone rfl⟩
    | expand parent children cache =>
        obtain ⟨items, harray, hwithin, hkids⟩ := hsound
        exact ⟨items, harray.mono hL.nodup hL'.nodup (settled_write now hL hbase hw)
          hat.2.2.2.1 rfl, hwithin, hkids⟩
    | setRunning id runId => trivial
    | skip id => trivial
    | compensated id => trivial

/-! ## What a pass decides -/

/-- What closes a map parent is sound. -/
theorem aggregates_sound (hF : Fanouts parse input steps) (hL : Ledger base steps) :
    ∀ w ∈ aggregates steps, Sound parse input steps w := by
  intro w hw t ht hid
  obtain ⟨p, hp, hw⟩ := List.mem_filterMap.mp hw
  obtain ⟨hp, hexp⟩ : p ∈ steps ∧ p.status = .expanded := by
    simpa using List.mem_filter.mp hp
  obtain ⟨a, ha, rfl⟩ := Option.map_eq_some_iff.mp hw
  cases a with
  | failed => exact fun h => by cases h
  | succeeded out =>
      obtain rfl := Rows.eq_of_key_eq hL.nodup ht hp hid
      obtain ⟨_, c₀, hc₀, hchild₀⟩ := hL.parent t hp hexp
      obtain ⟨_, _, items, hfans⟩ := hF.whole t hp c₀ hc₀ hchild₀
      refine fun _ _ => ⟨⟨items, hfans⟩, ?_⟩
      simp only [aggregateChildren] at ha
      split_ifs at ha with hempty hactive hfail
      · cases ha
      rw [sorted_of_rows hfans.rows hfans.cap] at ha
      cases ha
      refine ⟨fun c hc hchild => ?_, rfl⟩
      have hmem : c ∈ steps.filter (isChildOf t.stepId) := List.mem_filter.mpr ⟨hc, hchild⟩
      rw [Bool.not_eq_true, List.any_eq_false] at hactive hfail
      have hina := hactive c hmem
      have hnf := hfail c hmem
      cases hstatus : c.status with
      | succeeded => rfl
      | skipped => rfl
      | failed => simp [hstatus] at hnf
      | pending => simp [hstatus, StepStatus.active] at hina
      | running => simp [hstatus, StepStatus.active] at hina
      | expanded => simp [hstatus, StepStatus.active] at hina

/-- What the loop decides to write about a pending step is sound. -/
theorem action_sound (hL : Ledger base steps) (hbase : NoHash base) (hs : s ∈ steps)
    (hpend : s.status = .pending) (h : action parse input steps s = .write w) :
    Sound parse input steps w := by
  intro t ht hid
  have hlegal := action_write hL hbase hs hpend h
  obtain rfl := Rows.eq_of_key_eq hL.nodup ht hs (hid.trans hlegal.1)
  simp only [action] at h
  split_ifs at h with hready hskip hwhen
  · cases h
    trivial
  · cases h
    trivial
  · split at h
    · next mapRef hmap =>
        cases h
        unfold expand
        split
        · next items hitems =>
            have harray : ArrayOf parse input steps t items := ⟨mapRef, hmap, hitems⟩
            split_ifs with hempty hcap
            · -- an empty array succeeds at once, without children
              rw [List.isEmpty_iff] at hempty
              subst hempty
              have hpb := hL.base_of_mapRef hs (by rw [hmap]; simp)
              have hnil : steps.filter (isChildOf t.stepId) = [] := by
                have h := filter_pending hL hbase hs hpb hpend
                rw [← filter_fresh] at h
                exact List.map_eq_nil_iff.mp h
              refine fun _ _ => ⟨⟨[], harray, rfl, by rw [hnil]; rfl⟩, ?_, by rw [hnil]; rfl⟩
              intro c hc hchild
              exact (List.filter_eq_nil_iff.mp hnil c hc hchild).elim
            · exact fun h => by cases h
            · exact ⟨items, harray, by simpa using hcap, rfl⟩
        · exact fun h => by cases h
    · cases h

/-- What is still to be written in a pass is sound. -/
def PcSound (parse : String → Option Value) (input : Value) (steps : List FlowStep) :
    DriverPc → Prop
  | .writing _ ws _ _ => ∀ w ∈ ws, Sound parse input steps w
  | _ => True

/-- **What a pass decides is sound.** -/
theorem pass_sound (hF : Fanouts parse input steps) (hL : Ledger base steps)
    (hbase : NoHash base) : PcSound parse input steps (pass parse input steps) := by
  rcases pass_cases parse input steps with ⟨_, h⟩ | ⟨_, ⟨_, h⟩ | ⟨_, ws, toRun, h, hws⟩⟩
  · rw [h]
    trivial
  · rw [h]
    trivial
  · rw [h]
    rcases hws with ⟨rfl, _, _⟩ | ⟨_, rfl, _⟩
    · exact aggregates_sound hF hL
    · intro w hw
      obtain ⟨a, ha, hw⟩ := List.mem_filterMap.mp hw
      obtain ⟨y, hy, rfl⟩ := List.mem_map.mp ha
      obtain ⟨hy, hpend⟩ : y ∈ steps ∧ y.status = .pending := by
        simpa using List.mem_filter.mp hy
      exact action_sound hL hbase hy hpend (action_write? hw)

/-! ## Every reachable flow run -/

/-- The invariant of a flow run with its fan-outs. -/
structure Fanned (parse : String → Option Value) (base : List FlowStep) (input : Value)
    (s : Flow) : Prop where
  inv : Inv base s
  reads : s.input = input
  fanouts : Fanouts parse input s.steps
  pc : PcSound parse input s.steps s.pc

section Invariant

variable {s s' : Flow}

/-- A step that leaves the ledger alone. -/
theorem Fanned.quiet (hI : Fanned parse base input s) (hinv : Inv base s')
    (hsteps : s'.steps = s.steps) (hinput : s'.input = s.input)
    (hpc : PcSound parse input s.steps s'.pc) : Fanned parse base input s' := by
  refine ⟨hinv, hinput.trans hI.reads, ?_, ?_⟩
  · rw [hsteps]
    exact hI.fanouts
  · rw [hsteps]
    exact hpc

/-- A step that carries out one legal and sound statement. -/
theorem Fanned.wrote (hI : Fanned parse base input s) (hbase : NoHash base) (hinv : Inv base s')
    (hsteps : s'.steps = w.apply s.now s.steps) (hinput : s'.input = s.input)
    (hw : Legal base s.steps w) (hs : Sound parse input s.steps w)
    (hpc : PcSound parse input (w.apply s.now s.steps) s'.pc) : Fanned parse base input s' := by
  refine ⟨hinv, hinput.trans hI.reads, ?_, ?_⟩
  · rw [hsteps]
    exact hI.fanouts.write hI.inv.ledger hbase hw hs
  · rw [hsteps]
    exact hpc

/-- **Every step keeps the invariant.** -/
theorem Fanned.step {a : Label} (hI : Fanned parse base input s) (hbase : NoHash base)
    (h : step parse s a = some s') : Fanned parse base input s' := by
  have hinv := (hI.inv.step hbase h).1
  obtain rfl := hI.reads
  have hL := hI.inv.ledger
  have hok := hI.inv.pc
  have hsound := hI.pc
  cases step_move h with
  | tick d => exact hI.quiet hinv rfl rfl hsound
  | claim hoff hpend => exact hI.quiet hinv rfl rfl trivial
  | reap hoff hrun => exact hI.quiet hinv rfl rfl hsound
  | crash hon => exact hI.quiet hinv rfl rfl trivial
  | pass htop => exact hI.quiet hinv rfl rfl (pass_sound hI.fanouts hL hbase)
  | readError htop => exact hI.quiet hinv rfl rfl trivial
  | @write snap w ws toRun p hpc =>
      rw [hpc] at hok hsound
      obtain ⟨hw, hrest, hne, _⟩ := Writing.tail hok
      refine hI.wrote hbase hinv rfl rfl hw (hsound w List.mem_cons_self) ?_
      intro w' hw'
      exact (hsound w' (List.mem_cons_of_mem _ hw')).frame hL hbase hw (hrest.legal w' hw')
        (hne w' hw')
  | writeError hpc =>
      rw [hpc] at hsound
      exact hI.quiet hinv rfl rfl fun w' hw' => hsound w' (List.mem_cons_of_mem _ hw')
  | @wrote snap toRun p hpc =>
      refine hI.quiet hinv rfl rfl ?_
      simp only [Flow.goto, afterWrites]
      split_ifs <;> trivial
  | join hpc hdone => exact hI.quiet hinv rfl rfl trivial
  | wake hidle => exact hI.quiet hinv rfl rfl trivial
  | compensated hpc => exact hI.quiet hinv rfl rfl trivial
  | comp hpc hcomp =>
      obtain ⟨⟨todo, failed, stage, hpc'⟩, _, hinput, hsteps | hsteps⟩ := compStep_cases hcomp
      · exact hI.quiet hinv hsteps hinput (by rw [hpc']; trivial)
      · refine hI.wrote hbase hinv hsteps hinput (.inl ⟨_, rfl⟩) (fun _ _ _ => trivial) ?_
        rw [hpc']
        trivial
  | finish hpc => exact hI.quiet hinv rfl rfl trivial
  | finishError hpc => exact hI.quiet hinv rfl rfl trivial
  | finishLost hpc => exact hI.quiet hinv rfl rfl trivial
  | record hpc => exact hI.quiet hinv rfl rfl trivial
  | recordError hpc => exact hI.quiet hinv rfl rfl trivial
  | task hpc ht hstep => exact hI.quiet hinv rfl rfl trivial
  | @taskWrite i reply snap tasks t pc w hpc ht hstep =>
      rw [hpc] at hok
      have hrun := Awaiting.runnable hok t (List.mem_of_getElem? ht) (isDone_of_step hstep)
      -- a step that is run is no map step
      have hplain : ∀ x ∈ s.steps, x.stepId = t.id → x.mapRef = none :=
        fun x hx hid => (Legal.target hL hrun hx hid).2.1
      obtain ⟨_, heq | ⟨k, r, rfl, heq⟩ | ⟨status, output, rfl, hst, heq⟩⟩ :=
        taskStep_cases hstep
      · cases heq
      · cases heq
        exact hI.wrote hbase hinv rfl rfl (hrun.setRunning r) (fun _ _ _ => trivial) trivial
      · cases heq
        refine hI.wrote hbase hinv rfl rfl (hrun.finish hst output) ?_ trivial
        intro x hx hid _ hmap
        exact (hmap (hplain x hx hid)).elim

/-- A fresh flow run has no fan-out. -/
theorem fanned_start {it : Iteration} {spec : Value} (hvalid : validateSpec it spec = .ok ())
    (input : Value) : Fanned parse (ledgerRows spec) input (start spec input) := by
  have hledger := validateSpec_ledger hvalid
  have hpend : ∀ x ∈ ledgerRows spec, x.status = .pending ∧ x.output = none := by
    intro x hx
    rw [← fresh_ledgerRows hx]
    exact ⟨rfl, rfl⟩
  refine ⟨inv_start hvalid input, rfl, ⟨?_, ?_, ?_⟩, trivial⟩
  · intro p hp c hc hchild
    have hcb := fresh_ledgerRows hc ▸ hc
    exact (hchild.not_base hledger.noHash hcb).elim
  · exact fun x hx _ _ => (hpend x hx).2
  · intro p hp _ hstatus
    rw [(hpend p hp).1] at hstatus
    cases hstatus

/-- **Every reachable flow run** of a validated spec meets the invariant. -/
theorem fanned_run {it : Iteration} {spec : Value} (hvalid : validateSpec it spec = .ok ())
    {l : List Label}
    (h : Machine.run (FlowDriver.step parse) (start spec input) l = some s) :
    Fanned parse (ledgerRows spec) input s :=
  Machine.inv_run (C := fun _ _ => True)
    (fun _ _ _ hI _ hs => hI.step (validateSpec_ledger hvalid).noHash hs)
    (fanned_start hvalid input) (Machine.along_of_forall fun _ _ => trivial) h

end Invariant

end Dokan.Ports.FlowFanout
