import Mathlib.Data.List.Count
import Mathlib.Data.List.Dedup
import Dokan.Ports.FlowAggregate

/-!
# `get_flow_run`: the ledger as a caller sees it

A call of `get_flow_run` makes four queries of `flow_steps`, one after the other
and in no transaction: the number of top-level steps, a page of them, the map
children grouped by parent and status, and the first failed children of each
parent.  The driver goes on between any two of them, and between two calls.

The rows of the two grouping queries come in no promised order, so a call takes
any arrangement of them (`Call.groups`, `Call.failed`).

## Main results

* `ledger_step` — a step of a flow run carries out at most one legal statement.
* `tops_run` — the top-level steps and their order never change.
* `pages_cover` — a client that follows the cursors sees every step once.
* `maps_shown` — what a page says about a map step.
-/

namespace Dokan.Ports.FlowView

open Dokan.Verified
open Dokan.Verified.Json
open Dokan.Ports.FlowRow
open Dokan.Ports.FlowSpec
open Dokan.Ports.FlowEval
open Dokan.Ports.FlowDriver
open Dokan.Ports.FlowLedger
open Dokan.Ports.FlowMoves
open Dokan.Ports.FlowOrder
open Dokan.Ports.FlowFanout
open Dokan.Ports.FlowAggregate

/-! ## The queries -/

/-- `position('#' in step_id) = 0`. -/
def isTop (s : FlowStep) : Bool := !s.stepId.toList.contains '#'

/-- `split_part(text, '#', n + 1)`. -/
def splitPart (cs : List Char) : Nat → List Char
  | 0 => cs.takeWhile (· ≠ '#')
  | n + 1 => splitPart (cs.dropWhile (· ≠ '#')).tail n

/-- `split_part(step_id, '#', 1)`. -/
def parentOf (s : FlowStep) : String := String.ofList (splitPart s.stepId.toList 0)

/-- `::bigint`, of decimal digits. -/
def bigint (cs : List Char) : Option Nat := (parseU64 cs).filter (· < 2 ^ 63)

/-- `Db::flow_top_step_count`. -/
def flowTopStepCount (steps : List FlowStep) : Nat := (steps.filter isTop).length

/-- `Db::flow_top_steps`. -/
def flowTopSteps (limit offset : Nat) (steps : List FlowStep) : List FlowStep :=
  ((steps.filter isTop).drop offset).take limit

/-- What `Db::flow_map_counts` groups by, one entry for each child. -/
def groupKeys (steps : List FlowStep) : List (String × StepStatus) :=
  (steps.filter fun s => !isTop s).map fun s => (parentOf s, s.status)

/-- `Db::flow_map_counts`. -/
def flowMapCounts (steps : List FlowStep) : List (String × StepStatus × Nat) :=
  (groupKeys steps).dedup.map fun k => (k.1, k.2, (groupKeys steps).countP fun r => r = k)

/-- The failed children with their indices; a cast that fails fails the query. -/
def failedRows (steps : List FlowStep) : Option (List (String × Nat)) :=
  (steps.filter fun s => s.status = .failed && !isTop s).mapM fun s =>
    (bigint (splitPart s.stepId.toList 1)).map fun i => (parentOf s, i)

/-- `row_number() OVER (PARTITION BY parent ORDER BY idx) <= cap`. -/
def firstOf (cap : Nat) (rows : List (String × Nat)) (parent : String) :
    List (String × Nat) :=
  ((((rows.filter fun r => r.1 = parent).map Prod.snd).insertionSort (· ≤ ·)).take cap).map
    fun i => (parent, i)

/-- `Db::flow_failed_child_idx`. -/
def flowFailedChildIdx (cap : Nat) (steps : List FlowStep) : Option (List (String × Nat)) :=
  (failedRows steps).map fun rows => (rows.map Prod.fst).dedup.flatMap (firstOf cap rows)

/-! ## The reply -/

/-- The entry of one parent in `counts`: children, succeeded and failed. -/
abbrev Counts := Nat × Nat × Nat

/-- One row of the loop that fills `counts`. -/
def addCount (counts : String → Option Counts) (row : String × StepStatus × Nat) :
    String → Option Counts :=
  let e := (counts row.1).getD (0, 0, 0)
  Function.update counts row.1 (some
    (e.1 + row.2.2, if row.2.1 = .succeeded then e.2.1 + row.2.2 else e.2.1,
      if row.2.1 = .failed then e.2.2 + row.2.2 else e.2.2))

/-- `counts`. -/
def counts (groups : List (String × StepStatus × Nat)) : String → Option Counts :=
  groups.foldl addCount fun _ => none

/-- `failed_idx`, with no entry and an empty one alike. -/
def failedIdx (rows : List (String × Nat)) (parent : String) : List Nat :=
  (rows.filter fun r => r.1 = parent).map Prod.snd

/-- The `map` object of a step. -/
structure MapView where
  n : Nat
  ok : Nat
  failed : Nat
  failedChildren : Option (List Nat)
  failedChildrenTruncated : Option Nat
deriving DecidableEq

/-- One step of the reply; `out` is there when `map` is not. -/
structure Item where
  id : String
  status : StepStatus
  map : Option MapView
  out : Option (Option String)
  comp : Bool
deriving DecidableEq

/-- The `map` object. -/
def mapView (c : Counts) (idx : List Nat) : MapView :=
  { n := c.1, ok := c.2.1, failed := c.2.2
    failedChildren := if c.2.2 > 0 then some idx else none
    failedChildrenTruncated :=
      if c.2.2 > 0 ∧ c.2.2 > idx.length then some (c.2.2 - idx.length) else none }

/-- One step of the page, as the reply shows it. -/
def item (groups : List (String × StepStatus × Nat)) (failed : List (String × Nat))
    (s : FlowStep) : Item :=
  let view := (counts groups s.stepId).map fun c => mapView c (failedIdx failed s.stepId)
  { id := s.stepId, status := s.status, map := view
    out := if view.isNone then some s.output else none, comp := s.compensated }

/-- `FAILED_IDX_CAP`. -/
def failedIdxCap : Nat := 20

/-- `a.limit.unwrap_or(200).clamp(1, 1000)`. -/
def pageLimit (limit : Option Int) : Nat := (max 1 (min 1000 (limit.getD 200))).toNat

/-- `a.after.unwrap_or(0).max(0)`. -/
def pageAfter (after : Option Int) : Nat := (max 0 (after.getD 0)).toNat

/-- What a call replies, without the status of the flow run. -/
structure Reply where
  steps : List Item
  totalSteps : Nat
  nextCursor : Option Int
deriving DecidableEq

/-- The reply of `get_flow_run`, from what its queries answered. -/
def getFlowRun (after : Option Int) (total : Nat) (page : List FlowStep)
    (groups : List (String × StepStatus × Nat)) (failed : List (String × Nat)) : Reply :=
  let next := pageAfter after + page.length
  { steps := page.map (item groups failed), totalSteps := total
    nextCursor := if next < total then some next else none }

variable (parse : String → Option Value)

/-- The flow run goes from `s` to `s'`. -/
def Reaches (s s' : Flow) : Prop := ∃ l, Machine.run (FlowDriver.step parse) s l = some s'

/-- One call of `get_flow_run`, begun at `s`; its queries are made at `counted`,
`paged`, `grouped` and `s'`. -/
structure Call (s s' : Flow) (limit after : Option Int) where
  counted : Flow
  paged : Flow
  grouped : Flow
  groups : List (String × StepStatus × Nat)
  failed : List (String × Nat)
  toCounted : Reaches parse s counted
  toPaged : Reaches parse counted paged
  toGrouped : Reaches parse paged grouped
  toEnd : Reaches parse grouped s'
  groups_perm : groups.Perm (flowMapCounts grouped.steps)
  failed_perm : ∃ rows, flowFailedChildIdx failedIdxCap s'.steps = some rows ∧ failed.Perm rows

/-- The page of a call. -/
def Call.page {parse : String → Option Value} {s s' : Flow} {limit after : Option Int}
    (c : Call parse s s' limit after) : List FlowStep :=
  flowTopSteps (pageLimit limit) (pageAfter after) c.paged.steps

/-- Its reply. -/
def Call.reply {parse : String → Option Value} {s s' : Flow} {limit after : Option Int}
    (c : Call parse s s' limit after) : Reply :=
  getFlowRun after (flowTopStepCount c.counted.steps) c.page c.groups c.failed

/-- A client that follows the cursors, from a call with `after` on: the ids it has
been shown, and the number of its calls. -/
inductive Followed : Flow → Option Int → List String → Nat → Prop
  | last {s s' : Flow} {limit after : Option Int} (c : Call parse s s' limit after)
      (hlast : c.reply.nextCursor = none) :
      Followed s after (c.reply.steps.map Item.id) 1
  | more {s s' : Flow} {limit after : Option Int} {cursor : Int} {ids : List String} {n : Nat}
      (c : Call parse s s' limit after) (hnext : c.reply.nextCursor = some cursor)
      (rest : Followed s' (some cursor) ids n) :
      Followed s after (c.reply.steps.map Item.id ++ ids) (n + 1)

variable {parse} {input : Value} {base steps : List FlowStep} {s s' s'' : Flow}

/-! ## Runs -/

theorem Reaches.refl (s : Flow) : Reaches parse s s := ⟨[], rfl⟩

theorem Reaches.trans (h : Reaches parse s s') (h' : Reaches parse s' s'') :
    Reaches parse s s'' := by
  obtain ⟨l, hl⟩ := h
  obtain ⟨l', hl'⟩ := h'
  exact ⟨l ++ l', by rw [Machine.run_append, hl]; exact hl'⟩

/-- **A step of a flow run** carries out at most one legal statement. -/
theorem ledger_step {a : Label} (hI : Inv base s) (h : FlowDriver.step parse s a = some s') :
    s'.steps = s.steps ∨
      ∃ w, Legal base s.steps w ∧ s'.steps = w.apply s.now s.steps := by
  have hpcok := hI.pc
  cases step_move h with
  | write hpc =>
      rw [hpc] at hpcok
      exact .inr ⟨_, (Writing.tail hpcok).1, rfl⟩
  | comp hpc hcomp =>
      obtain ⟨_, _, _, hsteps | hsteps⟩ := compStep_cases hcomp
      · exact .inl hsteps
      · exact .inr ⟨_, .inl ⟨_, rfl⟩, hsteps⟩
  | @taskWrite i reply snap tasks t pc w hpc ht hstep =>
      rw [hpc] at hpcok
      have hrun := Awaiting.runnable hpcok t (List.mem_of_getElem? ht) (isDone_of_step hstep)
      obtain ⟨_, heq | ⟨k, r, _, heq⟩ | ⟨status, output, _, hst, heq⟩⟩ := taskStep_cases hstep
      · cases heq
      · cases heq
        exact .inr ⟨_, hrun.setRunning r, rfl⟩
      · cases heq
        exact .inr ⟨_, hrun.finish hst output, rfl⟩
  | _ => exact .inl rfl

/-- What every legal statement does to a ledger, a run does. -/
theorem ledger_run {R : List FlowStep → List FlowStep → Prop} (hbase : NoHash base)
    (hrefl : ∀ steps, R steps steps) (htrans : ∀ a b c, R a b → R b c → R a c)
    (hwrite : ∀ steps w now, Ledger base steps → Legal base steps w → R steps (w.apply now steps))
    (hI : Inv base s) (h : Reaches parse s s') : R s.steps s'.steps := by
  obtain ⟨l, hl⟩ := h
  refine Machine.rel_run (C := fun _ _ => True) (R := fun s s' : Flow => R s.steps s'.steps)
    (fun s => hrefl s.steps) (fun s t r => htrans _ _ _) (fun s a s' hI _ hs => ?_) hI
    (Machine.along_of_forall fun _ _ => trivial) hl
  refine ⟨(hI.step hbase hs).1, ?_⟩
  rcases ledger_step hI hs with heq | ⟨w, hw, heq⟩
  · rw [heq]
    exact hrefl _
  · rw [heq]
    exact hwrite _ _ _ hI.ledger hw

theorem Fanned.reaches (hI : Fanned parse base input s) (hbase : NoHash base)
    (h : Reaches parse s s') : Fanned parse base input s' := by
  obtain ⟨l, hl⟩ := h
  exact Machine.inv_run (C := fun _ _ => True) (fun _ _ _ hI _ hs => hI.step hbase hs) hI
    (Machine.along_of_forall fun _ _ => trivial) hl

/-! ## Top-level steps -/

/-- The ids of the top-level steps. -/
def topIds (steps : List FlowStep) : List String := (steps.filter isTop).map FlowStep.stepId

theorem isTop_iff {s : FlowStep} : isTop s = true ↔ '#' ∉ s.stepId.toList := by
  simp [isTop]

theorem topIds_fresh (steps : List FlowStep) : topIds (steps.map fresh) = topIds steps := by
  have hself : isTop ∘ fresh = isTop := rfl
  rw [topIds, List.filter_map, hself, List.map_map]
  rfl

/-- A statement neither adds a top-level step nor moves one. -/
theorem topIds_apply {w : Write} {now : Nat} (hL : Ledger base steps) (hbase : NoHash base)
    (hw : Legal base steps w) : topIds (w.apply now steps) = topIds steps := by
  have hnone : (Write.rows w).filter isTop = [] := by
    refine List.filter_eq_nil_iff.mpr fun r hr htop => ?_
    obtain ⟨p, _, _, _, hchild, _⟩ := hw.mem_rows now hr
    obtain ⟨i, hi⟩ := hchild.stepId
    exact isTop_iff.mp htop (hi ▸ hash_mem_childId _ _)
  rw [← topIds_fresh, map_fresh_apply hL hbase hw, topIds, List.filter_append, hnone,
    List.append_nil, ← topIds, topIds_fresh]

/-- **The top-level steps** and their order never change. -/
theorem tops_run (hI : Inv base s) (hbase : NoHash base) (h : Reaches parse s s') :
    topIds s'.steps = topIds s.steps :=
  ledger_run (R := fun a b => topIds b = topIds a) hbase (fun _ => rfl)
    (fun _ _ _ h₁ h₂ => h₂.trans h₁) (fun _ _ _ hL hw => topIds_apply hL hbase hw) hI h

theorem topIds_base (hbase : NoHash base) : topIds base = base.map FlowStep.stepId := by
  rw [topIds, List.filter_eq_self.mpr fun b hb => isTop_iff.mpr (hbase b hb)]

/-! ## Pages -/

theorem ids_page (limit offset : Nat) (steps : List FlowStep) :
    (flowTopSteps limit offset steps).map FlowStep.stepId =
      ((topIds steps).drop offset).take limit := by
  rw [flowTopSteps, List.map_take, List.map_drop, topIds]

theorem ids_item (groups : List (String × StepStatus × Nat)) (failed : List (String × Nat))
    (page : List FlowStep) :
    (page.map (item groups failed)).map Item.id = page.map FlowStep.stepId := by
  rw [List.map_map]
  rfl

/-- A page and what comes after it. -/
theorem page_append {α : Type*} (l : List α) (offset limit : Nat) :
    (l.drop offset).take limit ++ l.drop (offset + ((l.drop offset).take limit).length) =
      l.drop offset := by
  rw [← List.drop_drop, List.length_take]
  rcases le_total limit (l.drop offset).length with h | h
  · rw [min_eq_left h, List.take_append_drop]
  · rw [min_eq_right h, List.drop_length, List.take_of_length_le h, List.append_nil]

theorem pageLimit_pos (limit : Option Int) : 0 < pageLimit limit := by
  unfold pageLimit
  omega

/-- What a call shows of the top-level steps, and where it points to. -/
theorem Call.shows {limit after : Option Int} (c : Call parse s s' limit after)
    (hI : Inv base s) (hbase : NoHash base) :
    let shown := ((topIds s.steps).drop (pageAfter after)).take (pageLimit limit)
    c.reply.steps.map Item.id = shown ∧
      c.reply.nextCursor =
        if pageAfter after + shown.length < (topIds s.steps).length then
          some ((pageAfter after + shown.length : Nat) : Int) else none := by
  have hcounted := tops_run hI hbase c.toCounted
  have hpaged := tops_run hI hbase (c.toCounted.trans c.toPaged)
  have hids : c.page.map FlowStep.stepId =
      ((topIds s.steps).drop (pageAfter after)).take (pageLimit limit) := by
    rw [Call.page, ids_page, hpaged]
  have hlen := congrArg List.length hids
  have htotal : flowTopStepCount c.counted.steps = (topIds s.steps).length := by
    rw [flowTopStepCount, ← hcounted, topIds, List.length_map]
  rw [List.length_map] at hlen
  refine ⟨(ids_item _ _ _).trans hids, ?_⟩
  simp only [Call.reply, getFlowRun, hlen, htotal]

/-- The rest of the steps, from a cursor on. -/
theorem Followed.drop {after : Option Int} {ids : List String} {n : Nat}
    (h : Followed parse s after ids n) (hI : Inv base s) (hbase : NoHash base) :
    ids = (topIds s.steps).drop (pageAfter after) ∧
      n ≤ max 1 ((topIds s.steps).length - pageAfter after) := by
  induction h with
  | @last s s' limit after c hlast =>
      obtain ⟨hshown, hnext⟩ := c.shows hI hbase
      rw [hnext] at hlast
      have hend := page_append (topIds s.steps) (pageAfter after) (pageLimit limit)
      split_ifs at hlast with hmore
      rw [List.drop_eq_nil_of_le (not_lt.mp hmore), List.append_nil] at hend
      exact ⟨hshown.trans hend, le_max_left _ _⟩
  | @more s s' limit after cursor ids n c hnext rest ih =>
      obtain ⟨hshown, hcursor⟩ := c.shows hI hbase
      rw [hcursor] at hnext
      split_ifs at hnext with hmore
      cases hnext
      have hreach : Reaches parse s s' :=
        c.toCounted.trans (c.toPaged.trans (c.toGrouped.trans c.toEnd))
      obtain ⟨l, hl⟩ := hreach
      have hI' : Inv base s' := Machine.inv_run (C := fun _ _ => True)
        (fun _ _ _ hI _ hs => (hI.step hbase hs).1) hI
        (Machine.along_of_forall fun _ _ => trivial) hl
      obtain ⟨hids, hn⟩ := ih hI'
      have htops := tops_run hI hbase ⟨l, hl⟩
      -- the cursor is the offset the next call reads from
      have hafter : ∀ k : Nat, pageAfter (some (k : Int)) = k := by
        intro k
        simp [pageAfter]
      rw [hafter, htops] at hids hn
      refine ⟨?_, ?_⟩
      · rw [hshown, hids]
        exact page_append _ _ _
      · -- a page that is not the last one shows a step
        have hpos := pageLimit_pos limit
        rw [List.length_take, List.length_drop] at hn hmore
        omega

/-! ## Children, as the queries find them -/

theorem takeWhile_append_hash {p rest : List Char} (hp : '#' ∉ p) :
    (p ++ '#' :: rest).takeWhile (· ≠ '#') = p ∧
      (p ++ '#' :: rest).dropWhile (· ≠ '#') = '#' :: rest := by
  have hall : ∀ c ∈ p, (decide (c ≠ '#')) = true := by
    intro c hc
    simpa using fun h : c = '#' => hp (h ▸ hc)
  refine ⟨?_, ?_⟩
  · rw [List.takeWhile_append_of_pos hall]
    simp
  · rw [List.dropWhile_append_of_pos hall]
    simp

/-- `split_part` and the prefix test agree on whose child a row is. -/
theorem isChildOf_iff {p : String} {s : FlowStep} (hp : '#' ∉ p.toList) :
    isChildOf p s = true ↔ isTop s = false ∧ parentOf s = p := by
  have htop : isTop s = false ↔ '#' ∈ s.stepId.toList := by simp [isTop]
  rw [isChildOf, List.isPrefixOf_iff_prefix, htop, parentOf, splitPart]
  constructor
  · rintro ⟨rest, hrest⟩
    rw [List.append_assoc, List.singleton_append] at hrest
    rw [← hrest, (takeWhile_append_hash hp).1]
    exact ⟨by simp, String.ofList_toList⟩
  · rintro ⟨hmem, hpar⟩
    have hsplit := List.takeWhile_append_dropWhile (p := fun c => decide (c ≠ '#'))
      (l := s.stepId.toList)
    have hpar' : s.stepId.toList.takeWhile (fun c => decide (c ≠ '#')) = p.toList := by
      rw [← hpar, String.toList_ofList]
    rw [hpar'] at hsplit
    cases hdrop : s.stepId.toList.dropWhile (fun c => decide (c ≠ '#')) with
    | nil =>
        rw [hdrop, List.append_nil] at hsplit
        exact absurd (hsplit ▸ hmem) hp
    | cons c rest =>
        have hc : c = '#' := by
          have hall := List.head?_dropWhile_not (fun c => decide (c ≠ '#')) s.stepId.toList
          rw [hdrop] at hall
          simpa using hall
        rw [hdrop, hc] at hsplit
        exact ⟨rest, by rw [← hsplit]; simp⟩

theorem parseU64_digits {i : Nat} (hi : i < 2 ^ 64) :
    parseU64 (Nat.toDigits 10 i) = some i := by
  have hdigits : ∀ c ∈ Nat.toDigits 10 i, c.isDigit = true :=
    fun c hc => Nat.isDigit_of_mem_toDigits (by decide) (by decide) hc
  have hne : Nat.toDigits 10 i ≠ [] := by
    intro h
    have hpos := Nat.length_toDigits_pos (b := 10) (n := i)
    simp [h] at hpos
  have hhead : ¬ (Nat.toDigits 10 i).head? = some '+' := by
    intro h
    exact absurd (hdigits '+' (List.mem_of_mem_head? h)) (by decide)
  have hall : (Nat.toDigits 10 i).all Char.isDigit = true := List.all_eq_true.mpr hdigits
  have hlt : i < 18446744073709551616 := hi
  rw [parseU64, if_neg hhead]
  simp [hne, hall, Nat.ofDigitChars_ten_toDigits, hlt]

/-- The second part of a child's id is its index. -/
theorem bigint_childId {p : String} {i : Nat} {s : FlowStep} (hp : '#' ∉ p.toList)
    (hi : i < 2 ^ 63) (hs : s.stepId = childId p i) :
    bigint (splitPart s.stepId.toList 1) = some (childIndex s) := by
  have hi' : i < 2 ^ 64 := by omega
  have hpart : splitPart s.stepId.toList 1 = Nat.toDigits 10 i := by
    rw [hs, toList_childId, splitPart, splitPart, (takeWhile_append_hash hp).2, List.tail_cons,
      List.takeWhile_eq_self_iff]
    intro c hc
    simpa using fun h : c = '#' => hash_not_mem_digits i (h ▸ hc)
  rw [hpart, bigint, parseU64_digits hi', childIndex_childId hi' hs, Option.filter_some,
    if_pos (decide_eq_true hi)]

/-! ## `counts` -/

/-- What one row of `flow_map_counts` adds. -/
def entry (row : String × StepStatus × Nat) : Counts :=
  (row.2.2, if row.2.1 = .succeeded then row.2.2 else 0,
    if row.2.1 = .failed then row.2.2 else 0)

/-- The rows of a parent, added up. -/
def totals (groups : List (String × StepStatus × Nat)) (parent : String) : Counts :=
  ((groups.filter fun r => r.1 = parent).map entry).sum

theorem addCount_self (c : String → Option Counts) (row : String × StepStatus × Nat) :
    addCount c row row.1 = some ((c row.1).getD 0 + entry row) := by
  rw [addCount, Function.update_self, entry]
  refine congrArg some (Prod.ext rfl (Prod.ext ?_ ?_))
  · show _ = _ + _
    split_ifs <;> rfl
  · show _ = _ + _
    split_ifs <;> rfl

theorem addCount_of_ne {c : String → Option Counts} {row : String × StepStatus × Nat}
    {parent : String} (h : row.1 ≠ parent) : addCount c row parent = c parent :=
  Function.update_of_ne (fun h' => h h'.symm) ..

/-- What the loop leaves under a parent. -/
theorem foldl_addCount (groups : List (String × StepStatus × Nat))
    (c : String → Option Counts) (parent : String) :
    groups.foldl addCount c parent =
      if groups.any fun r => r.1 = parent then
        some ((c parent).getD 0 + totals groups parent)
      else c parent := by
  induction groups generalizing c with
  | nil => rfl
  | cons r groups ih =>
      rw [List.foldl_cons, ih, List.any_cons]
      by_cases hr : r.1 = parent
      · subst hr
        have hcons : totals (r :: groups) r.1 = entry r + totals groups r.1 := by
          simp [totals]
        rw [addCount_self, hcons, decide_eq_true rfl, Bool.true_or, if_pos rfl,
          Option.getD_some]
        split_ifs with hany
        · rw [add_assoc]
        · have hnil : totals groups r.1 = 0 := by
            rw [totals, List.filter_eq_nil_iff.mpr]
            · rfl
            · exact fun x hx h => hany (List.any_eq_true.mpr ⟨x, hx, h⟩)
          rw [hnil, add_zero]
      · have hcons : totals (r :: groups) parent = totals groups parent := by
          rw [totals, List.filter_cons_of_neg (by simpa using hr), ← totals]
        rw [addCount_of_ne hr, hcons, decide_eq_false hr, Bool.false_or]

/-- The entry of a parent, in whatever order the rows come. -/
theorem counts_eq (groups : List (String × StepStatus × Nat)) (parent : String) :
    counts groups parent =
      if groups.any fun r => r.1 = parent then some (totals groups parent) else none := by
  rw [counts, foldl_addCount, Option.getD_none, zero_add]

theorem totals_perm {groups groups' : List (String × StepStatus × Nat)}
    (h : groups.Perm groups') (parent : String) :
    totals groups parent = totals groups' parent :=
  ((h.filter _).map _).sum_eq

/-- The counts of the groups of one kind add up to the children of that kind. -/
theorem sum_groups {κ : Type*} [DecidableEq κ] (keys : List κ) (p q : κ → Bool) :
    ((keys.dedup.filter p).map fun k => if q k then keys.countP fun r => r = k else 0).sum =
      keys.countP fun k => p k && q k := by
  have hcount : ∀ k, (keys.countP fun r => r = k) = keys.count k :=
    fun k => List.countP_congr fun r _ => by simp
  simp only [hcount]
  rw [← List.sum_map_count_dedup_filter_eq_countP]
  induction keys.dedup with
  | nil => rfl
  | cons k l ih =>
      rw [List.filter_cons, List.filter_cons]
      cases hp : p k with
      | false => simpa using ih
      | true => cases hq : q k <;> simp [hq, ih]

/-- The children of `parent` whose status is as asked. -/
def childrenWith (q : StepStatus → Bool) (parent : String) (steps : List FlowStep) : Nat :=
  (steps.filter (isChildOf parent)).countP fun s => q s.status

theorem countP_groupKeys {parent : String} (hp : '#' ∉ parent.toList) (q : StepStatus → Bool)
    (steps : List FlowStep) :
    ((groupKeys steps).countP fun k => decide (k.1 = parent) && q k.2) =
      childrenWith q parent steps := by
  rw [groupKeys, List.countP_map, List.countP_filter, childrenWith, List.countP_filter]
  refine List.countP_congr fun s _ => ?_
  have hiff := isChildOf_iff (s := s) hp
  simp only [Function.comp_apply, Bool.and_eq_true, decide_eq_true_eq, Bool.not_eq_true', hiff]
  tauto

/-- **What is counted for a map step.** -/
theorem totals_flowMapCounts {parent : String} (hp : '#' ∉ parent.toList)
    (steps : List FlowStep) :
    totals (flowMapCounts steps) parent =
      ((steps.filter (isChildOf parent)).length,
        childrenWith (fun st => st = .succeeded) parent steps,
        childrenWith (fun st => st = .failed) parent steps) := by
  have hfilter : (flowMapCounts steps).filter (fun r => r.1 = parent) =
      ((groupKeys steps).dedup.filter fun k => k.1 = parent).map fun k =>
        (k.1, k.2, (groupKeys steps).countP fun r => r = k) := by
    rw [flowMapCounts, List.filter_map]
    rfl
  have hsum : ∀ (f : Counts →+ Nat) (q : StepStatus → Bool),
      (∀ r, f (entry r) = if q r.2.1 then r.2.2 else 0) →
      f (totals (flowMapCounts steps) parent) = childrenWith q parent steps := by
    intro f q hf
    rw [totals, hfilter, map_list_sum, List.map_map, List.map_map, ← countP_groupKeys hp,
      ← sum_groups]
    refine congrArg List.sum (List.map_congr_left fun k _ => ?_)
    exact hf (k.1, k.2, _)
  have hall : childrenWith (fun _ => true) parent steps =
      (steps.filter (isChildOf parent)).length := by
    rw [childrenWith, List.countP_true]
  refine Prod.ext ?_ (Prod.ext ?_ ?_)
  · rw [← hall]
    exact hsum (AddMonoidHom.fst Nat (Nat × Nat)) (fun _ => true) fun r => rfl
  · exact hsum ((AddMonoidHom.fst Nat Nat).comp (AddMonoidHom.snd Nat (Nat × Nat)))
      (fun st => st = .succeeded) fun r => by simp [entry]
  · exact hsum ((AddMonoidHom.snd Nat Nat).comp (AddMonoidHom.snd Nat (Nat × Nat)))
      (fun st => st = .failed) fun r => by simp [entry]

theorem any_flowMapCounts {parent : String} (hp : '#' ∉ parent.toList)
    (steps : List FlowStep) :
    (flowMapCounts steps).any (fun r => r.1 = parent) = steps.any (isChildOf parent) := by
  rw [Bool.eq_iff_iff]
  simp only [flowMapCounts, groupKeys, List.any_map, List.any_eq_true, List.mem_dedup,
    List.mem_map, List.mem_filter, Function.comp_apply, decide_eq_true_eq]
  constructor
  · rintro ⟨k, ⟨s, ⟨hs, htop⟩, rfl⟩, hpar⟩
    exact ⟨s, hs, (isChildOf_iff hp).mpr ⟨by simpa using htop, hpar⟩⟩
  · rintro ⟨s, hs, hchild⟩
    obtain ⟨htop, hpar⟩ := (isChildOf_iff hp).mp hchild
    exact ⟨_, ⟨s, ⟨hs, by simp [htop]⟩, rfl⟩, hpar⟩

/-! ## The failed children -/

/-- The indices of the failed children of `parent`, in index order. -/
def failedIndices (parent : String) (steps : List FlowStep) : List Nat :=
  ((steps.filter (isChildOf parent)).filter fun s => s.status = .failed).map childIndex

theorem mapM_eq_some {α β : Type*} {f : α → Option β} {g : α → β} {l : List α}
    (h : ∀ x ∈ l, f x = some (g x)) : l.mapM f = some (l.map g) := by
  induction l with
  | nil => rfl
  | cons x l ih =>
      rw [List.mapM_cons, h x List.mem_cons_self,
        ih fun y hy => h y (List.mem_cons_of_mem _ hy)]
      rfl

/-- On a flow run's ledger no cast fails. -/
theorem failedRows_eq (hF : Fanouts parse input steps) (hL : Ledger base steps)
    (hbase : NoHash base) :
    failedRows steps = some ((steps.filter fun s => s.status = .failed && !isTop s).map
      fun s => (parentOf s, childIndex s)) := by
  refine mapM_eq_some fun s hs => ?_
  obtain ⟨hs, htop⟩ := List.mem_filter.mp hs
  simp only [Bool.and_eq_true, Bool.not_eq_true'] at htop
  have hhash : ¬ '#' ∉ s.stepId.toList := by
    rw [← isTop_iff, htop.2]
    decide
  rcases hL.origin s hs with hsb | ⟨p, hp, hpb, hchild, _⟩
  · exact absurd (hbase.of_fresh hsb) hhash
  · have hp' := hbase.of_fresh hpb
    obtain ⟨_, _, items, hfans⟩ := hF.whole p hp s hs hchild
    obtain ⟨i, hi⟩ := hchild.stepId
    -- its index is below the cap on fan-outs
    have hmem : s ∈ steps.filter (isChildOf p.stepId) :=
      List.mem_filter.mpr ⟨hs, (isChildOf_childId hp' hp' hi).mpr rfl⟩
    obtain ⟨k, hk⟩ := List.mem_iff_getElem?.mp hmem
    have hlt : k < items.length := hfans.length ▸ (List.getElem?_eq_some_iff.mp hk).1
    obtain ⟨c, _, _, hcid, hc⟩ := hfans.child hlt
    cases hk.symm.trans hc
    have hcap := hfans.cap
    have hmax : maxMapFanout < 2 ^ 63 := by decide
    rw [bigint_childId hp' (by omega) hcid]
    rfl

/-- The rows of one parent, among those of all. -/
theorem filter_flatMap {β : Type*} {f : String → List (String × β)}
    (hf : ∀ q, ∀ r ∈ f q, r.1 = q) {ps : List String} (hnd : ps.Nodup) (p : String) :
    (ps.flatMap f).filter (fun r => r.1 = p) = if p ∈ ps then f p else [] := by
  induction ps with
  | nil => rfl
  | cons q ps ih =>
      obtain ⟨hq, hnd⟩ := List.nodup_cons.mp hnd
      rw [List.flatMap_cons, List.filter_append, ih hnd]
      by_cases hqp : q = p
      · subst hqp
        rw [List.filter_eq_self.mpr fun r hr => by simpa using hf q r hr, if_neg hq,
          if_pos List.mem_cons_self, List.append_nil]
      · have hnone : (f q).filter (fun r => r.1 = p) = [] := by
          refine List.filter_eq_nil_iff.mpr fun r hr h => hqp ?_
          exact (hf q r hr).symm.trans (by simpa using h)
        have hmem : p ∈ q :: ps ↔ p ∈ ps :=
          List.mem_cons.trans (or_iff_right fun h => hqp h.symm)
        rw [hnone, List.nil_append]
        simp only [hmem]

/-- The rows of one parent in the answer of `flow_failed_child_idx`. -/
theorem failedIdx_flowFailedChildIdx {cap : Nat} {rows answer : List (String × Nat)}
    (hrows : failedRows steps = some rows)
    (h : flowFailedChildIdx cap steps = some answer) (parent : String) :
    failedIdx answer parent =
      ((failedIdx rows parent).insertionSort (· ≤ ·)).take cap := by
  rw [flowFailedChildIdx, hrows, Option.map_some] at h
  cases h
  have hfst : ∀ q, ∀ r ∈ firstOf cap rows q, r.1 = q := by
    intro q r hr
    obtain ⟨i, _, rfl⟩ := List.mem_map.mp hr
    rfl
  rw [failedIdx, filter_flatMap hfst (List.nodup_dedup _)]
  split_ifs with hmem
  · rw [firstOf, List.map_map]
    exact List.map_id _
  · have hnil : rows.filter (fun r => r.1 = parent) = [] := by
      refine List.filter_eq_nil_iff.mpr fun r hr h => hmem ?_
      rw [List.mem_dedup]
      exact List.mem_map.mpr ⟨r, hr, by simpa using h⟩
    rw [failedIdx, hnil, List.map_nil, List.insertionSort_nil, List.take_nil]

/-- A step with a child is a map step whose fan-out is whole. -/
theorem fans_of_child (hF : Fanouts parse input steps) (hL : Ledger base steps)
    (hbase : NoHash base) {p : FlowStep} (hp : p ∈ steps) (hpb : fresh p ∈ base)
    (h : steps.any (isChildOf p.stepId) = true) :
    p.mapRef ≠ none ∧ ∃ items, Fans parse input steps p items := by
  obtain ⟨c, hc, hchild⟩ := List.any_eq_true.mp h
  have hchild' := childOf_of_isChildOf hL hbase hp hpb hc hchild
  exact ⟨hchild'.1, (hF.whole p hp c hc hchild').2.2⟩

/-- The children stand in the ledger in index order. -/
theorem failedIndices_sorted (hF : Fanouts parse input steps) (hL : Ledger base steps)
    (hbase : NoHash base) {p : FlowStep} (hp : p ∈ steps) (hpb : fresh p ∈ base) :
    (failedIndices p.stepId steps).Pairwise (· < ·) := by
  by_cases hany : steps.any (isChildOf p.stepId) = true
  · obtain ⟨_, items, hfans⟩ := fans_of_child hF hL hbase hp hpb hany
    have hsorted : ((steps.filter (isChildOf p.stepId)).map childIndex).Pairwise (· < ·) := by
      rw [index_of_rows hfans.rows hfans.cap]
      exact List.pairwise_lt_range'
    exact hsorted.sublist (List.filter_sublist.map childIndex)
  · have hnil : steps.filter (isChildOf p.stepId) = [] :=
      List.filter_eq_nil_iff.mpr fun x hx h => hany (List.any_eq_true.mpr ⟨x, hx, h⟩)
    rw [failedIndices, hnil]
    exact List.Pairwise.nil

/-- **The failed children of a map step** that a call lists: the first ones. -/
theorem failed_listed {cap : Nat} {answer : List (String × Nat)}
    (hF : Fanouts parse input steps) (hL : Ledger base steps) (hbase : NoHash base)
    {p : FlowStep} (hp : p ∈ steps) (hpb : fresh p ∈ base)
    (h : flowFailedChildIdx cap steps = some answer) :
    failedIdx answer p.stepId = (failedIndices p.stepId steps).take cap := by
  have hash := hbase.of_fresh hpb
  rw [failedIdx_flowFailedChildIdx (failedRows_eq hF hL hbase) h]
  have hrows : failedIdx ((steps.filter fun s => s.status = .failed && !isTop s).map
      fun s => (parentOf s, childIndex s)) p.stepId = failedIndices p.stepId steps := by
    rw [failedIdx, List.filter_map, List.map_map, failedIndices, List.filter_filter,
      List.filter_filter]
    refine congrArg (List.map childIndex) (List.filter_congr fun s _ => ?_)
    have hiff := isChildOf_iff (s := s) hash
    rw [Bool.eq_iff_iff]
    simp only [Function.comp_apply, Bool.and_eq_true, decide_eq_true_eq, Bool.not_eq_true',
      hiff]
    tauto
  rw [hrows]
  exact congrArg (List.take cap)
    ((failedIndices_sorted hF hL hbase hp hpb).imp le_of_lt).insertionSort_eq

/-! ## A failed child stays -/

/-- Failed rows stay failed. -/
def FailedKept (steps steps' : List FlowStep) : Prop :=
  ∀ s ∈ steps, s.status = .failed → ∃ t ∈ steps', t.stepId = s.stepId ∧ t.status = .failed

theorem failedKept_write {w : Write} (now : Nat) (hL : Ledger base steps)
    (hbase : NoHash base) (hw : Legal base steps w) :
    FailedKept steps (w.apply now steps) := by
  intro s hs hfail
  obtain ⟨t, ht, hfresh, rfl | ⟨hid, rfl⟩⟩ := exists_image now hL hbase hw hs
  · exact ⟨t, ht, rfl, hfail⟩
  · refine ⟨_, ht, stepId_of_fresh hfresh, ?_⟩
    rcases (hw.target hL hs hid).active with hact | ⟨id, rfl⟩
    · rw [hfail] at hact
      cases hact
    · exact hfail

theorem failedKept_run (hI : Inv base s) (hbase : NoHash base) (h : Reaches parse s s') :
    FailedKept s.steps s'.steps := by
  refine ledger_run (R := FailedKept) hbase (fun _ s hs hfail => ⟨s, hs, rfl, hfail⟩) ?_
    (fun _ _ now hL hw => failedKept_write now hL hbase hw) hI h
  intro a b c hab hbc s hs hfail
  obtain ⟨t, ht, hid, htfail⟩ := hab s hs hfail
  obtain ⟨u, hu, hid', hufail⟩ := hbc t ht htfail
  exact ⟨u, hu, hid'.trans hid, hufail⟩

theorem FailedKept.indices {steps' : List FlowStep} (h : FailedKept steps steps')
    (parent : String) : failedIndices parent steps ⊆ failedIndices parent steps' := by
  intro i hi
  obtain ⟨c, hc, rfl⟩ := List.mem_map.mp hi
  obtain ⟨hc, hfail⟩ := List.mem_filter.mp hc
  obtain ⟨hc, hchild⟩ := List.mem_filter.mp hc
  obtain ⟨t, ht, hid, htfail⟩ := h c hc (by simpa using hfail)
  have hindex : childIndex t = childIndex c := by rw [childIndex, hid, childIndex]
  have hchild' : isChildOf parent t = true := by rw [isChildOf, hid]; exact hchild
  exact List.mem_map.mpr ⟨t, List.mem_filter.mpr
    ⟨List.mem_filter.mpr ⟨ht, hchild'⟩, by simpa using htfail⟩, hindex⟩

theorem length_failedIndices (parent : String) (steps : List FlowStep) :
    (failedIndices parent steps).length =
      childrenWith (fun st => st = .failed) parent steps := by
  rw [failedIndices, List.length_map, childrenWith, List.countP_eq_length_filter]

/-! ## What a page says -/

/-- What the `map` object `m` of the step `p` says of its children, as they are
when they are counted and when the failed ones are listed. -/
structure MapShown (parse : String → Option Value) (input : Value)
    (counted listed : List FlowStep) (p : FlowStep) (m : MapView) : Prop where
  /-- all the elements of the array are counted -/
  whole : ∃ q ∈ counted, q.stepId = p.stepId ∧
    ∃ items, ArrayOf parse input counted q items ∧ m.n = items.length
  ok : m.ok = childrenWith (fun st => st = .succeeded) p.stepId counted
  failed : m.failed = childrenWith (fun st => st = .failed) p.stepId counted
  /-- a child that is counted as failed has failed for good -/
  kept : failedIndices p.stepId counted ⊆ failedIndices p.stepId listed
  /-- failed children are listed when there are any, the first ones in index order -/
  first : if m.failed = 0 then m.failedChildren = none else
    ∃ idx, m.failedChildren = some idx ∧
      idx.Perm ((failedIndices p.stepId listed).take failedIdxCap)
  /-- how many are left out -/
  truncated : m.failedChildrenTruncated =
    if m.failed > failedIdxCap then some (m.failed - failedIdxCap) else none
  /-- a map step that has succeeded has no failed child -/
  closed : p.status = .succeeded → m.failed = 0

/-- A row of the base at a later state. -/
theorem exists_later (hI : Inv base s) (hbase : NoHash base) (h : Reaches parse s s')
    {p : FlowStep} (hp : p ∈ s.steps) (hpb : fresh p ∈ base) :
    ∃ q ∈ s'.steps, q.stepId = p.stepId ∧ fresh q ∈ base ∧
      (p.status = .succeeded → q.status = .succeeded) := by
  obtain ⟨l, hl⟩ := h
  have hI' : Inv base s' := Machine.inv_run (C := fun _ _ => True)
    (fun _ _ _ hI _ hs => (hI.step hbase hs).1) hI
    (Machine.along_of_forall fun _ _ => trivial) hl
  obtain ⟨q, hq, hfresh⟩ := hI'.ledger.kept _ hpb
  have hid : q.stepId = p.stepId := stepId_of_fresh hfresh
  refine ⟨q, hq, hid, by rwa [hfresh], fun hstatus => ?_⟩
  obtain ⟨t, ht, hid', hst, _⟩ := settled_run hbase hI hl p hp (by rw [hstatus]; rfl)
  obtain rfl := Rows.eq_of_key_eq hI'.ledger.nodup hq ht (hid.trans hid'.symm)
  exact hst.trans hstatus

/-- The `map` object of a step, where it has children. -/
theorem mapShown (c : Fanned parse base input s) (hbase : NoHash base)
    (hI : Fanned parse base input s') (hreach : Reaches parse s s')
    {groups : List (String × StepStatus × Nat)} {failed answer : List (String × Nat)}
    (hgroups : groups.Perm (flowMapCounts s.steps))
    (hanswer : flowFailedChildIdx failedIdxCap s'.steps = some answer)
    (hfailed : failed.Perm answer) {p q : FlowStep} (hq : q ∈ s.steps)
    (hqb : fresh q ∈ base) (hid : q.stepId = p.stepId)
    (hdone : p.status = .succeeded → q.status = .succeeded)
    (hany : s.steps.any (isChildOf q.stepId) = true) :
    MapShown parse input s.steps s'.steps p
      (mapView (totals groups p.stepId) (failedIdx failed p.stepId)) := by
  have hL := c.inv.ledger
  have hash := hbase.of_fresh hqb
  obtain ⟨hmap, items, hfans⟩ := fans_of_child c.fanouts hL hbase hq hqb hany
  have htotals : totals groups p.stepId = _ :=
    (totals_perm hgroups _).trans (hid ▸ totals_flowMapCounts hash s.steps)
  obtain ⟨r, hr, hrid, hrb, _⟩ := exists_later c.inv hbase hreach hq hqb
  have hlisted := failed_listed hI.fanouts hI.inv.ledger hbase hr hrb hanswer
  rw [hrid, hid] at hlisted
  have hidx : (failedIdx failed p.stepId).Perm
      ((failedIndices p.stepId s'.steps).take failedIdxCap) :=
    hlisted ▸ (hfailed.filter _).map Prod.snd
  have hkept := (failedKept_run c.inv hbase hreach).indices p.stepId
  have hle : childrenWith (fun st => st = .failed) p.stepId s.steps ≤
      (failedIndices p.stepId s'.steps).length := by
    have hnd : (failedIndices p.stepId s.steps).Nodup :=
      (hid ▸ failedIndices_sorted c.fanouts hL hbase hq hqb).imp ne_of_lt
    rw [← length_failedIndices]
    exact (hnd.subperm hkept).length_le
  rw [htotals]
  refine ⟨⟨q, hq, hid, items, hfans.array, ?_⟩, rfl, rfl, hkept, ?_, ?_, ?_⟩
  · rw [← hfans.length, hid]
    rfl
  · simp only [mapView]
    split_ifs with hzero hpos hpos
    · omega
    · rfl
    · exact ⟨_, rfl, hidx⟩
    · omega
  · simp only [mapView, hidx.length_eq, List.length_take]
    have hcap : failedIdxCap = 20 := rfl
    split_ifs with h h' h' <;> first | rfl | (congr 1; omega)
  · intro hstatus
    have hjoined := (c.fanouts.closed q hq hmap (hdone hstatus)).2
    refine List.countP_eq_zero.mpr fun x hx => ?_
    obtain ⟨hx, hchild⟩ := List.mem_filter.mp hx
    have hset := hjoined.settled x hx (hid ▸ hchild)
    intro hfail
    rw [of_decide_eq_true hfail] at hset
    cases hset

/-- **What a page says about a map step.**  Whatever the driver does between the
queries of a call and before it, a step of the page has a `map` object if it has
children when they are counted, and what the object says is `MapShown`; the casts of
the query that lists the failed children never fail. -/
theorem maps_shown {it : Iteration} {spec : Value} (hvalid : validateSpec it spec = .ok ())
    {l : List Label} (hrun : Machine.run (FlowDriver.step parse) (start spec input) l = some s)
    {limit after : Option Int} (c : Call parse s s' limit after) {p : FlowStep}
    (hp : p ∈ c.page) :
    item c.groups c.failed p ∈ c.reply.steps ∧
      (∃ rows, flowFailedChildIdx failedIdxCap s.steps = some rows) ∧
      ((item c.groups c.failed p).map = none ↔
        ∀ x ∈ c.grouped.steps, isChildOf p.stepId x = false) ∧
      ∀ m, (item c.groups c.failed p).map = some m →
        MapShown parse input c.grouped.steps s'.steps p m := by
  have hbase := (validateSpec_ledger hvalid).noHash
  have hI := fanned_run hvalid hrun
  have hpaged := Fanned.reaches hI hbase (c.toCounted.trans c.toPaged)
  have hgrouped := Fanned.reaches hpaged hbase c.toGrouped
  have hend := Fanned.reaches hgrouped hbase c.toEnd
  obtain ⟨hmem, htop⟩ := List.mem_filter.mp (List.drop_subset _ _ (List.take_subset _ _ hp))
  have hash := isTop_iff.mp htop
  have hpb : fresh p ∈ ledgerRows spec := by
    rcases hpaged.inv.ledger.origin p hmem with h | ⟨q, _, _, hchild, _⟩
    · exact h
    · obtain ⟨i, hi⟩ := hchild.stepId
      exact absurd (hi ▸ hash_mem_childId _ _) hash
  obtain ⟨q, hq, hid, hqb, hdone⟩ := exists_later hpaged.inv hbase c.toGrouped hmem hpb
  have hany : (c.groups.any fun r => r.1 = p.stepId) =
      c.grouped.steps.any (isChildOf p.stepId) := by
    rw [← any_flowMapCounts hash, c.groups_perm.any_eq]
  refine ⟨List.mem_map_of_mem hp, ?_, ?_, ?_⟩
  · rw [flowFailedChildIdx, failedRows_eq hI.fanouts hI.inv.ledger hbase]
    exact ⟨_, rfl⟩
  · simp only [item, counts_eq, hany]
    split_ifs with h
    · obtain ⟨x, hx, hchild⟩ := List.any_eq_true.mp h
      simpa using ⟨x, hx, hchild⟩
    · rw [Bool.not_eq_true, List.any_eq_false] at h
      simpa using h
  · intro m hm
    simp only [item, counts_eq, hany] at hm
    split_ifs at hm with h
    · cases hm
      obtain ⟨answer, hanswer, hperm⟩ := c.failed_perm
      exact mapShown hgrouped hbase hend c.toEnd c.groups_perm hanswer hperm hq hqb hid hdone
        (by rw [hid]; exact h)
    · cases hm

/-! ### A fan-out with a failed child -/

/-- The map step `m` over `xs`, and a step after it. -/
def viewSpec : Value :=
  .obj [("steps", .arr
    [ .obj
        [ ("id", .str "m"), ("map", .str "flow_input.xs")
        , ("script_id", .num (.int 1)) ]
    , .obj
        [ ("id", .str "r"), ("script_id", .num (.int 1))
        , ("depends_on", .arr [.str "m"]) ] ])]

theorem valid_viewSpec : validateSpec inOrder viewSpec = .ok () := by rfl

/-- The first child of `m` succeeds, the script of the second is gone. -/
def halfFailed : List Label :=
  Label.claim :: List.replicate 5 (Label.drive .ok) ++ prints 0 "1" ++
    [.task 1 (.script none), .task 1 .ok]

theorem maps_shown_halfFailed :
    ∃ s, Machine.run (step fun _ => none) (start viewSpec twoItems) halfFailed = some s ∧
      ∃ p ∈ s.steps, ∃ m, m.n = 2 ∧ m.ok = 1 ∧ m.failedChildren = some [1] ∧
        MapShown (fun _ => none) twoItems s.steps s.steps p m := by
  have hview : (Machine.run (step fun _ => none) (start viewSpec twoItems) halfFailed).map
      (fun s => (flowMapCounts s.steps, flowFailedChildIdx failedIdxCap s.steps)) =
        some ([("m", .succeeded, 1), ("m", .failed, 1)], some [("m", 1)]) := by
    decide +kernel
  have htop : (Machine.run (step fun _ => none) (start viewSpec twoItems) halfFailed).map
      (fun s => (flowTopSteps 200 0 s.steps).head?.map FlowStep.stepId) = some (some "m") := by
    decide +kernel
  obtain ⟨s, hs, hview⟩ := Option.map_eq_some_iff.mp hview
  obtain ⟨hgroups, hfailed⟩ := Prod.mk.inj hview
  rw [hs, Option.map_some, Option.some_inj] at htop
  obtain ⟨p, hp, hid⟩ := Option.map_eq_some_iff.mp htop
  let c : Call (fun _ => none) s s none none :=
    { counted := s, paged := s, grouped := s, groups := flowMapCounts s.steps
      failed := [("m", 1)], toCounted := .refl s, toPaged := .refl s, toGrouped := .refl s
      toEnd := .refl s, groups_perm := .refl _, failed_perm := ⟨_, hfailed, .refl _⟩ }
  have hpage : p ∈ c.page := List.mem_of_head? hp
  have hmem : p ∈ s.steps :=
    (List.mem_filter.mp (List.drop_subset _ _ (List.take_subset _ _ hpage))).1
  refine ⟨s, hs, p, hmem, ⟨2, 1, 1, some [1], none⟩, rfl, rfl, rfl, ?_⟩
  refine (maps_shown valid_viewSpec hs c hpage).2.2.2 _ ?_
  show (counts (flowMapCounts s.steps) p.stepId).map
    (fun t => mapView t (failedIdx [("m", 1)] p.stepId)) = _
  rw [hgroups, hid]
  decide +kernel

/-- A call in which nothing happens, before any fan-out. -/
def quietCall (s : Flow) (limit after : Option Int) (hgroups : flowMapCounts s.steps = [])
    (hfailed : flowFailedChildIdx failedIdxCap s.steps = some []) :
    Call (fun _ => none) s s limit after :=
  { counted := s, paged := s, grouped := s, groups := [], failed := []
    toCounted := .refl s, toPaged := .refl s, toGrouped := .refl s, toEnd := .refl s
    groups_perm := hgroups ▸ .refl _, failed_perm := ⟨_, hfailed, .refl _⟩ }

end Dokan.Ports.FlowView
