import Dokan.Ports.FlowDriver

/-!
# The ledger under the driver's statements

`Legal steps w` is what has to hold of the ledger for the statement `w` to be
one the driver may issue; `Ledger base steps` is the invariant of a ledger
that grew out of the rows `base` of a validated spec.  None of the statements
checks anything itself, so the invariant rests on `Legal`, and `Legal.frame`
says that a statement on one row does not disturb what the driver is still
about to do to the others.

## Main results

* `Ledger.write` — a legal statement keeps the invariant.
* `settled_write` — a legal statement leaves succeeded and skipped rows alone.
* `Legal.frame` — legality survives a legal statement on another row.
-/

namespace Dokan.Ports.FlowLedger

open Dokan.Verified
open Dokan.Verified.Json
open Dokan.Ports.FlowRow
open Dokan.Ports.FlowSpec
open Dokan.Ports.FlowEval
open Dokan.Ports.FlowDriver

/-! ## What a statement does to one row -/

/-- The columns a row keeps for life. -/
def fresh (s : FlowStep) : FlowStep :=
  { s with
    status := .pending, output := none, compensated := false, finishedAt := none
    runId := none }

/-- What a statement makes of its row. -/
def Write.row (now : Nat) : Write → FlowStep → FlowStep
  | .setRunning _ runId, s => { s with status := .running, runId := some runId }
  | .finish _ status output, s => { s with status, output, finishedAt := some now }
  | .skip _, s => { s with status := .skipped, finishedAt := some now }
  | .expand _ _ _, s => { s with status := .expanded }
  | .compensated _, s => { s with compensated := true }

/-- The rows a statement inserts. -/
def Write.rows : Write → List FlowStep
  | .expand _ children cache => children.map (childRow cache)
  | _ => []

variable {now : Nat} {w w' : Write} {s t : FlowStep} {base steps : List FlowStep}

theorem apply_eq (w : Write) (steps : List FlowStep) :
    w.apply now steps =
      Rows.update FlowStep.stepId w.id (Write.row now w)
        ((Write.rows w).foldl (Rows.insertNew FlowStep.stepId) steps) := by
  cases w with
  | expand parent children cache =>
      simp only [Write.rows, List.foldl_map]
      rfl
  | setRunning id runId => rfl
  | finish id status output => rfl
  | skip id => rfl
  | compensated id => rfl

@[simp] theorem fresh_row (w : Write) (s : FlowStep) :
    fresh (Write.row now w s) = fresh s := by
  cases w <;> rfl

theorem stepId_of_fresh (h : fresh s = fresh t) : s.stepId = t.stepId := by
  simpa [fresh] using congrArg FlowStep.stepId h

theorem dependsOn_of_fresh (h : fresh s = fresh t) : s.dependsOn = t.dependsOn := by
  simpa [fresh] using congrArg FlowStep.dependsOn h

theorem mapRef_of_fresh (h : fresh s = fresh t) : s.mapRef = t.mapRef := by
  simpa [fresh] using congrArg FlowStep.mapRef h

@[simp] theorem stepId_row (w : Write) (s : FlowStep) :
    (Write.row now w s).stepId = s.stepId := stepId_of_fresh (fresh_row w s)

@[simp] theorem dependsOn_row (w : Write) (s : FlowStep) :
    (Write.row now w s).dependsOn = s.dependsOn := dependsOn_of_fresh (fresh_row w s)

/-! ## Children of a map parent -/

/-- The row of the `i`-th child, before anything happened to it. -/
def childOf (p : FlowStep) (i : Nat) (item : Value) : FlowStep :=
  childRow p.cache
    { stepId := childId p.stepId i, scriptId := p.scriptId, input := item
      dependsOn := p.dependsOn }

/-- `c` is a child of the map step `p`. -/
def ChildOf (p c : FlowStep) : Prop :=
  p.mapRef ≠ none ∧ ∃ i item, fresh c = childOf p i item

theorem ChildOf.congr {p p' c c' : FlowStep} (h : ChildOf p c) (hp : fresh p' = fresh p)
    (hc : fresh c' = fresh c) : ChildOf p' c' := by
  obtain ⟨hmap, i, item, hchild⟩ := h
  have hstep := stepId_of_fresh hp
  have hdeps := dependsOn_of_fresh hp
  have hscript : p'.scriptId = p.scriptId := by
    simpa [fresh] using congrArg FlowStep.scriptId hp
  have hcache : p'.cache = p.cache := by
    simpa [fresh] using congrArg FlowStep.cache hp
  refine ⟨by rwa [mapRef_of_fresh hp], i, item, ?_⟩
  rw [hc, hchild]
  simp only [childOf, hstep, hdeps, hscript, hcache]

theorem ChildOf.stepId {p c : FlowStep} (h : ChildOf p c) :
    ∃ i, c.stepId = childId p.stepId i := by
  obtain ⟨_, i, item, hchild⟩ := h
  exact ⟨i, by simpa [fresh, childOf, childRow] using congrArg FlowStep.stepId hchild⟩

theorem ChildOf.dependsOn {p c : FlowStep} (h : ChildOf p c) :
    c.dependsOn = p.dependsOn := by
  obtain ⟨_, i, item, hchild⟩ := h
  simpa [fresh, childOf, childRow] using congrArg FlowStep.dependsOn hchild

theorem ChildOf.mapRef {p c : FlowStep} (h : ChildOf p c) : c.mapRef = none := by
  obtain ⟨_, i, item, hchild⟩ := h
  simpa [fresh, childOf, childRow] using congrArg FlowStep.mapRef hchild

/-- The rows of a fan-out, one for each element in order. -/
theorem rows_mapChildren (p : FlowStep) (items : List Value) :
    (mapChildren p items).map (childRow p.cache) =
      items.zipIdx.map fun x => childOf p x.2 x.1 := by
  simp [mapChildren, childOf, Function.comp_def]

/-- The children of one fan-out have distinct ids. -/
theorem nodup_mapChildren {p : FlowStep} (hp : '#' ∉ p.stepId.toList)
    (items : List Value) :
    (((mapChildren p items).map (childRow p.cache)).map FlowStep.stepId).Nodup := by
  have hids : ((mapChildren p items).map (childRow p.cache)).map FlowStep.stepId =
      (items.zipIdx.map Prod.snd).map (childId p.stepId) := by
    rw [rows_mapChildren, List.map_map, List.map_map]
    rfl
  rw [hids, List.zipIdx_map_snd]
  refine (List.nodup_range').map_on ?_
  intro i _ j _ hij
  exact (childId_inj hp hp hij).2

/-! ## The invariant -/

/-- Every dependency of the step is succeeded. -/
def ReadyDeps (steps : List FlowStep) (s : FlowStep) : Prop :=
  ∀ d ∈ s.dependsOn, ∃ t ∈ steps, t.stepId = d ∧ t.status = .succeeded

/-- The invariant of a ledger that grew out of `base`. -/
structure Ledger (base steps : List FlowStep) : Prop where
  nodup : (steps.map FlowStep.stepId).Nodup
  kept : ∀ b ∈ base, ∃ s ∈ steps, fresh s = b
  origin : ∀ s ∈ steps, fresh s ∈ base ∨
    ∃ p ∈ steps, fresh p ∈ base ∧ ChildOf p s ∧ p.status ≠ .pending ∧
      (s.status.active = true → p.status = .expanded)
  parent : ∀ p ∈ steps, p.status = .expanded →
    fresh p ∈ base ∧ ∃ c ∈ steps, ChildOf p c
  ordered : ∀ s ∈ steps, s.status.ran = true → ReadyDeps steps s

/-- What the statement `w` asks of the row `s` it names. -/
def LegalAt (base steps : List FlowStep) (s : FlowStep) : Write → Prop
  | .setRunning _ _ =>
      (s.status = .pending ∨ s.status = .running) ∧ s.mapRef = none ∧ ReadyDeps steps s
  | .finish _ status _ =>
      (status = .succeeded ∨ status = .failed) ∧ s.status.active = true ∧
        ReadyDeps steps s ∧ ∀ c ∈ steps, ChildOf s c → c.status.active = false
  | .skip _ => s.status = .pending
  | .expand _ children cache =>
      s.status = .pending ∧ fresh s ∈ base ∧ s.mapRef ≠ none ∧ ReadyDeps steps s ∧
        ∃ items, items ≠ [] ∧ fanoutWithinCap items.length = true ∧
          children = mapChildren s items ∧ cache = s.cache
  | .compensated _ => True

/-- The ledger allows the statement. -/
def Legal (base steps : List FlowStep) (w : Write) : Prop :=
  (∃ id, w = .compensated id) ∨ ∃ s ∈ steps, s.stepId = w.id ∧ LegalAt base steps s w

/-- No id of the base has a `#`. -/
def NoHash (base : List FlowStep) : Prop := ∀ b ∈ base, '#' ∉ b.stepId.toList

theorem NoHash.of_fresh (h : NoHash base) (hs : fresh s ∈ base) :
    '#' ∉ s.stepId.toList := by
  simpa [fresh] using h (fresh s) hs

/-- What a legal statement asks, of the row it names. -/
theorem Legal.target (hL : Ledger base steps) (hw : Legal base steps w)
    (hs : s ∈ steps) (hid : s.stepId = w.id) : LegalAt base steps s w := by
  rcases hw with ⟨id, rfl⟩ | ⟨t, ht, hid', hat⟩
  · trivial
  · obtain rfl := Rows.eq_of_key_eq hL.nodup hs ht (hid.trans hid'.symm)
    exact hat

/-- A map step is one of the base. -/
theorem Ledger.base_of_mapRef (hL : Ledger base steps) (hs : s ∈ steps)
    (hmap : s.mapRef ≠ none) : fresh s ∈ base := by
  rcases hL.origin s hs with h | ⟨p, _, _, hchild, _⟩
  · exact h
  · exact absurd hchild.mapRef hmap

/-- Two parents of one child are one row. -/
theorem Ledger.parent_unique (hL : Ledger base steps) (hbase : NoHash base)
    {p p' c : FlowStep} (hp : p ∈ steps) (hp' : p' ∈ steps) (h : ChildOf p c)
    (h' : ChildOf p' c) : p = p' := by
  obtain ⟨i, hi⟩ := h.stepId
  obtain ⟨j, hj⟩ := h'.stepId
  have hash := hbase.of_fresh (hL.base_of_mapRef hp h.1)
  have hash' := hbase.of_fresh (hL.base_of_mapRef hp' h'.1)
  obtain ⟨hid, _⟩ := childId_inj hash hash' (hi.symm.trans hj)
  exact Rows.eq_of_key_eq hL.nodup hp hp' hid

/-- A child is none of the base. -/
theorem ChildOf.not_base (hbase : NoHash base) {p c : FlowStep} (h : ChildOf p c) :
    fresh c ∉ base := by
  intro hc
  obtain ⟨i, hi⟩ := h.stepId
  have hash := hbase.of_fresh hc
  rw [hi] at hash
  exact hash (hash_mem_childId _ _)

/-! ## The rows after a legal statement -/

/-- The children of a pending map step are not there yet. -/
theorem Legal.rows_fresh (hL : Ledger base steps) (hbase : NoHash base)
    (hw : Legal base steps w) :
    ((Write.rows w).map FlowStep.stepId).Nodup ∧
      ∀ r ∈ Write.rows w, Rows.find FlowStep.stepId r.stepId steps = none := by
  cases w with
  | expand parent children cache =>
      obtain ⟨_, h⟩ | ⟨p, hp, hpid, hpend, hpb, hmap, _, items, _, _, rfl, rfl⟩ := hw
      · cases h
      have hash := hbase.of_fresh hpb
      refine ⟨nodup_mapChildren hash items, ?_⟩
      intro r hr
      rw [Write.rows, rows_mapChildren] at hr
      obtain ⟨x, _, rfl⟩ := List.mem_map.mp hr
      rw [Rows.find_eq_none]
      intro t ht hid
      have hid' : t.stepId = childId p.stepId x.2 := hid
      rcases hL.origin t ht with htb | ⟨p', hp', hpb', hchild, hnp, _⟩
      · have hash' := hbase.of_fresh htb
        rw [hid'] at hash'
        exact hash' (hash_mem_childId _ _)
      · obtain ⟨j, hj⟩ := hchild.stepId
        obtain ⟨heq, _⟩ := childId_inj (hbase.of_fresh hpb') hash (hj.symm.trans hid')
        obtain rfl := Rows.eq_of_key_eq hL.nodup hp' hp heq
        exact hnp hpend
  | setRunning id runId => exact ⟨List.nodup_nil, fun r hr => by cases hr⟩
  | finish id status output => exact ⟨List.nodup_nil, fun r hr => by cases hr⟩
  | skip id => exact ⟨List.nodup_nil, fun r hr => by cases hr⟩
  | compensated id => exact ⟨List.nodup_nil, fun r hr => by cases hr⟩

/-- The inserted rows are pending children of the statement's row. -/
theorem Legal.mem_rows (hw : Legal base steps w) (now : Nat) {r : FlowStep}
    (hr : r ∈ Write.rows w) :
    ∃ p ∈ steps, p.stepId = w.id ∧ fresh p ∈ base ∧ ChildOf p r ∧ r.status = .pending ∧
      (Write.row now w p).status = .expanded := by
  cases w with
  | expand parent children cache =>
      obtain ⟨_, h⟩ | ⟨p, hp, hpid, _, hpb, hmap, _, items, _, _, rfl, rfl⟩ := hw
      · cases h
      rw [Write.rows, rows_mapChildren] at hr
      obtain ⟨x, _, rfl⟩ := List.mem_map.mp hr
      exact ⟨p, hp, hpid, hpb, ⟨hmap, x.2, x.1, rfl⟩, rfl, rfl⟩
  | setRunning id runId => cases hr
  | finish id status output => cases hr
  | skip id => cases hr
  | compensated id => cases hr

/-- The ledger after a legal statement. -/
theorem apply_legal (hL : Ledger base steps) (hbase : NoHash base)
    (hw : Legal base steps w) :
    w.apply now steps =
      Rows.update FlowStep.stepId w.id (Write.row now w) (steps ++ Write.rows w) := by
  obtain ⟨hnd, hfresh⟩ := hw.rows_fresh hL hbase
  rw [apply_eq, Rows.foldl_insertNew_of_fresh hnd hfresh]

/-- **The rows after a legal statement**: the other rows, the row it names,
and the rows it inserts. -/
theorem mem_apply (hL : Ledger base steps) (hbase : NoHash base)
    (hw : Legal base steps w) :
    t ∈ w.apply now steps ↔
      (t ∈ steps ∧ t.stepId ≠ w.id) ∨
        (∃ s ∈ steps, s.stepId = w.id ∧ t = Write.row now w s) ∨ t ∈ Write.rows w := by
  rw [apply_legal hL hbase hw, Rows.update, List.mem_map]
  constructor
  · rintro ⟨s, hs, rfl⟩
    by_cases hid : s.stepId = w.id
    · rw [if_pos hid]
      rcases List.mem_append.mp hs with hs | hs
      · exact .inr (.inl ⟨s, hs, hid, rfl⟩)
      · obtain ⟨p, hp, hpid, hpb, hchild, _⟩ := hw.mem_rows now hs
        obtain ⟨i, hi⟩ := hchild.stepId
        have hash := hbase.of_fresh hpb
        rw [hpid, ← hid, hi] at hash
        exact absurd (hash_mem_childId _ _) hash
    · rw [if_neg hid]
      rcases List.mem_append.mp hs with hs | hs
      · exact .inl ⟨hs, hid⟩
      · exact .inr (.inr hs)
  · rintro (⟨ht, hid⟩ | ⟨s, hs, hid, rfl⟩ | ht)
    · exact ⟨t, List.mem_append_left _ ht, if_neg hid⟩
    · exact ⟨s, List.mem_append_left _ hs, if_pos hid⟩
    · refine ⟨t, List.mem_append_right _ ht, if_neg ?_⟩
      obtain ⟨p, hp, hpid, hpb, hchild, _⟩ := hw.mem_rows now ht
      obtain ⟨i, hi⟩ := hchild.stepId
      have hash := hbase.of_fresh hpb
      intro hid
      rw [hpid, ← hid, hi] at hash
      exact hash (hash_mem_childId _ _)

/-- A row another statement names stays. -/
theorem mem_apply_of_ne (hL : Ledger base steps) (hbase : NoHash base)
    (hw : Legal base steps w) (hs : s ∈ steps) (hne : s.stepId ≠ w.id) :
    s ∈ w.apply now steps :=
  (mem_apply hL hbase hw).mpr (.inl ⟨hs, hne⟩)

/-- Every row is still there, with its columns for life. -/
theorem exists_image (now : Nat) (hL : Ledger base steps) (hbase : NoHash base)
    (hw : Legal base steps w) (hs : s ∈ steps) :
    ∃ t ∈ w.apply now steps, fresh t = fresh s ∧
      (t = s ∨ s.stepId = w.id ∧ t = Write.row now w s) := by
  by_cases hid : s.stepId = w.id
  · exact ⟨_, (mem_apply hL hbase hw).mpr (.inr (.inl ⟨s, hs, hid, rfl⟩)),
      fresh_row w s, .inr ⟨hid, rfl⟩⟩
  · exact ⟨s, mem_apply_of_ne hL hbase hw hs hid, rfl, .inl rfl⟩

/-! ## Settled rows -/

/-- Succeeded and skipped rows keep their status and output. -/
def Settled (steps steps' : List FlowStep) : Prop :=
  ∀ s ∈ steps, s.status.settled = true →
    ∃ t ∈ steps', t.stepId = s.stepId ∧ t.status = s.status ∧ t.output = s.output

theorem Settled.refl (steps : List FlowStep) : Settled steps steps :=
  fun s hs _ => ⟨s, hs, rfl, rfl, rfl⟩

theorem Settled.trans {a b c : List FlowStep} (h : Settled a b) (h' : Settled b c) :
    Settled a c := by
  intro s hs hset
  obtain ⟨t, ht, hid, hstatus, hout⟩ := h s hs hset
  obtain ⟨u, hu, hid', hstatus', hout'⟩ := h' t ht (hstatus ▸ hset)
  exact ⟨u, hu, hid'.trans hid, hstatus'.trans hstatus, hout'.trans hout⟩

/-- The row a legal statement names is active, unless it is
`mark_step_compensated`. -/
theorem LegalAt.active (h : LegalAt base steps s w) :
    s.status.active = true ∨ ∃ id, w = .compensated id := by
  cases w with
  | setRunning id runId =>
      rcases h.1 with h | h
      · exact .inl (by rw [h]; rfl)
      · exact .inl (by rw [h]; rfl)
  | finish id status output => exact .inl h.2.1
  | skip id =>
      have hpend : s.status = .pending := h
      exact .inl (by rw [hpend]; rfl)
  | expand parent children cache => exact .inl (by rw [h.1]; rfl)
  | compensated id => exact .inr ⟨id, rfl⟩

theorem not_settled_of_active {st : StepStatus} (h : st.active = true) :
    st.settled = false := by
  cases st <;> first | rfl | cases h

/-- **Frame.**  A legal statement leaves succeeded and skipped rows alone. -/
theorem settled_write (now : Nat) (hL : Ledger base steps) (hbase : NoHash base)
    (hw : Legal base steps w) : Settled steps (w.apply now steps) := by
  intro s hs hset
  obtain ⟨t, ht, hfresh, heq | ⟨hid, heq⟩⟩ := exists_image now hL hbase hw hs
  · exact ⟨t, ht, by rw [heq], by rw [heq], by rw [heq]⟩
  · rcases (hw.target hL hs hid).active with hact | ⟨id, rfl⟩
    · rw [not_settled_of_active hact] at hset
      cases hset
    · exact ⟨t, ht, stepId_of_fresh hfresh, by rw [heq]; rfl, by rw [heq]; rfl⟩

theorem ReadyDeps.mono {steps' : List FlowStep} (h : ReadyDeps steps s)
    (hset : Settled steps steps') (hdeps : t.dependsOn = s.dependsOn) :
    ReadyDeps steps' t := by
  intro d hd
  obtain ⟨r, hr, hid, hstatus⟩ := h d (hdeps ▸ hd)
  obtain ⟨r', hr', hid', hstatus', _⟩ := hset r hr (by rw [hstatus]; rfl)
  exact ⟨r', hr', hid'.trans hid, hstatus'.trans hstatus⟩

/-! ## The invariant is kept -/

/-- What a legal statement may make of the status of its row. -/
theorem LegalAt.row_active (h : LegalAt base steps s w)
    (hact : (Write.row now w s).status.active = true) : s.status.active = true := by
  rcases h.active with h' | ⟨id, rfl⟩
  · exact h'
  · exact hact

theorem LegalAt.row_ran (h : LegalAt base steps s w) (hL : Ledger base steps)
    (hs : s ∈ steps) (hran : (Write.row now w s).status.ran = true) :
    ReadyDeps steps s := by
  cases w with
  | setRunning id runId => exact h.2.2
  | finish id status output => exact h.2.2.1
  | skip id => cases hran
  | expand parent children cache => exact h.2.2.2.1
  | compensated id => exact hL.ordered s hs hran

theorem LegalAt.row_not_pending (h : LegalAt base steps s w)
    (hs : s.status ≠ .pending) : (Write.row now w s).status ≠ .pending := by
  cases w with
  | setRunning id runId => exact fun h => by cases h
  | finish id status output =>
      intro hp
      have hp' : status = .pending := hp
      rcases h.1 with h | h
      · rw [h] at hp'
        cases hp'
      · rw [h] at hp'
        cases hp'
  | skip id => exact fun h => by cases h
  | expand parent children cache => exact fun h => by cases h
  | compensated id => exact hs

/-- A parent with an active child stays expanded. -/
theorem LegalAt.row_parent (h : LegalAt base steps s w) (hs : s.status = .expanded)
    {c : FlowStep} (hc : c ∈ steps) (hchild : ChildOf s c)
    (hact : c.status.active = true) : (Write.row now w s).status = .expanded := by
  cases w with
  | setRunning id runId =>
      rcases h.1 with h | h
      · rw [hs] at h
        cases h
      · rw [hs] at h
        cases h
  | finish id status output =>
      rw [h.2.2.2 c hc hchild] at hact
      cases hact
  | skip id =>
      have hpend : s.status = .pending := h
      rw [hs] at hpend
      cases hpend
  | expand parent children cache => rfl
  | compensated id => exact hs

/-- A row that is expanded after a legal statement was so before, or has just
been given its children. -/
theorem LegalAt.row_expanded (h : LegalAt base steps s w)
    (hexp : (Write.row now w s).status = .expanded) :
    s.status = .expanded ∨ fresh s ∈ base ∧ ∃ c ∈ Write.rows w, ChildOf s c := by
  cases w with
  | setRunning id runId => cases hexp
  | finish id status output =>
      have hexp' : status = .expanded := hexp
      rcases h.1 with h | h
      · rw [h] at hexp'
        cases hexp'
      · rw [h] at hexp'
        cases hexp'
  | skip id => cases hexp
  | expand parent children cache =>
      obtain ⟨_, hsb, hmap, _, items, hne, _, rfl, rfl⟩ := h
      cases items with
      | nil => exact absurd rfl hne
      | cons item items =>
          refine .inr ⟨hsb, childOf s 0 item, ?_, hmap, 0, item, rfl⟩
          rw [Write.rows, rows_mapChildren, List.zipIdx_cons, List.map_cons]
          exact List.mem_cons_self
  | compensated id => exact .inl hexp

/-- **A legal statement keeps the invariant.** -/
theorem Ledger.write (hL : Ledger base steps) (hbase : NoHash base)
    (hw : Legal base steps w) : Ledger base (w.apply now steps) := by
  have himage := fun {s} => exists_image (s := s) now hL hbase hw
  have hset := settled_write now hL hbase hw
  refine ⟨?_, ?_, ?_, ?_, ?_⟩
  · -- distinct ids
    obtain ⟨hnd, hfresh⟩ := hw.rows_fresh hL hbase
    rw [apply_legal hL hbase hw, Rows.map_update (stepId_row w), List.map_append]
    refine List.nodup_append.mpr ⟨hL.nodup, hnd, ?_⟩
    intro x hx y hy hxy
    obtain ⟨s, hs, rfl⟩ := List.mem_map.mp hx
    obtain ⟨r, hr, rfl⟩ := List.mem_map.mp hy
    exact Rows.find_eq_none.mp (hfresh r hr) s hs hxy
  · -- the base is still there
    intro b hb
    obtain ⟨s, hs, rfl⟩ := hL.kept b hb
    obtain ⟨t, ht, hfresh, _⟩ := himage hs
    exact ⟨t, ht, hfresh⟩
  · -- where a row comes from
    intro t ht
    have hold : ∀ s ∈ steps, fresh t = fresh s →
        (t.status.active = true → s.status.active = true) →
        fresh t ∈ base ∨ ∃ p ∈ w.apply now steps, fresh p ∈ base ∧ ChildOf p t ∧
          p.status ≠ .pending ∧ (t.status.active = true → p.status = .expanded) := by
      intro s hs hts hact
      rcases hL.origin s hs with hb | ⟨p, hp, hpb, hchild, hnp, hexp⟩
      · exact .inl (hts ▸ hb)
      · obtain ⟨p', hp', hfresh, hp'eq⟩ := himage hp
        refine .inr ⟨p', hp', hfresh ▸ hpb, hchild.congr hfresh hts, ?_, ?_⟩
        · rcases hp'eq with rfl | ⟨hid, rfl⟩
          · exact hnp
          · exact (hw.target hL hp hid).row_not_pending hnp
        · intro htact
          have hsact := hact htact
          rcases hp'eq with rfl | ⟨hid, rfl⟩
          · exact hexp hsact
          · exact (hw.target hL hp hid).row_parent (hexp hsact) hs hchild hsact
    rcases (mem_apply hL hbase hw).mp ht with ⟨ht, _⟩ | ⟨s, hs, hid, rfl⟩ | ht
    · exact hold t ht rfl id
    · exact hold s hs (fresh_row w s) (hw.target hL hs hid).row_active
    · obtain ⟨p, hp, hpid, hpb, hchild, hpend, hexp⟩ := hw.mem_rows now ht
      refine .inr ⟨Write.row now w p, ?_, ?_, ?_, ?_, fun _ => hexp⟩
      · exact (mem_apply hL hbase hw).mpr (.inr (.inl ⟨p, hp, hpid, rfl⟩))
      · rw [fresh_row]
        exact hpb
      · exact hchild.congr (fresh_row w p) rfl
      · rw [hexp]
        exact fun h => by cases h
  · -- expanded parents have children
    intro p hp hexp
    have hkids : ∀ s, fresh p = fresh s → fresh s ∈ base →
        (∃ c ∈ steps, ChildOf s c) → fresh p ∈ base ∧ ∃ c ∈ w.apply now steps, ChildOf p c := by
      rintro s hps hsb ⟨c, hc, hchild⟩
      obtain ⟨c', hc', hfresh, _⟩ := himage hc
      exact ⟨hps ▸ hsb, c', hc', hchild.congr hps hfresh⟩
    rcases (mem_apply hL hbase hw).mp hp with ⟨hp, _⟩ | ⟨s, hs, hid, rfl⟩ | hp
    · obtain ⟨hpb, hc⟩ := hL.parent p hp hexp
      exact hkids p rfl hpb hc
    · rcases (hw.target hL hs hid).row_expanded hexp with hsexp | ⟨hsb, c, hc, hchild⟩
      · obtain ⟨hsb, hc⟩ := hL.parent s hs hsexp
        exact hkids s (fresh_row w s) hsb hc
      · rw [fresh_row]
        exact ⟨hsb, c, (mem_apply hL hbase hw).mpr (.inr (.inr hc)),
          hchild.congr (fresh_row w s) rfl⟩
    · obtain ⟨_, _, _, _, _, hpend, _⟩ := hw.mem_rows now hp
      rw [hpend] at hexp
      cases hexp
  · -- what has begun has its dependencies
    intro t ht hran
    rcases (mem_apply hL hbase hw).mp ht with ⟨ht, _⟩ | ⟨s, hs, hid, rfl⟩ | ht
    · exact (hL.ordered t ht hran).mono hset rfl
    · exact ((hw.target hL hs hid).row_ran hL hs hran).mono hset (dependsOn_row w s)
    · obtain ⟨_, _, _, _, _, hpend, _⟩ := hw.mem_rows now ht
      rw [hpend] at hran
      cases hran

/-- **Legality survives a legal statement on another row.** -/
theorem Legal.frame (hL : Ledger base steps) (hbase : NoHash base)
    (hw : Legal base steps w) (hw' : Legal base steps w') (hne : w'.id ≠ w.id) :
    Legal base (w.apply now steps) w' := by
  have hset := settled_write now hL hbase hw
  rcases hw' with ⟨id, rfl⟩ | ⟨s, hs, hid, hat⟩
  · exact .inl ⟨id, rfl⟩
  · refine .inr ⟨s, mem_apply_of_ne hL hbase hw hs (hid ▸ hne), hid, ?_⟩
    cases w' with
    | setRunning id runId => exact ⟨hat.1, hat.2.1, hat.2.2.mono hset rfl⟩
    | finish id status output =>
        refine ⟨hat.1, hat.2.1, hat.2.2.1.mono hset rfl, ?_⟩
        intro c hc hchild
        rcases (mem_apply hL hbase hw).mp hc with ⟨hc, _⟩ | ⟨c₀, hc₀, hcid, rfl⟩ | hc
        · exact hat.2.2.2 c hc hchild
        · have hnot := hat.2.2.2 c₀ hc₀ (hchild.congr rfl (fresh_row w c₀).symm)
          rw [Bool.eq_false_iff]
          intro hact
          rw [(hw.target hL hc₀ hcid).row_active hact] at hnot
          cases hnot
        · -- a row inserted for another parent is no child of this one
          obtain ⟨p, hp, hpid, _, hchild', _⟩ := hw.mem_rows now hc
          obtain rfl := hL.parent_unique hbase hs hp hchild hchild'
          exact absurd (hid.symm.trans hpid) hne
    | skip id => exact hat
    | expand parent children cache =>
        obtain ⟨hpend, hsb, hmap, hdeps, hitems⟩ := hat
        exact ⟨hpend, hsb, hmap, hdeps.mono hset rfl, hitems⟩
    | compensated id => trivial

end Dokan.Ports.FlowLedger
