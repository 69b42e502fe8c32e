import Dokan.Ports.AgentQuota
import Dokan.Ports.ZonedTicker

/-!
# The ticks of a schedule

A tick of a schedule enqueues a run, or records a run that was refused by the
agent's quota, under a key made of the schedule and the scheduled second.
Every daemon that ticks the schedule does so on its own, at any time after the
second; the unique index on the key leaves one row.  The zoned ticker knows
the scheduled second.  A UTC callback reads it off the clock when it starts,
which is another second if it starts late.

The database answers a statement, fails it, or loses the answer.  Rows are
deleted by retention and with their script.

## Main results

* `TickInv.step` — what one statement of one callback preserves.
* `one_run_per_tick` — at most one row for each occurrence, as long as all
  callbacks for it read the same second and its row is kept.
* `not_one_run_per_tick` — two daemons, the second one late.
-/

namespace Dokan.Ports.CronTick

open Dokan.Verified
open Dokan.Verified.Json
open Dokan.Ports.RunRow
open Dokan.Ports.AgentQuota
open Dokan.Ports.ZonedTicker (nanos nanos_pos)

/-! ## A tick -/

/-- What a tick reads of a row of `schedules`. -/
structure Schedule where
  id : Int
  scriptId : Int
  input : Value
  agentId : Option String
  inputBlobs : Option Value
  captureOutput : Bool
  idempotency : Bool
  timezone : Option String

/-- `tick_key`. -/
def tickKey (scheduleId tickEpoch : Int) : String := s!"schedule:{scheduleId}:{tickEpoch}"

/-- The epoch a callback passes to `enqueue_tick`, when it starts `delay`
nanoseconds after the second it is scheduled for. -/
def Schedule.tickEpoch (s : Schedule) (occurrence : Int) (delay : Nat) : Int :=
  match s.timezone with
  | none => (occurrence * nanos + delay) / nanos
  | some _ => occurrence

/-- The point a call of `enqueue_tick` has reached. -/
inductive TickPc
  /-- before `quota::check` -/
  | check
  /-- before `insert_refused_run` -/
  | refuse (reason : String)
  /-- before the insert of the run -/
  | enqueue
  /-- before the `SELECT` of `insert_run_idempotent` after a conflict -/
  | readBack
  | done (created : Option Nat)

/-- A call of `enqueue_tick`. -/
structure Tick where
  occurrence : Int
  key : Option String
  pc : TickPc

def Tick.isDone (t : Tick) : Bool :=
  match t.pc with
  | .done _ => true
  | _ => false

/-- The call a callback makes. -/
def Schedule.enqueueTick (s : Schedule) (occurrence tickEpoch : Int) : Tick where
  occurrence
  key := if s.idempotency then some (tickKey s.id tickEpoch) else none
  pc := if s.agentId.isSome then .check else .enqueue

/-- The columns of the row. -/
def Schedule.newRun (s : Schedule) (key : Option String) : NewRun where
  scriptId := s.scriptId
  input := s.input
  agentId := s.agentId
  inputBlobs := s.inputBlobs
  captureOutput := s.captureOutput
  idempotencyKey := key

/-! ## The machine -/

/-- The answer to a statement. -/
inductive Reply
  | ok
  /-- what `quota::check` says -/
  | quota (answer : Option Refusal)
  /-- the statement failed and had no effect -/
  | err
  /-- it took effect, its answer was an error -/
  | lost

/-- The table `runs` and the calls for one schedule, of all daemons. -/
structure Ticks where
  now : Nat
  runs : List (Nat × Run)
  nextRun : Nat
  ticks : List Tick
  /-- occurrences, and the epochs callbacks for them have used -/
  used : List (Int × Int)
  /-- occurrences for which a row was inserted, with the row -/
  inserted : List (Int × Nat)
  /-- keys of deleted rows -/
  dropped : List (Option String)

/-- A row of this key is there. -/
def taken (runs : List (Nat × Run)) (key : Option String) : Bool :=
  key.isSome && runs.any fun r => r.2.idempotencyKey = key

/-- `INSERT … ON CONFLICT (idempotency_key) DO NOTHING`, and whether a row was
inserted. -/
def Ticks.insert (s : Ticks) (occurrence : Int) (row : Run) : Ticks × Bool :=
  if taken s.runs row.idempotencyKey then (s, false)
  else
    ({ s with
        runs := s.runs ++ [(s.nextRun, row)]
        nextRun := s.nextRun + 1
        inserted := (occurrence, s.nextRun) :: s.inserted }, true)

def Ticks.setTick (s : Ticks) (i : Nat) (t : Tick) : Ticks :=
  { s with ticks := s.ticks.set i t }

/-- The next statement of a call of `enqueue_tick`. -/
def Ticks.stepTick (sched : Schedule) (s : Ticks) (i : Nat) (t : Tick) (reply : Reply) :
    Option Ticks :=
  let goto (s : Ticks) (pc : TickPc) : Option Ticks := some (s.setTick i { t with pc })
  let row := insertRunWithBlobs s.now (sched.newRun t.key)
  match t.pc, reply with
  | .check, .quota none => goto s .enqueue
  | .check, .quota (some refusal) => goto s (.refuse refusal.reason)
  | .check, .err => goto s (.done none)
  | .refuse reason, .ok | .refuse reason, .lost =>
      goto (s.insert t.occurrence (insertRefusedRun s.now (sched.newRun t.key) reason)).1
        (.done none)
  | .refuse _, .err => goto s (.done none)
  | .enqueue, .ok =>
      let ins := s.insert t.occurrence row
      goto ins.1 (if ins.2 then .done (some s.nextRun) else .readBack)
  | .enqueue, .lost => goto (s.insert t.occurrence row).1 (.done none)
  | .enqueue, .err => goto s (.done none)
  | .readBack, .ok | .readBack, .err => goto s (.done none)
  | _, _ => none

inductive Label
  /-- time passes -/
  | wait (d : Nat)
  /-- a daemon's callback for the occurrence starts -/
  | fire (occurrence : Int) (delay : Nat)
  /-- the next statement of the `i`-th call -/
  | tick (i : Nat) (reply : Reply)
  /-- any other insert into `runs` -/
  | insert (row : Run)
  /-- `gc_old` or `delete_script` deletes the rows of these ids -/
  | delete (doomed : List Nat)

def step (sched : Schedule) (s : Ticks) : Label → Option Ticks
  | .wait d => some { s with now := s.now + d }
  | .fire occurrence delay =>
      let tickEpoch := sched.tickEpoch occurrence delay
      some { s with
        ticks := s.ticks ++ [sched.enqueueTick occurrence tickEpoch]
        used := (occurrence, tickEpoch) :: s.used }
  | .tick i reply =>
      match s.ticks[i]? with
      | some t => s.stepTick sched i t reply
      | none => none
  | .insert row =>
      if taken s.runs row.idempotencyKey then some s
      else some { s with runs := s.runs ++ [(s.nextRun, row)], nextRun := s.nextRun + 1 }
  | .delete doomed =>
      some { s with
        runs := s.runs.filter fun r => r.1 ∉ doomed
        dropped := (s.runs.filter fun r => r.1 ∈ doomed).map (fun r => r.2.idempotencyKey) ++
          s.dropped }

/-- No callback yet, on any table. -/
def start (now : Nat) (runs : List (Nat × Run)) (nextRun : Nat) : Ticks :=
  { now, runs, nextRun, ticks := [], used := [], inserted := [], dropped := [] }

/-- At most one row was inserted for each occurrence. -/
def OneRunPerTick (s : Ticks) : Prop := (s.inserted.map Prod.fst).Nodup

/-- The callbacks for one occurrence read one second, and the row of an
occurrence is kept until the last of them is done. -/
def TickCond (sched : Schedule) (s : Ticks) : Label → Prop
  | .fire occurrence delay =>
      (∀ u ∈ s.used, u.1 = occurrence → u.2 = sched.tickEpoch occurrence delay) ∧
        some (tickKey sched.id (sched.tickEpoch occurrence delay)) ∉ s.dropped
  | .delete doomed => ∀ t ∈ s.ticks, t.isDone = false →
      ∀ r ∈ s.runs, r.1 ∈ doomed → r.2.idempotencyKey ≠ t.key
  | _ => True

instance (sched : Schedule) (s : Ticks) : ∀ a, Decidable (TickCond sched s a)
  | .fire _ _ => inferInstanceAs (Decidable ((∀ u ∈ s.used, _) ∧ _))
  | .delete _ => inferInstanceAs (Decidable (∀ t ∈ s.ticks, _))
  | .wait _ => .isTrue trivial
  | .tick _ _ => .isTrue trivial
  | .insert _ => .isTrue trivial

/-! ## The invariant -/

section Invariant

variable {sched : Schedule} {s s' : Ticks}

/-- A call uses the key of an epoch that was used for its occurrence, and an
occurrence has one such epoch; the row inserted for it is still there or was
deleted, and no call that is not done has a deleted key. -/
structure TickInv (sched : Schedule) (s : Ticks) : Prop where
  keys : ∀ t ∈ s.ticks, ∃ e, (t.occurrence, e) ∈ s.used ∧ t.key = some (tickKey sched.id e)
  agree : ∀ o e e', (o, e) ∈ s.used → (o, e') ∈ s.used → e = e'
  rows : ∀ p ∈ s.inserted, ∃ e, (p.1, e) ∈ s.used ∧
    (taken s.runs (some (tickKey sched.id e)) = true ∨
      some (tickKey sched.id e) ∈ s.dropped)
  live : ∀ t ∈ s.ticks, t.isDone = false → t.key ∉ s.dropped
  once : OneRunPerTick s

theorem taken_append {runs : List (Nat × Run)} {key : Option String}
    (h : taken runs key = true) (r : Nat × Run) : taken (runs ++ [r]) key = true := by
  rw [taken, Bool.and_eq_true] at h ⊢
  exact ⟨h.1, by rw [List.any_append, h.2, Bool.true_or]⟩

theorem taken_self (runs : List (Nat × Run)) (id : Nat) (row : Run) {k : String}
    (hkey : row.idempotencyKey = some k) : taken (runs ++ [(id, row)]) (some k) = true := by
  simp [taken, hkey]

/-- An insert by a call that is not done: if its key is free, nothing was
inserted for its occurrence. -/
theorem TickInv.insert (hI : TickInv sched s) {t : Tick} (ht : t ∈ s.ticks)
    (hdone : t.isDone = false) {row : Run} (hkey : row.idempotencyKey = t.key) :
    TickInv sched (s.insert t.occurrence row).1 := by
  obtain ⟨e, he, hk⟩ := hI.keys t ht
  unfold Ticks.insert
  split_ifs with hfree
  · exact hI
  · rw [hkey, hk] at hfree
    have hfresh : t.occurrence ∉ s.inserted.map Prod.fst := by
      intro hmem
      obtain ⟨p, hp, hpo⟩ := List.mem_map.mp hmem
      obtain ⟨e', he', hrow⟩ := hI.rows p hp
      obtain rfl := hI.agree _ _ _ he (hpo ▸ he')
      rcases hrow with hrow | hdrop
      · exact hfree hrow
      · exact hI.live t ht hdone (hk ▸ hdrop)
    refine ⟨hI.keys, hI.agree, fun p hp => ?_, hI.live, ?_⟩
    · rcases List.mem_cons.mp hp with rfl | hp
      · exact ⟨e, he, .inl (taken_self _ _ _ (hkey.trans hk))⟩
      · obtain ⟨e', he', hrow⟩ := hI.rows p hp
        exact ⟨e', he', hrow.imp_left fun h => taken_append h _⟩
    · exact List.nodup_cons.mpr ⟨hfresh, hI.once⟩

/-- A call moves on. -/
theorem TickInv.setTick (hI : TickInv sched s) {i : Nat} {t t' : Tick} (ht : t ∈ s.ticks)
    (hocc : t'.occurrence = t.occurrence) (hkey : t'.key = t.key)
    (hdone : t'.isDone = false → t.isDone = false) : TickInv sched (s.setTick i t') := by
  refine ⟨fun u hu => ?_, hI.agree, hI.rows, fun u hu hud => ?_, hI.once⟩
  · rcases List.mem_or_eq_of_mem_set hu with hu | rfl
    · exact hI.keys u hu
    · rw [hocc, hkey]
      exact hI.keys t ht
  · rcases List.mem_or_eq_of_mem_set hu with hu | rfl
    · exact hI.live u hu hud
    · rw [hkey]
      exact hI.live t ht (hdone hud)

theorem ticks_insert (s : Ticks) (occurrence : Int) (row : Run) :
    (s.insert occurrence row).1.ticks = s.ticks := by
  unfold Ticks.insert
  split_ifs
  · rfl
  · rfl

/-- What a statement of a call may be: the call was not done, and moves on with
or without an insert under its key. -/
theorem stepTick_cases {i : Nat} {t : Tick} {reply : Reply}
    (h : s.stepTick sched i t reply = some s') :
    t.isDone = false ∧
      ((∃ pc, s' = s.setTick i { t with pc }) ∨
        ∃ row pc, row.idempotencyKey = t.key ∧
          s' = (s.insert t.occurrence row).1.setTick i { t with pc }) := by
  refine ⟨?_, ?_⟩
  · unfold Tick.isDone
    split
    · next hpc =>
        simp only [Ticks.stepTick, hpc] at h
        cases h
    · rfl
  · unfold Ticks.stepTick at h
    split at h
    · cases h
      exact .inl ⟨_, rfl⟩
    · cases h
      exact .inl ⟨_, rfl⟩
    · cases h
      exact .inl ⟨_, rfl⟩
    · cases h
      exact .inr ⟨_, _, rfl, rfl⟩
    · cases h
      exact .inr ⟨_, _, rfl, rfl⟩
    · cases h
      exact .inl ⟨_, rfl⟩
    · cases h
      exact .inr ⟨_, _, rfl, rfl⟩
    · cases h
      exact .inr ⟨_, _, rfl, rfl⟩
    · cases h
      exact .inl ⟨_, rfl⟩
    · cases h
      exact .inl ⟨_, rfl⟩
    · cases h
      exact .inl ⟨_, rfl⟩
    · cases h

/-- One statement of one call. -/
theorem TickInv.stepTick (hI : TickInv sched s) {i : Nat} {t : Tick} (ht : t ∈ s.ticks)
    {reply : Reply} (h : s.stepTick sched i t reply = some s') : TickInv sched s' := by
  obtain ⟨hdone, ⟨pc, rfl⟩ | ⟨row, pc, hkey, rfl⟩⟩ := stepTick_cases h
  · exact hI.setTick ht rfl rfl fun _ => hdone
  · have hmem : t ∈ (s.insert t.occurrence row).1.ticks := by
      rw [ticks_insert]
      exact ht
    exact (hI.insert ht hdone hkey).setTick hmem rfl rfl fun _ => hdone

/-- A callback starts. -/
theorem TickInv.fire (hI : TickInv sched s) (hidem : sched.idempotency = true)
    {occurrence : Int} {delay : Nat} (hC : TickCond sched s (.fire occurrence delay)) :
    TickInv sched { s with
      ticks := s.ticks ++ [sched.enqueueTick occurrence (sched.tickEpoch occurrence delay)]
      used := (occurrence, sched.tickEpoch occurrence delay) :: s.used } := by
  obtain ⟨hsame, hkept⟩ := hC
  have hkey : (sched.enqueueTick occurrence (sched.tickEpoch occurrence delay)).key =
      some (tickKey sched.id (sched.tickEpoch occurrence delay)) := if_pos hidem
  refine ⟨fun t ht => ?_, fun o e e' he he' => ?_, fun p hp => ?_, fun t ht hd => ?_, hI.once⟩
  · rcases List.mem_append.mp ht with ht | ht
    · obtain ⟨e, he, hk⟩ := hI.keys t ht
      exact ⟨e, List.mem_cons_of_mem _ he, hk⟩
    · rw [List.mem_singleton.mp ht]
      exact ⟨_, List.mem_cons_self, hkey⟩
  · rcases List.mem_cons.mp he with he | he
    · rcases List.mem_cons.mp he' with he' | he'
      · rw [(Prod.mk.inj he).2, (Prod.mk.inj he').2]
      · rw [(Prod.mk.inj he).2]
        exact (hsame _ he' (Prod.mk.inj he).1).symm
    · rcases List.mem_cons.mp he' with he' | he'
      · rw [(Prod.mk.inj he').2]
        exact hsame _ he (Prod.mk.inj he').1
      · exact hI.agree o e e' he he'
  · obtain ⟨e, he, hrow⟩ := hI.rows p hp
    exact ⟨e, List.mem_cons_of_mem _ he, hrow⟩
  · rcases List.mem_append.mp ht with ht | ht
    · exact hI.live t ht hd
    · rw [List.mem_singleton.mp ht, hkey]
      exact hkept

/-- Rows are deleted. -/
theorem TickInv.delete (hI : TickInv sched s) {doomed : List Nat}
    (hC : TickCond sched s (.delete doomed)) :
    TickInv sched { s with
      runs := s.runs.filter fun r => r.1 ∉ doomed
      dropped := (s.runs.filter fun r => r.1 ∈ doomed).map (fun r => r.2.idempotencyKey) ++
        s.dropped } := by
  refine ⟨hI.keys, hI.agree, fun p hp => ?_, fun t ht hd hmem => ?_, hI.once⟩
  · obtain ⟨e, he, hrow⟩ := hI.rows p hp
    refine ⟨e, he, ?_⟩
    rcases hrow with hrow | hdrop
    · rw [taken, Bool.and_eq_true, List.any_eq_true] at hrow
      obtain ⟨_, r, hr, hk⟩ := hrow
      have hk : r.2.idempotencyKey = some (tickKey sched.id e) := of_decide_eq_true hk
      by_cases hdoomed : r.1 ∈ doomed
      · refine .inr (List.mem_append_left _ (List.mem_map.mpr ⟨r, ?_, hk⟩))
        exact List.mem_filter.mpr ⟨hr, decide_eq_true hdoomed⟩
      · refine .inl ?_
        rw [taken, Bool.and_eq_true, List.any_eq_true]
        exact ⟨rfl, r, List.mem_filter.mpr ⟨hr, decide_eq_true hdoomed⟩, decide_eq_true hk⟩
    · exact .inr (List.mem_append_right _ hdrop)
  · rcases List.mem_append.mp hmem with hmem | hmem
    · obtain ⟨r, hr, hk⟩ := List.mem_map.mp hmem
      obtain ⟨hr, hdoomed⟩ := List.mem_filter.mp hr
      exact hC t ht hd r hr (of_decide_eq_true hdoomed) hk
    · exact hI.live t ht hd hmem

/-- **Every step under the condition.** -/
theorem TickInv.step (hidem : sched.idempotency = true) (hI : TickInv sched s) {a : Label}
    (hC : TickCond sched s a) (h : step sched s a = some s') : TickInv sched s' := by
  cases a with
  | wait d =>
      cases h
      exact ⟨hI.keys, hI.agree, hI.rows, hI.live, hI.once⟩
  | fire occurrence delay =>
      cases h
      exact hI.fire hidem hC
  | tick i reply =>
      simp only [CronTick.step] at h
      split at h
      · next t ht => exact hI.stepTick (List.mem_of_getElem? ht) h
      · cases h
  | insert row =>
      simp only [CronTick.step] at h
      split_ifs at h
      · cases h
        exact hI
      · cases h
        refine ⟨hI.keys, hI.agree, fun p hp => ?_, hI.live, hI.once⟩
        obtain ⟨e, he, hrow⟩ := hI.rows p hp
        exact ⟨e, he, hrow.imp_left fun h => taken_append h _⟩
  | delete doomed =>
      cases h
      exact hI.delete hC

theorem tickInv_start (sched : Schedule) (now : Nat) (runs : List (Nat × Run)) (nextRun : Nat) :
    TickInv sched (start now runs nextRun) := by
  refine ⟨fun t ht => (by cases ht), fun o e e' he => (by cases he), fun p hp => (by cases hp),
    fun t ht => (by cases ht), List.nodup_nil⟩

theorem tickInv_run (hidem : sched.idempotency = true) {now : Nat} {runs : List (Nat × Run)}
    {nextRun : Nat} {l : List Label}
    (hcond : Machine.Along (step sched) (TickCond sched) (start now runs nextRun) l)
    (hrun : Machine.run (step sched) (start now runs nextRun) l = some s) : TickInv sched s :=
  Machine.inv_run (fun _ _ _ hI hC h => hI.step hidem hC h) (tickInv_start sched now runs nextRun)
    hcond hrun

end Invariant

/-- **One run per tick.**  Along every run of any number of daemons' callbacks,
on any table: if the callbacks for an occurrence read the same second and its
row is kept until they are done, at most one row is inserted for it. -/
theorem one_run_per_tick (sched : Schedule) (hidem : sched.idempotency = true) (now : Nat)
    (runs : List (Nat × Run)) (nextRun : Nat) (l : List Label) (s : Ticks)
    (hcond : Machine.Along (step sched) (TickCond sched) (start now runs nextRun) l)
    (hrun : Machine.run (step sched) (start now runs nextRun) l = some s) :
    OneRunPerTick s :=
  (tickInv_run hidem hcond hrun).once

/-! ## Callbacks in time -/

/-- A callback that starts within its second, or of a zoned schedule, passes the
second it is scheduled for. -/
theorem tickEpoch_eq {sched : Schedule} {occurrence : Int} {delay : Nat}
    (h : sched.timezone.isSome ∨ (delay : Int) < nanos) :
    sched.tickEpoch occurrence delay = occurrence := by
  unfold Schedule.tickEpoch
  cases htz : sched.timezone with
  | some name => rfl
  | none =>
      rw [htz] at h
      have hlt : (delay : Int) < nanos := h.resolve_left (by simp)
      have hnonneg : (0 : Int) ≤ delay := Int.natCast_nonneg delay
      show (occurrence * nanos + delay) / nanos = occurrence
      rw [Int.add_comm, Int.add_mul_ediv_right _ _ (Int.ne_of_gt nanos_pos),
        Int.ediv_eq_zero_of_lt hnonneg hlt, Int.zero_add]

/-- The callback is in time, and no row is deleted. -/
def InTime (sched : Schedule) : Label → Prop
  | .fire _ delay => sched.timezone.isSome ∨ (delay : Int) < nanos
  | .delete _ => False
  | _ => True

/-- So the ticks of a zoned schedule, and those of a UTC schedule whose
callbacks are in time, meet the condition. -/
theorem one_run_per_tick_inTime (sched : Schedule) (hidem : sched.idempotency = true) (now : Nat)
    (runs : List (Nat × Run)) (nextRun : Nat) (l : List Label) (s : Ticks)
    (hin : ∀ a ∈ l, InTime sched a)
    (hrun : Machine.run (step sched) (start now runs nextRun) l = some s) :
    OneRunPerTick s := by
  -- the epochs used so far are the occurrences, and nothing was deleted
  have hcond : Machine.Along (step sched) (TickCond sched) (start now runs nextRun) l := by
    refine Machine.Along.of_inv (C := fun _ a => InTime sched a)
      (I := fun s : Ticks => (∀ u ∈ s.used, u.2 = u.1) ∧ s.dropped = []) ?_ ?_
      ⟨fun u hu => (by cases hu), rfl⟩ (Machine.along_of_forall hin)
    · rintro s a s' ⟨hused, hdropped⟩ ha h
      cases a with
      | wait d =>
          cases h
          exact ⟨hused, hdropped⟩
      | fire occurrence delay =>
          cases h
          refine ⟨fun u hu => ?_, hdropped⟩
          rcases List.mem_cons.mp hu with rfl | hu
          · exact tickEpoch_eq ha
          · exact hused u hu
      | tick i reply =>
          simp only [step] at h
          split at h
          · obtain ⟨_, ⟨pc, rfl⟩ | ⟨row, pc, _, rfl⟩⟩ := stepTick_cases h
            · exact ⟨hused, hdropped⟩
            · unfold Ticks.insert
              split_ifs
              · exact ⟨hused, hdropped⟩
              · exact ⟨hused, hdropped⟩
          · cases h
      | insert row =>
          simp only [step] at h
          split_ifs at h
          · cases h
            exact ⟨hused, hdropped⟩
          · cases h
            exact ⟨hused, hdropped⟩
      | delete doomed => exact ha.elim
    · rintro s a ⟨hused, hdropped⟩ ha
      cases a with
      | fire occurrence delay =>
          refine ⟨fun u hu ho => ?_, ?_⟩
          · rw [hused u hu, ho, tickEpoch_eq ha]
          · rw [hdropped]
            exact List.not_mem_nil
      | delete doomed => exact ha.elim
      | wait d => trivial
      | tick i reply => trivial
      | insert row => trivial
  exact (tickInv_run hidem hcond hrun).once

/-! ## A late callback -/

/-- A schedule of script 1 with `idempotency`. -/
def everySchedule (timezone : Option String) : Schedule where
  id := 7
  scriptId := 1
  input := .obj []
  agentId := none
  inputBlobs := none
  captureOutput := false
  idempotency := true
  timezone

/-- Two daemons tick second 100; the first starts half a second after it, the
second one so many nanoseconds. -/
def twoDaemons (delay : Nat) : List Label :=
  [ .fire 100 500000000, .tick 0 .ok, .fire 100 delay, .tick 1 .ok ]

def runTicks (timezone : Option String) (l : List Label) : Option Ticks :=
  Machine.run (step (everySchedule timezone)) (start 0 [] 0) l

/-- The second daemon starts 1.2 seconds after the scheduled one, under the key
of the next second, and enqueues the tick again. -/
theorem not_one_run_per_tick :
    ∃ s, runTicks none (twoDaemons 1200000000) = some s ∧ ¬ OneRunPerTick s := by
  refine ⟨_, rfl, ?_⟩
  unfold OneRunPerTick
  decide

/-- `one_run_per_tick` with the second daemon 0.9 seconds after it. -/
theorem one_run_per_tick_twoDaemons :
    ∃ s, runTicks none (twoDaemons 900000000) = some s ∧
      s.inserted.map Prod.fst = [100] ∧ OneRunPerTick s := by
  have hcond : Machine.Along (step (everySchedule none)) (TickCond (everySchedule none))
      (start 0 [] 0) (twoDaemons 900000000) := by decide
  exact ⟨_, rfl, by decide,
    one_run_per_tick (everySchedule none) rfl 0 [] 0 (twoDaemons 900000000) _ hcond rfl⟩

end Dokan.Ports.CronTick
