import Dokan.Verified.Machine

/-!
# Schedules and the daemons that tick them

The rows of `schedules` are shared; tickers are not.  A daemon has a ticker for
every schedule that was enabled when it read the table in `Cron::start`, and
for those it was asked to `schedule` itself.  `unschedule` stops the ticker of
the daemon that serves the call and clears the flag, which nobody reads again
before the next boot; `enqueue_tick` does not look at it.

What a tick does in detail is left open here: it inserts a row or does not.

## Main results

* `DaemonInv.step` — no ticker for a schedule that has been unscheduled.
* `unschedule_effective` — after the call has returned no tick started later
  inserts a row, if no other daemon has a ticker or is about to have one.
* `late_tick` — and with a ticker left, one can.
* `not_unschedule_effective` — two daemons.
-/

namespace Dokan.Ports.CronDaemons

open Dokan.Verified

abbrev Daemon := Nat
abbrev ScheduleId := Nat

/-! ## The machine -/

/-- The point a call of `schedule` or `unschedule` has reached. -/
inductive CallPc
  /-- `schedule`: the row is inserted, before `get_schedule` -/
  | read
  /-- before `cron.add` -/
  | add
  /-- `cron.add` failed, before `set_schedule_enabled` -/
  | abandon
  /-- `unschedule`: before the ticker is taken and stopped -/
  | stop
  /-- before `set_schedule_enabled` -/
  | disable
  /-- before the answer, with whether there was a row -/
  | respond (removed : Bool)
  | ended
deriving DecidableEq

/-- The call is a `schedule` that may still add a ticker. -/
def CallPc.adds : CallPc → Bool
  | .read | .add => true
  | _ => false

/-- What `unschedule` is about to answer: whether there was a row. -/
def CallPc.answer? : CallPc → Option Bool
  | .respond removed => some removed
  | _ => none

structure Call where
  daemon : Daemon
  schedule : ScheduleId
  pc : CallPc

/-- A call of `enqueue_tick`; `late` if it started after an `unschedule` of the
schedule had returned. -/
structure Tick where
  daemon : Daemon
  schedule : ScheduleId
  late : Bool
  ended : Bool

/-- The database and the daemons. -/
structure Daemons where
  /-- ids below this one have been given out -/
  nextSchedule : ScheduleId
  /-- rows of `schedules` with `enabled` -/
  enabled : List ScheduleId
  up : List Daemon
  /-- what `Cron::start` has read and not added yet, in order -/
  starting : List (Daemon × ScheduleId)
  /-- tickers that may still tick -/
  live : List (Daemon × ScheduleId)
  /-- `Cron::jobs` -/
  jobs : List (Daemon × ScheduleId)
  calls : List Call
  ticks : List Tick
  /-- schedules an `unschedule` call has returned for -/
  returned : List ScheduleId
  /-- ticks that inserted a row -/
  inserted : List Tick

def init : Daemons where
  nextSchedule := 0
  enabled := []
  up := []
  starting := []
  live := []
  jobs := []
  calls := []
  ticks := []
  returned := []
  inserted := []

inductive Label
  /-- `Cron::start` reads `enabled_schedules` -/
  | boot (d : Daemon)
  /-- and adds the next of them, or skips it -/
  | add (d : Daemon) (ok : Bool)
  /-- `schedule` inserts its row -/
  | schedule (d : Daemon)
  | unschedule (d : Daemon) (id : ScheduleId)
  /-- the next statement of the `c`-th call; not `ok`: it fails -/
  | call (c : Nat) (ok : Bool)
  /-- a ticker comes to a tick -/
  | tick (d : Daemon) (id : ScheduleId)
  /-- the `t`-th call of `enqueue_tick` ends, with a row inserted or without -/
  | finish (t : Nat) (inserts : Bool)
  | crash (d : Daemon)

/-- `Cron::add`, the ticker. -/
def Daemons.start (s : Daemons) (d : Daemon) (id : ScheduleId) : Daemons :=
  { s with live := (d, id) :: s.live, jobs := (d, id) :: s.jobs }

/-- `Cron::remove`, the ticker: what is in `jobs` is taken out and stopped; the
scheduler may fail to. -/
def Daemons.stop (s : Daemons) (d : Daemon) (id : ScheduleId) (ok : Bool) : Daemons :=
  if (d, id) ∈ s.jobs then
    { s with
      jobs := s.jobs.filter (· ≠ (d, id))
      live := if ok then s.live.filter (· ≠ (d, id)) else s.live }
  else s

/-- `Db::set_schedule_enabled` with false. -/
def Daemons.disable (s : Daemons) (id : ScheduleId) : Daemons :=
  { s with enabled := s.enabled.filter (· ≠ id) }

def Daemons.setCall (s : Daemons) (c : Nat) (call : Call) : Daemons :=
  { s with calls := s.calls.set c call }

/-- The next statement of a call. -/
def Daemons.stepCall (s : Daemons) (c : Nat) (call : Call) (ok : Bool) : Option Daemons :=
  let goto (s : Daemons) (pc : CallPc) : Option Daemons := some (s.setCall c { call with pc })
  match call.pc with
  | .read => if ok then goto s .add else goto s .ended
  | .add =>
      if ok then goto (s.start call.daemon call.schedule) .ended
      else goto s .abandon
  | .abandon => if ok then goto (s.disable call.schedule) .ended else goto s .ended
  | .stop => goto (s.stop call.daemon call.schedule ok) .disable
  | .disable =>
      if ok then goto (s.disable call.schedule) (.respond (call.schedule < s.nextSchedule))
      else goto s .ended
  | .respond _ => goto { s with returned := call.schedule :: s.returned } .ended
  | .ended => none

def step (s : Daemons) : Label → Option Daemons
  | .boot d =>
      if d ∈ s.up then none
      else some { s with
        up := d :: s.up
        starting := s.starting ++ s.enabled.map fun id => (d, id) }
  | .add d ok =>
      match s.starting.find? fun p => p.1 = d with
      | none => none
      | some p =>
          let s := { s with starting := s.starting.erase p }
          some (if ok then s.start d p.2 else s)
  | .schedule d =>
      if d ∈ s.up then
        some { s with
          nextSchedule := s.nextSchedule + 1
          enabled := s.nextSchedule :: s.enabled
          calls := s.calls ++ [{ daemon := d, schedule := s.nextSchedule, pc := .read }] }
      else none
  | .unschedule d id =>
      if d ∈ s.up then
        some { s with calls := s.calls ++ [{ daemon := d, schedule := id, pc := .stop }] }
      else none
  | .call c ok =>
      match s.calls[c]? with
      | none => none
      | some call => s.stepCall c call ok
  | .tick d id =>
      if (d, id) ∈ s.live then
        some { s with
          ticks := s.ticks ++
            [{ daemon := d, schedule := id, late := id ∈ s.returned, ended := false }] }
      else none
  | .finish t inserts =>
      match s.ticks[t]? with
      | none => none
      | some tick =>
          if tick.ended then none
          else some { s with
            ticks := s.ticks.set t { tick with ended := true }
            inserted := if inserts then tick :: s.inserted else s.inserted }
  | .crash d =>
      if d ∈ s.up then
        some { s with
          up := s.up.filter (· ≠ d)
          starting := s.starting.filter (·.1 ≠ d)
          live := s.live.filter (·.1 ≠ d)
          jobs := s.jobs.filter (·.1 ≠ d)
          calls := s.calls.map fun c => if c.daemon = d then { c with pc := .ended } else c
          ticks := s.ticks.map fun t => if t.daemon = d then { t with ended := true } else t }
      else none

/-- No row was inserted by a tick that started after an `unschedule` of its
schedule had returned. -/
def Effective (s : Daemons) : Prop := ∀ t ∈ s.inserted, t.late = false

/-- No daemon has a ticker for the schedule or is about to add one. -/
structure Quiet (s : Daemons) (id : ScheduleId) : Prop where
  live : ∀ p ∈ s.live, p.2 ≠ id
  starting : ∀ p ∈ s.starting, p.2 ≠ id
  adding : ∀ c ∈ s.calls, c.pc.adds → c.schedule ≠ id

/-- When `unschedule` returns there was a row, and the schedule is quiet. -/
def UnscheduleCond (s : Daemons) : Label → Prop
  | .call c _ => ∀ call ∈ s.calls[c]?, ∀ removed ∈ call.pc.answer?,
      removed = true ∧ Quiet s call.schedule
  | _ => True

instance (s : Daemons) : Decidable (Effective s) :=
  inferInstanceAs (Decidable (∀ t ∈ s.inserted, t.late = false))

instance (s : Daemons) (id : ScheduleId) : Decidable (Quiet s id) :=
  decidable_of_iff ((∀ p ∈ s.live, p.2 ≠ id) ∧ (∀ p ∈ s.starting, p.2 ≠ id) ∧
      ∀ c ∈ s.calls, c.pc.adds → c.schedule ≠ id)
    ⟨fun h => ⟨h.1, h.2.1, h.2.2⟩, fun h => ⟨h.live, h.starting, h.adding⟩⟩

instance (s : Daemons) : (a : Label) → Decidable (UnscheduleCond s a)
  | .call c _ => inferInstanceAs (Decidable (∀ call ∈ s.calls[c]?,
      ∀ removed ∈ call.pc.answer?, removed = true ∧ Quiet s call.schedule))
  | .boot _ | .add _ _ | .schedule _ | .unschedule _ _ | .tick _ _ | .finish _ _ | .crash _ =>
      .isTrue trivial

/-! ## The invariant -/

section Invariant

variable {s s' : Daemons} {id : ScheduleId}

/-- The schedule has been given out and disabled, and stays quiet. -/
structure Gone (s : Daemons) (id : ScheduleId) : Prop where
  given : id < s.nextSchedule
  disabled : id ∉ s.enabled
  quiet : Quiet s id

structure DaemonInv (s : Daemons) : Prop where
  disabled : ∀ c ∈ s.calls, c.pc = .respond true →
    c.schedule < s.nextSchedule ∧ c.schedule ∉ s.enabled
  gone : ∀ id ∈ s.returned, Gone s id
  ticks : ∀ t ∈ s.ticks, t.late = false
  effective : Effective s

/-- A step that adds no row, no ticker and no call leaves a schedule gone. -/
theorem Gone.mono (h : Gone s id) (hnext : s.nextSchedule ≤ s'.nextSchedule)
    (henabled : ∀ i ∈ s'.enabled, i ∈ s.enabled ∨ s.nextSchedule ≤ i)
    (hlive : ∀ p ∈ s'.live, p ∈ s.live ∨ p.2 ≠ id)
    (hstarting : ∀ p ∈ s'.starting, p ∈ s.starting ∨ p.2 ∈ s.enabled)
    (hcalls : ∀ c ∈ s'.calls, c.pc.adds →
      (∃ c' ∈ s.calls, c'.pc.adds ∧ c'.schedule = c.schedule) ∨ s.nextSchedule ≤ c.schedule) :
    Gone s' id := by
  refine ⟨Nat.lt_of_lt_of_le h.given hnext, fun hmem => ?_, ⟨fun p hp => ?_, fun p hp => ?_,
    fun c hc hpc => ?_⟩⟩
  · rcases henabled id hmem with hold | hle
    · exact h.disabled hold
    · exact absurd h.given (Nat.not_lt.mpr hle)
  · rcases hlive p hp with hold | hne
    · exact h.quiet.live p hold
    · exact hne
  · rcases hstarting p hp with hold | hold
    · exact h.quiet.starting p hold
    · exact fun heq => h.disabled (heq ▸ hold)
  · rcases hcalls c hc hpc with ⟨c', hc', hadds, heq⟩ | hle
    · exact heq ▸ h.quiet.adding c' hc' hadds
    · exact fun heq => absurd h.given (Nat.not_lt.mpr (heq ▸ hle))

/-- The call was there before the step, as far as adding and answering go. -/
structure Call.Kept (s s' : Daemons) (c : Call) : Prop where
  adds : c.pc.adds →
    (∃ c' ∈ s.calls, c'.pc.adds ∧ c'.schedule = c.schedule) ∨ s.nextSchedule ≤ c.schedule
  responds : c.pc = .respond true →
    c ∈ s.calls ∨ c.schedule < s'.nextSchedule ∧ c.schedule ∉ s'.enabled

theorem Call.kept_of_mem {c : Call} (hc : c ∈ s.calls) : c.Kept s s' :=
  ⟨fun hadds => .inl ⟨c, hc, hadds, rfl⟩, fun _ => .inl hc⟩

/-- A call that moves on, not to an answer. -/
theorem Call.kept_of_set {c : Nat} {call : Call} (hcall : call ∈ s.calls) {pc : CallPc}
    (hadds : pc.adds → call.pc.adds) (hresponds : pc ≠ .respond true) :
    ∀ c' ∈ s.calls.set c { call with pc }, c'.Kept s s' := by
  intro c' hc'
  rcases List.mem_or_eq_of_mem_set hc' with hc' | rfl
  · exact Call.kept_of_mem hc'
  · exact ⟨fun h => .inl ⟨call, hcall, hadds h, rfl⟩, fun h => absurd h hresponds⟩

/-- A step that gives nobody a ticker who is not about to have one anyway. -/
theorem DaemonInv.mono (hI : DaemonInv s) (hnext : s.nextSchedule ≤ s'.nextSchedule)
    (henabled : ∀ i ∈ s'.enabled, i ∈ s.enabled ∨ s.nextSchedule ≤ i)
    (hlive : ∀ p ∈ s'.live, p ∈ s.live ∨ p ∈ s.starting ∨
      ∃ c ∈ s.calls, c.pc.adds ∧ c.schedule = p.2)
    (hstarting : ∀ p ∈ s'.starting, p ∈ s.starting ∨ p.2 ∈ s.enabled)
    (hcalls : ∀ c ∈ s'.calls, c.Kept s s')
    (hreturned : ∀ i ∈ s'.returned, i ∈ s.returned ∨ Gone s i)
    (hticks : ∀ t ∈ s'.ticks, t.late = false) (hinserted : ∀ t ∈ s'.inserted, t.late = false) :
    DaemonInv s' := by
  have hgone : ∀ i, Gone s i → Gone s' i := by
    intro i hg
    refine hg.mono hnext henabled (fun p hp => ?_) hstarting fun c hc => (hcalls c hc).adds
    rcases hlive p hp with hold | hold | ⟨c, hc, hadds, heq⟩
    · exact .inl hold
    · exact .inr (hg.quiet.starting p hold)
    · exact .inr (heq ▸ hg.quiet.adding c hc hadds)
  refine ⟨fun c hc hpc => ?_, fun i hi => ?_, hticks, hinserted⟩
  · rcases (hcalls c hc).responds hpc with hold | hnew
    · obtain ⟨hlt, hnot⟩ := hI.disabled c hold hpc
      refine ⟨Nat.lt_of_lt_of_le hlt hnext, fun hmem => ?_⟩
      rcases henabled _ hmem with hold | hle
      · exact hnot hold
      · exact absurd hlt (Nat.not_lt.mpr hle)
    · exact hnew
  · rcases hreturned i hi with hold | hg
    · exact hgone i (hI.gone i hold)
    · exact hgone i hg

/-- A call moves on, and nothing else happens. -/
theorem DaemonInv.setCall (hI : DaemonInv s) {c : Nat} {call : Call}
    (hcalls : ∀ c' ∈ s.calls.set c call, c'.Kept s (s.setCall c call)) :
    DaemonInv (s.setCall c call) :=
  hI.mono (Nat.le_refl _) (fun _ hi => .inl hi) (fun _ hp => .inl hp) (fun _ hp => .inl hp)
    hcalls (fun _ hi => .inl hi) hI.ticks hI.effective

/-- The flag of a schedule is cleared. -/
theorem DaemonInv.disable (hI : DaemonInv s) {c : Nat} {call : Call} {id : ScheduleId}
    (hcalls : ∀ c' ∈ s.calls.set c call, c'.Kept s ((s.disable id).setCall c call)) :
    DaemonInv ((s.disable id).setCall c call) :=
  hI.mono (Nat.le_refl _) (fun _ hi => .inl (List.mem_filter.mp hi).1) (fun _ hp => .inl hp)
    (fun _ hp => .inl hp) hcalls (fun _ hi => .inl hi) hI.ticks hI.effective

/-- One statement of a call. -/
theorem DaemonInv.stepCall (hI : DaemonInv s) {c : Nat} {call : Call} {ok : Bool}
    (hcall : s.calls[c]? = some call) (hC : UnscheduleCond s (.call c ok))
    (h : s.stepCall c call ok = some s') : DaemonInv s' := by
  have hmem : call ∈ s.calls := List.mem_of_getElem? hcall
  -- the calls after it, for every point it moves to that is no answer
  have hset : ∀ (s₁ : Daemons) (pc : CallPc), (pc.adds → call.pc.adds) → pc ≠ .respond true →
      ∀ c' ∈ s.calls.set c { call with pc }, c'.Kept s s₁ := fun _ _ hadds hresponds =>
    Call.kept_of_set hmem hadds hresponds
  have hended : ∀ s₁, ∀ c' ∈ s.calls.set c { call with pc := .ended }, c'.Kept s s₁ :=
    fun s₁ => hset s₁ .ended (fun h => by cases h) (fun h => by cases h)
  unfold Daemons.stepCall at h
  cases hpc : call.pc with
  | read =>
      have hadds : call.pc.adds := by rw [hpc]; rfl
      simp only [hpc] at h
      split_ifs at h
      · cases h
        exact hI.setCall (hset _ .add (fun _ => hadds) (fun h => by cases h))
      · cases h
        exact hI.setCall (hended _)
  | add =>
      have hadds : call.pc.adds := by rw [hpc]; rfl
      simp only [hpc] at h
      split_ifs at h
      · cases h
        refine hI.mono (Nat.le_refl _) (fun i hi => .inl hi) (fun p hp => ?_)
          (fun p hp => .inl hp) (hended _) (fun i hi => .inl hi) hI.ticks hI.effective
        rcases List.mem_cons.mp hp with rfl | hp
        · exact .inr (.inr ⟨call, hmem, hadds, rfl⟩)
        · exact .inl hp
      · cases h
        exact hI.setCall (hset _ .abandon (fun _ => hadds) (fun h => by cases h))
  | abandon =>
      simp only [hpc] at h
      split_ifs at h
      · cases h
        exact hI.disable (hended _)
      · cases h
        exact hI.setCall (hended _)
  | stop =>
      simp only [hpc] at h
      cases h
      have hcalls := hset ((s.stop call.daemon call.schedule ok).setCall c
        { call with pc := .disable }) .disable (fun h => by cases h) (fun h => by cases h)
      unfold Daemons.stop at hcalls ⊢
      split_ifs at hcalls ⊢
      · exact hI.mono (Nat.le_refl _) (fun i hi => .inl hi)
          (fun p hp => .inl (List.mem_filter.mp hp).1) (fun p hp => .inl hp) hcalls
          (fun i hi => .inl hi) hI.ticks hI.effective
      · exact hI.mono (Nat.le_refl _) (fun i hi => .inl hi) (fun p hp => .inl hp)
          (fun p hp => .inl hp) hcalls (fun i hi => .inl hi) hI.ticks hI.effective
      · exact hI.setCall hcalls
  | disable =>
      simp only [hpc] at h
      split_ifs at h
      · cases h
        refine hI.disable fun c' hc' => ?_
        rcases List.mem_or_eq_of_mem_set hc' with hc' | rfl
        · exact Call.kept_of_mem hc'
        · refine ⟨(fun h => by cases h), fun hr => .inr ⟨?_, ?_⟩⟩
          · injection hr with hr
            exact of_decide_eq_true hr
          · intro hi
            have hne := (List.mem_filter.mp hi).2
            simp at hne
      · cases h
        exact hI.setCall (hended _)
  | respond removed =>
      simp only [hpc] at h
      cases h
      obtain ⟨rfl, hquiet⟩ := hC call hcall removed (by rw [hpc]; rfl)
      obtain ⟨hlt, hnot⟩ := hI.disabled call hmem hpc
      refine hI.mono (Nat.le_refl _) (fun i hi => .inl hi) (fun p hp => .inl hp)
        (fun p hp => .inl hp) (hended _) (fun i hi => ?_) hI.ticks hI.effective
      rcases List.mem_cons.mp hi with rfl | hi
      · exact .inr ⟨hlt, hnot, hquiet⟩
      · exact .inl hi
  | ended =>
      simp only [hpc] at h
      cases h

/-- **Every step under the condition**: a schedule that has been unscheduled has
no ticker and gets none. -/
theorem DaemonInv.step {a : Label} (hI : DaemonInv s) (hC : UnscheduleCond s a)
    (h : step s a = some s') : DaemonInv s' := by
  have hold : ∀ c ∈ s.calls, c.Kept s s' := fun c hc => Call.kept_of_mem hc
  cases a with
  | boot d =>
      simp only [CronDaemons.step] at h
      split_ifs at h
      cases h
      refine hI.mono (Nat.le_refl _) (fun i hi => .inl hi) (fun p hp => .inl hp) (fun p hp => ?_)
        hold (fun i hi => .inl hi) hI.ticks hI.effective
      rcases List.mem_append.mp hp with hp | hp
      · exact .inl hp
      · obtain ⟨i, hi, rfl⟩ := List.mem_map.mp hp
        exact .inr hi
  | add d ok =>
      simp only [CronDaemons.step] at h
      split at h
      · cases h
      · next p hp =>
          cases h
          have hmem : p ∈ s.starting := List.mem_of_find?_eq_some hp
          have hd : p.1 = d := by simpa using List.find?_some hp
          cases ok with
          | true =>
              refine hI.mono (Nat.le_refl _) (fun i hi => .inl hi) (fun q hq => ?_)
                (fun q hq => .inl (List.mem_of_mem_erase hq)) hold (fun i hi => .inl hi)
                hI.ticks hI.effective
              rcases List.mem_cons.mp hq with rfl | hq
              · refine .inr (.inl ?_)
                rw [← hd]
                exact hmem
              · exact .inl hq
          | false =>
              exact hI.mono (Nat.le_refl _) (fun i hi => .inl hi) (fun q hq => .inl hq)
                (fun q hq => .inl (List.mem_of_mem_erase hq)) hold (fun i hi => .inl hi)
                hI.ticks hI.effective
  | schedule d =>
      simp only [CronDaemons.step] at h
      split_ifs at h
      cases h
      refine hI.mono (Nat.le_succ _) (fun i hi => ?_) (fun p hp => .inl hp) (fun p hp => .inl hp)
        (fun c hc => ?_) (fun i hi => .inl hi) hI.ticks hI.effective
      · rcases List.mem_cons.mp hi with rfl | hi
        · exact .inr (Nat.le_refl _)
        · exact .inl hi
      · rcases List.mem_append.mp hc with hc | hc
        · exact Call.kept_of_mem hc
        · rw [List.mem_singleton.mp hc]
          exact ⟨fun _ => .inr (Nat.le_refl _), (fun h => by cases h)⟩
  | unschedule d id =>
      simp only [CronDaemons.step] at h
      split_ifs at h
      cases h
      refine hI.mono (Nat.le_refl _) (fun i hi => .inl hi) (fun p hp => .inl hp)
        (fun p hp => .inl hp) (fun c hc => ?_) (fun i hi => .inl hi) hI.ticks hI.effective
      rcases List.mem_append.mp hc with hc | hc
      · exact Call.kept_of_mem hc
      · rw [List.mem_singleton.mp hc]
        exact ⟨(fun h => by cases h), (fun h => by cases h)⟩
  | call c ok =>
      simp only [CronDaemons.step] at h
      split at h
      · cases h
      · next call hcall => exact hI.stepCall hcall hC h
  | tick d id =>
      simp only [CronDaemons.step] at h
      split_ifs at h with hlive
      cases h
      refine hI.mono (Nat.le_refl _) (fun i hi => .inl hi) (fun p hp => .inl hp)
        (fun p hp => .inl hp) hold (fun i hi => .inl hi) (fun t ht => ?_) hI.effective
      rcases List.mem_append.mp ht with ht | ht
      · exact hI.ticks t ht
      · rw [List.mem_singleton.mp ht]
        refine decide_eq_false fun hret => ?_
        exact (hI.gone id hret).quiet.live _ hlive rfl
  | finish t inserts =>
      simp only [CronDaemons.step] at h
      split at h
      · cases h
      · next tick htick =>
          have hlate := hI.ticks tick (List.mem_of_getElem? htick)
          have hset : ∀ u ∈ s.ticks.set t { tick with ended := true }, u.late = false := by
            intro u hu
            rcases List.mem_or_eq_of_mem_set hu with hu | rfl
            · exact hI.ticks u hu
            · exact hlate
          by_cases hover : tick.ended
          · rw [if_pos hover] at h
            cases h
          rw [if_neg hover] at h
          cases h
          refine hI.mono (Nat.le_refl _) (fun i hi => .inl hi) (fun p hp => .inl hp)
            (fun p hp => .inl hp) hold (fun i hi => .inl hi) hset (fun u hu => ?_)
          cases inserts with
          | true =>
              rcases List.mem_cons.mp hu with rfl | hu
              · exact hlate
              · exact hI.effective u hu
          | false => exact hI.effective u hu
  | crash d =>
      simp only [CronDaemons.step] at h
      split_ifs at h
      cases h
      refine hI.mono (Nat.le_refl _) (fun i hi => .inl hi)
        (fun p hp => .inl (List.mem_filter.mp hp).1) (fun p hp => .inl (List.mem_filter.mp hp).1)
        (fun c hc => ?_) (fun i hi => .inl hi) (fun t ht => ?_) hI.effective
      · obtain ⟨c', hc', rfl⟩ := List.mem_map.mp hc
        split_ifs
        · exact ⟨(fun h => by cases h), (fun h => by cases h)⟩
        · exact Call.kept_of_mem hc'
      · obtain ⟨t', ht', rfl⟩ := List.mem_map.mp ht
        split_ifs
        · exact hI.ticks t' ht'
        · exact hI.ticks t' ht'

theorem daemonInv_init : DaemonInv init :=
  ⟨fun c hc => (by cases hc), fun i hi => (by cases hi), fun t ht => (by cases ht),
    fun t ht => (by cases ht)⟩

end Invariant

/-- **Unschedule is effective** in every run in which, whenever `unschedule`
returns, there was a row and no daemon has a ticker for it or is about to add
one. -/
theorem unschedule_effective (l : List Label) (s : Daemons)
    (hcond : Machine.Along step UnscheduleCond init l)
    (hrun : Machine.run step init l = some s) : Effective s :=
  (Machine.inv_run (fun _ _ _ hI hC h => hI.step hC h) daemonInv_init hcond hrun).effective

/-- With a live ticker after `unschedule` has returned, the run can go on to a
tick that inserts a row. -/
theorem late_tick {s : Daemons} {d : Daemon} {id : ScheduleId} (hreturned : id ∈ s.returned)
    (hlive : (d, id) ∈ s.live) :
    ∃ s', Machine.run step s [.tick d id, .finish s.ticks.length true] = some s' ∧
      ¬ Effective s' := by
  simp only [Machine.run, step, if_pos hlive, Option.bind_some, List.getElem?_append_right,
    Nat.le_refl, Nat.sub_self, List.getElem?_cons_zero]
  refine ⟨_, rfl, fun heff => ?_⟩
  have hlate := heff _ List.mem_cons_self
  simp [hreturned] at hlate

/-! ## Two daemons -/

/-- Daemon 0 schedules 0, then daemon 1 starts and reads it. -/
def scheduled : List Label :=
  [.boot 0, .schedule 0, .call 0 true, .call 0 true, .boot 1, .add 1 true]

/-- Daemon 0 serves `unschedule`. -/
def unscheduled : List Label :=
  [.unschedule 0 0, .call 1 true, .call 1 true, .call 1 true]

/-- Daemon 1 still has its ticker and comes to a tick. -/
theorem not_unschedule_effective :
    ∃ s, Machine.run step init (scheduled ++ unscheduled ++ [.tick 1 0, .finish 0 true]) =
      some s ∧ ¬ Effective s :=
  ⟨_, rfl, by decide⟩

/-- `unschedule_effective` where daemon 1 ticks and has crashed before daemon 0
serves the call, and comes back after it. -/
theorem unschedule_effective_crashed :
    ∃ s, Machine.run step init (scheduled ++ [.tick 1 0, .finish 0 true, .crash 1] ++
        unscheduled ++ [.boot 1]) = some s ∧
      s.inserted.length = 1 ∧ s.returned = [0] ∧ Effective s :=
  ⟨_, rfl, rfl, rfl, unschedule_effective (scheduled ++ [.tick 1 0, .finish 0 true, .crash 1] ++
    unscheduled ++ [.boot 1]) _ (by decide) rfl⟩

end Dokan.Ports.CronDaemons
