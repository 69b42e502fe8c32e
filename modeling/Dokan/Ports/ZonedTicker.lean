import Dokan.Verified.Machine

/-!
# The ticker of a zoned schedule

`zoned_ticker` asks for the occurrence after `after`, sleeps in slices until a
reading of the wall clock has reached it, enqueues, and goes on from the later
of the occurrence and a fresh reading.  The wall clock may do anything; what
the ticker does is a function of the readings.

Readings are nanoseconds, occurrences whole seconds of the same clock.  The
occurrences of the expression in its zone are a set `Occ`; `find` is croner's
`find_next_occurrence`.

## Main results

* `Law.read` — what one reading preserves.
* `zoned_ticker_law` — the ticks increase, are occurrences the clock has
  reached, and leave out only what a late enqueue has overtaken.
-/

namespace Dokan.Ports.ZonedTicker

/-- Nanoseconds of a second. -/
def nanos : Int := 1000000000

theorem nanos_pos : 0 < nanos := by decide

/-- `find` returns the least occurrence later than its argument, if there is
one. -/
structure NextOccurrence (Occ : Int → Prop) (find : Int → Option Int) : Prop where
  occurs : ∀ {a t}, find a = some t → Occ t
  later : ∀ {a t}, find a = some t → a < t
  least : ∀ {a t u}, find a = some t → Occ u → a < u → t ≤ u
  last : ∀ {a u}, find a = none → Occ u → u ≤ a

/-! ## The ticker -/

section Ticker

variable (find : Int → Option Int)

/-- `next_fire` in a zone: the sub-second part of `after` is dropped. -/
def nextFire (after : Int) : Option Int := find (after / nanos)

/-- The point a ticker has reached, always before a reading of the clock. -/
inductive TickerPc
  /-- before the first one -/
  | start
  /-- in the inner loop -/
  | waiting (next : Int)
  /-- `enqueue_tick` has returned -/
  | enqueued (next : Int)
  /-- there is no next occurrence -/
  | stopped

/-- What a ticker does, in order. -/
inductive Event
  | read (now : Int)
  /-- `enqueue_tick` is called with the tick -/
  | passed (tick : Int)
deriving DecidableEq

structure Ticker where
  pc : TickerPc
  trace : List Event

/-- The head of the outer loop. -/
def plan (after : Int) (trace : List Event) : Ticker where
  pc :=
    match nextFire find after with
    | some next => .waiting next
    | none => .stopped
  trace

/-- What follows a reading of the clock, up to the next one. -/
def Ticker.read (t : Ticker) (now : Int) : Ticker :=
  match t.pc with
  | .start => plan find now (t.trace ++ [.read now])
  | .waiting next =>
      if next * nanos ≤ now then
        { pc := .enqueued next, trace := t.trace ++ [.read now, .passed next] }
      else { t with trace := t.trace ++ [.read now] }
  | .enqueued next => plan find (max now (next * nanos)) (t.trace ++ [.read now])
  | .stopped => t

/-- `zoned_ticker` on these readings. -/
def zonedTicker (readings : List Int) : Ticker :=
  readings.foldl (Ticker.read find) { pc := .start, trace := [] }

end Ticker

/-! ## What holds of its ticks -/

def Event.tick? : Event → Option Int
  | .passed tick => some tick
  | .read _ => none

/-- The ticks passed to `enqueue_tick`. -/
def ticks (trace : List Event) : List Int := trace.filterMap Event.tick?

/-- The ticker will not come to `o` any more. -/
def Past (t : Ticker) (o : Int) : Prop :=
  match t.pc with
  | .start => False
  | .waiting next => o < next
  | .enqueued next => o ≤ next
  | .stopped => True

/-- The reading that follows an earlier tick has reached `o`. -/
def Overtaken (trace : List Event) (o : Int) : Prop :=
  ∃ l₁ p r l₂, trace = l₁ ++ .passed p :: .read r :: l₂ ∧ p < o ∧ o * nanos ≤ r

/-- What holds of a ticker whose first reading was `began`. -/
structure Law (Occ : Int → Prop) (began : Int) (t : Ticker) : Prop where
  increasing : (ticks t.trace).Pairwise (· < ·)
  occurs : ∀ k ∈ ticks t.trace, Occ k
  reached : ∀ l₁ k l₂, t.trace = l₁ ++ .passed k :: l₂ → ∃ r, .read r ∈ l₁ ∧ k * nanos ≤ r
  behind : ∀ k ∈ ticks t.trace, Past t k
  covers : ∀ o, Occ o → began < o * nanos → Past t o → o ∈ ticks t.trace ∨ Overtaken t.trace o
  next : ∀ n, t.pc = .waiting n → Occ n
  last : ∀ n, t.pc = .enqueued n → ∃ l, t.trace = l ++ [.passed n]

variable {Occ : Int → Prop} {find : Int → Option Int} {began now after o : Int} {t : Ticker}
variable {trace : List Event}

theorem ticks_append (a b : List Event) : ticks (a ++ b) = ticks a ++ ticks b :=
  List.filterMap_append

theorem Overtaken.append (h : Overtaken trace o) (l : List Event) :
    Overtaken (trace ++ l) o := by
  obtain ⟨l₁, p, r, l₂, rfl, hp, hr⟩ := h
  exact ⟨l₁, p, r, l₂ ++ l, by simp, hp, hr⟩

/-- A whole second that is not later than a time is not later than its
floor. -/
theorem le_floor : o ≤ after / nanos ↔ o * nanos ≤ after := Int.le_ediv_iff_mul_le nanos_pos

/-- An occurrence is no longer to come once a later time has been planned
from. -/
theorem past_plan (hfind : NextOccurrence Occ find) (ho : Occ o)
    (hpast : Past (plan find after trace) o) : o * nanos ≤ after := by
  unfold Past plan at hpast
  rw [← le_floor]
  cases hnext : nextFire find after with
  | none => exact hfind.last hnext ho
  | some next =>
      rw [hnext] at hpast
      by_contra hlt
      exact absurd (hfind.least hnext ho (Int.not_le.mp hlt)) (Int.not_le.mpr hpast)

/-- The times up to the one planned from are past. -/
theorem past_of_le (hfind : NextOccurrence Occ find) (h : o * nanos ≤ after) :
    Past (plan find after trace) o := by
  unfold Past plan
  cases hnext : nextFire find after with
  | none => trivial
  | some next => exact lt_of_le_of_lt (le_floor.mpr h) (hfind.later hnext)

theorem pc_plan (hfind : NextOccurrence Occ find) {n : Int}
    (h : (plan find after trace).pc = .waiting n) : Occ n := by
  unfold plan at h
  cases hnext : nextFire find after with
  | none =>
      rw [hnext] at h
      cases h
  | some next =>
      rw [hnext] at h
      cases h
      exact hfind.occurs hnext

theorem pc_plan_ne {n : Int} : (plan find after trace).pc ≠ .enqueued n := by
  unfold plan
  cases nextFire find after with
  | none => exact fun h => by cases h
  | some next => exact fun h => by cases h

theorem pc_plan_ne_start : (plan find after trace).pc ≠ .start := by
  unfold plan
  cases nextFire find after with
  | none => exact fun h => by cases h
  | some next => exact fun h => by cases h

/-- The reading with which a ticker starts. -/
theorem law_start (hfind : NextOccurrence Occ find) (began : Int) :
    Law Occ began (plan find began [.read began]) := by
  refine ⟨List.Pairwise.nil, (fun k hk => by cases hk), fun l₁ k l₂ h => ?_,
    (fun k hk => by cases hk), fun o ho hlater hpast => ?_, fun n => pc_plan hfind,
    fun n h => absurd h pc_plan_ne⟩
  · have hmem : Event.passed k ∈ [Event.read began] := by
      have htrace : [Event.read began] = l₁ ++ .passed k :: l₂ := h
      rw [htrace]
      simp
    simp at hmem
  · exact absurd (past_plan hfind ho hpast) (Int.not_le.mpr hlater)

/-- What was read before a tick stays read. -/
theorem reached_append (hreached : ∀ l₁ k l₂, trace = l₁ ++ Event.passed k :: l₂ →
      ∃ r, Event.read r ∈ l₁ ∧ k * nanos ≤ r) (now : Int) :
    ∀ l₁ k l₂, trace ++ [Event.read now] = l₁ ++ Event.passed k :: l₂ →
      ∃ r, Event.read r ∈ l₁ ∧ k * nanos ≤ r := by
  intro l₁ k l₂ h
  rcases Verified.Machine.split_concat h with ⟨_, _, he⟩ | ⟨l₃, _, htrace⟩
  · cases he
  · exact hreached l₁ k l₃ htrace

theorem ticks_read (trace : List Event) (now : Int) :
    ticks (trace ++ [Event.read now]) = ticks trace := by
  rw [ticks_append]
  exact List.append_nil _

/-- A reading that has not reached the next occurrence. -/
theorem Law.sleep (h : Law Occ began t) (now : Int) {next : Int} (hpc : t.pc = .waiting next) :
    Law Occ began { pc := .waiting next, trace := t.trace ++ [Event.read now] } := by
  have hpast : ∀ o, Past { pc := .waiting next, trace := t.trace ++ [Event.read now] } o =
      Past t o := fun o => by rw [Past, Past, hpc]
  refine ⟨?_, ?_, reached_append h.reached now, fun k hk => ?_, fun o ho hlater hp => ?_,
    fun n hn => ?_, fun n hn => (by cases hn)⟩
  · rw [ticks_read]
    exact h.increasing
  · rw [ticks_read]
    exact h.occurs
  · rw [ticks_read] at hk
    rw [hpast]
    exact h.behind k hk
  · rw [hpast] at hp
    rw [ticks_read]
    exact (h.covers o ho hlater hp).imp_right fun hov => hov.append _
  · cases hn
    exact h.next next hpc

/-- A reading that has reached it: the tick. -/
theorem Law.fire (h : Law Occ began t) {next : Int} (hpc : t.pc = .waiting next)
    (hnow : next * nanos ≤ now) :
    Law Occ began
      { pc := .enqueued next, trace := t.trace ++ [Event.read now, Event.passed next] } := by
  have hbehind : ∀ k ∈ ticks t.trace, k < next := by
    intro k hk
    have hk := h.behind k hk
    rw [Past, hpc] at hk
    exact hk
  have hticks : ticks (t.trace ++ [Event.read now, Event.passed next]) = ticks t.trace ++ [next] :=
    ticks_append _ _
  have htrace : t.trace ++ [Event.read now, Event.passed next] =
      (t.trace ++ [Event.read now]) ++ [Event.passed next] := by simp
  refine ⟨?_, ?_, ?_, ?_, ?_, fun n hn => (by cases hn), fun n hn => ?_⟩
  · rw [hticks, List.pairwise_append]
    refine ⟨h.increasing, List.pairwise_singleton _ _, fun k hk m hm => ?_⟩
    rw [List.mem_singleton.mp hm]
    exact hbehind k hk
  · intro k hk
    rw [hticks] at hk
    rcases List.mem_append.mp hk with hk | hk
    · exact h.occurs k hk
    · rw [List.mem_singleton.mp hk]
      exact h.next next hpc
  · intro l₁ k l₂ hsplit
    have hsplit : t.trace ++ [Event.read now, Event.passed next] = l₁ ++ Event.passed k :: l₂ :=
      hsplit
    rw [htrace] at hsplit
    rcases Verified.Machine.split_concat hsplit with ⟨_, rfl, he⟩ | ⟨l₃, _, hl⟩
    · cases he
      exact ⟨now, by simp, hnow⟩
    · exact reached_append h.reached now l₁ k l₃ hl
  · intro k hk
    rw [hticks] at hk
    rcases List.mem_append.mp hk with hk | hk
    · exact Int.le_of_lt (hbehind k hk)
    · exact Int.le_of_eq (List.mem_singleton.mp hk)
  · intro o ho hlater hp
    have hp : o ≤ next := hp
    rw [hticks]
    rcases Int.lt_or_eq_of_le hp with hlt | rfl
    · have hold : Past t o := by
        rw [Past, hpc]
        exact hlt
      rcases h.covers o ho hlater hold with hk | hov
      · exact .inl (List.mem_append_left _ hk)
      · exact .inr (hov.append _)
    · exact .inl (List.mem_append_right _ List.mem_cons_self)
  · cases hn
    exact ⟨_, htrace⟩

/-- The reading after a tick: what it has reached is overtaken. -/
theorem Law.resume (hfind : NextOccurrence Occ find) (h : Law Occ began t) {next : Int}
    (hpc : t.pc = .enqueued next) (now : Int) :
    Law Occ began (plan find (max now (next * nanos)) (t.trace ++ [Event.read now])) := by
  have htrace : (plan find (max now (next * nanos)) (t.trace ++ [Event.read now])).trace =
      t.trace ++ [Event.read now] := rfl
  have hpastIff : ∀ o, Past t o ↔ o ≤ next := fun o => by rw [Past, hpc]
  refine ⟨?_, ?_, reached_append h.reached now, ?_, ?_, fun n => pc_plan hfind,
    fun n hn => absurd hn pc_plan_ne⟩
  · rw [htrace, ticks_read]
    exact h.increasing
  · rw [htrace, ticks_read]
    exact h.occurs
  · rw [htrace, ticks_read]
    intro k hk
    refine past_of_le hfind (le_trans ?_ (le_max_right _ _))
    exact Int.mul_le_mul_of_nonneg_right ((hpastIff k).mp (h.behind k hk))
      (Int.le_of_lt nanos_pos)
  · intro o ho hlater hp
    rw [htrace, ticks_read]
    by_cases hle : o ≤ next
    · exact (h.covers o ho hlater ((hpastIff o).mpr hle)).imp_right fun hov => hov.append _
    · have hlt : next < o := Int.not_le.mp hle
      obtain ⟨l, hl⟩ := h.last next hpc
      refine .inr ⟨l, next, now, [], by rw [hl]; simp, hlt, ?_⟩
      rcases le_max_iff.mp (past_plan hfind ho hp) with hnow | hnext
      · exact hnow
      · exact absurd (Int.le_of_mul_le_mul_right hnext nanos_pos) hle

/-- **One reading.** -/
theorem Law.read (hfind : NextOccurrence Occ find) (h : Law Occ began t) (hpc : t.pc ≠ .start)
    (now : Int) : Law Occ began (t.read find now) ∧ (t.read find now).pc ≠ .start := by
  unfold Ticker.read
  cases hat : t.pc with
  | start => exact absurd hat hpc
  | waiting next =>
      simp only
      split_ifs with hnow
      · exact ⟨h.fire hat hnow, fun h => by cases h⟩
      · exact ⟨h.sleep now hat, fun h => by cases h⟩
  | enqueued next => exact ⟨h.resume hfind hat now, pc_plan_ne_start⟩
  | stopped => exact ⟨h, hpc⟩

/-! ## Every sequence of readings -/

/-- After any readings. -/
theorem law_zonedTicker (hfind : NextOccurrence Occ find) (began : Int) (readings : List Int) :
    Law Occ began (zonedTicker find (began :: readings)) := by
  have hrun : ∀ (readings : List Int) (t : Ticker), Law Occ began t → t.pc ≠ .start →
      Law Occ began (readings.foldl (Ticker.read find) t) := by
    intro readings
    induction readings with
    | nil => exact fun t h _ => h
    | cons now readings ih =>
        intro t h hpc
        obtain ⟨h', hpc'⟩ := h.read hfind hpc now
        exact ih _ h' hpc'
  exact hrun readings _ (law_start hfind began) pc_plan_ne_start

/-- What comes before something past is past. -/
theorem past_of_lt {k : Int} (h : Past t k) (hlt : o < k) : Past t o := by
  unfold Past at h ⊢
  cases hpc : t.pc with
  | start =>
      rw [hpc] at h
      exact h
  | waiting next =>
      rw [hpc] at h
      exact lt_trans hlt h
  | enqueued next =>
      rw [hpc] at h
      exact le_trans (le_of_lt hlt) h
  | stopped => trivial

/-- The occurrences of `*/10 * * * * *`. -/
def everyTen (t : Int) : Prop := t % 10 = 0

def nextTen (a : Int) : Option Int := some ((a / 10 + 1) * 10)

theorem nextOccurrence_nextTen : NextOccurrence everyTen nextTen := by
  refine ⟨fun h => ?_, fun h => ?_, fun h hu hlt => ?_, fun h => (by cases h)⟩
  · cases h
    unfold everyTen
    omega
  · cases h
    omega
  · cases h
    unfold everyTen at hu
    omega

/-- Started in the sixth second; the first enqueue takes until the 35th, then
the clock goes back twice. -/
def tenReadings : List Int :=
  [10200000000, 35700000000, 3000000000, 41000000000, 2000000000]

end Dokan.Ports.ZonedTicker
