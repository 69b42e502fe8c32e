import Mathlib

/-!
# Counting calls within fixed windows

A key's first call opens a window of `width` time units; calls within it are
counted, and at most `max` are admitted.  The first call after the end of a
window opens the next one.

The table of all windows is a function here.  An implementation may forget a
window that is over, and no later call can tell, since a call that finds no
window and one that finds an old one both open their own.

## Main results

* `Forgets.mono`, `current_of_forgets` — a forgotten window stays unseen.
* `start_after` — where the window of a key began, from its calls alone.
* `admitted_le` — no window admits more than `max` calls.
* `instant_le`, `span_le` — no instant admits more than `max` calls of a key, and
  no interval as long as a window more than twice as many.
-/

namespace Dokan.Verified.FixedWindow

universe u

/-- When a window began, and how many calls it has admitted. -/
structure Window where
  start : Nat
  count : Nat
deriving DecidableEq

/-- The window has ended by `now`. -/
def Window.Over (width now : Nat) (w : Window) : Prop := width ≤ now - w.start

instance (width now : Nat) (w : Window) : Decidable (w.Over width now) :=
  inferInstanceAs (Decidable (width ≤ now - w.start))

/-- The window a call at `now` counts in. -/
def current (width now : Nat) : Option Window → Window
  | none => ⟨now, 0⟩
  | some w => if w.Over width now then ⟨now, 0⟩ else w

theorem current_of_over {width now : Nat} {w : Window} (h : w.Over width now) :
    current width now (some w) = ⟨now, 0⟩ := if_pos h

theorem current_of_running {width now : Nat} {w : Window} (h : ¬ w.Over width now) :
    current width now (some w) = w := if_neg h

/-- The window after a call in it, and whether the call is admitted. -/
def enter (max : Nat) (w : Window) : Window × Bool :=
  if max ≤ w.count then (w, false) else (⟨w.start, w.count + 1⟩, true)

@[simp] theorem start_enter (max : Nat) (w : Window) : (enter max w).1.start = w.start := by
  unfold enter
  split_ifs <;> rfl

/-- What a window counts it has admitted. -/
theorem fst_enter (max s n : Nat) :
    (enter max ⟨s, n⟩).1 = ⟨s, n + if (enter max ⟨s, n⟩).2 then 1 else 0⟩ := by
  by_cases hmax : max ≤ n
  · simp [enter, hmax]
  · simp [enter, hmax]

theorem count_enter_le {max : Nat} {w : Window} (h : w.count ≤ max) :
    (enter max w).1.count ≤ max := by
  unfold enter
  split_ifs with hmax
  · exact h
  · exact Nat.lt_of_not_le hmax

/-! ## Forgotten windows -/

/-- `e` is `e'`, or has forgotten a window that is over. -/
def Forgets (width now : Nat) (e e' : Option Window) : Prop :=
  e = e' ∨ e = none ∧ ∀ w, e' = some w → w.Over width now

section Forgets

variable {width now t : Nat} {e e' : Option Window}

theorem Forgets.refl (width now : Nat) (e : Option Window) : Forgets width now e e := .inl rfl

/-- What is over stays over. -/
theorem Forgets.mono (h : Forgets width now e e') (ht : now ≤ t) : Forgets width t e e' := by
  rcases h with h | ⟨h, hover⟩
  · exact .inl h
  · refine .inr ⟨h, fun w hw => ?_⟩
    have hw' : width ≤ now - w.start := hover w hw
    show width ≤ t - w.start
    omega

/-- The next call cannot tell. -/
theorem current_of_forgets (h : Forgets width now e e') :
    current width now e = current width now e' := by
  rcases h with rfl | ⟨rfl, hover⟩
  · rfl
  · cases e' with
    | none => rfl
    | some w => exact (current_of_over (hover w rfl)).symm

/-- A window that is not over has not been forgotten. -/
theorem Forgets.eq_some (h : Forgets width now e e') {w : Window} (hw : e' = some w)
    (hrun : ¬ w.Over width now) : e = some w := by
  rcases h with h | ⟨_, hover⟩
  · rw [h, hw]
  · exact absurd (hover w hw) hrun

end Forgets

/-! ## The table -/

section Table

variable {K : Type u} [DecidableEq K] (width max : Nat)

/-- The window of every key, from its last call. -/
abbrev Table (K : Type u) := K → Option Window

/-- A key and the time of a call. -/
abbrev Call (K : Type u) := K × Nat

def Table.empty : Table K := fun _ => none

/-- A call: the table after it, and whether it is admitted. -/
def hit (T : Table K) (c : Call K) : Table K × Bool :=
  let (w, a) := enter max (current width c.2 (T c.1))
  (Function.update T c.1 (some w), a)

/-- The table after some calls. -/
def after (T : Table K) (calls : List (Call K)) : Table K :=
  calls.foldl (fun T c => (hit width max T c).1) T

/-- Which of the calls are admitted. -/
def answers : Table K → List (Call K) → List Bool
  | _, [] => []
  | T, c :: calls => (hit width max T c).2 :: answers (hit width max T c).1 calls

/-- The times of the calls of a key. -/
def times (k : K) (calls : List (Call K)) : List Nat :=
  (calls.filter fun c => c.1 = k).map Prod.snd

/-- When the window of the last of some calls of one key began. -/
def opened (calls : List Nat) : Option Nat :=
  calls.foldl (fun start now =>
    some (match start with
      | some s => if width ≤ now - s then now else s
      | none => now)) none

/-- The call comes when its key has no window, or one that is over. -/
def Opens (earlier : List (Call K)) (c : Call K) : Prop :=
  ∀ s, opened width (times c.1 earlier) = some s → width ≤ c.2 - s

/-- How many of the calls of `c`'s key, from `c` on and until its window is over,
have been admitted; each call stands beside its answer. -/
def admitted (c : Call K) (a : Bool) (later : List (Call K × Bool)) : Nat :=
  (((c, a) :: later.filter fun x => x.1.1 = c.1 ∧ x.1.2 - c.2 < width).filter Prod.snd).length

variable {width max} {T : Table K} {c : Call K} {k : K} {calls : List (Call K)}

@[simp] theorem after_nil (T : Table K) : after width max T [] = T := rfl

theorem after_append (T : Table K) (calls calls' : List (Call K)) :
    after width max T (calls ++ calls') = after width max (after width max T calls) calls' :=
  List.foldl_append

theorem after_concat (T : Table K) (calls : List (Call K)) (c : Call K) :
    after width max T (calls ++ [c]) = (hit width max (after width max T calls) c).1 := by
  rw [after_append]
  rfl

theorem answers_append (T : Table K) (calls calls' : List (Call K)) :
    answers width max T (calls ++ calls') =
      answers width max T calls ++ answers width max (after width max T calls) calls' := by
  induction calls generalizing T with
  | nil => rfl
  | cons c calls ih => exact congrArg ((hit width max T c).2 :: ·) (ih _)

@[simp] theorem length_answers (T : Table K) (calls : List (Call K)) :
    (answers width max T calls).length = calls.length := by
  induction calls generalizing T with
  | nil => rfl
  | cons c calls ih => exact congrArg (· + 1) (ih _)

theorem hit_self (width max : Nat) (T : Table K) (c : Call K) :
    (hit width max T c).1 c.1 = some (enter max (current width c.2 (T c.1))).1 :=
  Function.update_self ..

theorem hit_snd (T : Table K) (c : Call K) :
    (hit width max T c).2 = (enter max (current width c.2 (T c.1))).2 := rfl

theorem hit_of_ne (h : k ≠ c.1) : (hit width max T c).1 k = T k := Function.update_of_ne h ..

/-- Keys that have no window and call once are admitted. -/
theorem answers_of_fresh (hmax : 0 < max) {calls : List (Call K)}
    (hnd : (calls.map Prod.fst).Nodup) {T : Table K} (hT : ∀ c ∈ calls, T c.1 = none) :
    answers width max T calls = List.replicate calls.length true := by
  induction calls generalizing T with
  | nil => rfl
  | cons c calls ih =>
      obtain ⟨hfresh, hnd⟩ := List.nodup_cons.mp hnd
      have henter : (hit width max T c).2 = true := by
        rw [hit_snd, hT c List.mem_cons_self, current, enter, if_neg (Nat.not_le_of_lt hmax)]
      have hrest : ∀ d ∈ calls, (hit width max T c).1 d.1 = none := by
        intro d hd
        have hne : d.1 ≠ c.1 := fun heq => hfresh (heq ▸ List.mem_map_of_mem hd)
        rw [hit_of_ne hne]
        exact hT d (List.mem_cons_of_mem c hd)
      rw [answers, henter, ih hnd hrest, List.length_cons, List.replicate_succ]

/-- A window begins with a call. -/
theorem exists_opened (width : Nat) {calls : List Nat} (h : calls ≠ []) :
    ∃ s ∈ calls, opened width calls = some s := by
  induction calls using List.reverseRecOn with
  | nil => exact absurd rfl h
  | append_singleton calls t ih =>
      rw [opened, List.foldl_append, ← opened]
      rcases List.eq_nil_or_concat calls with rfl | ⟨_, _, hcalls⟩
      · exact ⟨t, by simp, rfl⟩
      · obtain ⟨s, hs, hopened⟩ := ih (by rw [hcalls]; simp)
        rw [hopened, List.foldl_cons, List.foldl_nil]
        by_cases hover : width ≤ t - s
        · exact ⟨t, by simp, congrArg some (if_pos hover)⟩
        · exact ⟨s, by simp [hs], congrArg some (if_neg hover)⟩

/-- **Where a window began**, from the calls of its key. -/
theorem start_after (width max : Nat) (k : K) (calls : List (Call K)) :
    (after width max Table.empty calls k).map Window.start = opened width (times k calls) := by
  induction calls using List.reverseRecOn with
  | nil => rfl
  | append_singleton calls c ih =>
      rw [after_concat, times, List.filter_append, List.map_append, ← times]
      by_cases hk : c.1 = k
      · subst hk
        rw [hit_self, Option.map_some, start_enter]
        simp only [decide_true, List.filter_singleton, cond_true, List.map_cons, List.map_nil,
          opened, List.foldl_append, List.foldl_cons, List.foldl_nil]
        rw [← opened, ← ih]
        cases after width max Table.empty calls c.1 with
        | none => rfl
        | some w =>
            by_cases hover : width ≤ c.2 - w.start
            · rw [current_of_over hover]
              exact congrArg some (if_pos hover).symm
            · rw [current_of_running hover]
              exact congrArg some (if_neg hover).symm
      · rw [hit_of_ne (Ne.symm hk), ih]
        simp [hk]

/-- A call counts as one exactly if it is admitted, so those after it leave room for it. -/
theorem length_enter_cons {B : Type*} {s n : Nat} (b : B) (l : List (B × Bool))
    (h : (l.filter Prod.snd).length + (enter max ⟨s, n⟩).1.count ≤ max) :
    (((b, (enter max ⟨s, n⟩).2) :: l).filter Prod.snd).length + n ≤ max := by
  rw [fst_enter] at h
  cases hadm : (enter max ⟨s, n⟩).2 with
  | true =>
      rw [hadm, if_pos rfl] at h
      rw [List.filter_cons_of_pos rfl, List.length_cons, Nat.add_right_comm]
      exact h
  | false =>
      rw [hadm] at h
      rw [List.filter_cons_of_neg (by simp)]
      exact h

/-- While the window of a key lasts, it counts what it admits. -/
theorem admitted_running (width : Nat) {s n : Nat} (hT : T k = some ⟨s, n⟩) (hn : n ≤ max)
    (hsorted : calls.Pairwise fun c c' => c.2 ≤ c'.2) :
    (((calls.zip (answers width max T calls)).filter fun x =>
      x.1.1 = k ∧ x.1.2 - s < width).filter Prod.snd).length + n ≤ max := by
  induction calls generalizing T n with
  | nil => simpa using hn
  | cons c calls ih =>
      obtain ⟨hlater, hsorted⟩ := List.pairwise_cons.mp hsorted
      rw [answers, List.zip_cons_cons]
      by_cases hk : c.1 = k
      · subst hk
        by_cases hrun : c.2 - s < width
        · have hcur : current width c.2 (T c.1) = ⟨s, n⟩ := by
            rw [hT]
            exact current_of_running (Nat.not_le_of_lt hrun)
          have hnext := hit_self width max T c
          have hle := count_enter_le (w := ⟨s, n⟩) hn
          rw [hcur, fst_enter] at hnext
          rw [List.filter_cons_of_pos (by simpa using hrun), hit_snd, hcur]
          refine length_enter_cons c _ ?_
          rw [fst_enter] at hle ⊢
          exact ih hnext hle hsorted
        · -- the window is over, for this call and for all later ones
          have hnone : ∀ x ∈ (c, (hit width max T c).2) ::
              calls.zip (answers width max (hit width max T c).1 calls),
              ¬ (x.1.1 = c.1 ∧ x.1.2 - s < width) := by
            intro x hx
            rcases List.mem_cons.mp hx with rfl | hx
            · exact fun h => hrun h.2
            · have hle := hlater x.1 (List.of_mem_zip hx).1
              exact fun h => hrun (by omega)
          rw [List.filter_eq_nil_iff.mpr fun x hx h => hnone x hx (of_decide_eq_true h)]
          simpa using hn
      · rw [List.filter_cons_of_neg (by simp [hk])]
        exact ih (by rw [hit_of_ne (Ne.symm hk), hT]) hn hsorted

/-- **No window admits more than `max` calls.** -/
theorem admitted_le (max : Nat) {earlier later : List (Call K)}
    (hsorted : (earlier ++ c :: later).Pairwise fun c c' => c.2 ≤ c'.2)
    (hopens : Opens width earlier c) :
    admitted width c (hit width max (after width max Table.empty earlier) c).2
      (later.zip (answers width max (after width max Table.empty (earlier ++ [c])) later)) ≤
        max := by
  have hlater := (List.pairwise_cons.mp (List.pairwise_append.mp hsorted).2.1).2
  have hcur : current width c.2 (after width max Table.empty earlier c.1) = ⟨c.2, 0⟩ := by
    have hstart := start_after width max c.1 earlier
    cases hw : after width max Table.empty earlier c.1 with
    | none => rfl
    | some w =>
        rw [hw, Option.map_some] at hstart
        exact current_of_over (hopens _ hstart.symm)
  have hnext := hit_self width max (after width max Table.empty earlier) c
  have hle := count_enter_le (w := ⟨c.2, 0⟩) (Nat.zero_le max)
  rw [hcur, fst_enter] at hnext
  rw [after_concat, hit_snd, hcur, admitted]
  refine length_enter_cons (n := 0) c _ ?_
  rw [fst_enter] at hle ⊢
  exact admitted_running width hnext hle hlater

/-! ## Intervals -/

/-- How many of the calls of `k` from `lo` on and before `hi` have been admitted. -/
def span (k : K) (lo hi : Nat) (calls : List (Call K × Bool)) : Nat :=
  calls.countP fun x => x.1.1 = k ∧ lo ≤ x.1.2 ∧ x.1.2 < hi ∧ x.2 = true

/-- What a window that still runs at `lo` has admitted. -/
def carried (width lo : Nat) : Option Window → Nat
  | none => 0
  | some w => if w.Over width lo then 0 else w.count

theorem span_cons (k : K) (lo hi : Nat) (x : Call K × Bool) (calls : List (Call K × Bool)) :
    span k lo hi (x :: calls) = span k lo hi calls +
      if x.1.1 = k ∧ lo ≤ x.1.2 ∧ x.1.2 < hi ∧ x.2 = true then 1 else 0 := by
  simp only [span, List.countP_cons, decide_eq_true_eq]

/-- A call adds one at most, and that if it is admitted. -/
theorem span_cons_le (k : K) (lo hi : Nat) (c : Call K) (a : Bool)
    (calls : List (Call K × Bool)) :
    span k lo hi ((c, a) :: calls) ≤ span k lo hi calls + if a then 1 else 0 := by
  rw [span_cons]
  cases a with
  | true =>
      rw [if_pos (rfl : true = true)]
      split_ifs <;> omega
  | false => simp

theorem count_le_enter (max : Nat) (w : Window) : w.count ≤ (enter max w).1.count := by
  rw [fst_enter max w.start w.count]
  exact Nat.le_add_right _ _

theorem carried_of_running {lo : Nat} {w : Window} (h : ¬ w.Over width lo) :
    carried width lo (some w) = w.count := if_neg h

theorem carried_of_over {lo : Nat} {w : Window} (h : w.Over width lo) :
    carried width lo (some w) = 0 := if_pos h

theorem carried_le (width lo : Nat) {e : Option Window} (he : ∀ w, e = some w → w.count ≤ max) :
    carried width lo e ≤ max := by
  cases e with
  | none => exact Nat.zero_le _
  | some w =>
      rw [carried]
      split_ifs
      · exact Nat.zero_le _
      · exact he w rfl

/-- The window a call counts in: a new one, or the one it finds. -/
theorem current_cases (width now : Nat) (e : Option Window) :
    (current width now e = ⟨now, 0⟩ ∧ ∀ w, e = some w → w.Over width now) ∨
      ∃ w, e = some w ∧ ¬ w.Over width now ∧ current width now e = w := by
  cases e with
  | none => exact .inl ⟨rfl, fun w hw => by cases hw⟩
  | some w =>
      by_cases hover : w.Over width now
      · exact .inl ⟨current_of_over hover, fun w' hw' => by cases hw'; exact hover⟩
      · exact .inr ⟨w, rfl, hover, current_of_running hover⟩

/-- A table whose windows have not admitted too many, and began before the calls. -/
structure Sane (max : Nat) (T : Table K) (k : K) (calls : List (Call K)) : Prop where
  count : ∀ w, T k = some w → w.count ≤ max
  past : ∀ w, T k = some w → ∀ c ∈ calls, w.start ≤ c.2

theorem Sane.hit (width : Nat) (h : Sane max T k (c :: calls))
    (hlater : ∀ c' ∈ calls, c.2 ≤ c'.2) : Sane max (FixedWindow.hit width max T c).1 k calls := by
  by_cases hk : k = c.1
  · subst hk
    constructor
    · intro w hw
      rw [hit_self, Option.some_inj] at hw
      rw [← hw]
      refine count_enter_le ?_
      rcases current_cases width c.2 (T c.1) with ⟨heq, _⟩ | ⟨w', hw', _, heq⟩
      · rw [heq]
        exact Nat.zero_le _
      · rw [heq]
        exact h.count w' hw'
    · intro w hw c' hc'
      rw [hit_self, Option.some_inj] at hw
      rw [← hw, start_enter]
      rcases current_cases width c.2 (T c.1) with ⟨heq, _⟩ | ⟨w', hw', _, heq⟩
      · rw [heq]
        exact hlater c' hc'
      · rw [heq]
        exact h.past w' hw' c' (List.mem_cons_of_mem _ hc')
  · refine ⟨fun w hw => ?_, fun w hw c' hc' => ?_⟩
    · exact h.count w (by rwa [hit_of_ne hk] at hw)
    · exact h.past w (by rwa [hit_of_ne hk] at hw) c' (List.mem_cons_of_mem _ hc')

/-- A call before `lo` only adds to what runs then. -/
theorem carried_hit {lo : Nat} (hc : c.2 ≤ lo) :
    carried width lo (T c.1) ≤ carried width lo ((FixedWindow.hit width max T c).1 c.1) := by
  rw [hit_self]
  rcases current_cases width c.2 (T c.1) with ⟨_, hover⟩ | ⟨w, hw, _, heq⟩
  · have hzero : carried width lo (T c.1) = 0 := by
      cases hT : T c.1 with
      | none => rfl
      | some w =>
          have hover' : width ≤ c.2 - w.start := hover w hT
          exact carried_of_over (show width ≤ lo - w.start by omega)
    rw [hzero]
    exact Nat.zero_le _
  · rw [hw, ← hw, heq, hw]
    by_cases hlo : w.Over width lo
    · rw [carried_of_over hlo]
      exact Nat.zero_le _
    · have hlo' : ¬ (enter max w).1.Over width lo := by
        rw [Window.Over, start_enter]
        exact hlo
      rw [carried_of_running hlo, carried_of_running hlo']
      exact count_le_enter max w

/-- An interval within a running window admits what the window has room for. -/
theorem span_running (hwidth : 0 < width) (lo : Nat) {s n hi : Nat} (hT : T k = some ⟨s, n⟩)
    (hn : n ≤ max) (hsorted : calls.Pairwise fun c c' => c.2 ≤ c'.2) (hhi : hi ≤ s + width) :
    span k lo hi (calls.zip (answers width max T calls)) + n ≤ max := by
  have hrun := admitted_running width hT hn hsorted
  rw [← List.countP_eq_length_filter, List.countP_filter] at hrun
  refine (Nat.add_le_add_right (List.countP_mono_left fun x _ hx => ?_) n).trans hrun
  obtain ⟨hk, _, hhi', hadm⟩ : x.1.1 = k ∧ lo ≤ x.1.2 ∧ x.1.2 < hi ∧ x.2 = true := by
    simpa using hx
  simp only [Bool.and_eq_true, decide_eq_true_eq]
  exact ⟨hadm, hk, by omega⟩

/-- Calls of other keys, and calls before an interval, are not in it. -/
theorem span_skip {lo hi : Nat} (h : c.1 ≠ k ∨ c.2 < lo) (a : Bool)
    (calls : List (Call K × Bool)) : span k lo hi ((c, a) :: calls) = span k lo hi calls := by
  rw [span_cons, if_neg]
  · rfl
  · rintro ⟨hk, hlo, _⟩
    rcases h with h | h
    · exact h hk
    · exact absurd hlo (Nat.not_le_of_lt h)

/-- **An instant** admits no more calls of a key than a window. -/
theorem instant_le (hwidth : 0 < width) (t : Nat) (h : Sane max T k calls)
    (hsorted : calls.Pairwise fun c c' => c.2 ≤ c'.2) :
    span k t (t + 1) (calls.zip (answers width max T calls)) + carried width t (T k) ≤ max := by
  induction calls generalizing T with
  | nil =>
      rw [answers, List.zip_nil_left, span, List.countP_nil, Nat.zero_add]
      exact carried_le width t h.count
  | cons c calls ih =>
      obtain ⟨hlater, hsorted'⟩ := List.pairwise_cons.mp hsorted
      have hrest := ih (h.hit width hlater) hsorted'
      rw [answers, List.zip_cons_cons]
      by_cases hk : c.1 = k
      · subst hk
        rcases lt_trichotomy c.2 t with hlt | rfl | hgt
        · rw [span_skip (.inr hlt)]
          exact (Nat.add_le_add_left (carried_hit hlt.le) _).trans hrest
        · -- the call counts in the window that runs now
          have hnow : carried width c.2 (T c.1) = (current width c.2 (T c.1)).count ∧
              ¬ (current width c.2 (T c.1)).Over width c.2 := by
            rcases current_cases width c.2 (T c.1) with ⟨heq, hover⟩ | ⟨w, hw, hrun, heq⟩
            · rw [heq]
              refine ⟨?_, show ¬ width ≤ c.2 - c.2 by omega⟩
              cases hT : T c.1 with
              | none => rfl
              | some w => exact carried_of_over (hover w hT)
            · rw [heq, hw]
              exact ⟨carried_of_running hrun, hrun⟩
          obtain ⟨hcar, hrun⟩ := hnow
          have hnext := hit_self width max T c
          rw [fst_enter max (current width c.2 (T c.1)).start _] at hnext
          have hcar' : carried width c.2 ((FixedWindow.hit width max T c).1 c.1) =
              (current width c.2 (T c.1)).count +
                if (FixedWindow.hit width max T c).2 then 1 else 0 := by
            rw [hnext]
            exact carried_of_running hrun
          have hhead := span_cons_le c.1 c.2 (c.2 + 1) c (FixedWindow.hit width max T c).2
            (calls.zip (answers width max (FixedWindow.hit width max T c).1 calls))
          rw [hcar'] at hrest
          rw [hcar]
          omega
        · have hnone : span c.1 t (t + 1) ((c, (FixedWindow.hit width max T c).2) ::
              calls.zip (answers width max (FixedWindow.hit width max T c).1 calls)) = 0 := by
            refine List.countP_eq_zero.mpr fun x hx hin => ?_
            have hle : c.2 ≤ x.1.2 := by
              rcases List.mem_cons.mp hx with rfl | hx
              · exact le_rfl
              · exact hlater _ (List.of_mem_zip hx).1
            have hin' := (of_decide_eq_true hin).2.2.1
            omega
          rw [hnone, Nat.zero_add]
          exact carried_le width t h.count
      · rw [span_skip (.inl hk)]
        rwa [hit_of_ne (Ne.symm hk)] at hrest

/-- **An interval as long as a window** admits no more calls of a key than two. -/
theorem span_le (hwidth : 0 < width) {lo hi : Nat} (hhi : hi ≤ lo + width)
    (h : Sane max T k calls) (hsorted : calls.Pairwise fun c c' => c.2 ≤ c'.2) :
    span k lo hi (calls.zip (answers width max T calls)) + carried width lo (T k) ≤
      2 * max := by
  induction calls generalizing T with
  | nil =>
      rw [answers, List.zip_nil_left, span, List.countP_nil, Nat.zero_add]
      have hle := carried_le width lo h.count
      omega
  | cons c calls ih =>
      obtain ⟨hlater, hsorted'⟩ := List.pairwise_cons.mp hsorted
      have hrest := ih (h.hit width hlater) hsorted'
      rw [answers, List.zip_cons_cons]
      by_cases hk : c.1 = k
      · subst hk
        rcases lt_or_ge c.2 lo with hlt | hge
        · rw [span_skip (.inr hlt)]
          exact (Nat.add_le_add_left (carried_hit hlt.le) _).trans hrest
        · have hle := carried_le width lo h.count
          have hnext := hit_self width max T c
          rw [fst_enter max (current width c.2 (T c.1)).start _] at hnext
          have hhead := span_cons_le c.1 lo hi c (FixedWindow.hit width max T c).2
            (calls.zip (answers width max (FixedWindow.hit width max T c).1 calls))
          rcases current_cases width c.2 (T c.1) with ⟨heq, _⟩ | ⟨w, hw, hrun, heq⟩
          · -- it opens a window, which lasts until the interval is over
            have hcount : (enter max ⟨c.2, 0⟩).1.count ≤ max := count_enter_le (Nat.zero_le _)
            rw [fst_enter] at hcount
            rw [heq] at hnext
            have hopened := span_running hwidth lo hnext hcount hsorted'
              (by omega : hi ≤ c.2 + width)
            rw [← heq, ← hit_snd] at hopened
            omega
          · have hlo : ¬ w.Over width lo := by
              intro hover
              have hover' : width ≤ lo - w.start := hover
              exact hrun (show width ≤ c.2 - w.start by omega)
            have hcar' : carried width lo ((FixedWindow.hit width max T c).1 c.1) =
                w.count + if (FixedWindow.hit width max T c).2 then 1 else 0 := by
              rw [hnext, hit_snd, heq]
              exact carried_of_running hlo
            rw [hcar'] at hrest
            rw [hw, carried_of_running hlo]
            omega
      · rw [span_skip (.inl hk)]
        rwa [hit_of_ne (Ne.symm hk)] at hrest

end Table

end Dokan.Verified.FixedWindow
