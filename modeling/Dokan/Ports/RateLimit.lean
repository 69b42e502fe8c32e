import Dokan.Verified.FixedWindow
import Dokan.Verified.Rows

/-!
# The rate limiter of webhooks

`FixedWindowLimiter` counts the calls of a key within windows of `window_secs`.
Its map has an entry for every key that has called; a call that finds more than
4096 entries first drops those whose window is over.  That is by age and not by
number: entries of windows that still run stay, however many there are.

## Main results

* `Sim.count` — the map behaves as the table of all windows.
* `pruning_unseen` — pruning changes no answer, and no window admits more than
  `max` calls.
* `bounded_iff` — what bounds the number of entries.
-/

namespace Dokan.Ports.RateLimit

open Dokan.Verified.FixedWindow
open Dokan.Verified.Rows

/-! ## The limiter -/

structure Entry where
  key : String
  window : Window

/-- `FixedWindowLimiter`; `inner` is a hash map, whose order nothing reads. -/
structure FixedWindowLimiter where
  windowSecs : Nat
  max : Nat
  inner : List Entry

namespace FixedWindowLimiter

def new (windowSecs max : Nat) : FixedWindowLimiter := ⟨windowSecs, max, []⟩

/-- `retain`, once the map has grown large. -/
def prune (L : FixedWindowLimiter) (now : Nat) : List Entry :=
  if L.inner.length > 4096 then
    L.inner.filter fun e => now - e.window.start < L.windowSecs
  else L.inner

/-- The rest of `check_at`, on the map `m`. -/
def count (L : FixedWindowLimiter) (m : List Entry) (key : String) (now : Nat) :
    FixedWindowLimiter × Bool :=
  let m := insertNew Entry.key m ⟨key, ⟨now, 0⟩⟩
  let w := ((find Entry.key key m).map Entry.window).getD ⟨now, 0⟩
  -- the window rolled over
  let w := if now - w.start ≥ L.windowSecs then ⟨now, 0⟩ else w
  let put (w : Window) : FixedWindowLimiter :=
    { L with inner := update Entry.key key (fun e => { e with window := w }) m }
  if w.count ≥ L.max then (put w, false) else (put ⟨w.start, w.count + 1⟩, true)

/-- `FixedWindowLimiter::check_at`; times are in seconds. -/
def checkAt (L : FixedWindowLimiter) (key : String) (now : Nat) : FixedWindowLimiter × Bool :=
  L.count (L.prune now) key now

/-- `check_at` without the pruning. -/
def checkAtUnpruned (L : FixedWindowLimiter) (key : String) (now : Nat) :
    FixedWindowLimiter × Bool :=
  L.count L.inner key now

end FixedWindowLimiter

open FixedWindowLimiter

/-- A version of `check_at`. -/
abbrev Check := FixedWindowLimiter → String → Nat → FixedWindowLimiter × Bool

/-- The answers to some calls. -/
def answersOf (check : Check) : FixedWindowLimiter → List (Call String) → List Bool
  | _, [] => []
  | L, c :: calls => (check L c.1 c.2).2 :: answersOf check (check L c.1 c.2).1 calls

/-- The limiter after some calls. -/
def afterOf (check : Check) (L : FixedWindowLimiter) (calls : List (Call String)) :
    FixedWindowLimiter :=
  calls.foldl (fun L c => (check L c.1 c.2).1) L

/-- Times do not go back. -/
def Sorted (calls : List (Call String)) : Prop := calls.Pairwise fun c c' => c.2 ≤ c'.2

/-- `WEBHOOK_LIMITER` and `WEBHOOK_IP_LIMITER`. -/
def webhookLimiter : FixedWindowLimiter := new 1 20

def webhookIpLimiter : FixedWindowLimiter := new 10 100

example : answersOf checkAt (new 10 2) [("a", 0), ("b", 3), ("a", 5), ("a", 9), ("a", 10)] =
    [true, true, true, false, true] := by
  decide

/-! ## The map and the table of all windows -/

def lookup (m : List Entry) (k : String) : Option Window := (find Entry.key k m).map Entry.window

/-- The map `m` has forgotten windows of the table `T` that are over. -/
structure MapSim (width now : Nat) (m : List Entry) (T : Table String) : Prop where
  nodup : (m.map Entry.key).Nodup
  forgets : ∀ k, Forgets width now (lookup m k) (T k)

structure Sim (width max now : Nat) (L : FixedWindowLimiter) (T : Table String) : Prop where
  windowSecs : L.windowSecs = width
  max : L.max = max
  map : MapSim width now L.inner T

section Simulation

variable {width max now t : Nat} {m : List Entry} {L : FixedWindowLimiter} {T : Table String}
  {key k : String}

theorem lookup_insertNew (m : List Entry) (e : Entry) (k : String) :
    lookup (insertNew Entry.key m e) k =
      (lookup m k).or (if e.key = k then some e.window else none) := by
  rw [lookup, find_insertNew, lookup]
  cases find Entry.key k m with
  | some _ => rfl
  | none =>
      rw [Option.none_or, Option.map_none, Option.none_or]
      split_ifs <;> rfl

theorem lookup_update (m : List Entry) (w : Window) (k : String) :
    lookup (update Entry.key key (fun e => { e with window := w }) m) k =
      if k = key then (lookup m key).map fun _ => w else lookup m k := by
  rw [lookup, find_update (f := fun e : Entry => { e with window := w }) fun _ => rfl]
  split_ifs
  · rw [lookup, Option.map_map, Option.map_map]
    rfl
  · rfl

theorem map_key_update (m : List Entry) (w : Window) :
    (update Entry.key key (fun e => { e with window := w }) m).map Entry.key =
      m.map Entry.key :=
  map_update fun _ => rfl

theorem MapSim.mono (h : MapSim width now m T) (ht : now ≤ t) : MapSim width t m T :=
  ⟨h.nodup, fun k => (h.forgets k).mono ht⟩

/-- Dropping windows that are over is forgetting them. -/
theorem MapSim.filter (h : MapSim width now m T) :
    MapSim width now (m.filter fun e => now - e.window.start < width) T := by
  refine ⟨(List.filter_sublist.map _).nodup h.nodup, fun k => ?_⟩
  have hk := h.forgets k
  rw [lookup, find_filter h.nodup]
  rw [lookup] at hk
  cases hfind : find Entry.key k m with
  | none =>
      rw [hfind] at hk
      exact hk
  | some e =>
      rw [hfind, Option.map_some] at hk
      rw [Option.filter_some]
      split_ifs with hrun
      · exact hk
      · refine .inr ⟨rfl, fun w hw => ?_⟩
        rcases hk with heq | ⟨hnone, _⟩
        · rw [← heq] at hw
          cases hw
          exact Nat.le_of_not_lt (by simpa using hrun)
        · cases hnone

theorem Sim.prune (h : Sim width max now L T) : MapSim width now (L.prune now) T := by
  unfold FixedWindowLimiter.prune
  split_ifs
  · have hfilter := h.map.filter
    rwa [← h.windowSecs] at hfilter ⊢
  · exact h.map

/-- The window a call counts in. -/
theorem window_eq (h : MapSim width now m T) (key : String) :
    (let w := (lookup (insertNew Entry.key m ⟨key, ⟨now, 0⟩⟩) key).getD ⟨now, 0⟩
      if now - w.start ≥ width then ⟨now, 0⟩ else w) = current width now (T key) := by
  rw [← current_of_forgets (h.forgets key), lookup_insertNew, if_pos rfl]
  cases lookup m key with
  | some w => rfl
  | none =>
      show (if now - now ≥ width then (⟨now, 0⟩ : Window) else ⟨now, 0⟩) = ⟨now, 0⟩
      exact ite_self _

/-- **A call on the map is a call on the table.** -/
theorem Sim.count (hL : L.windowSecs = width ∧ L.max = max) (h : MapSim width now m T) :
    (L.count m key now).2 = (hit width max T (key, now)).2 ∧
      Sim width max now (L.count m key now).1 (hit width max T (key, now)).1 := by
  obtain ⟨rfl, rfl⟩ := hL
  have hwindow := window_eq h key
  rw [lookup] at hwindow
  -- what is put under the key
  have hput : ∀ w, MapSim L.windowSecs now
      (update Entry.key key (fun e => { e with window := w })
        (insertNew Entry.key m ⟨key, ⟨now, 0⟩⟩)) (Function.update T key (some w)) := by
    intro w
    refine ⟨?_, fun k => ?_⟩
    · rw [map_key_update]
      exact nodup_insertNew h.nodup _
    · rw [lookup_update]
      split_ifs with hk
      · subst hk
        rw [Function.update_self, lookup_insertNew, if_pos rfl]
        refine .inl ?_
        cases lookup m k <;> rfl
      · rw [Function.update_of_ne hk, lookup_insertNew, if_neg (Ne.symm hk), Option.or_none]
        exact h.forgets k
  unfold FixedWindowLimiter.count
  simp only [hwindow, hit, enter]
  split_ifs
  · exact ⟨rfl, rfl, rfl, hput _⟩
  · exact ⟨rfl, rfl, rfl, hput _⟩

/-- A version of `check_at` behaves as the table of all windows. -/
def Follows (check : Check) : Prop :=
  ∀ width max t L T key now, Sim width max t L T → t ≤ now →
    (check L key now).2 = (hit width max T (key, now)).2 ∧
      Sim width max now (check L key now).1 (hit width max T (key, now)).1

theorem follows_checkAt : Follows checkAt := by
  intro width max t L T key now h ht
  have hnow : Sim width max now L T := ⟨h.windowSecs, h.max, h.map.mono ht⟩
  exact Sim.count ⟨h.windowSecs, h.max⟩ hnow.prune

theorem follows_checkAtUnpruned : Follows checkAtUnpruned :=
  fun _ _ _ _ _ _ _ h ht => Sim.count ⟨h.windowSecs, h.max⟩ (h.map.mono ht)

theorem sim_new (width max : Nat) : Sim width max 0 (new width max) Table.empty :=
  ⟨rfl, rfl, List.nodup_nil, fun _ => .refl _ _ _⟩

variable {check : Check} {calls : List (Call String)}

/-- **The same answers.** -/
theorem answersOf_eq (hcheck : Follows check) (h : Sim width max t L T)
    (hsorted : Sorted calls) (ht : ∀ c ∈ calls, t ≤ c.2) :
    answersOf check L calls = answers width max T calls := by
  induction calls generalizing t L T with
  | nil => rfl
  | cons c calls ih =>
      obtain ⟨hlater, hsorted⟩ := List.pairwise_cons.mp hsorted
      obtain ⟨hans, hsim⟩ := hcheck _ _ _ _ _ c.1 c.2 h (ht c List.mem_cons_self)
      rw [answersOf, answers, hans, ih hsim hsorted hlater]

/-- The limiter after some calls, of which `c` is the last. -/
theorem sim_after (hcheck : Follows check) (h : Sim width max t L T) {c : Call String}
    (hsorted : Sorted (calls ++ [c])) (ht : ∀ c' ∈ calls ++ [c], t ≤ c'.2) :
    Sim width max c.2 (afterOf check L (calls ++ [c])) (after width max T (calls ++ [c])) := by
  induction calls generalizing t L T with
  | nil => exact (hcheck _ _ _ _ _ c.1 c.2 h (ht c (by simp))).2
  | cons b calls ih =>
      obtain ⟨hlater, hsorted⟩ := List.pairwise_cons.mp hsorted
      exact ih (hcheck _ _ _ _ _ b.1 b.2 h (ht b (by simp))).2 hsorted hlater

end Simulation

/-- **Pruning is not seen.**  For calls in the order of their times, the limiter
answers as the one whose map is never pruned; and from a call that opens a window
of its key until that window is over, it admits at most `max` calls of the key. -/
theorem pruning_unseen (windowSecs max : Nat) {calls : List (Call String)}
    (hsorted : Sorted calls) :
    answersOf checkAt (new windowSecs max) calls =
        answersOf checkAtUnpruned (new windowSecs max) calls ∧
      ∀ earlier c a later,
        calls.zip (answersOf checkAt (new windowSecs max) calls) = earlier ++ (c, a) :: later →
        Opens windowSecs (earlier.map Prod.fst) c → admitted windowSecs c a later ≤ max := by
  have hans : ∀ {check : Check}, Follows check →
      answersOf check (new windowSecs max) calls = answers windowSecs max Table.empty calls :=
    fun hcheck => answersOf_eq hcheck (sim_new _ _) hsorted fun _ _ => Nat.zero_le _
  refine ⟨(hans follows_checkAt).trans (hans follows_checkAtUnpruned).symm, ?_⟩
  intro earlier c a later hzip hopens
  rw [hans follows_checkAt] at hzip
  have hlen : calls.length = (answers windowSecs max Table.empty calls).length := by simp
  -- calls and answers, cut at `c`
  have hcalls : calls = earlier.map Prod.fst ++ c :: later.map Prod.fst := by
    have h := congrArg (List.map Prod.fst) hzip
    rwa [List.map_fst_zip hlen.le, List.map_append, List.map_cons] at h
  have hsnd : answers windowSecs max Table.empty calls =
      earlier.map Prod.snd ++ a :: later.map Prod.snd := by
    have h := congrArg (List.map Prod.snd) hzip
    rwa [List.map_snd_zip hlen.ge, List.map_append, List.map_cons] at h
  rw [hcalls, answers_append, answers] at hsnd
  obtain ⟨_, hrest⟩ := List.append_inj hsnd (by simp)
  obtain ⟨ha, hlater⟩ := List.cons.inj hrest
  rw [← after_concat] at hlater
  have hbound := admitted_le max (hcalls ▸ hsorted) hopens
  rw [ha, hlater, List.zip_map', List.map_id''] at hbound
  · exact hbound
  · exact fun _ => rfl

/-- A key that calls twice within its window of ten seconds, and again after it. -/
def twice : List (Call String) := [("a", 0), ("b", 3), ("a", 5), ("a", 9), ("a", 10)]

theorem pruning_unseen_twice :
    answersOf checkAt (new 10 2) twice = answersOf checkAtUnpruned (new 10 2) twice ∧
      ∀ earlier c a later,
        twice.zip (answersOf checkAt (new 10 2) twice) = earlier ++ (c, a) :: later →
        Opens 10 (earlier.map Prod.fst) c → admitted 10 c a later ≤ 2 :=
  pruning_unseen 10 2 (show Sorted twice by unfold Sorted; decide)

/-! ## The number of entries -/

/-- The keys whose window still runs at `now`. -/
def running (width : Nat) (calls : List (Call String)) (now : Nat) : List String :=
  (calls.map Prod.fst).dedup.filter fun k =>
    (opened width (times k calls)).any fun s => now - s < width

section Entries

variable {width max now : Nat} {m : List Entry} {L : FixedWindowLimiter} {T : Table String}
  {calls : List (Call String)} {k : String} {c : Call String}

theorem mem_running :
    k ∈ running width calls now ↔ ∃ s, opened width (times k calls) = some s ∧ now - s < width := by
  rw [running, List.mem_filter, List.mem_dedup, Option.any_eq_true]
  constructor
  · rintro ⟨_, s, hs, hrun⟩
    exact ⟨s, hs, of_decide_eq_true hrun⟩
  · rintro ⟨s, hs, hrun⟩
    refine ⟨?_, s, hs, decide_eq_true hrun⟩
    -- a key without a call has no window
    by_contra hk
    have hnone : times k calls = [] := by
      rw [times, List.map_eq_nil_iff, List.filter_eq_nil_iff]
      intro c hc heq
      exact hk (of_decide_eq_true heq ▸ List.mem_map_of_mem hc)
    rw [hnone] at hs
    cases hs

theorem nodup_running (width : Nat) (calls : List (Call String)) (now : Nat) :
    (running width calls now).Nodup :=
  (List.nodup_dedup _).filter _

/-- The keys with a running window, from the table. -/
theorem mem_running_iff (max : Nat) :
    k ∈ running width calls now ↔
      ∃ w, after width max Table.empty calls k = some w ∧ ¬ w.Over width now := by
  rw [mem_running, ← start_after width max]
  constructor
  · rintro ⟨s, hs, hrun⟩
    obtain ⟨w, hw, rfl⟩ := Option.map_eq_some_iff.mp hs
    exact ⟨w, hw, Nat.not_le_of_lt hrun⟩
  · rintro ⟨w, hw, hrun⟩
    exact ⟨w.start, by rw [hw, Option.map_some], Nat.lt_of_not_le hrun⟩

theorem mem_key_of_lookup {w : Window} (h : lookup m k = some w) : k ∈ m.map Entry.key := by
  obtain ⟨e, he, _⟩ := Option.map_eq_some_iff.mp h
  rw [← key_of_find he]
  exact List.mem_map_of_mem (mem_of_find he)

/-- **Every running window has its entry.** -/
theorem length_running_le (h : MapSim width now m (after width max Table.empty calls)) :
    (running width calls now).length ≤ m.length := by
  rw [← List.length_map (f := Entry.key)]
  refine ((nodup_running width calls now).subperm fun k hk => ?_).length_le
  obtain ⟨w, hw, hrun⟩ := (mem_running_iff max).mp hk
  exact mem_key_of_lookup ((h.forgets k).eq_some hw hrun)

theorem length_insertNew_le (m : List Entry) (e : Entry) :
    (insertNew Entry.key m e).length ≤ m.length + 1 := by
  rw [insertNew]
  split_ifs <;> simp

/-- The keys after a call: those of the map, and the one that calls. -/
theorem keys_count (L : FixedWindowLimiter) (m : List Entry) (key : String) (now : Nat) :
    ((L.count m key now).1.inner).map Entry.key =
      (insertNew Entry.key m ⟨key, ⟨now, 0⟩⟩).map Entry.key := by
  simp only [FixedWindowLimiter.count]
  split_ifs <;> exact map_key_update _ _

/-- The window of the key that has just called is running. -/
theorem running_self (hwidth : 0 < width) (calls : List (Call String)) (c : Call String) :
    c.1 ∈ running width (calls ++ [c]) c.2 := by
  rw [mem_running_iff 0, after_concat]
  refine ⟨_, hit_self width 0 _ c, ?_⟩
  rw [Window.Over, start_enter]
  cases hw : after width 0 Table.empty calls c.1 with
  | none =>
      show ¬ width ≤ c.2 - c.2
      omega
  | some w =>
      by_cases hover : w.Over width c.2
      · rw [current_of_over hover]
        show ¬ width ≤ c.2 - c.2
        omega
      · rw [current_of_running hover]
        exact hover

/-- A limiter whose map is large keeps the entries of running windows only. -/
theorem prune_of_large (h : L.windowSecs = width) (hlarge : L.inner.length > 4096) :
    L.prune now = L.inner.filter fun e => now - e.window.start < width := by
  rw [FixedWindowLimiter.prune, if_pos hlarge, h]

/-- The key of an entry that is kept has a running window, also after another key has
called. -/
theorem running_of_mem_prune (h : Sim width max c.2 L (after width max Table.empty calls))
    (hlarge : L.inner.length > 4096) {e : Entry} (he : e ∈ L.prune c.2) (hkey : e.key ≠ c.1) :
    e.key ∈ running width (calls ++ [c]) c.2 := by
  have hlook : lookup (L.prune c.2) e.key = some e.window := by
    rw [lookup, find_of_mem h.prune.nodup he, Option.map_some]
  have hT : after width max Table.empty calls e.key = some e.window := by
    rcases h.prune.forgets e.key with heq | ⟨hnone, _⟩
    · rw [← heq, hlook]
    · rw [hlook] at hnone
      cases hnone
  have hrun : ¬ e.window.Over width c.2 := by
    rw [prune_of_large h.windowSecs hlarge, List.mem_filter] at he
    exact Nat.not_le_of_lt (of_decide_eq_true he.2)
  refine (mem_running_iff max).mpr ⟨e.window, ?_, hrun⟩
  rw [after_concat, hit_of_ne hkey, hT]

/-- **Few entries or running ones.** -/
theorem length_checkAt_le (h : Sim width max now L (after width max Table.empty calls))
    (hnow : now ≤ c.2) :
    (checkAt L c.1 c.2).1.inner.length ≤ 4097 ∨
      0 < width ∧ (checkAt L c.1 c.2).1.inner.length ≤
        (running width (calls ++ [c]) c.2).length := by
  have hlen : (checkAt L c.1 c.2).1.inner.length =
      ((insertNew Entry.key (L.prune c.2) ⟨c.1, ⟨c.2, 0⟩⟩).map Entry.key).length := by
    rw [← keys_count L, List.length_map]
    rfl
  have hle := length_insertNew_le (L.prune c.2) ⟨c.1, ⟨c.2, 0⟩⟩
  rw [← List.length_map (f := Entry.key), ← hlen] at hle
  by_cases hlarge : L.inner.length > 4096
  · rcases Nat.eq_zero_or_pos width with hzero | hpos
    · refine .inl ?_
      have hnil : L.prune c.2 = [] := by
        rw [prune_of_large h.windowSecs hlarge, List.filter_eq_nil_iff]
        intro e _ hrun
        have hlt := of_decide_eq_true hrun
        omega
      rw [hnil, List.length_nil] at hle
      omega
    · refine .inr ⟨hpos, ?_⟩
      have hsim : Sim width max c.2 L (after width max Table.empty calls) :=
        ⟨h.windowSecs, h.max, h.map.mono hnow⟩
      have hnd := nodup_insertNew hsim.prune.nodup ⟨c.1, ⟨c.2, 0⟩⟩
      rw [hlen]
      refine (hnd.subperm fun k hk => ?_).length_le
      obtain ⟨e, he, rfl⟩ := List.mem_map.mp hk
      by_cases hkey : e.key = c.1
      · rw [hkey]
        exact running_self hpos calls c
      · refine running_of_mem_prune hsim hlarge ((mem_insertNew he).resolve_right ?_) hkey
        exact fun heq => hkey (congrArg Entry.key heq)
  · refine .inl ?_
    rw [FixedWindowLimiter.prune, if_neg hlarge] at hle
    omega

end Entries

/-- The entries after some calls. -/
def size (windowSecs max : Nat) (calls : List (Call String)) : Nat :=
  (afterOf checkAt (new windowSecs max) calls).inner.length

/-- The limiter's map is bounded. -/
def Bounded (windowSecs max : Nat) : Prop :=
  ∃ bound, ∀ calls, Sorted calls → size windowSecs max calls ≤ bound

section Bound

variable {windowSecs max : Nat} {calls : List (Call String)} {c : Call String}

theorem running_le_size (windowSecs max : Nat) (hsorted : Sorted (calls ++ [c])) :
    (running windowSecs (calls ++ [c]) c.2).length ≤ size windowSecs max (calls ++ [c]) :=
  length_running_le (sim_after follows_checkAt (sim_new windowSecs max) hsorted
    fun _ _ => Nat.zero_le _).map

theorem size_le (windowSecs max : Nat) (hsorted : Sorted (calls ++ [c])) :
    size windowSecs max (calls ++ [c]) ≤ 4097 ∨ 0 < windowSecs ∧
      size windowSecs max (calls ++ [c]) ≤ (running windowSecs (calls ++ [c]) c.2).length := by
  have hsize : size windowSecs max (calls ++ [c]) =
      (checkAt (afterOf checkAt (new windowSecs max) calls) c.1 c.2).1.inner.length := by
    rw [size, afterOf, List.foldl_append]
    rfl
  rw [hsize]
  rcases List.eq_nil_or_concat calls with rfl | ⟨calls, b, rfl⟩
  · exact length_checkAt_le (sim_new windowSecs max) (Nat.zero_le _)
  · rw [List.concat_eq_append] at hsorted ⊢
    obtain ⟨hsorted, _, hlast⟩ := List.pairwise_append.mp hsorted
    exact length_checkAt_le (sim_after follows_checkAt (sim_new windowSecs max) hsorted
      fun _ _ => Nat.zero_le _) (hlast b (by simp) c (by simp))

/-- So many keys that call at once. -/
def flood (n : Nat) : List (Call String) := (List.range n).map fun i => (i.repr, 0)

theorem sorted_flood (n : Nat) : Sorted (flood n) :=
  List.pairwise_map.mpr (List.pairwise_lt_range.imp fun _ => Nat.le_refl 0)

/-- Every key of a flood has a running window. -/
theorem length_running_flood (hsecs : 0 < windowSecs) (n : Nat) :
    n ≤ (running windowSecs (flood n) 0).length := by
  have hkeys : ((flood n).map Prod.fst).Nodup := by
    rw [flood, List.map_map]
    exact List.nodup_range.map fun _ _ => Nat.repr_inj.mp
  have hall : ∀ k ∈ (flood n).map Prod.fst, k ∈ running windowSecs (flood n) 0 := by
    intro k hk
    obtain ⟨c, hc, rfl⟩ := List.mem_map.mp hk
    have hne : times c.1 (flood n) ≠ [] := by
      refine List.ne_nil_of_mem (List.mem_map_of_mem (f := Prod.snd) (a := c) ?_)
      exact List.mem_filter.mpr ⟨hc, decide_eq_true rfl⟩
    obtain ⟨s, hs, hopened⟩ := exists_opened windowSecs hne
    refine mem_running.mpr ⟨s, hopened, ?_⟩
    omega
  calc n = ((flood n).map Prod.fst).length := by simp [flood]
    _ ≤ _ := (hkeys.subperm hall).length_le

theorem size_flood (max : Nat) (hsecs : 0 < windowSecs) (n : Nat) :
    n ≤ size windowSecs max (flood n) := by
  cases n with
  | zero => exact Nat.zero_le _
  | succ n =>
      have hconcat : flood (n + 1) = flood n ++ [(n.repr, 0)] := by
        rw [flood, List.range_succ, List.map_append]
        rfl
      have hle := running_le_size windowSecs max
        (hconcat ▸ sorted_flood (n + 1))
      rw [← hconcat] at hle
      exact Nat.le_trans (length_running_flood hsecs (n + 1)) hle

/-- A flood of keys exceeds every bound within one window. -/
theorem not_bounded_of_pos (hsecs : 0 < windowSecs) : ¬ Bounded windowSecs max := by
  rintro ⟨bound, hbound⟩
  have hle := hbound (flood (bound + 1)) (sorted_flood _)
  have hge := size_flood max hsecs (bound + 1)
  omega

end Bound

/-- **What bounds the map.**  The number of entries has a bound only if windows
have no length.  On one sequence of calls a bound of at least 4097 entries holds
throughout exactly if there are never more keys with a running window. -/
theorem bounded_iff (windowSecs max : Nat) :
    (Bounded windowSecs max ↔ windowSecs = 0) ∧
      ∀ bound ≥ 4097, ∀ calls, Sorted calls →
        ((∀ earlier, earlier <+: calls → size windowSecs max earlier ≤ bound) ↔
          ∀ earlier c, earlier ++ [c] <+: calls →
            (running windowSecs (earlier ++ [c]) c.2).length ≤ bound) := by
  constructor
  · constructor
    · intro h
      by_contra hne
      exact not_bounded_of_pos (Nat.pos_of_ne_zero hne) h
    · rintro rfl
      refine ⟨4097, fun calls hsorted => ?_⟩
      rcases List.eq_nil_or_concat calls with rfl | ⟨earlier, c, rfl⟩
      · exact Nat.zero_le _
      · rw [List.concat_eq_append] at hsorted ⊢
        rcases size_le 0 max hsorted with h | ⟨h, _⟩
        · exact h
        · exact absurd h (Nat.lt_irrefl 0)
  · intro bound hbound calls hsorted
    constructor
    · intro hsize earlier c hpre
      have hearlier : Sorted (earlier ++ [c]) := hsorted.sublist hpre.sublist
      exact Nat.le_trans (running_le_size windowSecs max hearlier) (hsize _ hpre)
    · intro hrun earlier hpre
      rcases List.eq_nil_or_concat earlier with rfl | ⟨earlier, c, rfl⟩
      · exact Nat.zero_le _
      · rw [List.concat_eq_append] at hpre ⊢
        rcases size_le windowSecs max (hsorted.sublist hpre.sublist) with h | ⟨_, h⟩
        · exact Nat.le_trans h hbound
        · exact Nat.le_trans h (hrun _ _ hpre)

/-- Neither limiter in use has a bound. -/
theorem not_bounded :
    ¬ Bounded webhookLimiter.windowSecs webhookLimiter.max ∧
      ¬ Bounded webhookIpLimiter.windowSecs webhookIpLimiter.max :=
  ⟨not_bounded_of_pos (by decide), not_bounded_of_pos (by decide)⟩

end Dokan.Ports.RateLimit
