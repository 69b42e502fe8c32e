import Mathlib

/-!
# Stores under content addresses

`addr` gives every content its address; it may give two contents one.  A store
holds at most one content under an address, and only one of that address: the
first that was put there since the address was last swept.

A class of contents is *apart* if no two of them share an address.

## Main results

* `Store.Within.put`, `Store.Within.sweep` — a store holds nothing but what was
  put there.
* `Store.Within.eq_of_apart` — among contents that are apart, what is found under
  the address of one is that one.
-/

namespace Dokan.Verified.ContentStore

universe u v

variable {K : Type u} {B : Type v}

/-- Contents under their addresses. -/
structure Store (addr : B → K) where
  get? : K → Option B
  sound : ∀ k b, get? k = some b → addr b = k

/-- No two contents of the class have one address. -/
def Apart (addr : B → K) (P : B → Prop) : Prop :=
  ∀ b c, P b → P c → addr b = addr c → b = c

namespace Store

variable {addr : B → K}

/-- Nothing is there. -/
def empty : Store addr where
  get? _ := none
  sound := by
    rintro k b ⟨⟩

/-- Put a content under its address; one that is there stays. -/
def put [DecidableEq K] (s : Store addr) (b : B) : Store addr where
  get? k := if k = addr b then some ((s.get? k).getD b) else s.get? k
  sound := by
    intro k c h
    split_ifs at h with hk
    · cases hold : s.get? k with
      | none =>
          rw [hold] at h
          cases h
          exact hk.symm
      | some old =>
          rw [hold] at h
          cases h
          exact s.sound k _ hold
    · exact s.sound k c h

/-- Drop what is under some addresses. -/
def sweep (s : Store addr) (gone : K → Bool) : Store addr where
  get? k := if gone k then none else s.get? k
  sound := by
    intro k b h
    split_ifs at h
    exact s.sound k b h

/-- Everything in the store is of the class. -/
def Within (s : Store addr) (P : B → Prop) : Prop := ∀ k b, s.get? k = some b → P b

section Lemmas

variable {s : Store addr} {P Q : B → Prop} {b c : B} {k : K}

@[simp] theorem get?_empty : (empty : Store addr).get? k = none := rfl

theorem within_empty : (empty : Store addr).Within P := by
  rintro k b ⟨⟩

theorem Within.mono (h : s.Within P) (hPQ : ∀ b, P b → Q b) : s.Within Q :=
  fun k b hb => hPQ b (h k b hb)

theorem get?_put [DecidableEq K] :
    (s.put b).get? k = if k = addr b then some ((s.get? k).getD b) else s.get? k := rfl

theorem get?_sweep (gone : K → Bool) :
    (s.sweep gone).get? k = if gone k then none else s.get? k := rfl

/-- What is in a store after a put was there, or was put. -/
theorem get?_of_put [DecidableEq K] (h : (s.put b).get? k = some c) :
    s.get? k = some c ∨ c = b := by
  rw [get?_put] at h
  split_ifs at h
  · cases hold : s.get? k with
    | none =>
        rw [hold] at h
        exact .inr (Option.some.inj h).symm
    | some old =>
        rw [hold] at h
        exact .inl h
  · exact .inl h

theorem Within.put [DecidableEq K] (h : s.Within P) (hb : P b) : (s.put b).Within P := by
  intro k c hc
  rcases get?_of_put hc with hold | rfl
  · exact h k c hold
  · exact hb

theorem Within.sweep (h : s.Within P) (gone : K → Bool) : (s.sweep gone).Within P := by
  intro k b hb
  rw [get?_sweep] at hb
  split_ifs at hb
  exact h k b hb

/-- **What comes back.**  A content under the address of another is that content, if
their class is apart. -/
theorem Within.eq_of_apart (h : s.Within P) (hP : Apart addr P) (hb : P b)
    (hc : s.get? (addr b) = some c) : c = b :=
  hP c b (h _ c hc) hb (s.sound _ c hc)

/-- What was put is there: the content itself, or one of the same address. -/
theorem isSome_get?_put [DecidableEq K] : ((s.put b).get? k).isSome =
    (decide (k = addr b) || (s.get? k).isSome) := by
  rw [get?_put]
  split_ifs with hk
  · simp [hk]
  · simp [hk]

theorem isSome_get?_sweep (gone : K → Bool) :
    ((s.sweep gone).get? k).isSome = (!gone k && (s.get? k).isSome) := by
  rw [get?_sweep]
  split_ifs with hk
  · simp [hk]
  · simp [hk]

end Lemmas

end Store

end Dokan.Verified.ContentStore
