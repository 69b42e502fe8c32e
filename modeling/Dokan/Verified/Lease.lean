import Mathlib

/-!
# Leased ownership of one item

An item of a shared table is *free*, *taken* or *closed*.  Nothing in the
table says who took it: ownership is only implicit in the phase and in a
timestamp `beat`, and a reaper frees every taken item whose timestamp is
older than the lease.  This module is the abstract protocol behind such a
table, for one item and any number of owners.

An owner works on the item (`working`), closes it while still working
(`finished`), and after the work may still decide to put it back
(`deciding`).  The assumption under which the protocol is safe is stated on
the clock: time never passes the last heartbeat of a working owner by more
than the lease (`Timely`).

## Main results

* `Inv.step` — the invariant tying every live owner to a fresh timestamp is
  kept by every timely step.
* `Inv.mutex` — at most one live owner.
* `Inv.not_stale` — the reaper's test fails on an item with a working owner.
-/

namespace Dokan.Verified.Lease

universe u

/-- What the table says about the item. -/
inductive Phase
  | free
  | taken
  | closed
deriving DecidableEq, Repr

/-- How far a live owner is. -/
inductive Mode
  | working
  | finished
  | deciding
deriving DecidableEq, Repr

/-- A live owner, with the time of its last heartbeat. -/
structure Hold where
  mode : Mode
  last : Nat

/-- The owner is still inside the work the heartbeat covers. -/
def Hold.Inside (k : Hold) : Prop := k.mode ≠ .deciding

/-- One item, its clock and its live owners. -/
structure State (H : Type u) where
  now : Nat
  phase : Phase
  beat : Nat
  holder : H → Option Hold

variable {H : Type u}

section Steps

variable [DecidableEq H]

/-- Replace what is known about owner `h`. -/
def State.setHolder (s : State H) (h : H) (k : Option Hold) : State H :=
  { s with holder := Function.update s.holder h k }

/-- The steps of the protocol. -/
inductive Step (lease : Nat) : State H → State H → Prop
  /-- Time passes. -/
  | tick (s : State H) (d : Nat) : Step lease s { s with now := s.now + d }
  /-- An unowned item is offered again. -/
  | offer (s : State H) (b : Nat) (hnone : ∀ h, s.holder h = none) :
      Step lease s { s with phase := .free, beat := b }
  /-- `h` takes a free item. -/
  | take (s : State H) (h : H) (hfree : s.phase = .free) :
      Step lease s
        { (s.setHolder h (some ⟨.working, s.now⟩)) with
            phase := .taken, beat := s.now }
  /-- `h` beats; only a taken item records it. -/
  | beat (s : State H) (h : H) (k : Hold) (hk : s.holder h = some k)
      (b : Nat) (hb : s.phase = .taken → b = s.now) :
      Step lease s
        { (s.setHolder h (some { k with last := s.now })) with beat := b }
  /-- `h` closes the item from inside its work. -/
  | finish (s : State H) (h : H) (k : Hold) (hk : s.holder h = some k)
      (hin : k.Inside) (b : Nat) :
      Step lease s
        { (s.setHolder h (some { k with mode := .finished })) with
            phase := .closed, beat := b }
  /-- The work of `h` is over; it may still put the item back. -/
  | decide (s : State H) (h : H) (k : Hold) (hk : s.holder h = some k)
      (hin : k.mode = .finished) :
      Step lease s (s.setHolder h (some { k with mode := .deciding }))
  /-- `h` puts the item back and forgets it. -/
  | putBack (s : State H) (h : H) (k : Hold) (hk : s.holder h = some k)
      (hd : k.mode = .deciding) (b : Nat) :
      Step lease s { (s.setHolder h none) with phase := .free, beat := b }
  /-- `h` forgets the item, or dies. -/
  | leave (s : State H) (h : H) : Step lease s (s.setHolder h none)
  /-- Every owner in `dead` dies at once. -/
  | die (s : State H) (dead : H → Bool) :
      Step lease s
        { s with holder := fun h => if dead h then none else s.holder h }
  /-- Somebody who does not own the item closes it. -/
  | shut (s : State H) (b : Nat) :
      Step lease s { s with phase := .closed, beat := b }
  /-- The reaper frees a taken item whose timestamp is older than the lease. -/
  | reap (s : State H) (hp : s.phase = .taken) (hstale : s.beat + lease < s.now)
      (b : Nat) : Step lease s { s with phase := .free, beat := b }

end Steps

/-- No owner inside its work has been silent for longer than the lease. -/
def Timely (lease : Nat) (s : State H) : Prop :=
  ∀ h k, s.holder h = some k → k.Inside → s.now ≤ k.last + lease

/-- The invariant tying every live owner to the item. -/
structure Inv (lease : Nat) (s : State H) : Prop where
  free : s.phase = .free → ∀ h, s.holder h = none
  unique : ∀ h h' k k', s.holder h = some k → s.holder h' = some k' → h = h'
  fresh : ∀ h k, s.holder h = some k → k.mode = .working →
    s.phase = .taken → k.last ≤ s.beat
  closed : ∀ h k, s.holder h = some k → k.mode ≠ .working → s.phase = .closed
  timely : Timely lease s

variable {lease : Nat} {s s' : State H}

/-- At most one live owner. -/
theorem Inv.mutex (hI : Inv lease s) {h h' : H} {k k' : Hold}
    (hk : s.holder h = some k) (hk' : s.holder h' = some k') : h = h' :=
  hI.unique h h' k k' hk hk'

/-- The reaper's test fails on a taken item with an owner inside its work. -/
theorem Inv.not_stale (hI : Inv lease s) {h : H} {k : Hold}
    (hk : s.holder h = some k) (hin : k.Inside) (hp : s.phase = .taken) :
    ¬ s.beat + lease < s.now := by
  have hwork : k.mode = .working := by
    by_contra hmode
    have hclosed := hI.closed h k hk hmode
    rw [hp] at hclosed
    cases hclosed
  have hfresh := hI.fresh h k hk hwork hp
  have htime := hI.timely h k hk hin
  omega

/-- A taken item the reaper may free has no live owner. -/
theorem Inv.no_holder_of_stale (hI : Inv lease s) (hp : s.phase = .taken)
    (hstale : s.beat + lease < s.now) (h : H) : s.holder h = none := by
  cases hk : s.holder h with
  | none => rfl
  | some k =>
      exfalso
      by_cases hin : k.Inside
      · exact hI.not_stale hk hin hp hstale
      · have hmode : k.mode ≠ .working := by
          intro hw
          exact hin (by simp [Hold.Inside, hw])
        have hclosed := hI.closed h k hk hmode
        rw [hp] at hclosed
        cases hclosed

/-- An item without live owners satisfies the invariant in any phase. -/
theorem Inv.of_no_holder (hnone : ∀ h, s.holder h = none) : Inv lease s where
  free := fun _ => hnone
  unique := by
    intro h h' k k' hk
    rw [hnone h] at hk
    cases hk
  fresh := by
    intro h k hk
    rw [hnone h] at hk
    cases hk
  closed := by
    intro h k hk
    rw [hnone h] at hk
    cases hk
  timely := by
    intro h k hk
    rw [hnone h] at hk
    cases hk

/-- Losing owners, and nothing else, keeps the invariant. -/
theorem Inv.shrink (hI : Inv lease s)
    (hsub : ∀ h k, s'.holder h = some k → s.holder h = some k)
    (hnow : s'.now = s.now) (hphase : s'.phase = s.phase)
    (hbeat : s'.beat = s.beat) : Inv lease s' where
  free := by
    intro hp h
    cases hk : s'.holder h with
    | none => rfl
    | some k =>
        rw [hphase] at hp
        have hold := hsub h k hk
        rw [hI.free hp h] at hold
        cases hold
  unique := fun h h' k k' hk hk' =>
    hI.unique h h' k k' (hsub h k hk) (hsub h' k' hk')
  fresh := by
    intro h k hk hw hp
    rw [hphase] at hp
    rw [hbeat]
    exact hI.fresh h k (hsub h k hk) hw hp
  closed := by
    intro h k hk hm
    rw [hphase]
    exact hI.closed h k (hsub h k hk) hm
  timely := by
    intro h k hk hin
    rw [hnow]
    exact hI.timely h k (hsub h k hk) hin

theorem holder_none_of_free_and_some (hfree : ∀ h, s.holder h = none)
    {h : H} {k : Hold} (hk : s.holder h = some k) : False := by
  rw [hfree h] at hk
  cases hk

variable [DecidableEq H]

/-- What an owner of the updated item was before the update. -/
theorem setHolder_some {h h' : H} {o : Option Hold} {k : Hold}
    (hk : (s.setHolder h o).holder h' = some k) :
    (h' = h ∧ o = some k) ∨ (h' ≠ h ∧ s.holder h' = some k) := by
  by_cases heq : h' = h
  · subst heq
    simp only [State.setHolder, Function.update_self] at hk
    exact Or.inl ⟨rfl, hk⟩
  · simp only [State.setHolder, Function.update_of_ne heq] at hk
    exact Or.inr ⟨heq, hk⟩

/-- Rewriting what is known about the only owner leaves at most one owner. -/
theorem Inv.unique_setHolder (hI : Inv lease s) {h : H} {k : Hold}
    (hk : s.holder h = some k) (o : Option Hold) {h₁ h₂ : H} {k₁ k₂ : Hold}
    (hk₁ : (s.setHolder h o).holder h₁ = some k₁)
    (hk₂ : (s.setHolder h o).holder h₂ = some k₂) : h₁ = h₂ := by
  have honly : ∀ h' k', (s.setHolder h o).holder h' = some k' → h' = h := by
    intro h' k' hk'
    rcases setHolder_some hk' with ⟨heq, _⟩ | ⟨_, hold⟩
    · exact heq
    · exact hI.unique _ _ _ _ hold hk
  rw [honly h₁ k₁ hk₁, honly h₂ k₂ hk₂]

/-- **Step rule.**  Every timely step keeps the invariant. -/
theorem Inv.step (hI : Inv lease s) (hstep : Step lease s s')
    (htime : Timely lease s') : Inv lease s' := by
  cases hstep with
  | tick d => exact { hI with timely := htime }
  | offer b hnone => exact Inv.of_no_holder hnone
  | take h hfree =>
      have hnone := hI.free hfree
      have honly : ∀ h' k, (s.setHolder h (some ⟨.working, s.now⟩)).holder h' =
          some k → h' = h ∧ k = ⟨.working, s.now⟩ := by
        intro h' k hk
        rcases setHolder_some hk with ⟨rfl, hsome⟩ | ⟨_, hold⟩
        · exact ⟨rfl, (Option.some.inj hsome).symm⟩
        · exact (holder_none_of_free_and_some hnone hold).elim
      refine ⟨?_, ?_, ?_, ?_, htime⟩
      · intro hp
        cases hp
      · intro h₁ h₂ k₁ k₂ hk₁ hk₂
        rw [(honly h₁ k₁ hk₁).1, (honly h₂ k₂ hk₂).1]
      · intro h₁ k₁ hk₁ _ _
        rw [(honly h₁ k₁ hk₁).2]
      · intro h₁ k₁ hk₁ hmode
        rw [(honly h₁ k₁ hk₁).2] at hmode
        exact (hmode rfl).elim
  | beat h k hk b hb =>
      refine ⟨?_, ?_, ?_, ?_, htime⟩
      · intro hp
        exact (holder_none_of_free_and_some (hI.free hp) hk).elim
      · intro h₁ h₂ k₁ k₂ hk₁ hk₂
        exact hI.unique_setHolder hk _ hk₁ hk₂
      · intro h₁ k₁ hk₁ hw hp
        rcases setHolder_some hk₁ with ⟨rfl, hsome⟩ | ⟨hne, h₁'⟩
        · cases hsome
          exact Nat.le_of_eq (hb hp).symm
        · exact (hne (hI.unique _ _ _ _ h₁' hk)).elim
      · intro h₁ k₁ hk₁ hmode
        rcases setHolder_some hk₁ with ⟨rfl, hsome⟩ | ⟨_, h₁'⟩
        · cases hsome
          exact hI.closed _ _ hk hmode
        · exact hI.closed _ _ h₁' hmode
  | finish h k hk hin b =>
      refine ⟨?_, ?_, ?_, ?_, htime⟩
      · intro hp
        cases hp
      · intro h₁ h₂ k₁ k₂ hk₁ hk₂
        exact hI.unique_setHolder hk _ hk₁ hk₂
      · intro _ _ _ _ hp
        cases hp
      · intro _ _ _ _
        rfl
  | decide h k hk hin =>
      have hclosed : s.phase = .closed := hI.closed h k hk (by simp [hin])
      refine ⟨?_, ?_, ?_, ?_, htime⟩
      · intro hp
        exact (holder_none_of_free_and_some (hI.free hp) hk).elim
      · intro h₁ h₂ k₁ k₂ hk₁ hk₂
        exact hI.unique_setHolder hk _ hk₁ hk₂
      · intro _ _ _ _ hp
        have hp' : s.phase = .taken := hp
        rw [hclosed] at hp'
        cases hp'
      · intro _ _ _ _
        exact hclosed
  | putBack h k hk hd b =>
      refine Inv.of_no_holder ?_
      intro h'
      cases hk' : (s.setHolder h none).holder h' with
      | none => rfl
      | some k' =>
          rcases setHolder_some hk' with ⟨_, hnone⟩ | ⟨hne, hold⟩
          · cases hnone
          · exact (hne (hI.unique _ _ _ _ hold hk)).elim
  | leave h =>
      refine hI.shrink ?_ rfl rfl rfl
      intro h' k hk
      rcases setHolder_some hk with ⟨_, hnone⟩ | ⟨_, hold⟩
      · cases hnone
      · exact hold
  | die dead =>
      refine hI.shrink ?_ rfl rfl rfl
      intro h' k hk
      by_cases hdead : dead h'
      · simp [hdead] at hk
      · simpa [hdead] using hk
  | shut b =>
      refine ⟨?_, hI.unique, ?_, ?_, htime⟩
      · intro hp
        cases hp
      · intro _ _ _ _ hp
        cases hp
      · intro _ _ _ _
        rfl
  | reap hp hstale b =>
      exact Inv.of_no_holder (hI.no_holder_of_stale hp hstale)

end Dokan.Verified.Lease
