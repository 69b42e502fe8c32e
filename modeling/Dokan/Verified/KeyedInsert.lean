import Dokan.Verified.Machine

/-!
# Insert-or-recall on a table with a partial unique index

Any number of calls insert rows into one table.  A request may carry a key,
and an index makes the key unique among the rows that carry one.  An insert
that meets a *committed* row of its key does nothing; one that meets a row
some other transaction has not committed yet waits for it.  After a conflict
the call either reads the id of the row that holds the key (`recalls`) or
returns nothing.

A row may have children of its own, inserted one by one before the commit in
the same transaction.  A transaction aborts at any point, and a commit may be
acknowledged or may be lost on the way back to the caller.

## Main results

* `Inv.step`, `inv_run` — the invariant that ties calls and rows together.
* `Inv.recall_eq` — the read after a conflict finds the row of the key.
* `requests_run` — the requests of calls and rows are those that were begun.
* `run_twoCalls` — a request may meet the row of any request of its key.
* `Inv.once` — a visible row is the only row of its key, one call put it
  there, and every call of the key that returns an id returns its id.
* `Inv.children_whole` — a visible row has all its children.
-/

namespace Dokan.Verified.KeyedInsert

open Dokan.Verified

universe u

/-- What the table reads off a request. -/
structure Table (Q K D I : Type u) where
  key : Q → Option K
  recalls : Q → Bool
  children : Q → List D
  childId : D → I

/-- How far a call is. -/
inductive Phase (D : Type u)
  | starting
  | building (id : Nat) (left : List D)
  | recalling
  | inserted (id : Nat)
  | lost (id : Nat)
  | recalled (id : Nat)
  | skipped
  | failed

/-- A call and its request. -/
structure Call (Q D : Type u) where
  request : Q
  phase : Phase D

/-- A row, with the call that inserted it. -/
structure Row (Q C D : Type u) where
  request : Q
  owner : C
  committed : Bool
  children : List D

/-- The table, its id sequence and the calls made so far. -/
structure State (Q C D : Type u) where
  rows : Nat → Option (Row Q C D)
  next : Nat
  calls : C → Option (Call Q D)

variable {Q K C D I : Type u}

/-- The empty table. -/
def State.empty : State Q C D :=
  { rows := fun _ => none, next := 0, calls := fun _ => none }

/-- What a call that came back returns: the id, and whether it created it. -/
def Phase.returned : Phase D → Option (Nat × Bool)
  | .inserted id => some (id, true)
  | .recalled id => some (id, false)
  | _ => none

/-- The row a call put into the table for good. -/
def Phase.created : Phase D → Option Nat
  | .inserted id => some id
  | .lost id => some id
  | _ => none

/-- The call came back without an error. -/
def Phase.isOk : Phase D → Bool
  | .inserted _ => true
  | .recalled _ => true
  | .skipped => true
  | _ => false

/-- The steps of the calls. -/
inductive Label (Q C : Type u)
  | begin (c : C) (q : Q)
  | insert (c : C)
  | child (c : C)
  | commit (c : C)
  | commitLost (c : C)
  | readBack (c : C)
  | abort (c : C)

section Machine

variable [DecidableEq C] [DecidableEq K] [DecidableEq I]
variable (T : Table Q K D I)

/-- The row that holds a key, committed or not. -/
def State.holder (s : State Q C D) (k : K) : Option (Nat × Row Q C D) :=
  (List.range s.next).findSome? fun id =>
    (s.rows id).bind fun r => if T.key r.request = some k then some (id, r) else none

/-- Overwrite one row and one call. -/
def State.patch (s : State Q C D) (id : Nat) (r : Option (Row Q C D)) (c : C)
    (call : Call Q D) : State Q C D :=
  { s with
    rows := Function.update s.rows id r
    calls := Function.update s.calls c (some call) }

/-- Overwrite one call. -/
def State.setCall (s : State Q C D) (c : C) (call : Call Q D) : State Q C D :=
  { s with calls := Function.update s.calls c (some call) }

/-- `INSERT … ON CONFLICT DO NOTHING`.  The sequence moves even when the
insert does nothing. -/
def insert (s : State Q C D) (c : C) (q : Q) : Option (State Q C D) :=
  match (T.key q).bind (s.holder T) with
  | none =>
      some { s.patch s.next (some ⟨q, c, false, []⟩) c
              ⟨q, .building s.next (T.children q)⟩ with next := s.next + 1 }
  | some (_, r) =>
      -- an in-flight row makes the statement wait
      if r.committed then
        some { s.setCall c ⟨q, if T.recalls q then .recalling else .skipped⟩ with
                next := s.next + 1 }
      else none

/-- Insert the next child; a child id that is already there fails the whole
transaction. -/
def insertChild (s : State Q C D) (c : C) (q : Q) (id : Nat) (d : D)
    (left : List D) : Option (State Q C D) :=
  (s.rows id).map fun r =>
    if r.children.any fun e => T.childId e = T.childId d then
      s.patch id none c ⟨q, .failed⟩
    else
      s.patch id (some { r with children := r.children ++ [d] }) c
        ⟨q, .building id left⟩

/-- Make the row of a call visible. -/
def commitRow (s : State Q C D) (c : C) (q : Q) (id : Nat) (phase : Phase D) :
    Option (State Q C D) :=
  (s.rows id).map fun r => s.patch id (some { r with committed := true }) c ⟨q, phase⟩

/-- The `SELECT` after a conflict; it sees committed rows only. -/
def readBack (s : State Q C D) (c : C) (q : Q) : State Q C D :=
  match (T.key q).bind (s.holder T) with
  | none => s.setCall c ⟨q, .failed⟩
  | some (id, r) =>
      s.setCall c ⟨q, if r.committed then .recalled id else .failed⟩

/-- One step of one call. -/
def step (s : State Q C D) : Label Q C → Option (State Q C D)
  | .begin c q =>
      match s.calls c with
      | none => some (s.setCall c ⟨q, .starting⟩)
      | some _ => none
  | .insert c =>
      match s.calls c with
      | some ⟨q, .starting⟩ => insert T s c q
      | _ => none
  | .child c =>
      match s.calls c with
      | some ⟨q, .building id (d :: left)⟩ => insertChild T s c q id d left
      | _ => none
  | .commit c =>
      match s.calls c with
      | some ⟨q, .building id []⟩ => commitRow s c q id (.inserted id)
      | _ => none
  | .commitLost c =>
      match s.calls c with
      | some ⟨q, .building id []⟩ => commitRow s c q id (.lost id)
      | _ => none
  | .readBack c =>
      match s.calls c with
      | some ⟨q, .recalling⟩ => some (readBack T s c q)
      | _ => none
  | .abort c =>
      match s.calls c with
      | some ⟨q, .starting⟩ => some (s.setCall c ⟨q, .failed⟩)
      | some ⟨q, .recalling⟩ => some (s.setCall c ⟨q, .failed⟩)
      | some ⟨q, .building id _⟩ => some (s.patch id none c ⟨q, .failed⟩)
      | _ => none

end Machine

/-! ## The invariant -/

section Invariant

variable (T : Table Q K D I)

/-- A committed row of key `k`. -/
def State.Visible (s : State Q C D) (k : K) (id : Nat) : Prop :=
  ∃ r, s.rows id = some r ∧ r.committed = true ∧ T.key r.request = some k

/-- The key of a request is held by a committed row. -/
def State.Conflict (s : State Q C D) (q : Q) : Prop :=
  ∃ k id, T.key q = some k ∧ s.Visible T k id

/-- What a row says about the call that inserted it. -/
structure RowOk (s : State Q C D) (id : Nat) (r : Row Q C D) : Prop where
  bound : id < s.next
  nodup : (r.children.map T.childId).Nodup
  inFlight : r.committed = false → ∃ left,
    s.calls r.owner = some ⟨r.request, .building id left⟩ ∧
      r.children ++ left = T.children r.request
  whole : r.committed = true → r.children = T.children r.request
  settled : r.committed = true → ∃ phase,
    s.calls r.owner = some ⟨r.request, phase⟩ ∧ phase.created = some id

/-- The row `id` is the one call `c` inserted. -/
def Owns (s : State Q C D) (c : C) (q : Q) (id : Nat) (committed : Bool) : Prop :=
  ∃ r, s.rows id = some r ∧ r.owner = c ∧ r.request = q ∧ r.committed = committed

/-- What a call says about the table. -/
def CallOk (s : State Q C D) (c : C) (call : Call Q D) : Prop :=
  match call.phase with
  | .starting => True
  | .building id _ => Owns s c call.request id false
  | .recalling => T.recalls call.request = true ∧ s.Conflict T call.request
  | .inserted id => Owns s c call.request id true
  | .lost id => Owns s c call.request id true
  | .recalled id => ∃ k, T.key call.request = some k ∧ s.Visible T k id
  | .skipped => T.recalls call.request = false ∧ s.Conflict T call.request
  | .failed => True

/-- The invariant of the table. -/
structure Inv (s : State Q C D) : Prop where
  row : ∀ id r, s.rows id = some r → RowOk T s id r
  call : ∀ c call, s.calls c = some call → CallOk T s c call
  unique : ∀ id id' r r' k, s.rows id = some r → s.rows id' = some r' →
    T.key r.request = some k → T.key r'.request = some k → id = id'

variable {T} {s s' : State Q C D}

/-- A committed row is owned by a call that created it. -/
theorem RowOk.owner_created {id : Nat} {r : Row Q C D} (h : RowOk T s id r) :
    ∃ call, s.calls r.owner = some call ∧
      ((∃ left, call.phase = .building id left) ∨ call.phase.created = some id) := by
  cases hr : r.committed with
  | false =>
      obtain ⟨left, hcall, _⟩ := h.inFlight hr
      exact ⟨_, hcall, .inl ⟨left, rfl⟩⟩
  | true =>
      obtain ⟨phase, hcall, hphase⟩ := h.settled hr
      exact ⟨_, hcall, .inr hphase⟩

/-- The only row a call can own is the one its phase names. -/
theorem Inv.owned_eq (hI : Inv T s) {c : C} {call : Call Q D} {id : Nat}
    {r : Row Q C D} (hc : s.calls c = some call) (hr : s.rows id = some r)
    (howner : r.owner = c) :
    (∃ left, call.phase = .building id left) ∨ call.phase.created = some id := by
  obtain ⟨call', hcall', hphase⟩ := (hI.row id r hr).owner_created
  rw [howner, hc] at hcall'
  cases hcall'
  exact hphase

/-- The only row an in-flight call owns is the one it is building. -/
theorem Inv.owned_building (hI : Inv T s) {c : C} {q : Q} {id : Nat}
    {left : List D} (hc : s.calls c = some ⟨q, .building id left⟩) {id' : Nat}
    {r : Row Q C D} (hr : s.rows id' = some r) (howner : r.owner = c) : id' = id := by
  rcases hI.owned_eq hc hr howner with ⟨left', h⟩ | h
  · cases h
    rfl
  · cases h

/-- The id that comes next is not in use. -/
theorem Inv.rows_next (hI : Inv T s) : s.rows s.next = none := by
  cases hr : s.rows s.next with
  | none => rfl
  | some r => exact absurd (hI.row _ r hr).bound (Nat.lt_irrefl _)

theorem inv_empty : Inv T (State.empty : State Q C D) := by
  refine ⟨?_, ?_, ?_⟩
  · intro id r h
    cases h
  · intro c call h
    cases h
  · intro id id' r r' k h
    cases h

end Invariant

section Steps

variable {T : Table Q K D I} {s s' : State Q C D}

section Holder

variable [DecidableEq K]

/-- What the search for the holder of a key finds. -/
theorem holder_some {k : K} {id : Nat} {r : Row Q C D}
    (h : s.holder T k = some (id, r)) :
    s.rows id = some r ∧ T.key r.request = some k := by
  obtain ⟨id', _, hid'⟩ := List.exists_of_findSome?_eq_some h
  obtain ⟨r', hr', hkey⟩ := Option.bind_eq_some_iff.mp hid'
  split_ifs at hkey with hk
  cases hkey
  exact ⟨hr', hk⟩

/-- The search misses no row. -/
theorem Inv.holder_none (hI : Inv T s) {k : K} (h : s.holder T k = none) {id : Nat}
    {r : Row Q C D} (hr : s.rows id = some r) : T.key r.request ≠ some k := by
  intro hk
  have hmem : id ∈ List.range s.next := List.mem_range.mpr (hI.row id r hr).bound
  have hnone := List.findSome?_eq_none_iff.mp h id hmem
  simp [hr, hk] at hnone

end Holder

variable [DecidableEq C]

/-- **One call moves.**  A step that writes one row and one call keeps the
invariant when the row is the only one the call may own, and not yet
committed. -/
theorem Inv.patch (hI : Inv T s) {id next : Nat} {r : Option (Row Q C D)} {c : C}
    {call : Call Q D} (hnext : s.next ≤ next)
    (hold : ∀ r₀, s.rows id = some r₀ → r₀.owner = c ∧ r₀.committed = false)
    (howns : ∀ id' r', s.rows id' = some r' → r'.owner = c → id' = id)
    (hrow : ∀ r₁, r = some r₁ → RowOk T { s.patch id r c call with next } id r₁)
    (hkey : ∀ r₁ k, r = some r₁ → T.key r₁.request = some k →
      ∀ id' r', id' ≠ id → s.rows id' = some r' → T.key r'.request ≠ some k)
    (hcall : CallOk T { s.patch id r c call with next } c call) :
    Inv T { s.patch id r c call with next } := by
  have hrows : ∀ id', id' ≠ id →
      ({ s.patch id r c call with next } : State Q C D).rows id' = s.rows id' :=
    fun id' hne => Function.update_of_ne hne _ _
  have hself : ({ s.patch id r c call with next } : State Q C D).rows id = r :=
    Function.update_self _ _ _
  have hcalls : ∀ c', c' ≠ c →
      ({ s.patch id r c call with next } : State Q C D).calls c' = s.calls c' :=
    fun c' hne => Function.update_of_ne hne _ _
  generalize hs' : ({ s.patch id r c call with next } : State Q C D) = s' at *
  have hnext' : s'.next = next := by rw [← hs']
  -- a committed row is not the one being written
  have hvisible : ∀ k id', s.Visible T k id' → s'.Visible T k id' := by
    rintro k id' ⟨r', hr', hcom, hk⟩
    have hne : id' ≠ id := by
      rintro rfl
      rw [(hold r' hr').2] at hcom
      cases hcom
    exact ⟨r', (hrows id' hne).trans hr', hcom, hk⟩
  have hconflict : ∀ q, s.Conflict T q → s'.Conflict T q := by
    rintro q ⟨k, id', hk, hv⟩
    exact ⟨k, id', hk, hvisible k id' hv⟩
  -- a row of another call is not the one being written
  have hOwns : ∀ c' q id' b, c' ≠ c → Owns s c' q id' b → Owns s' c' q id' b := by
    rintro c' q id' b hne ⟨r', hr', howner, hreq, hcom⟩
    have hid : id' ≠ id := by
      rintro rfl
      exact hne (howner.symm.trans (hold r' hr').1)
    exact ⟨r', (hrows id' hid).trans hr', howner, hreq, hcom⟩
  refine ⟨?_, ?_, ?_⟩
  · intro id' r' hr'
    by_cases hid : id' = id
    · subst hid
      exact hrow r' (hself.symm.trans hr')
    · rw [hrows id' hid] at hr'
      have hok := hI.row id' r' hr'
      have howner : r'.owner ≠ c := fun h => hid (howns id' r' hr' h)
      refine ⟨?_, hok.nodup, ?_, hok.whole, ?_⟩
      · have hlt := hok.bound
        omega
      · rw [hcalls _ howner]
        exact hok.inFlight
      · rw [hcalls _ howner]
        exact hok.settled
  · intro c' call' hc'
    by_cases hc : c' = c
    · subst hc
      have hnew : s'.calls c' = some call := by
        rw [← hs']
        exact Function.update_self _ _ _
      rw [hnew] at hc'
      cases hc'
      exact hcall
    · rw [hcalls c' hc] at hc'
      have hok := hI.call c' call' hc'
      unfold CallOk at hok ⊢
      cases hphase : call'.phase with
      | starting => trivial
      | building id' left =>
          rw [hphase] at hok
          exact hOwns _ _ _ _ hc hok
      | recalling =>
          rw [hphase] at hok
          exact ⟨hok.1, hconflict _ hok.2⟩
      | inserted id' =>
          rw [hphase] at hok
          exact hOwns _ _ _ _ hc hok
      | lost id' =>
          rw [hphase] at hok
          exact hOwns _ _ _ _ hc hok
      | recalled id' =>
          rw [hphase] at hok
          obtain ⟨k, hk, hv⟩ := hok
          exact ⟨k, hk, hvisible k id' hv⟩
      | skipped =>
          rw [hphase] at hok
          exact ⟨hok.1, hconflict _ hok.2⟩
      | failed => trivial
  · intro id₁ id₂ r₁ r₂ k h₁ h₂ hk₁ hk₂
    by_cases hid₁ : id₁ = id
    · by_cases hid₂ : id₂ = id
      · rw [hid₁, hid₂]
      · rw [hid₁, hself] at h₁
        rw [hrows id₂ hid₂] at h₂
        exact absurd hk₂ (hkey r₁ k h₁ hk₁ id₂ r₂ hid₂ h₂)
    · rw [hrows id₁ hid₁] at h₁
      by_cases hid₂ : id₂ = id
      · rw [hid₂, hself] at h₂
        exact absurd hk₁ (hkey r₂ k h₂ hk₂ id₁ r₁ hid₁ h₁)
      · rw [hrows id₂ hid₂] at h₂
        exact hI.unique id₁ id₂ r₁ r₂ k h₁ h₂ hk₁ hk₂

/-- A call that owns no row moves. -/
theorem Inv.setCall (hI : Inv T s) {next : Nat} {c : C} {call : Call Q D}
    (hnext : s.next ≤ next) (hnone : ∀ id r, s.rows id = some r → r.owner ≠ c)
    (hcall : CallOk T s c call) : Inv T { s.setCall c call with next } := by
  have hpatch : ({ s.setCall c call with next } : State Q C D) =
      { s.patch s.next none c call with next } := by
    simp only [State.setCall, State.patch]
    rw [← hI.rows_next, Function.update_eq_self]
  rw [hpatch]
  refine hI.patch hnext ?_ ?_ ?_ ?_ ?_
  · intro r₀ h
    rw [hI.rows_next] at h
    cases h
  · exact fun id' r' hr' h => absurd h (hnone id' r' hr')
  · intro r₁ h
    cases h
  · intro r₁ k h
    cases h
  · rw [← hpatch]
    -- a call that owns no row says nothing about its own entry
    exact hcall

/-- An in-flight row is dropped and its call fails. -/
theorem Inv.rollback (hI : Inv T s) {c : C} {q : Q} {id : Nat} {left : List D}
    (hc : s.calls c = some ⟨q, .building id left⟩) :
    Inv T (s.patch id none c ⟨q, .failed⟩) := by
  obtain ⟨r, hr, howner, _, hcom⟩ := hI.call c _ hc
  refine hI.patch (Nat.le_refl _) ?_ ?_ ?_ ?_ trivial
  · intro r₀ hr₀
    rw [hr] at hr₀
    cases hr₀
    exact ⟨howner, hcom⟩
  · exact fun id' r' => hI.owned_building hc
  · intro r₁ h
    cases h
  · intro r₁ k h
    cases h

/-- An in-flight row is rewritten by its call, which keeps its key. -/
theorem Inv.rewrite (hI : Inv T s) {c : C} {q : Q} {id : Nat} {left : List D}
    (hc : s.calls c = some ⟨q, .building id left⟩) {r r₁ : Row Q C D}
    (hr : s.rows id = some r) (hreq : r₁.request = r.request) {call : Call Q D}
    (hrow : RowOk T (s.patch id (some r₁) c call) id r₁)
    (hcall : CallOk T (s.patch id (some r₁) c call) c call) :
    Inv T (s.patch id (some r₁) c call) := by
  obtain ⟨r₀, hr₀, howner, _, hcom⟩ := hI.call c _ hc
  refine hI.patch (Nat.le_refl _) ?_ ?_ ?_ ?_ hcall
  · intro r' hr'
    rw [hr₀] at hr'
    cases hr'
    exact ⟨howner, hcom⟩
  · exact fun id' r' => hI.owned_building hc
  · rintro r' h
    cases h
    exact hrow
  · rintro r' k h hk id' r'' hne hr'' hk''
    cases h
    rw [hreq] at hk
    exact hne (hI.unique id' id r'' r k hr'' hr hk'' hk)

theorem Inv.insertChild [DecidableEq I] (hI : Inv T s) {c : C} {q : Q} {id : Nat}
    {d : D} {left : List D} (hc : s.calls c = some ⟨q, .building id (d :: left)⟩)
    (h : insertChild T s c q id d left = some s') : Inv T s' := by
  obtain ⟨r, hr, howner, hreq, hcom⟩ := hI.call c _ hc
  have hreq' : r.request = q := hreq
  have hok := hI.row id r hr
  obtain ⟨left', hcall, hall⟩ := hok.inFlight hcom
  rw [howner, hc] at hcall
  cases hcall
  simp only [KeyedInsert.insertChild, hr, Option.map_some, Option.some.injEq] at h
  by_cases hdup : (r.children.any fun e => T.childId e = T.childId d) = true
  · rw [if_pos hdup] at h
    subst h
    exact hI.rollback hc
  · rw [if_neg hdup] at h
    subst h
    refine hI.rewrite hc hr (by rfl) ⟨hok.bound, ?_, ?_, ?_, ?_⟩ ?_
    · rw [List.map_append]
      refine List.nodup_append.mpr ⟨hok.nodup, by simp, ?_⟩
      intro x hx y hy hxy
      obtain ⟨e, he, rfl⟩ := List.mem_map.mp hx
      have heq : T.childId e = T.childId d := hxy.trans (List.mem_singleton.mp hy)
      exact hdup (List.any_eq_true.mpr ⟨e, he, decide_eq_true heq⟩)
    · intro _
      refine ⟨left, ?_, ?_⟩
      · rw [howner]
        exact Function.update_self _ _ _
      · simpa using hall
    · intro h
      rw [hcom] at h
      cases h
    · intro h
      rw [hcom] at h
      cases h
    · exact ⟨_, Function.update_self _ _ _, howner, hreq, hcom⟩

theorem Inv.commitRow (hI : Inv T s) {c : C} {q : Q} {id : Nat} {phase : Phase D}
    (hc : s.calls c = some ⟨q, .building id []⟩) (hphase : phase.created = some id)
    (h : commitRow s c q id phase = some s') : Inv T s' := by
  obtain ⟨r, hr, howner, hreq, hcom⟩ := hI.call c _ hc
  have hreq' : r.request = q := hreq
  have hok := hI.row id r hr
  obtain ⟨left', hcall, hall⟩ := hok.inFlight hcom
  rw [howner, hc] at hcall
  cases hcall
  simp only [KeyedInsert.commitRow, hr, Option.map_some, Option.some.injEq] at h
  subst h
  refine hI.rewrite hc hr (by rfl) ⟨hok.bound, hok.nodup, ?_, ?_, ?_⟩ ?_
  · intro h
    cases h
  · intro _
    rw [List.append_nil] at hall
    exact hall
  · intro _
    refine ⟨phase, ?_, hphase⟩
    rw [howner]
    exact Function.update_self _ _ _
  · -- only the two phases that end a commit create a row
    cases phase with
    | inserted id' =>
        cases hphase
        exact ⟨_, Function.update_self _ _ _, howner, hreq, rfl⟩
    | lost id' =>
        cases hphase
        exact ⟨_, Function.update_self _ _ _, howner, hreq, rfl⟩
    | starting => cases hphase
    | building id' left => cases hphase
    | recalling => cases hphase
    | recalled id' => cases hphase
    | skipped => cases hphase
    | failed => cases hphase

variable [DecidableEq K]

theorem Inv.insert (hI : Inv T s) {c : C} {q : Q}
    (hc : s.calls c = some ⟨q, .starting⟩) (h : insert T s c q = some s') :
    Inv T s' := by
  have hnone : ∀ id r, s.rows id = some r → r.owner ≠ c := by
    intro id r hr howner
    rcases hI.owned_eq hc hr howner with ⟨left, hp⟩ | hp
    · cases hp
    · cases hp
  unfold KeyedInsert.insert at h
  cases hhold : (T.key q).bind (s.holder T) with
  | none =>
      rw [hhold] at h
      cases h
      refine hI.patch (Nat.le_succ _) ?_ ?_ ?_ ?_ ?_
      · intro r₀ hr₀
        rw [hI.rows_next] at hr₀
        cases hr₀
      · exact fun id' r' hr' howner => absurd howner (hnone id' r' hr')
      · rintro r₁ h₁
        cases h₁
        refine ⟨Nat.lt_succ_self _, List.nodup_nil, ?_, ?_, ?_⟩
        · exact fun _ => ⟨T.children q, Function.update_self _ _ _, rfl⟩
        · intro hcom
          cases hcom
        · intro hcom
          cases hcom
      · rintro r₁ k h₁ hk id' r' _ hr'
        cases h₁
        rw [hk] at hhold
        exact hI.holder_none hhold hr'
      · exact ⟨_, Function.update_self _ _ _, rfl, rfl, rfl⟩
  | some p =>
      obtain ⟨id, r⟩ := p
      obtain ⟨k, hk, hhold⟩ := Option.bind_eq_some_iff.mp hhold
      obtain ⟨hr, hkr⟩ := holder_some hhold
      rw [hk, Option.bind_some, hhold] at h
      simp only at h
      by_cases hcom : r.committed = true
      · rw [if_pos hcom] at h
        cases h
        refine hI.setCall (Nat.le_succ _) hnone ?_
        have hconf : s.Conflict T q := ⟨k, id, hk, r, hr, hcom, hkr⟩
        cases hrec : T.recalls q with
        | true => exact ⟨hrec, hconf⟩
        | false => exact ⟨hrec, hconf⟩
      · rw [if_neg hcom] at h
        cases h

/-- **The recall.**  It finds the committed row of its key. -/
theorem Inv.recall_eq (hI : Inv T s) {c : C} {q : Q}
    (hc : s.calls c = some ⟨q, .recalling⟩) :
    ∃ k id, T.key q = some k ∧ s.Visible T k id ∧
      readBack T s c q = s.setCall c ⟨q, .recalled id⟩ := by
  obtain ⟨_, k, id, hk, r, hr, hcom, hkr⟩ := hI.call c _ hc
  have hkq : T.key q = some k := hk
  refine ⟨k, id, hkq, ⟨r, hr, hcom, hkr⟩, ?_⟩
  unfold readBack
  rw [hkq, Option.bind_some]
  cases hhold : s.holder T k with
  | none => exact absurd hkr (hI.holder_none hhold hr)
  | some p =>
      obtain ⟨id', r'⟩ := p
      obtain ⟨hr', hkr'⟩ := holder_some hhold
      obtain rfl := hI.unique id id' r r' k hr hr' hkr hkr'
      rw [hr] at hr'
      cases hr'
      simp [hcom]

/-- **Every step of every call keeps the invariant.** -/
theorem Inv.step [DecidableEq I] (hI : Inv T s) {a : Label Q C} (h : step T s a = some s') :
    Inv T s' := by
  -- a call between two transactions owns no row
  have hfree : ∀ c q phase, s.calls c = some ⟨q, phase⟩ →
      (∀ id left, phase ≠ .building id left) → phase.created = none →
      ∀ id r, s.rows id = some r → r.owner ≠ c := by
    intro c q phase hc hb hcr id r hr howner
    rcases hI.owned_eq hc hr howner with ⟨left, hp⟩ | hp
    · exact hb id left hp
    · rw [show Phase.created phase = some id from hp] at hcr
      cases hcr
  cases a with
  | begin c q =>
      simp only [KeyedInsert.step] at h
      split at h
      · next hc =>
          cases h
          refine hI.setCall (Nat.le_refl _) ?_ trivial
          intro id r hr howner
          obtain ⟨call, hcall, _⟩ := (hI.row id r hr).owner_created
          rw [howner, hc] at hcall
          cases hcall
      · cases h
  | insert c =>
      simp only [KeyedInsert.step] at h
      split at h
      · next q hc => exact hI.insert hc h
      · cases h
  | child c =>
      simp only [KeyedInsert.step] at h
      split at h
      · next q id d left hc => exact hI.insertChild hc h
      · cases h
  | commit c =>
      simp only [KeyedInsert.step] at h
      split at h
      · next q id hc => exact hI.commitRow hc rfl h
      · cases h
  | commitLost c =>
      simp only [KeyedInsert.step] at h
      split at h
      · next q id hc => exact hI.commitRow hc rfl h
      · cases h
  | readBack c =>
      simp only [KeyedInsert.step] at h
      split at h
      · next q hc =>
          cases h
          obtain ⟨k, id, hk, hv, heq⟩ := hI.recall_eq hc
          rw [heq]
          refine hI.setCall (Nat.le_refl _) (hfree c q _ hc ?_ rfl) ⟨k, hk, hv⟩
          intro id left hp
          cases hp
      · cases h
  | abort c =>
      simp only [KeyedInsert.step] at h
      split at h
      · next q hc =>
          cases h
          refine hI.setCall (Nat.le_refl _) (hfree c q _ hc ?_ rfl) trivial
          intro id left hp
          cases hp
      · next q hc =>
          cases h
          refine hI.setCall (Nat.le_refl _) (hfree c q _ hc ?_ rfl) trivial
          intro id left hp
          cases hp
      · next q id left hc =>
          cases h
          exact hI.rollback hc
      · cases h

/-- Every reachable table meets the invariant. -/
theorem inv_run [DecidableEq I] {l : List (Label Q C)}
    (h : Machine.run (step T) (State.empty : State Q C D) l = some s) : Inv T s :=
  Machine.inv_run (C := fun _ _ => True) (fun _ _ _ hI _ hs => hI.step hs) inv_empty
    (Machine.along_of_forall fun _ _ => trivial) h

/-- A step moves one call, which keeps its request. -/
theorem step_calls [DecidableEq I] {a : Label Q C} (h : step T s a = some s') :
    ∃ c q phase, s'.calls = Function.update s.calls c (some ⟨q, phase⟩) ∧
      (a = .begin c q ∨ ∃ phase₀, s.calls c = some ⟨q, phase₀⟩) := by
  cases a with
  | begin c q =>
      simp only [KeyedInsert.step] at h
      split at h
      · cases h
        exact ⟨c, q, .starting, rfl, .inl rfl⟩
      · cases h
  | insert c =>
      simp only [KeyedInsert.step] at h
      split at h
      · next q hc =>
          unfold KeyedInsert.insert at h
          split at h
          · cases h
            exact ⟨c, q, _, rfl, .inr ⟨_, hc⟩⟩
          · split at h
            · cases h
              exact ⟨c, q, _, rfl, .inr ⟨_, hc⟩⟩
            · cases h
      · cases h
  | child c =>
      simp only [KeyedInsert.step] at h
      split at h
      · next q id d left hc =>
          obtain ⟨r, _, rfl⟩ := Option.map_eq_some_iff.mp h
          split_ifs
          · exact ⟨c, q, _, rfl, .inr ⟨_, hc⟩⟩
          · exact ⟨c, q, _, rfl, .inr ⟨_, hc⟩⟩
      · cases h
  | commit c =>
      simp only [KeyedInsert.step] at h
      split at h
      · next q id hc =>
          obtain ⟨r, _, rfl⟩ := Option.map_eq_some_iff.mp h
          exact ⟨c, q, _, rfl, .inr ⟨_, hc⟩⟩
      · cases h
  | commitLost c =>
      simp only [KeyedInsert.step] at h
      split at h
      · next q id hc =>
          obtain ⟨r, _, rfl⟩ := Option.map_eq_some_iff.mp h
          exact ⟨c, q, _, rfl, .inr ⟨_, hc⟩⟩
      · cases h
  | readBack c =>
      simp only [KeyedInsert.step] at h
      split at h
      · next q hc =>
          cases h
          unfold readBack
          split
          · exact ⟨c, q, _, rfl, .inr ⟨_, hc⟩⟩
          · exact ⟨c, q, _, rfl, .inr ⟨_, hc⟩⟩
      · cases h
  | abort c =>
      simp only [KeyedInsert.step] at h
      split at h
      · next q hc =>
          cases h
          exact ⟨c, q, _, rfl, .inr ⟨_, hc⟩⟩
      · next q hc =>
          cases h
          exact ⟨c, q, _, rfl, .inr ⟨_, hc⟩⟩
      · next q id left hc =>
          cases h
          exact ⟨c, q, _, rfl, .inr ⟨_, hc⟩⟩
      · cases h

/-- The labels begin calls with requests of `P` only. -/
def MadeOf (P : Q → Prop) (l : List (Label Q C)) : Prop :=
  ∀ c q, Label.begin c q ∈ l → P q

/-- Whatever the requests have in common, the calls have. -/
theorem requests_run [DecidableEq I] {P : Q → Prop} {l : List (Label Q C)}
    (hl : MadeOf P l) (h : Machine.run (step T) (State.empty : State Q C D) l = some s)
    {c : C} {call : Call Q D} (hc : s.calls c = some call) : P call.request := by
  have hall : ∀ c call, s.calls c = some call → P call.request := by
    have hbegun : ∀ a ∈ l, ∀ c q, a = .begin c q → P q := by
      rintro a ha c q rfl
      exact hl c q ha
    refine Machine.inv_run (C := fun _ a => ∀ c q, a = .begin c q → P q)
      (I := fun s => ∀ c call, s.calls c = some call → P call.request) ?_ ?_
      (Machine.along_of_forall hbegun) h
    · intro s a s' hI hP hstep c' call' hc'
      obtain ⟨c, q, phase, hcalls, hq⟩ := step_calls hstep
      rw [hcalls, Function.update_apply] at hc'
      split_ifs at hc'
      · cases hc'
        rcases hq with ha | ⟨phase₀, hc⟩
        · exact hP c q ha
        · exact hI c ⟨q, phase₀⟩ hc
      · exact hI c' call' hc'
    · intro c call hc
      cases hc
  exact hall c call hc

/-- A row without children is inserted and committed, and another call meets
it. -/
def twoCalls (c c' : C) (q q' : Q) : List (Label Q C) :=
  [.begin c q, .insert c, .commit c, .begin c' q', .insert c', .readBack c']

/-- A request that recalls may be answered with a row of any request of its
key. -/
theorem run_twoCalls [DecidableEq I] {c c' : C} {q q' : Q} {k : K} (hne : c' ≠ c)
    (hk : T.key q = some k) (hk' : T.key q' = some k) (hch : T.children q = [])
    (hrec : T.recalls q' = true) :
    ∃ s r, Machine.run (step T) (State.empty : State Q C D) (twoCalls c c' q q') = some s ∧
      s.calls c' = some ⟨q', .recalled 0⟩ ∧ s.rows 0 = some r ∧ r.request = q := by
  simp [twoCalls, Machine.run, step, KeyedInsert.insert, KeyedInsert.commitRow, readBack,
    State.holder, State.empty, State.setCall, State.patch, hk, hk', hch, hrec, hne,
    List.range_succ]

omit [DecidableEq C] [DecidableEq K] in
/-- The request of a row is the request of the call that inserted it. -/
theorem Inv.row_requested (hI : Inv T s) {id : Nat} {r : Row Q C D}
    (hr : s.rows id = some r) : ∃ phase, s.calls r.owner = some ⟨r.request, phase⟩ := by
  have hok := hI.row id r hr
  cases hcom : r.committed with
  | false =>
      obtain ⟨left, hc, _⟩ := hok.inFlight hcom
      exact ⟨_, hc⟩
  | true =>
      obtain ⟨phase, hc, _⟩ := hok.settled hcom
      exact ⟨phase, hc⟩

end Steps

/-! ## What the calls can say about the table -/

section Results

variable (T : Table Q K D I)

/-- One row holds the key, one call put it there, and every call of the key
that came back with an id names that row. -/
structure Once (s : State Q C D) (k : K) (id : Nat) : Prop where
  visible : s.Visible T k id
  only : ∀ id' r, s.rows id' = some r → T.key r.request = some k → id' = id
  creator : ∃ c, (∃ call, s.calls c = some call ∧ T.key call.request = some k ∧
      call.phase.created = some id) ∧
    ∀ c' call', s.calls c' = some call' → T.key call'.request = some k →
      call'.phase.created ≠ none → c' = c
  returned : ∀ c call id' b, s.calls c = some call → T.key call.request = some k →
    call.phase.returned = some (id', b) → id' = id

variable {T} {s : State Q C D}

/-- A call that put a row into the table for good owns that row. -/
theorem Inv.created_owns (hI : Inv T s) {c : C} {call : Call Q D} {id : Nat}
    (hc : s.calls c = some call) (hid : call.phase.created = some id) :
    Owns s c call.request id true := by
  have hok := hI.call c call hc
  unfold CallOk at hok
  cases hphase : call.phase with
  | inserted id' =>
      rw [hphase] at hok hid
      cases hid
      exact hok
  | lost id' =>
      rw [hphase] at hok hid
      cases hid
      exact hok
  | starting => rw [hphase] at hid; cases hid
  | building id' left => rw [hphase] at hid; cases hid
  | recalling => rw [hphase] at hid; cases hid
  | recalled id' => rw [hphase] at hid; cases hid
  | skipped => rw [hphase] at hid; cases hid
  | failed => rw [hphase] at hid; cases hid

/-- What a call returns is a committed row of its key. -/
theorem Inv.returned_visible (hI : Inv T s) {c : C} {call : Call Q D} {k : K}
    (hc : s.calls c = some call) (hk : T.key call.request = some k) {id : Nat}
    {b : Bool} (hret : call.phase.returned = some (id, b)) : s.Visible T k id := by
  have hok := hI.call c call hc
  unfold CallOk at hok
  cases hphase : call.phase with
  | inserted id' =>
      rw [hphase] at hok hret
      cases hret
      obtain ⟨r, hr, _, hreq, hcom⟩ := hok
      exact ⟨r, hr, hcom, hreq ▸ hk⟩
  | recalled id' =>
      rw [hphase] at hok hret
      cases hret
      obtain ⟨k', hk', hv⟩ := hok
      rw [hk] at hk'
      cases hk'
      exact hv
  | starting => rw [hphase] at hret; cases hret
  | building id' left => rw [hphase] at hret; cases hret
  | recalling => rw [hphase] at hret; cases hret
  | lost id' => rw [hphase] at hret; cases hret
  | skipped => rw [hphase] at hret; cases hret
  | failed => rw [hphase] at hret; cases hret

/-- A call that came back without an error leaves a committed row of its key. -/
theorem Inv.ok_visible (hI : Inv T s) {c : C} {call : Call Q D} {k : K}
    (hc : s.calls c = some call) (hk : T.key call.request = some k)
    (hok : call.phase.isOk = true) : ∃ id, s.Visible T k id := by
  have hcall := hI.call c call hc
  unfold CallOk at hcall
  cases hphase : call.phase with
  | inserted id =>
      exact ⟨id, hI.returned_visible hc hk (by rw [hphase]; rfl)⟩
  | recalled id =>
      exact ⟨id, hI.returned_visible hc hk (by rw [hphase]; rfl)⟩
  | skipped =>
      rw [hphase] at hcall
      obtain ⟨_, k', id, hk', hv⟩ := hcall
      rw [hk] at hk'
      cases hk'
      exact ⟨id, hv⟩
  | starting => rw [hphase] at hok; cases hok
  | building id' left => rw [hphase] at hok; cases hok
  | recalling => rw [hphase] at hok; cases hok
  | lost id' => rw [hphase] at hok; cases hok
  | failed => rw [hphase] at hok; cases hok

/-- **Exactly once.**  A visible row of a key is the only row of the key, one
call put it there, and every call that returns an id returns its id. -/
theorem Inv.once (hI : Inv T s) {k : K} {id : Nat} (hv : s.Visible T k id) :
    Once T s k id := by
  obtain ⟨r, hr, hcom, hkr⟩ := hv
  have honly : ∀ id' r', s.rows id' = some r' → T.key r'.request = some k → id' = id :=
    fun id' r' hr' hk' => hI.unique id' id r' r k hr' hr hk' hkr
  obtain ⟨phase, hcall, hphase⟩ := (hI.row id r hr).settled hcom
  refine ⟨⟨r, hr, hcom, hkr⟩, honly, ⟨r.owner, ⟨_, hcall, hkr, hphase⟩, ?_⟩, ?_⟩
  · intro c' call' hc' hk' hcr
    obtain ⟨id', hid'⟩ := Option.ne_none_iff_exists'.mp hcr
    obtain ⟨r', hr', howner, hreq, _⟩ := hI.created_owns hc' hid'
    obtain rfl := honly id' r' hr' (hreq ▸ hk')
    rw [hr] at hr'
    cases hr'
    exact howner.symm
  · intro c call id' b hc hk hret
    obtain ⟨r', hr', _, hk'⟩ := hI.returned_visible hc hk hret
    exact honly id' r' hr' hk'

/-- A committed row carries all the children of its request. -/
theorem Inv.children_whole (hI : Inv T s) {id : Nat} {r : Row Q C D}
    (hr : s.rows id = some r) (hcom : r.committed = true) :
    r.children = T.children r.request ∧ (r.children.map T.childId).Nodup :=
  ⟨(hI.row id r hr).whole hcom, (hI.row id r hr).nodup⟩

end Results

end Dokan.Verified.KeyedInsert
