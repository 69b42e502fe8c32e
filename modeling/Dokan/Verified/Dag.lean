import Mathlib

/-!
# Three-colour search and topological orders

A graph is given by the list of nodes each node depends on.  `dfs` is the
depth-first search with the colours unseen, in stack and done; it answers
whether it met a node of its own stack.  It recurses on fuel, and
`dfs_isSome` bounds the fuel it needs by the number of unseen nodes.

## Main results

* `roots_topo` — a search that meets no node of its stack leaves the nodes it
  finished in a topological order.
* `roots_cyclic` — a search that does meet a node of its stack has found a cycle
  of the graph.
* `Topo.exists_minimal` — in a topological order every non-empty set of nodes
  has one whose dependencies lie outside the set.
* `Topo.not_cyclic` — no node of a topological order is on a cycle.
* `length_le_of_not_cyclic` — without a cycle walks are short.
* `Topo.exists_perm` — an order of more nodes than asked for holds one of exactly
  those.
* `Topo.solve_eq` — values defined from those of the dependencies can be
  computed along a topological order.
-/

namespace Dokan.Verified.Dag

universe u v

variable {N : Type u}

/-! ## Topological orders -/

/-- Every node comes after the nodes it depends on; the latest is listed
first. -/
def Topo (deps : N → List N) : List N → Prop
  | [] => True
  | x :: L => (∀ d ∈ deps x, d ∈ L) ∧ Topo deps L

section Orders

variable {deps : N → List N} {L : List N}

/-- The nodes of a topological order are closed under dependencies. -/
theorem Topo.closed (h : Topo deps L) {x d : N} (hx : x ∈ L) (hd : d ∈ deps x) :
    d ∈ L := by
  induction L with
  | nil => cases hx
  | cons y L ih =>
      rcases List.mem_cons.mp hx with rfl | hx
      · exact List.mem_cons_of_mem _ (h.1 d hd)
      · exact List.mem_cons_of_mem _ (ih h.2 hx)

/-- **Minimal nodes.**  A set that meets the order has a node none of whose
dependencies is in the set. -/
theorem Topo.exists_minimal (h : Topo deps L) (P : N → Prop) (hP : ∃ x ∈ L, P x) :
    ∃ x ∈ L, P x ∧ ∀ d ∈ deps x, ¬ P d := by
  induction L with
  | nil =>
      obtain ⟨x, hx, _⟩ := hP
      cases hx
  | cons y L ih =>
      by_cases hL : ∃ x ∈ L, P x
      · obtain ⟨x, hx, hPx, hmin⟩ := ih h.2 hL
        exact ⟨x, List.mem_cons_of_mem _ hx, hPx, hmin⟩
      · obtain ⟨x, hx, hPx⟩ := hP
        rcases List.mem_cons.mp hx with rfl | hx
        · exact ⟨x, List.mem_cons_self, hPx, fun d hd hPd => hL ⟨d, h.1 d hd, hPd⟩⟩
        · exact (hL ⟨x, hx, hPx⟩).elim

/-- An edge from a node to one it depends on. -/
def Uses (deps : N → List N) (a b : N) : Prop := b ∈ deps a

/-- Some node is reached from itself, a self-loop included. -/
def Cyclic (deps : N → List N) : Prop := ∃ x, Relation.TransGen (Uses deps) x x

/-- A node on a cycle depends on a node that is on the cycle too. -/
theorem next_on_cycle {x : N} (h : Relation.TransGen (Uses deps) x x) :
    ∃ d ∈ deps x, Relation.TransGen (Uses deps) d d := by
  obtain ⟨d, hxd, hdx⟩ := Relation.TransGen.head'_iff.mp h
  exact ⟨d, hxd, Relation.TransGen.tail'_iff.mpr ⟨x, hdx, hxd⟩⟩

/-- The nodes of a walk, its last one apart, depend on something. -/
theorem dropLast_subset {l U : List N} (hl : l.IsChain (Uses deps))
    (hU : ∀ x, deps x ≠ [] → x ∈ U) : l.dropLast ⊆ U := by
  induction l with
  | nil => exact List.nil_subset U
  | cons x l ih =>
      cases l with
      | nil => exact List.nil_subset U
      | cons y l =>
          obtain ⟨hxy, hrest⟩ := List.isChain_cons_cons.mp hl
          exact List.cons_subset.mpr ⟨hU x (List.ne_nil_of_mem hxy), ih hrest⟩

/-- Without a cycle a walk meets no node twice. -/
theorem nodup_of_not_cyclic (h : ¬ Cyclic deps) {l : List N} (hl : l.IsChain (Uses deps)) :
    l.Nodup := by
  have hpair : l.Pairwise (Relation.TransGen (Uses deps)) :=
    (hl.imp fun _ _ => Relation.TransGen.single).pairwise
  refine hpair.imp ?_
  rintro x _ hxx rfl
  exact h ⟨x, hxx⟩

/-- Without a cycle a walk is no longer than there are nodes to leave. -/
theorem length_le_of_not_cyclic (h : ¬ Cyclic deps) {l U : List N}
    (hl : l.IsChain (Uses deps)) (hU : ∀ x, deps x ≠ [] → x ∈ U) :
    l.length ≤ U.length + 1 := by
  have hnd : l.dropLast.Nodup := (nodup_of_not_cyclic h hl).sublist (List.dropLast_sublist l)
  have hle := (List.subperm_of_subset hnd (dropLast_subset hl hU)).length_le
  rw [List.length_dropLast] at hle
  exact Nat.sub_le_iff_le_add.mp hle

/-- No node of a topological order is on a cycle. -/
theorem Topo.not_cyclic (h : Topo deps L) {x : N} (hx : x ∈ L) :
    ¬ Relation.TransGen (Uses deps) x x := by
  intro hcyc
  obtain ⟨y, _, hy, hmin⟩ :=
    h.exists_minimal (fun y => Relation.TransGen (Uses deps) y y) ⟨x, hx, hcyc⟩
  obtain ⟨d, hd, hdd⟩ := next_on_cycle hy
  exact hmin d hd hdd

/-- Only the last time a node is listed counts. -/
theorem Topo.dedup [DecidableEq N] (h : Topo deps L) : Topo deps L.dedup := by
  induction L with
  | nil => trivial
  | cons x L ih =>
      by_cases hx : x ∈ L
      · rw [List.dedup_cons_of_mem hx]
        exact ih h.2
      · rw [List.dedup_cons_of_notMem hx]
        exact ⟨fun d hd => List.mem_dedup.mpr (h.1 d hd), ih h.2⟩

/-- A set closed under dependencies keeps the order. -/
theorem Topo.filter (h : Topo deps L) (p : N → Bool)
    (hp : ∀ x d, p x = true → d ∈ deps x → p d = true) : Topo deps (L.filter p) := by
  induction L with
  | nil => trivial
  | cons x L ih =>
      cases hx : p x with
      | false =>
          rw [List.filter_cons_of_neg (by simp [hx])]
          exact ih h.2
      | true =>
          rw [List.filter_cons_of_pos hx]
          refine ⟨fun d hd => ?_, ih h.2⟩
          exact List.mem_filter.mpr ⟨h.1 d hd, hp x d hx hd⟩

/-- **Exact orders.**  An order of more nodes than asked for holds one of exactly
those. -/
theorem Topo.exists_perm [DecidableEq N] (h : Topo deps L) {ns : List N}
    (hnd : ns.Nodup) (hsub : ns ⊆ L) (hclosed : ∀ x ∈ ns, deps x ⊆ ns) :
    ∃ order, Topo deps order ∧ order.Perm ns := by
  refine ⟨L.dedup.filter fun x => decide (x ∈ ns), h.dedup.filter _ ?_, ?_⟩
  · intro x d hx hd
    exact decide_eq_true (hclosed x (of_decide_eq_true hx) hd)
  · refine (List.perm_ext_iff_of_nodup ((List.nodup_dedup L).filter _) hnd).mpr ?_
    intro x
    rw [List.mem_filter, List.mem_dedup, decide_eq_true_iff]
    exact ⟨And.right, fun hx => ⟨hsub hx, hx⟩⟩

end Orders

/-! ## Values along a topological order -/

section Values

variable {V : Type v} {deps : N → List N} {F : (N → V) → N → V} {v₀ : V} {L : List N}
  [DecidableEq N]

/-- `F` computes the value of a node from the values of its dependencies. -/
def Local (deps : N → List N) (F : (N → V) → N → V) : Prop :=
  ∀ v v' x, (∀ d ∈ deps x, v d = v' d) → F v x = F v' x

/-- Compute the values of the nodes of an order, each from those behind it. -/
def solve (F : (N → V) → N → V) (v₀ : V) : List N → N → V
  | [] => fun _ => v₀
  | x :: L => Function.update (solve F v₀ L) x (F (solve F v₀ L) x)

theorem solve_of_ne {x y : N} (h : y ≠ x) : solve F v₀ (x :: L) y = solve F v₀ L y :=
  Function.update_of_ne h _ _

/-- **The values solve the recursion.** -/
theorem Topo.solve_eq (h : Topo deps L) (hF : Local deps F) :
    ∀ x ∈ L, solve F v₀ L x = F (solve F v₀ L) x := by
  induction L with
  | nil =>
      intro x hx
      cases hx
  | cons y L ih =>
      have ih := ih h.2
      by_cases hy : y ∈ L
      · -- computing a value again changes nothing
        have hsame : solve F v₀ (y :: L) = solve F v₀ L := by
          rw [solve, ← ih y hy, Function.update_eq_self]
        intro x hx
        rw [hsame]
        rcases List.mem_cons.mp hx with rfl | hx
        · exact ih _ hy
        · exact ih x hx
      · -- the values behind `y` are those it was computed from
        have hbehind : ∀ x ∈ y :: L, ∀ d ∈ deps x,
            solve F v₀ (y :: L) d = solve F v₀ L d := by
          intro x hx d hd
          have hdL : d ∈ L := by
            rcases List.mem_cons.mp hx with rfl | hx
            · exact h.1 d hd
            · exact h.2.closed hx hd
          exact solve_of_ne fun heq => hy (heq ▸ hdL)
        intro x hx
        rw [hF _ _ x (hbehind x hx)]
        rcases List.mem_cons.mp hx with rfl | hxL
        · exact Function.update_self _ _ _
        · have hne : x ≠ y := fun heq => hy (heq ▸ hxL)
          rw [solve_of_ne hne]
          exact ih x hxL

end Values

/-! ## The search -/

inductive Colour
  | unseen
  | inStack
  | done
deriving DecidableEq, Repr

/-- Visit the dependencies of a node in turn: one in the stack is a cycle, an
unseen one is searched, a done one is skipped. -/
def each (visit : N → (N → Colour) → Option (Bool × (N → Colour))) :
    List N → (N → Colour) → Option (Bool × (N → Colour))
  | [], c => some (false, c)
  | d :: ds, c =>
      match c d with
      | .inStack => some (true, c)
      | .done => each visit ds c
      | .unseen =>
          match visit d c with
          | some (false, c') => each visit ds c'
          | r => r

variable [DecidableEq N]

/-- Search from an unseen node; `true` is a cycle, `none` is out of fuel. -/
def dfs (deps : N → List N) : Nat → N → (N → Colour) → Option (Bool × (N → Colour))
  | 0, _, _ => none
  | fuel + 1, n, c =>
      match each (dfs deps fuel) (deps n) (Function.update c n .inStack) with
      | some (false, c') => some (false, Function.update c' n .done)
      | r => r

/-- Search from every node that is still unseen when its turn comes. -/
def roots (deps : N → List N) (fuel : Nat) :
    List N → (N → Colour) → Option (Bool × (N → Colour))
  | [], c => some (false, c)
  | n :: ns, c =>
      if c n = .unseen then
        match dfs deps fuel n c with
        | some (false, c') => roots deps fuel ns c'
        | r => r
      else roots deps fuel ns c

section Search

variable {deps : N → List N} {c c' : N → Colour} {L : List N}

/-- The done nodes are those of `L`, in topological order. -/
structure Finished (deps : N → List N) (c : N → Colour) (L : List N) : Prop where
  mem : ∀ x, c x = .done ↔ x ∈ L
  topo : Topo deps L

/-- What a search without a cycle does: it finishes more nodes, `goal` among
them, and leaves the stack as it was. -/
structure Finishes (deps : N → List N) (goal : List N) (c c' : N → Colour)
    (L : List N) : Prop where
  finished : ∃ L', Finished deps c' L' ∧ L ⊆ L' ∧ goal ⊆ L'
  stack : ∀ x, c' x = .inStack ↔ c x = .inStack

omit [DecidableEq N] in
theorem each_finishes {visit : N → (N → Colour) → Option (Bool × (N → Colour))}
    (hvisit : ∀ d c c' L, c d = .unseen → Finished deps c L →
      visit d c = some (false, c') → Finishes deps [d] c c' L)
    {ds : List N} (hL : Finished deps c L) (h : each visit ds c = some (false, c')) :
    Finishes deps ds c c' L := by
  induction ds generalizing c L with
  | nil =>
      cases h
      exact ⟨⟨L, hL, List.Subset.refl _, List.nil_subset _⟩, fun _ => Iff.rfl⟩
  | cons d ds ih =>
      rw [each] at h
      cases hd : c d with
      | inStack =>
          rw [hd] at h
          cases h
      | done =>
          rw [hd] at h
          obtain ⟨⟨L', hL', hsub, hgoal⟩, hstack⟩ := ih hL h
          have hdL : d ∈ L' := hsub ((hL.mem d).mp hd)
          exact ⟨⟨L', hL', hsub, List.cons_subset.mpr ⟨hdL, hgoal⟩⟩, hstack⟩
      | unseen =>
          rw [hd] at h
          cases hv : visit d c with
          | none =>
              rw [hv] at h
              cases h
          | some r =>
              obtain ⟨b, c₁⟩ := r
              rw [hv] at h
              cases b with
              | true => cases h
              | false =>
                  obtain ⟨⟨L₁, hL₁, hsub₁, hgoal₁⟩, hstack₁⟩ := hvisit d c c₁ L hd hL hv
                  obtain ⟨⟨L₂, hL₂, hsub₂, hgoal₂⟩, hstack₂⟩ := ih hL₁ h
                  refine ⟨⟨L₂, hL₂, List.Subset.trans hsub₁ hsub₂, ?_⟩, ?_⟩
                  · exact List.cons_subset.mpr ⟨hsub₂ (hgoal₁ List.mem_cons_self), hgoal₂⟩
                  · exact fun x => (hstack₂ x).trans (hstack₁ x)

/-- Putting an unseen node on the stack finishes nothing. -/
theorem Finished.push (hL : Finished deps c L) {n : N} (hn : c n = .unseen) :
    Finished deps (Function.update c n .inStack) L := by
  refine ⟨fun x => ?_, hL.topo⟩
  rw [← hL.mem x]
  by_cases hx : x = n
  · subst hx
    simp [hn]
  · rw [Function.update_of_ne hx]

/-- A search that meets no cycle finishes its node after its dependencies. -/
theorem dfs_finishes {fuel : Nat} {n : N} (hn : c n = .unseen)
    (hL : Finished deps c L) (h : dfs deps fuel n c = some (false, c')) :
    Finishes deps [n] c c' L := by
  induction fuel generalizing n c c' L with
  | zero => cases h
  | succ fuel ih =>
      rw [dfs] at h
      cases he : each (dfs deps fuel) (deps n) (Function.update c n .inStack) with
      | none =>
          rw [he] at h
          cases h
      | some r =>
          obtain ⟨b, c₁⟩ := r
          rw [he] at h
          cases b with
          | true => cases h
          | false =>
              cases h
              obtain ⟨⟨L₁, hL₁, hsub, hgoal⟩, hstack⟩ :=
                each_finishes (fun d c c' L hd hL h => ih hd hL h) (hL.push hn) he
              refine ⟨⟨n :: L₁, ⟨fun x => ?_, fun d hd => hgoal hd, hL₁.topo⟩,
                List.Subset.trans hsub (List.subset_cons_self _ _), ?_⟩, fun x => ?_⟩
              · by_cases hx : x = n
                · subst hx
                  simp
                · rw [Function.update_of_ne hx, hL₁.mem x]
                  simp [hx]
              · exact List.cons_subset.mpr ⟨List.mem_cons_self, List.nil_subset _⟩
              · by_cases hx : x = n
                · subst hx
                  simp [hn]
                · rw [Function.update_of_ne hx, hstack x, Function.update_of_ne hx]

theorem roots_finishes {fuel : Nat} {ns : List N} (hL : Finished deps c L)
    (hstack : ∀ x, c x ≠ .inStack) (h : roots deps fuel ns c = some (false, c')) :
    ∃ L', Finished deps c' L' ∧ L ⊆ L' ∧ ns ⊆ L' := by
  induction ns generalizing c L with
  | nil =>
      cases h
      exact ⟨L, hL, List.Subset.refl _, List.nil_subset _⟩
  | cons n ns ih =>
      rw [roots] at h
      by_cases hn : c n = .unseen
      · rw [if_pos hn] at h
        cases hd : dfs deps fuel n c with
        | none =>
            rw [hd] at h
            cases h
        | some r =>
            obtain ⟨b, c₁⟩ := r
            rw [hd] at h
            cases b with
            | true => cases h
            | false =>
                obtain ⟨⟨L₁, hL₁, hsub₁, hgoal⟩, hst⟩ := dfs_finishes hn hL hd
                have hstack₁ : ∀ x, c₁ x ≠ .inStack := fun x hx => hstack x ((hst x).mp hx)
                obtain ⟨L₂, hL₂, hsub₂, hns⟩ := ih hL₁ hstack₁ h
                exact ⟨L₂, hL₂, List.Subset.trans hsub₁ hsub₂,
                  List.cons_subset.mpr ⟨hsub₂ (hgoal List.mem_cons_self), hns⟩⟩
      · rw [if_neg hn] at h
        obtain ⟨L', hL', hsub, hns⟩ := ih hL hstack h
        have hdone : c n = .done := by
          cases hc : c n with
          | unseen => exact (hn hc).elim
          | inStack => exact (hstack n hc).elim
          | done => rfl
        exact ⟨L', hL', hsub,
          List.cons_subset.mpr ⟨hsub ((hL.mem n).mp hdone), hns⟩⟩

/-- **Soundness of the search.**  If no cycle is met, the nodes searched lie in
a topological order. -/
theorem roots_topo {fuel : Nat} {ns : List N}
    (h : roots deps fuel ns (fun _ => .unseen) = some (false, c')) :
    ∃ L, Topo deps L ∧ ns ⊆ L := by
  have hL : Finished deps (fun _ => Colour.unseen) [] :=
    ⟨fun x => by simp, trivial⟩
  obtain ⟨L, hfin, _, hns⟩ := roots_finishes hL (fun _ => Colour.noConfusion) h
  exact ⟨L, hfin.topo, hns⟩

/-! ### Cycles

A node of the stack leads to every node searched after it, so an edge back into
the stack closes a cycle. -/

/-- Every node of the stack leads to `n`. -/
def Leads (deps : N → List N) (c : N → Colour) (n : N) : Prop :=
  ∀ x, c x = .inStack → Relation.ReflTransGen (Uses deps) x n

omit [DecidableEq N] in
theorem each_cyclic {visit : N → (N → Colour) → Option (Bool × (N → Colour))}
    (hfin : ∀ d c c' L, c d = .unseen → Finished deps c L →
      visit d c = some (false, c') → Finishes deps [d] c c' L)
    (hcyc : ∀ d c c' L, c d = .unseen → Finished deps c L → Leads deps c d →
      visit d c = some (true, c') → Cyclic deps)
    {n : N} {ds : List N} (hds : ds ⊆ deps n) (hL : Finished deps c L)
    (hstack : Leads deps c n) (h : each visit ds c = some (true, c')) : Cyclic deps := by
  induction ds generalizing c L with
  | nil => cases h
  | cons d ds ih =>
      obtain ⟨hd, hds⟩ := List.cons_subset.mp hds
      rw [each] at h
      cases hc : c d with
      | inStack => exact ⟨d, Relation.TransGen.tail' (hstack d hc) hd⟩
      | done =>
          rw [hc] at h
          exact ih hds hL hstack h
      | unseen =>
          rw [hc] at h
          cases hv : visit d c with
          | none =>
              rw [hv] at h
              cases h
          | some r =>
              obtain ⟨b, c₁⟩ := r
              rw [hv] at h
              cases b with
              | true =>
                  have hlead : Leads deps c d := fun x hx => (hstack x hx).tail hd
                  exact hcyc d c c₁ L hc hL hlead hv
              | false =>
                  obtain ⟨⟨L₁, hL₁, _⟩, hback⟩ := hfin d c c₁ L hc hL hv
                  exact ih hds hL₁ (fun x hx => hstack x ((hback x).mp hx)) h

/-- A search that answers `true` has met a cycle. -/
theorem dfs_cyclic {fuel : Nat} {n : N} (hn : c n = .unseen) (hL : Finished deps c L)
    (hstack : Leads deps c n) (h : dfs deps fuel n c = some (true, c')) : Cyclic deps := by
  induction fuel generalizing n c c' L with
  | zero => cases h
  | succ fuel ih =>
      rw [dfs] at h
      have hlead : Leads deps (Function.update c n .inStack) n := by
        intro x hx
        by_cases hxn : x = n
        · subst hxn
          exact .refl
        · rw [Function.update_of_ne hxn] at hx
          exact hstack x hx
      cases he : each (dfs deps fuel) (deps n) (Function.update c n .inStack) with
      | none =>
          rw [he] at h
          cases h
      | some r =>
          obtain ⟨b, c₁⟩ := r
          rw [he] at h
          cases b with
          | false => cases h
          | true =>
              exact each_cyclic (fun d c c' L hd hL h => dfs_finishes hd hL h)
                (fun d c c' L hd hL hs h => ih hd hL hs h) (List.Subset.refl _)
                (hL.push hn) hlead he

/-- **Completeness of the search.**  A search that meets its own stack has found
a cycle of the graph. -/
theorem roots_cyclic {fuel : Nat} {ns : List N} (hL : Finished deps c L)
    (hstack : ∀ x, c x ≠ .inStack) (h : roots deps fuel ns c = some (true, c')) :
    Cyclic deps := by
  induction ns generalizing c L with
  | nil => cases h
  | cons n ns ih =>
      rw [roots] at h
      by_cases hn : c n = .unseen
      · rw [if_pos hn] at h
        cases hd : dfs deps fuel n c with
        | none =>
            rw [hd] at h
            cases h
        | some r =>
            obtain ⟨b, c₁⟩ := r
            rw [hd] at h
            cases b with
            | true => exact dfs_cyclic hn hL (fun x hx => (hstack x hx).elim) hd
            | false =>
                obtain ⟨⟨L₁, hL₁, _⟩, hback⟩ := dfs_finishes hn hL hd
                exact ih hL₁ (fun x hx => hstack x ((hback x).mp hx)) h
      · rw [if_neg hn] at h
        exact ih hL hstack h

/-! ### Fuel -/

/-- Nodes of `U` still unseen. -/
def unseen (U : List N) (c : N → Colour) : Nat := U.countP fun x => decide (c x = .unseen)

/-- No node becomes unseen again. -/
def Advances (c c' : N → Colour) : Prop := ∀ x, c' x = .unseen → c x = .unseen

omit [DecidableEq N] in
theorem unseen_le {U : List N} (h : Advances c c') : unseen U c' ≤ unseen U c := by
  refine List.countP_mono_left ?_
  intro x _ hx
  exact decide_eq_true (h x (of_decide_eq_true hx))

theorem unseen_push {U : List N} {n : N} (hn : n ∈ U) (hc : c n = .unseen) :
    unseen U (Function.update c n .inStack) < unseen U c := by
  have hadv : Advances c (Function.update c n .inStack) := by
    intro x hx
    by_cases hxn : x = n
    · subst hxn
      exact hc
    · rwa [Function.update_of_ne hxn] at hx
  induction U with
  | nil => cases hn
  | cons y U ih =>
      have hle : unseen U (Function.update c n .inStack) ≤ unseen U c := unseen_le hadv
      unfold unseen at hle ih ⊢
      rw [List.countP_cons, List.countP_cons]
      by_cases hy : y = n
      · subst hy
        simp only [Function.update_self, hc]
        simp only [reduceCtorEq, decide_false, decide_true, if_true, Bool.false_eq_true,
          if_false]
        omega
      · have hmem : n ∈ U := by
          rcases List.mem_cons.mp hn with heq | hmem
          · exact (hy heq.symm).elim
          · exact hmem
        have hlt := ih hmem
        rw [Function.update_of_ne hy]
        omega

omit [DecidableEq N] in
theorem each_isSome {visit : N → (N → Colour) → Option (Bool × (N → Colour))}
    {U : List N} {fuel : Nat}
    (hvisit : ∀ d c, d ∈ U → c d = .unseen → unseen U c ≤ fuel →
      ∃ r, visit d c = some r ∧ Advances c r.2)
    {ds : List N} (hds : ds ⊆ U) (hfuel : unseen U c ≤ fuel) :
    ∃ r, each visit ds c = some r ∧ Advances c r.2 := by
  induction ds generalizing c with
  | nil => exact ⟨_, rfl, fun _ hx => hx⟩
  | cons d ds ih =>
      obtain ⟨hd, hds⟩ := List.cons_subset.mp hds
      rw [each]
      cases hc : c d with
      | inStack => exact ⟨_, rfl, fun _ hx => hx⟩
      | done => exact ih hds hfuel
      | unseen =>
          obtain ⟨⟨b, c₁⟩, hv, hadv⟩ := hvisit d c hd hc hfuel
          simp only [hv]
          cases b with
          | true => exact ⟨_, rfl, hadv⟩
          | false =>
              obtain ⟨r, hr, hadv'⟩ := ih hds (Nat.le_trans (unseen_le hadv) hfuel)
              exact ⟨r, hr, fun x hx => hadv x (hadv' x hx)⟩

/-- **Fuel.**  Within a closed set of nodes the search never runs out of fuel
that covers the unseen ones. -/
theorem dfs_isSome {U : List N} (hU : ∀ x ∈ U, deps x ⊆ U) {fuel : Nat} {n : N}
    (hn : n ∈ U) (hc : c n = .unseen) (hfuel : unseen U c ≤ fuel) :
    ∃ r, dfs deps fuel n c = some r ∧ Advances c r.2 := by
  induction fuel generalizing n c with
  | zero =>
      have hlt := unseen_push hn hc
      omega
  | succ fuel ih =>
      rw [dfs]
      have hlt := unseen_push hn hc
      obtain ⟨⟨b, c₁⟩, he, hadv⟩ := each_isSome (U := U)
        (fun d c hd hc hf => ih hd hc hf) (hU n hn)
        (c := Function.update c n .inStack) (by omega)
      have hback : ∀ x, c₁ x = .unseen → c x = .unseen := by
        intro x hx
        have hx' := hadv x hx
        by_cases hxn : x = n
        · subst hxn
          exact hc
        · rwa [Function.update_of_ne hxn] at hx'
      simp only [he]
      cases b with
      | true => exact ⟨_, rfl, hback⟩
      | false =>
          refine ⟨_, rfl, fun x hx => ?_⟩
          by_cases hxn : x = n
          · subst hxn
            exact hc
          · have hx' : Function.update c₁ n .done x = .unseen := hx
            rw [Function.update_of_ne hxn] at hx'
            exact hback x hx'

/-- The whole search needs no more fuel than there are nodes. -/
theorem roots_isSome {U : List N} (hU : ∀ x ∈ U, deps x ⊆ U) {ns : List N}
    (hns : ns ⊆ U) (c : N → Colour) : ∃ r, roots deps U.length ns c = some r := by
  induction ns generalizing c with
  | nil => exact ⟨_, rfl⟩
  | cons n ns ih =>
      obtain ⟨hn, hns⟩ := List.cons_subset.mp hns
      rw [roots]
      by_cases hc : c n = .unseen
      · rw [if_pos hc]
        obtain ⟨⟨b, c₁⟩, hd, _⟩ := dfs_isSome hU hn hc (List.countP_le_length)
        simp only [hd]
        cases b with
        | true => exact ⟨_, rfl⟩
        | false => exact ih hns c₁
      · rw [if_neg hc]
        exact ih hns c

end Search

end Dokan.Verified.Dag
