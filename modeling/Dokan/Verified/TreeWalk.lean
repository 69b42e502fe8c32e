import Mathlib

/-!
# Walking a tree with a stack

A tree has named children at its inner nodes, and its leaves are visited by a loop that
keeps the nodes it has still to read on a stack.  A visit may fail and end the loop.

## Main results

* `walk_eq` — the walk visits the leaves of the tree, each once.
* `nodup_leavesOf` — no two leaves have one path, if no node names two children alike.
-/

namespace Dokan.Verified.TreeWalk

universe u v w

/-- A tree of named children. -/
inductive Tree (N : Type u) (A : Type v) : Type (max u v)
  | leaf (a : A)
  | node (children : List (N × Tree N A))

variable {N : Type u} {A : Type v}

mutual
/-- The leaves below `path`, each with its own path. -/
def Tree.leaves (path : List N) : Tree N A → List (List N × A)
  | .leaf a => [(path, a)]
  | .node children => leavesOf path children

def leavesOf (path : List N) : List (N × Tree N A) → List (List N × A)
  | [] => []
  | (name, t) :: rest => t.leaves (path ++ [name]) ++ leavesOf path rest
end

mutual
/-- No node names two children alike. -/
def Tree.Named : Tree N A → Prop
  | .leaf _ => True
  | .node children => (children.map Prod.fst).Nodup ∧ NamedAll children

def NamedAll : List (N × Tree N A) → Prop
  | [] => True
  | (_, t) :: rest => t.Named ∧ NamedAll rest
end

/-! ## The walk -/

mutual
/-- The steps a tree takes: an inner node is pushed, and popped. -/
def Tree.steps : Tree N A → Nat
  | .leaf _ => 1
  | .node children => 2 + stepsOf children

def stepsOf : List (N × Tree N A) → Nat
  | [] => 0
  | (_, t) :: rest => t.steps + stepsOf rest
end

/-- The nodes that are still to be read. -/
abbrev Stack (N : Type u) (A : Type v) := List (List N × List (N × Tree N A))

def Stack.steps (stack : Stack N A) : Nat := (stack.map fun d => 1 + stepsOf d.2).sum

def Stack.leaves (stack : Stack N A) : List (List N × A) :=
  stack.flatMap fun d => leavesOf d.1 d.2

section Walk

variable {S E : Type w} (visit : S → List N → A → Except E S)

/-- The walk in the middle of the node at `path`, of which `rest` is not read yet. -/
def walk (path : List N) : List (N × Tree N A) → Stack N A → S → Except E S
  | [], [], s => .ok s
  | [], (next, children) :: stack, s => walk next children stack s
  | (name, .node children) :: rest, stack, s =>
      walk path rest ((path ++ [name], children) :: stack) s
  | (name, .leaf a) :: rest, stack, s =>
      match visit s (path ++ [name]) a with
      | .error e => .error e
      | .ok s => walk path rest stack s
termination_by rest stack => stepsOf rest + Stack.steps stack
decreasing_by all_goals simp [stepsOf, Tree.steps, Stack.steps] <;> omega

/-- **The leaves are visited**, in some order, each once. -/
theorem walk_eq (path : List N) (rest : List (N × Tree N A)) (stack : Stack N A) (s : S) :
    ∃ order : List (List N × A), order.Perm (leavesOf path rest ++ stack.leaves) ∧
      walk visit path rest stack s = order.foldlM (fun s p => visit s p.1 p.2) s := by
  fun_induction walk visit path rest stack s with
  | case1 path s => exact ⟨[], .refl _, rfl⟩
  | case2 path next children stack s ih =>
      obtain ⟨order, hperm, heq⟩ := ih
      exact ⟨order, by simpa [leavesOf, Stack.leaves] using hperm, heq⟩
  | case3 path name children rest stack s ih =>
      obtain ⟨order, hperm, heq⟩ := ih
      refine ⟨order, hperm.trans ?_, heq⟩
      -- the children wait on the stack, behind the rest of the node
      simp only [leavesOf, Tree.leaves, Stack.leaves, List.flatMap_cons]
      rw [← List.append_assoc]
      exact List.perm_append_comm.append_right _
  | case4 path name a rest stack s e hvisit =>
      refine ⟨(path ++ [name], a) :: (leavesOf path rest ++ stack.leaves), ?_, ?_⟩
      · simp [leavesOf, Tree.leaves]
      · rw [List.foldlM_cons, hvisit]
        rfl
  | case5 path name a rest stack s s' hvisit ih =>
      obtain ⟨order, hperm, heq⟩ := ih
      refine ⟨(path ++ [name], a) :: order, ?_, ?_⟩
      · simpa [leavesOf, Tree.leaves] using hperm
      · rw [List.foldlM_cons, hvisit]
        exact heq

end Walk

/-! ## Paths -/

mutual
/-- A leaf lies below the place its path starts with. -/
theorem prefix_of_mem_leaves {path : List N} :
    {t : Tree N A} → {p : List N × A} → p ∈ t.leaves path → path <+: p.1
  | .leaf a, p, hp => by
      rw [Tree.leaves, List.mem_singleton] at hp
      exact hp ▸ List.prefix_refl path
  | .node children, p, hp => by
      obtain ⟨name, -, hname⟩ := prefix_of_mem_leavesOf (by simpa [Tree.leaves] using hp)
      exact (List.prefix_append path [name]).trans hname

/-- and below one of the children. -/
theorem prefix_of_mem_leavesOf {path : List N} :
    {children : List (N × Tree N A)} → {p : List N × A} → p ∈ leavesOf path children →
      ∃ name ∈ children.map Prod.fst, path ++ [name] <+: p.1
  | [], p, hp => by simp [leavesOf] at hp
  | (name, t) :: rest, p, hp => by
      rw [leavesOf, List.mem_append] at hp
      rcases hp with hp | hp
      · exact ⟨name, by simp, prefix_of_mem_leaves hp⟩
      · obtain ⟨other, hother, hbelow⟩ := prefix_of_mem_leavesOf hp
        exact ⟨other, List.mem_cons_of_mem _ hother, hbelow⟩
end

mutual
theorem nodup_leaves {path : List N} :
    {t : Tree N A} → t.Named → ((t.leaves path).map Prod.fst).Nodup
  | .leaf a, _ => by simp [Tree.leaves]
  | .node children, h => by
      rw [Tree.leaves]
      exact nodup_leavesOf h.1 h.2

/-- **Paths are distinct.** -/
theorem nodup_leavesOf {path : List N} :
    {children : List (N × Tree N A)} → (children.map Prod.fst).Nodup → NamedAll children →
      ((leavesOf path children).map Prod.fst).Nodup
  | [], _, _ => by simp [leavesOf]
  | (name, t) :: rest, hnodup, hnamed => by
      rw [List.map_cons, List.nodup_cons] at hnodup
      rw [leavesOf, List.map_append, List.nodup_append]
      refine ⟨nodup_leaves hnamed.1, nodup_leavesOf hnodup.2 hnamed.2, ?_⟩
      rintro q hq q' hq' rfl
      obtain ⟨p, hp, rfl⟩ := List.mem_map.mp hq
      obtain ⟨p', hp', heq⟩ := List.mem_map.mp hq'
      -- two children on one path have one name
      obtain ⟨other, hother, hbelow⟩ := prefix_of_mem_leavesOf hp'
      have hhere := prefix_of_mem_leaves hp
      rw [heq] at hbelow
      have hsame : path ++ [name] = path ++ [other] :=
        (List.prefix_of_prefix_length_le hhere hbelow (by simp)).eq_of_length (by simp)
      have hname : name = other := by simpa using hsame
      exact hnodup.1 (hname ▸ hother)
end

end Dokan.Verified.TreeWalk
