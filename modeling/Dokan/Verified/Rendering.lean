import Dokan.Verified.Framing

/-!
# Maps of one rendering

`render` joins the entries of a map by commas, and a comma or a colon in a name
is written as it is.  The entries in front of the last one can be read as part
of its name, so every map is rendered as a map of one member, whose name is
`joinName`.  A map of one member is rendered as no larger map exactly if its name
does not read as such a beginning.

## Main results

* `render_eq_entry` — every rendering is that of one member.
* `eq_singleton_of_render` — a rendering with one colon is that of one map.
* `render_pair` — two members in order are the one they join to.
* `exists_pair` — a larger map of the rendering of a member splits its name.
-/

namespace Dokan.Verified.Framing

/-! ## The order of the entries -/

theorem le_append (s t : String) : s ≤ s ++ t := by
  rw [String.le_iff_toList_le, String.toList_append]
  exact le_of_not_gt (List.prefix_append s.toList t.toList).le

theorem le_append_of_le {s t : String} (h : s ≤ t) (u : String) : s ≤ t ++ u :=
  le_trans h (le_append t u)

/-- A text does not come before a longer one with which it begins. -/
theorem not_append_le {s t : String} (ht : t ≠ "") : ¬ s ++ t ≤ s := by
  intro h
  have heq : s ++ t = s := le_antisymm h (le_append s t)
  have hchars := congrArg String.toList heq
  rw [String.toList_append] at hchars
  exact ht (String.toList_eq_nil_iff.mp (List.append_right_eq_self.mp hchars))

/-- The members in the order of their entries. -/
def sorted (ps : List (String × String)) : List (String × String) :=
  ps.mergeSort fun p q => decide (entry p ≤ entry q)

theorem sorted_perm (ps : List (String × String)) : (sorted ps).Perm ps :=
  List.mergeSort_perm ps _

theorem sorted_pairwise (ps : List (String × String)) :
    (sorted ps).Pairwise fun p q => entry p ≤ entry q := by
  have htrans : ∀ p q r : String × String, decide (entry p ≤ entry q) = true →
      decide (entry q ≤ entry r) = true → decide (entry p ≤ entry r) = true :=
    fun p q r hpq hqr => decide_eq_true (le_trans (of_decide_eq_true hpq) (of_decide_eq_true hqr))
  have htotal : ∀ p q : String × String,
      (decide (entry p ≤ entry q) || decide (entry q ≤ entry p)) = true := by
    intro p q
    rw [Bool.or_eq_true, decide_eq_true_eq, decide_eq_true_eq]
    exact le_total _ _
  exact (List.pairwise_mergeSort htrans htotal ps).imp fun h => of_decide_eq_true h

theorem render_eq (ps : List (String × String)) :
    render ps = ",".intercalate ((sorted ps).map entry) := by
  rw [render, sorted]
  rw [List.map_mergeSort (s := fun s t => decide (s ≤ t)) fun p _ q _ => rfl]

/-- Members in order are rendered in order. -/
theorem render_of_pairwise {ps : List (String × String)}
    (h : ps.Pairwise fun p q => entry p ≤ entry q) :
    render ps = ",".intercalate (ps.map entry) := by
  rw [render_eq, sorted, List.mergeSort_of_pairwise (h.imp fun hpq => decide_eq_true hpq)]

theorem render_nil : render [] = "" := by
  rw [render_of_pairwise List.Pairwise.nil]
  rfl

theorem render_singleton (p : String × String) : render [p] = entry p := by
  rw [render_of_pairwise (List.pairwise_singleton _ _)]
  rfl

/-- The order of the members does not show. -/
theorem render_congr {ps qs : List (String × String)} (h : ps.Perm qs) :
    render ps = render qs := by
  have hsorted : ∀ rs : List (String × String), ((sorted rs).map entry).Pairwise (· ≤ ·) :=
    fun rs => List.pairwise_map.mpr (sorted_pairwise rs)
  have hperm : ((sorted ps).map entry).Perm ((sorted qs).map entry) :=
    (((sorted_perm ps).trans h).trans (sorted_perm qs).symm).map entry
  rw [render_eq, render_eq,
    List.Perm.eq_of_pairwise (fun s t _ _ => le_antisymm) (hsorted ps) (hsorted qs) hperm]

/-! ## One member for all -/

/-- The entries in front of the last, and its name. -/
def joinName : List (String × String) → String
  | [] => ""
  | [p] => p.1
  | p :: q :: ps => entry p ++ "," ++ joinName (q :: ps)

/-- The value of the last. -/
def lastValue : List (String × String) → String
  | [] => ""
  | [p] => p.2
  | _ :: q :: ps => lastValue (q :: ps)

theorem entry_append (s : String) (p : String × String) : entry (s ++ p.1, p.2) = s ++ entry p := by
  simp only [entry, String.append_assoc]

theorem entry_left_cancel {s t v : String} (h : entry (s, v) = entry (t, v)) : s = t := by
  have hchars := congrArg String.toList h
  rw [toList_entry, toList_entry] at hchars
  exact String.toList_inj.mp (List.append_cancel_right hchars)

theorem entry_joinName (p : String × String) (ps : List (String × String)) :
    entry (joinName (p :: ps), lastValue (p :: ps)) = ",".intercalate ((p :: ps).map entry) := by
  induction ps generalizing p with
  | nil => rfl
  | cons q ps ih =>
      rw [joinName, lastValue,
        entry_append (entry p ++ ",") (joinName (q :: ps), lastValue (q :: ps)), ih q,
        List.map_cons (l := q :: ps), List.map_cons, String.intercalate_cons_cons]

theorem lastValue_mem (p : String × String) (ps : List (String × String)) :
    ∃ q ∈ p :: ps, lastValue (p :: ps) = q.2 := by
  induction ps generalizing p with
  | nil => exact ⟨p, List.mem_singleton_self p, rfl⟩
  | cons q ps ih =>
      obtain ⟨r, hr, hlast⟩ := ih q
      exact ⟨r, List.mem_cons_of_mem p hr, hlast⟩

/-- **Every rendering is that of one member.** -/
theorem render_eq_entry {ps : List (String × String)} (h : ps ≠ []) :
    render ps = entry (joinName (sorted ps), lastValue (sorted ps)) := by
  have hne : sorted ps ≠ [] := by
    intro hnil
    have hperm := sorted_perm ps
    rw [hnil] at hperm
    exact h hperm.symm.eq_nil
  obtain ⟨p, qs, hp⟩ := List.exists_cons_of_ne_nil hne
  rw [render_eq, hp, entry_joinName]

theorem colon_mem_render {ps : List (String × String)} (h : ps ≠ []) :
    ':' ∈ (render ps).toList := by
  rw [render_eq_entry h, toList_entry]
  exact List.mem_append_right _ List.mem_cons_self

/-- Every member has its colon. -/
theorem length_le_count_render (ps : List (String × String)) :
    ps.length ≤ (render ps).toList.count ':' := by
  have hjoin : ∀ qs : List (String × String),
      qs.length ≤ (",".intercalate (qs.map entry)).toList.count ':' := by
    intro qs
    induction qs with
    | nil => exact Nat.zero_le _
    | cons q qs ih =>
        cases qs with
        | nil =>
            rw [List.map_singleton, String.intercalate_singleton, toList_entry, List.count_append,
              List.count_cons_self, List.length_singleton]
            omega
        | cons r qs =>
            rw [List.map_cons, List.map_cons, String.intercalate_cons_cons, ← List.map_cons,
              String.toList_append, String.toList_append, List.count_append, List.count_append,
              toList_entry q, List.count_append, List.count_cons_self, List.length_cons]
            omega
  rw [render_eq, ← (sorted_perm ps).length_eq]
  exact hjoin (sorted ps)

theorem eq_nil_of_render {ps : List (String × String)} (h : render ps = "") : ps = [] := by
  by_contra hne
  have hmem := colon_mem_render hne
  rw [h] at hmem
  cases hmem

/-- **A rendering with one colon** is that of one map. -/
theorem eq_singleton_of_render {ps : List (String × String)} {p : String × String}
    (hname : ':' ∉ p.1.toList) (hvalue : ':' ∉ p.2.toList) (h : render ps = entry p) :
    ps = [p] := by
  have hcount : (entry p).toList.count ':' = 1 := by
    rw [toList_entry, List.count_append, List.count_cons_self, List.count_eq_zero.mpr hname,
      List.count_eq_zero.mpr hvalue]
  have hone : ps.length ≤ 1 := by
    rw [← hcount, ← h]
    exact length_le_count_render ps
  rcases ps with _ | ⟨q, _ | ⟨q', ps⟩⟩
  · rw [← h, render_nil] at hcount
    cases hcount
  · rw [render_singleton] at h
    rw [← h, toList_entry, List.count_append, List.count_cons_self] at hcount
    have hq : ':' ∉ q.2.toList := List.count_eq_zero.mp (by omega)
    rw [← unentry_entry hq, h, unentry_entry hvalue]
  · rw [List.length_cons, List.length_cons] at hone
    omega

/-- **Two members in order** are the one they join to. -/
theorem render_pair {p q : String × String} (h : entry p ≤ entry q) :
    render [p, q] = entry (entry p ++ "," ++ q.1, q.2) := by
  rw [render_of_pairwise (List.pairwise_pair.mpr h), entry_append]
  rfl

theorem joinName_ne_empty {p : String × String} {ps : List (String × String)}
    (h : p.1 ≠ "") : joinName (p :: ps) ≠ "" := by
  cases ps with
  | nil => exact h
  | cons q ps =>
      intro hempty
      have hchars := congrArg String.toList hempty
      rw [joinName, String.toList_append, String.toList_append, String.toList_empty,
        List.append_eq_nil_iff, List.append_eq_nil_iff] at hchars
      cases hchars.1.2

/-- What a map of several members is cut into: its first and the rest. -/
theorem exists_pair {ps : List (String × String)} (hnodup : (ps.map Prod.fst).Nodup)
    (hlength : 2 ≤ ps.length) (hnames : ∀ p ∈ ps, p.1 ≠ "") :
    ∃ p n, p ∈ ps ∧ n ≠ "" ∧ p.1 ≠ n ∧ entry p ≤ entry (n, lastValue (sorted ps)) ∧
      joinName (sorted ps) = entry p ++ "," ++ n := by
  have hperm := sorted_perm ps
  have hordered := sorted_pairwise ps
  obtain ⟨p, q, qs, hsorted⟩ : ∃ p q qs, sorted ps = p :: q :: qs := by
    have hlen := hperm.length_eq
    rcases hs : sorted ps with _ | ⟨p, _ | ⟨q, qs⟩⟩
    · rw [hs] at hlen
      simp only [List.length_nil] at hlen
      omega
    · rw [hs] at hlen
      simp only [List.length_cons, List.length_nil] at hlen
      omega
    · exact ⟨p, q, qs, rfl⟩
  rw [hsorted] at hperm hordered ⊢
  have hpq : entry p ≤ entry q := (List.pairwise_cons.mp hordered).1 q List.mem_cons_self
  have hlast : entry (joinName (q :: qs), lastValue (q :: qs)) =
      ",".intercalate ((q :: qs).map entry) := entry_joinName q qs
  have hbegins : ∃ u, ",".intercalate ((q :: qs).map entry) = entry q ++ u := by
    cases qs with
    | nil => exact ⟨"", by simp⟩
    | cons r qs =>
        rw [List.map_cons, List.map_cons, String.intercalate_cons_cons, String.append_assoc]
        exact ⟨_, rfl⟩
  refine ⟨p, joinName (q :: qs), hperm.subset List.mem_cons_self, ?_, ?_, ?_, rfl⟩
  · exact joinName_ne_empty (hnames q (hperm.subset (by simp)))
  · intro hname
    cases qs with
    | nil =>
        have hdiff := (hperm.map Prod.fst).nodup_iff.mpr hnodup
        rw [List.map_cons, List.nodup_cons] at hdiff
        exact hdiff.1 (hname ▸ List.mem_cons_self)
    | cons r qs =>
        -- the entry of the second member would come first
        rw [joinName] at hname
        have hlong : entry p = entry q ++ ("," ++ joinName (r :: qs) ++ ":" ++ p.2) := by
          rw [entry, hname]
          simp only [String.append_assoc]
        rw [hlong] at hpq
        refine not_append_le ?_ hpq
        intro hempty
        have hchars := congrArg String.toList hempty
        simp at hchars
  · obtain ⟨u, hu⟩ := hbegins
    rw [lastValue, hlast, hu]
    exact le_append_of_le hpq u

end Dokan.Verified.Framing
