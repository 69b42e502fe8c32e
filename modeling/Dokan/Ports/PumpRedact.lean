import Dokan.Verified.Cutting
import Dokan.Ports.PumpSecrets

/-!
# What redaction leaves of a line

`redact_secrets` replaces the secrets one after another, in the order the list
has them, and that is the order of a hash map.  Each replacement goes over what
the last one has left: a secret whose occurrence has been cut into by another
one is not found any more, a scan goes over the end of an occurrence and leaves
the beginning of the next, and the asterisks that stand for one secret may be
part of another.  `Untangled` says of a line and a list of secrets that none of
this happens.

## Main results

* `redactMarks_eq` — the redacted line, from the words that have been cut out.
* `Untangled.complete`, `Untangled.orderFree` — what redaction does to a line
  whose secrets are not tangled.
* `redaction_exact` — for secrets without an asterisk, it does so for no other
  line.
-/

namespace Dokan.Ports.PumpLogs

open Dokan.Verified
open Dokan.Verified.Cutting

/-! ## Where the characters of a redacted line come from -/

/-- The asterisks that stand for a secret come from no place of the line. -/
def mask : List (Char × Option Nat) := stars.map fun c => (c, none)

/-- `redact_secrets`, over characters that remember their place in the line. -/
def redactMarks (line : Text) (secrets : List Text) : List (Char × Option Nat) :=
  secrets.foldl (fun out s => replaceOn Prod.fst s mask 0 out)
    (line.zipIdx.map fun p => (p.1, some p.2))

/-- An occurrence of a listed secret in the line has the place `k`. -/
def Covered (line : Text) (secrets : List Text) (k : Nat) : Prop :=
  ∃ s ∈ secrets, ∃ i, s <+: line.drop i ∧ i ≤ k ∧ k < i + s.length

/-- No character of an occurrence of a listed secret is left. -/
def Complete (line : Text) (secrets : List Text) : Prop :=
  ∀ x ∈ redactMarks line secrets, ∀ k, x.2 = some k → ¬ Covered line secrets k

/-- The order of the list is of no account. -/
def OrderFree (line : Text) (secrets : List Text) : Prop :=
  ∀ secrets' : List Text, secrets'.Perm secrets →
    redactSecrets line secrets' = redactSecrets line secrets

/-- The secrets of a line are not tangled: the places where two of them are
found do not overlap, each occurrence of a secret lies in such places, and no
secret is found in the asterisks that stand for others. -/
structure Untangled (line : Text) (secrets : List Text) : Prop where
  apart : PicksApart secrets line
  covered : ∀ k, Covered line secrets k →
    ∃ y ∈ secrets, ∃ j ∈ picks y line, j ≤ k ∧ k < j + y.length
  masks : ∀ (y : Text) (us : List Text), (y :: us).Subperm secrets →
    OnKept y (marks stars 0 (cutAll us line))

/-- `str::replace` is a scan. -/
theorem replaceFrom_eq (pat rep : Text) (skip : Nat) (t : Text) :
    replaceFrom pat rep skip t = replaceOn id pat rep skip t := by
  fun_induction replaceFrom pat rep skip t with
  | case1 => rfl
  | case2 skip c t ih => exact ih
  | case3 c t hpre ih =>
      rw [replaceOn, if_pos (by simpa using hpre), ih]
  | case4 c t hpre ih =>
      rw [replaceOn, if_neg (by simpa using hpre), ih]

/-- Without the places, it is `redact_secrets`. -/
theorem map_fst_redactMarks (line : Text) (secrets : List Text) :
    (redactMarks line secrets).map Prod.fst = redactSecrets line secrets := by
  have hfold : ∀ l : List (Char × Option Nat),
      (secrets.foldl (fun out s => replaceOn Prod.fst s mask 0 out) l).map Prod.fst =
        redactSecrets (l.map Prod.fst) secrets := by
    intro l
    unfold redactSecrets
    induction secrets generalizing l with
    | nil => rfl
    | cons s secrets ih =>
        rw [List.foldl_cons, List.foldl_cons, ih, map_replaceOn, ← replaceFrom_eq]
        rfl
  rw [redactMarks, hfold, List.map_map]
  congr 1
  exact List.zipIdx_map_fst 0 line

/-! ## From the words that have been cut out -/

section Redact

variable {line : Text} {secrets us : List Text}

theorem marks_whole (o : Nat) (l : Text) :
    marks stars o (whole l) = (l.zipIdx o).map fun p => (p.1, some p.2) := by
  induction l generalizing o with
  | nil => rfl
  | cons c l ih => exact congrArg ((c, some o) :: ·) (ih (o + 1))

theorem redactMarks_concat (line : Text) (us : List Text) (s : Text) :
    redactMarks line (us ++ [s]) = replaceOn Prod.fst s mask 0 (redactMarks line us) := by
  simp [redactMarks]

/-- **The redacted line**, from the words that have been cut out, if no scan
meets a mask. -/
theorem redactMarks_eq (hus : ∀ s ∈ us, s ≠ [])
    (hmasks : ∀ a y b, us = a ++ y :: b → OnKept y (marks stars 0 (cutAll a line))) :
    redactMarks line us = marks stars 0 (cutAll us line) := by
  induction us using List.reverseRecOn with
  | nil => exact (marks_whole 0 line).symm
  | append_singleton us s ih =>
      obtain ⟨hus', hs⟩ := ne_nil_of_concat hus
      have hrest : redactMarks line us = marks stars 0 (cutAll us line) := by
        refine ih hus' fun a y b heq => hmasks a y (b ++ [s]) ?_
        rw [heq, List.append_assoc, List.cons_append]
      rw [redactMarks_concat, cutAll_concat, hrest]
      exact replaceOn_marks (List.cons_ne_nil _ _) hs 0 (hmasks us s [] rfl)

/-! ## Secrets that are not tangled -/

theorem Untangled.marks_eq (h : Untangled line secrets) (hne : ∀ s ∈ secrets, s ≠ [])
    (hus : us.Perm secrets) : redactMarks line us = marks stars 0 (cutAll secrets line) := by
  rw [← cutAll_perm hne h.apart hus]
  refine redactMarks_eq (fun s hs => hne s (hus.mem_iff.mp hs)) fun a y b heq => ?_
  refine h.masks y a (List.Subperm.trans ?_ hus.subperm)
  rw [heq, List.append_cons]
  exact (List.perm_append_singleton y a).symm.subperm.trans
    (List.sublist_append_left (a ++ [y]) b).subperm

theorem Untangled.complete (h : Untangled line secrets) (hne : ∀ s ∈ secrets, s ≠ []) :
    Complete line secrets := by
  rintro ⟨c, o⟩ hx k rfl hcov
  rw [h.marks_eq hne (.refl _)] at hx
  obtain ⟨_, hkept⟩ := trace_of_mem_marks hx
  obtain ⟨y, hy, j, hj, hjk, hkj⟩ := h.covered k hcov
  -- the secret that is found there has been cut out
  have hcut : (j, y) ∈ cuts 0 (cutAll secrets line) := by
    rw [mem_picks (hne y hy), ← uncut_cutAll hne h.apart hy, mem_cuts_uncut] at hj
    exact hj.1
  obtain ⟨b, hb⟩ := trace_of_mem_cuts hcut hjk hkj
  rw [hkept] at hb
  cases hb

theorem Untangled.orderFree (h : Untangled line secrets) (hne : ∀ s ∈ secrets, s ≠ []) :
    OrderFree line secrets := by
  intro secrets' hperm
  rw [← map_fst_redactMarks, ← map_fst_redactMarks, h.marks_eq hne hperm,
    h.marks_eq hne (.refl _)]

/-! ## Secrets without an asterisk -/

/-- A secret without an asterisk is found in no mask. -/
theorem onKept_of_star {y : Text} (hy : '*' ∉ y) (ps : List (Piece Char)) :
    OnKept y (marks stars 0 ps) := by
  refine onKept_of_disjoint (fun c hc => ?_) 0 ps
  have hstar : c = '*' := by simpa [stars] using hc
  rwa [hstar]

theorem redactMarks_of_star (hne : ∀ s ∈ us, s ≠ []) (hstar : ∀ s ∈ us, '*' ∉ s) :
    redactMarks line us = marks stars 0 (cutAll us line) :=
  redactMarks_eq hne fun a y b heq => onKept_of_star (hstar y (by simp [heq])) _

/-- A place no word of which has been cut out. -/
theorem kept_of_not_covered (hne : ∀ s ∈ us, s ≠ []) {k : Nat} (hk : k < line.length)
    (h : ¬ Covered line us k) : ∃ c, (trace (cutAll us line))[k]? = some (c, true) := by
  have htext := text_cutAll hne line
  have hlen : k < (trace (cutAll us line)).length := by
    rw [← htext, Cutting.text, List.length_map] at hk
    exact hk
  obtain ⟨⟨c, b⟩, hget⟩ : ∃ x, (trace (cutAll us line))[k]? = some x :=
    ⟨_, List.getElem?_eq_getElem hlen⟩
  cases b with
  | true => exact ⟨c, hget⟩
  | false =>
      obtain ⟨j, w, hmem, hj, hkw, hpre⟩ := exists_cut_of_getElem? 0 hget
      rw [Nat.zero_add] at hj hkw
      rw [htext, Nat.sub_zero] at hpre
      exact (h ⟨w, words_cutAll hne (mem_words_of_mem_cuts hmem), j, hpre, hj, hkw⟩).elim

/-- No character that is cut out is an asterisk. -/
theorem not_star_of_cut (hne : ∀ s ∈ us, s ≠ []) (hstar : ∀ s ∈ us, '*' ∉ s) {c : Char}
    (hc : (c, false) ∈ trace (cutAll us line)) : c ∉ stars := by
  intro hmask
  obtain ⟨k, hk⟩ := List.mem_iff_getElem?.mp hc
  obtain ⟨j, w, hmem, hj, hkw, t, ht⟩ := exists_cut_of_getElem? 0 hk
  rw [Nat.zero_add] at hj hkw
  rw [Nat.sub_zero] at ht
  have hget : (Cutting.text (cutAll us line))[k]? = some c := by
    rw [Cutting.text, List.getElem?_map, hk]
    rfl
  have hword : w[k - j]? = some c := by
    have hlt : k - j < w.length := by omega
    have hdrop : ((Cutting.text (cutAll us line)).drop j)[k - j]? = some c := by
      rw [List.getElem?_drop, show j + (k - j) = k by omega]
      exact hget
    rwa [← ht, List.getElem?_append_left hlt] at hdrop
  have hc' : c = '*' := by simpa [stars] using hmask
  exact hstar w (words_cutAll hne (mem_words_of_mem_cuts hmem)) (hc' ▸ List.mem_of_getElem? hword)

theorem lt_length_of_trace (hne : ∀ s ∈ us, s ≠ []) {k : Nat} {x : Char × Bool}
    (hk : (trace (cutAll us line))[k]? = some x) : k < line.length := by
  have h := (List.getElem?_eq_some_iff.mp hk).1
  rwa [← List.length_map (f := Prod.fst), ← Cutting.text, text_cutAll hne] at h

/-- What complete redaction keeps, an occurrence of no secret has. -/
theorem not_covered_of_kept (hne : ∀ s ∈ secrets, s ≠ []) (hstar : ∀ s ∈ secrets, '*' ∉ s)
    (hC : Complete line secrets) {k : Nat} {c : Char}
    (hk : (trace (cutAll secrets line))[k]? = some (c, true)) : ¬ Covered line secrets k := by
  have hmem : (c, some k) ∈ redactMarks line secrets := by
    rw [redactMarks_of_star hne hstar]
    simpa using mem_marks_of_trace (m := stars) (o := 0) hk
  exact hC _ hmem k rfl

/-- Every order keeps the same characters. -/
theorem trace_cutAll_eq (hne : ∀ s ∈ secrets, s ≠ []) (hstar : ∀ s ∈ secrets, '*' ∉ s)
    (hC : Complete line secrets) (hus : us.Perm secrets)
    (hshown : shown stars (cutAll secrets line) = shown stars (cutAll us line)) :
    trace (cutAll secrets line) = trace (cutAll us line) := by
  have hne' : ∀ s ∈ us, s ≠ [] := fun s hs => hne s (hus.mem_iff.mp hs)
  have htext : Cutting.text (cutAll secrets line) = Cutting.text (cutAll us line) := by
    rw [text_cutAll hne, text_cutAll hne']
  refine trace_eq_of_shown htext (fun k c hk => ?_) (fun c => not_star_of_cut hne hstar) hshown
  have hcov : ¬ Covered line us k := by
    rintro ⟨s, hs, hocc⟩
    exact not_covered_of_kept hne hstar hC hk ⟨s, hus.mem_iff.mp hs, hocc⟩
  obtain ⟨c', hc'⟩ := kept_of_not_covered hne' (lt_length_of_trace hne hk) hcov
  have hsame : (Cutting.text (cutAll secrets line))[k]? =
      (Cutting.text (cutAll us line))[k]? := by rw [htext]
  rw [Cutting.text, Cutting.text, List.getElem?_map, List.getElem?_map, hk, hc'] at hsame
  cases hsame
  exact hc'

/-- **Every order cuts out the same words**, if redaction is complete and does not
depend on the order. -/
theorem cutAll_eq_of_orderFree (hne : ∀ s ∈ secrets, s ≠ []) (hstar : ∀ s ∈ secrets, '*' ∉ s)
    (hC : Complete line secrets) (hO : OrderFree line secrets) (hus : us.Perm secrets) :
    cutAll us line = cutAll secrets line := by
  have hshown : ∀ {vs : List Text}, vs.Perm secrets →
      shown stars (cutAll secrets line) = shown stars (cutAll vs line) := by
    intro vs hvs
    have hvs' : redactMarks line vs = marks stars 0 (cutAll vs line) :=
      redactMarks_of_star (fun s hs => hne s (hvs.mem_iff.mp hs))
        fun s hs => hstar s (hvs.mem_iff.mp hs)
    rw [shown, shown, ← redactMarks_of_star hne hstar, ← hvs', map_fst_redactMarks,
      map_fst_redactMarks, hO vs hvs]
  have htrace : ∀ {vs : List Text}, vs.Perm secrets →
      trace (cutAll secrets line) = trace (cutAll vs line) :=
    fun hvs => trace_cutAll_eq hne hstar hC hvs (hshown hvs)
  have hlen : ∀ {vs : List Text}, vs.Perm secrets →
      (words (cutAll secrets line)).length = (words (cutAll vs line)).length :=
    fun hvs => length_words_of_shown (List.cons_ne_nil _ _) (htrace hvs) (hshown hvs)
  -- the order with short secrets first cuts out the most words
  have hsort : (secrets.insertionSort fun v w => v.length ≤ w.length).Perm secrets :=
    List.perm_insertionSort _ _
  have hsame : ∀ {vs : List Text}, vs.Perm secrets → cutAll vs line =
      cutAll (secrets.insertionSort fun v w => v.length ≤ w.length) line := by
    intro vs hvs
    refine cutAll_eq_of_trace (fun s hs => hne s (hsort.mem_iff.mp hs)) ?_ (fun v hv => ?_) ?_ ?_
    · exact List.pairwise_insertionSort _ _
    · exact hsort.mem_iff.mpr (hvs.mem_iff.mp hv)
    · rw [← htrace hsort, htrace hvs]
    · rw [← hlen hsort, hlen hvs]
  rw [hsame hus, hsame (.refl _)]

/-- Redaction is complete and does not depend on the order only where the
secrets are not tangled. -/
theorem untangled_of_exact (hne : ∀ s ∈ secrets, s ≠ []) (hstar : ∀ s ∈ secrets, '*' ∉ s)
    (hC : Complete line secrets) (hO : OrderFree line secrets) : Untangled line secrets := by
  -- each secret is found where it has been cut out
  have hfound : ∀ x ∈ secrets, ∀ i, i ∈ picks x line ↔ (i, x) ∈ cuts 0 (cutAll secrets line) := by
    intro x hx i
    have hperm : (x :: secrets.erase x).Perm secrets := (List.perm_cons_erase hx).symm
    have hfirst := uncut_cutAll_cons (l := line) fun s hs => hne s (hperm.mem_iff.mp hs)
    rw [cutAll_eq_of_orderFree hne hstar hC hO hperm] at hfirst
    rw [mem_picks (hne x hx), ← hfirst, mem_cuts_uncut]
    simp
  refine ⟨fun x hx y hy hxy i hi j hj => ?_, fun k hk => ?_, fun y us hsub => ?_⟩
  · rcases cuts_apart ((hfound x hx i).mp hi) ((hfound y hy j).mp hj) with heq | h
    · exact (hxy (Prod.mk.inj heq).2).elim
    · exact h
  · obtain ⟨s, hs, i, hpre, hik, hki⟩ := id hk
    have hlt : k < line.length := by
      have hlen := hpre.length_le
      rw [List.length_drop] at hlen
      omega
    have hget : ∃ x, (trace (cutAll secrets line))[k]? = some x := by
      refine ⟨_, List.getElem?_eq_getElem ?_⟩
      rwa [← List.length_map (f := Prod.fst), ← Cutting.text, text_cutAll hne]
    obtain ⟨⟨c, b⟩, hget⟩ := hget
    cases b with
    | true => exact (not_covered_of_kept hne hstar hC hget hk).elim
    | false =>
        obtain ⟨j, w, hmem, hj, hkw, _⟩ := exists_cut_of_getElem? 0 hget
        have hw := words_cutAll hne (mem_words_of_mem_cuts hmem)
        exact ⟨w, hw, j, (hfound w hw j).mpr hmem, by omega, by omega⟩
  · exact onKept_of_star (hstar y (hsub.subset List.mem_cons_self)) _

end Redact

/-- **Redaction, exactly.**  Redaction removes every character of every occurrence
of a listed secret, and does not depend on the order of the list, if the secrets
of the line are not tangled; and, for secrets without an asterisk, only then. -/
theorem redaction_exact (line : Text) (secrets : List Text) (hne : ∀ s ∈ secrets, s ≠ []) :
    (Untangled line secrets → Complete line secrets ∧ OrderFree line secrets) ∧
      ((∀ s ∈ secrets, '*' ∉ s) → Complete line secrets ∧ OrderFree line secrets →
        Untangled line secrets) :=
  ⟨fun h => ⟨h.complete hne, h.orderFree hne⟩,
    fun hstar h => untangled_of_exact hne hstar h.1 h.2⟩

/-- Two secrets, and a line that shows both. -/
def twoTokens : List Text := ["s3cret-a".toList, "s3cret-b".toList]

def showsBoth : Text := "s3cret-b s3cret-a".toList

theorem untangled_showsBoth : Untangled showsBoth twoTokens := by
  refine ⟨?_, fun k hk => ?_, fun y us hsub => ?_⟩
  · unfold PicksApart
    decide
  · obtain ⟨s, hs, i, hpre, hik, hki⟩ := hk
    have hlen : ∀ s ∈ twoTokens, s.length = 8 := by decide
    have hfound : ∀ s ∈ twoTokens, ∀ i < 17, s <+: showsBoth.drop i → i ∈ picks s showsBoth := by
      decide
    have hle := hpre.length_le
    rw [List.length_drop, hlen s hs] at hle
    have hline : showsBoth.length = 17 := by decide
    exact ⟨s, hs, i, hfound s hs i (by omega) hpre, hik, hki⟩
  · have hstar : ∀ s ∈ twoTokens, '*' ∉ s := by decide
    exact onKept_of_star (hstar y (hsub.subset List.mem_cons_self)) _

theorem redaction_exact_showsBoth :
    Complete showsBoth twoTokens ∧ OrderFree showsBoth twoTokens :=
  (redaction_exact showsBoth twoTokens (by decide)).1 untangled_showsBoth

/-- A secret that another one begins with. -/
def nested : List Text := ["password".toList, "password123".toList]

/-- The end of the longer secret is left when the shorter one is replaced first,
and not when it is replaced last. -/
theorem nested_left :
    secretVals none [("A", "password".toList), ("B", "password123".toList)] = nested ∧
      redactSecrets "password123".toList nested = "***123".toList ∧
      ¬ Complete "password123".toList nested ∧ ¬ OrderFree "password123".toList nested := by
  refine ⟨by decide, by decide, fun h => ?_, fun h => ?_⟩
  · have hmem : ('1', some 8) ∈ redactMarks "password123".toList nested := by decide
    refine h _ hmem 8 rfl ⟨"password123".toList, by decide, 0, by decide, by decide, by decide⟩
  · have hswap : ["password123".toList, "password".toList].Perm nested :=
      List.Perm.swap "password".toList "password123".toList []
    exact absurd (h _ hswap) (by decide)

end Dokan.Ports.PumpLogs
