import Mathlib

/-!
# Cutting words out of a text

A scan for one word goes through a text from left to right and replaces what it
finds.  Scans for several words, one after another, each go through what the
last one has left.  Here a text is a list of pieces, letters that are kept and
words that have been cut out, and a scan cuts its word out wherever only kept
letters spell it.

How the words lie in the text decides what the scans leave.  If the places
where each word is found by itself fit together, the order of the scans is of
no account (`cutAll_perm`).  Conversely, a scan for short words before long ones
cuts out the most pieces, and another order that cuts out as many of them from
the same letters has cut out the same ones (`cutAll_eq_of_trace`).

## Main results

* `scan_induction` — how a scan goes through a list: hits and misses.
* `replaceOn_marks` — a scan over the text that is shown, where it meets no mask.
* `cutOut_uncut` — a scan finds in a cut text what it finds in the whole one.
* `counts` — the words of two cuttings of the same letters.
-/

namespace Dokan.Verified.Cutting

universe u v

variable {α : Type u} {β : Type v}

/-! ## Pieces -/

/-- A letter that is kept, or a word that has been cut out. -/
inductive Piece (α : Type u)
  | keep (a : α)
  | cut (w : List α)
deriving DecidableEq

/-- The letter, if it is kept. -/
def Piece.letter : Piece α → Option α
  | .keep a => some a
  | .cut _ => none

/-- The letters of a piece, and whether they are kept. -/
def Piece.trace : Piece α → List (α × Bool)
  | .keep a => [(a, true)]
  | .cut w => w.map fun a => (a, false)

/-- The word, if it has been cut out. -/
def Piece.word? : Piece α → Option (List α)
  | .keep _ => none
  | .cut w => some w

/-- The text with every letter kept. -/
def whole (l : List α) : List (Piece α) := l.map .keep

/-- The letters of the text, and whether they are kept. -/
def trace (ps : List (Piece α)) : List (α × Bool) := ps.flatMap Piece.trace

/-- The text. -/
def text (ps : List (Piece α)) : List α := (trace ps).map Prod.fst

/-- The words that have been cut out. -/
def words (ps : List (Piece α)) : List (List α) := ps.filterMap Piece.word?

/-- Where which words have been cut out, the first piece being at `i`. -/
def cuts : Nat → List (Piece α) → List (Nat × List α)
  | _, [] => []
  | i, .keep _ :: ps => cuts (i + 1) ps
  | i, .cut w :: ps => (i, w) :: cuts (i + w.length) ps

section Pieces

variable {w : List α} {ps : List (Piece α)}

@[simp] theorem trace_nil : trace ([] : List (Piece α)) = [] := rfl

@[simp] theorem trace_keep (a : α) (ps : List (Piece α)) :
    trace (.keep a :: ps) = (a, true) :: trace ps := rfl

@[simp] theorem trace_cut (w : List α) (ps : List (Piece α)) :
    trace (.cut w :: ps) = w.map (fun a => (a, false)) ++ trace ps := rfl

@[simp] theorem trace_append (ps qs : List (Piece α)) :
    trace (ps ++ qs) = trace ps ++ trace qs := List.flatMap_append

@[simp] theorem text_nil : text ([] : List (Piece α)) = [] := rfl

@[simp] theorem text_keep (a : α) (ps : List (Piece α)) :
    text (.keep a :: ps) = a :: text ps := rfl

@[simp] theorem text_cut (w : List α) (ps : List (Piece α)) :
    text (.cut w :: ps) = w ++ text ps := by
  simp [text, Function.comp_def]

@[simp] theorem text_append (ps qs : List (Piece α)) :
    text (ps ++ qs) = text ps ++ text qs := by
  simp [text]

@[simp] theorem words_nil : words ([] : List (Piece α)) = [] := rfl

@[simp] theorem words_keep (a : α) (ps : List (Piece α)) :
    words (.keep a :: ps) = words ps := rfl

@[simp] theorem words_cut (w : List α) (ps : List (Piece α)) :
    words (.cut w :: ps) = w :: words ps := rfl

@[simp] theorem words_append (ps qs : List (Piece α)) :
    words (ps ++ qs) = words ps ++ words qs := List.filterMap_append

@[simp] theorem text_whole (l : List α) : text (whole l) = l := by
  induction l with
  | nil => rfl
  | cons a l ih => rw [whole, List.map_cons, text_keep, ← whole, ih]

@[simp] theorem words_whole (l : List α) : words (whole l) = [] := by
  induction l with
  | nil => rfl
  | cons a l ih => exact ih

@[simp] theorem whole_append (l l' : List α) : whole (l ++ l') = whole l ++ whole l' :=
  List.map_append

theorem map_letter_whole (l : List α) : (whole l).map Piece.letter = l.map some := by
  rw [whole, List.map_map]
  rfl

/-- Pieces that read as a word are kept letters. -/
theorem eq_whole_of_map_letter {a : List (Piece α)} (h : a.map Piece.letter = w.map some) :
    a = whole w := by
  induction w generalizing a with
  | nil => exact List.map_eq_nil_iff.mp h
  | cons b w ih =>
      obtain ⟨p, a, rfl, hp, ha⟩ := List.map_eq_cons_iff.mp h
      rw [ih ha]
      cases p with
      | keep c =>
          cases hp
          rfl
      | cut v => cases hp

theorem whole_prefix_iff : whole w <+: ps ↔ w.map some <+: ps.map Piece.letter := by
  constructor
  · intro h
    rw [← map_letter_whole]
    exact h.map Piece.letter
  · intro h
    have htake : (ps.take w.length).map Piece.letter = w.map some := by
      rw [List.map_take, List.prefix_iff_eq_take.mp h, List.length_map]
    rw [← eq_whole_of_map_letter htake]
    exact List.take_prefix _ _

/-- What kept letters at the head of some pieces spell, the text begins with. -/
theorem prefix_text (h : whole w <+: ps) : w <+: text ps := by
  obtain ⟨t, rfl⟩ := h
  rw [text_append, text_whole]
  exact List.prefix_append w _

/-- No word is spelled where a piece has been cut out. -/
theorem not_prefix_cut (hw : w ≠ []) {v : List α} {t : List (Piece α)} :
    ¬ whole w <+: .cut v :: t := by
  intro h
  cases w with
  | nil => exact hw rfl
  | cons a w =>
      obtain ⟨hp, _⟩ := List.cons_prefix_cons.mp h
      cases hp

end Pieces

/-! ## The text that is shown -/

/-- The text with the mask `m` for each word that has been cut out, each letter
with its place in the text. -/
def marks (m : List α) : Nat → List (Piece α) → List (α × Option Nat)
  | _, [] => []
  | i, .keep a :: ps => (a, some i) :: marks m (i + 1) ps
  | i, .cut w :: ps => m.map (fun a => (a, none)) ++ marks m (i + w.length) ps

/-- The text that is shown. -/
def shown (m : List α) (ps : List (Piece α)) : List α := (marks m 0 ps).map Prod.fst

/-- The word occurs only where every letter is one of the text. -/
def OnKept (w : List α) (l : List (α × Option Nat)) : Prop :=
  ∀ b, b <:+: l → b.map Prod.fst = w → ∀ x ∈ b, x.2 ≠ none

section Shown

variable {m w : List α} {ps qs : List (Piece α)}

theorem OnKept.suffix {l l' : List (α × Option Nat)} (h : OnKept w l) (hl : l' <:+ l) :
    OnKept w l' := fun b hb => h b (hb.trans hl.isInfix)

theorem marks_whole_append (i : Nat) (v : List α) (t : List (Piece α)) :
    ∃ a, a.map Prod.fst = v ∧ marks m i (whole v ++ t) = a ++ marks m (i + v.length) t := by
  induction v generalizing i with
  | nil => exact ⟨[], rfl, rfl⟩
  | cons b v ih =>
      obtain ⟨a, ha, heq⟩ := ih (i + 1)
      refine ⟨(b, some i) :: a, by rw [List.map_cons, ha], ?_⟩
      have hstep : marks m i (whole (b :: v) ++ t) =
          (b, some i) :: marks m (i + 1) (whole v ++ t) := rfl
      rw [hstep, heq, List.length_cons, Nat.add_right_comm, Nat.add_assoc, List.cons_append]

/-- Marks without a mask show kept letters. -/
theorem whole_prefix_of_marks (hm : m ≠ []) {i : Nat} {b : List (α × Option Nat)}
    (hb : b <+: marks m i ps) (hkept : ∀ x ∈ b, x.2 ≠ none) :
    whole (b.map Prod.fst) <+: ps := by
  induction ps generalizing i b with
  | nil =>
      rw [marks, List.prefix_nil] at hb
      rw [hb]
      exact List.nil_prefix
  | cons p ps ih =>
      cases b with
      | nil => exact List.nil_prefix
      | cons x b =>
          cases p with
          | keep a =>
              obtain ⟨rfl, hrest⟩ := List.cons_prefix_cons.mp hb
              exact List.cons_prefix_cons.mpr
                ⟨rfl, ih hrest fun y hy => hkept y (List.mem_cons_of_mem _ hy)⟩
          | cut v =>
              obtain ⟨c, m', rfl⟩ := List.exists_cons_of_ne_nil hm
              obtain ⟨rfl, _⟩ := List.cons_prefix_cons.mp hb
              exact (hkept _ List.mem_cons_self rfl).elim

theorem mem_mask_of_mem_marks {a : α} {i : Nat} (h : (a, none) ∈ marks m i ps) : a ∈ m := by
  induction ps generalizing i with
  | nil => cases h
  | cons p ps ih =>
      cases p with
      | keep b =>
          rcases List.mem_cons.mp h with heq | h
          · cases heq
          · exact ih h
      | cut v =>
          rcases List.mem_append.mp h with h | h
          · obtain ⟨b, hb, heq⟩ := List.mem_map.mp h
            cases heq
            exact hb
          · exact ih h

/-- A word without a letter of the mask meets no mask. -/
theorem onKept_of_disjoint (h : ∀ a ∈ m, a ∉ w) (i : Nat) (ps : List (Piece α)) :
    OnKept w (marks m i ps) := by
  rintro b hb rfl ⟨a, o⟩ hx rfl
  exact h a (mem_mask_of_mem_marks (hb.subset hx)) (List.mem_map_of_mem hx)

/-- The letters of the text that are kept, and a mask for each word. -/
theorem length_marks (m : List α) (i : Nat) (ps : List (Piece α)) :
    (marks m i ps).length =
      ((trace ps).filter fun x => x.2).length + m.length * (words ps).length := by
  induction ps generalizing i with
  | nil => rfl
  | cons p ps ih =>
      cases p with
      | keep a =>
          rw [marks, List.length_cons, ih, trace_keep, words_keep,
            List.filter_cons_of_pos rfl, List.length_cons]
          omega
      | cut v =>
          have hnone : (v.map fun a => (a, false)).filter (fun x => x.2) = [] := by
            simp [List.filter_eq_nil_iff]
          rw [marks, List.length_append, ih, List.length_map, trace_cut, words_cut,
            List.filter_append, hnone, List.nil_append, List.length_cons, Nat.mul_succ]
          omega

/-- As many words have been cut out. -/
theorem length_words_of_shown (hm : m ≠ []) (htrace : trace ps = trace qs)
    (hshown : shown m ps = shown m qs) : (words ps).length = (words qs).length := by
  have hlen := congrArg List.length hshown
  rw [shown, shown, List.length_map, List.length_map, length_marks, length_marks, htrace,
    Nat.add_left_cancel_iff] at hlen
  exact Nat.eq_of_mul_eq_mul_left (List.length_pos_of_ne_nil hm) hlen

end Shown

/-! ## Places -/

section Places

variable {w v : List α} {ps : List (Piece α)} {i j k o : Nat} {a : α} {m : List α}

theorem le_of_mem_cuts (h : (i, w) ∈ cuts o ps) : o ≤ i := by
  induction ps generalizing o with
  | nil => cases h
  | cons p ps ih =>
      cases p with
      | keep b => exact Nat.le_of_succ_le (ih h)
      | cut u =>
          rcases List.mem_cons.mp h with heq | h
          · cases heq
            exact Nat.le_refl _
          · exact Nat.le_trans (Nat.le_add_right _ _) (ih h)

/-- Two words that have been cut out do not overlap. -/
theorem cuts_apart (h : (i, w) ∈ cuts o ps) (h' : (j, v) ∈ cuts o ps) :
    (i, w) = (j, v) ∨ i + w.length ≤ j ∨ j + v.length ≤ i := by
  induction ps generalizing o with
  | nil => cases h
  | cons p ps ih =>
      cases p with
      | keep b => exact ih h h'
      | cut u =>
          rcases List.mem_cons.mp h with heq | h
          · cases heq
            rcases List.mem_cons.mp h' with heq | h'
            · exact .inl heq.symm
            · exact .inr (.inl (le_of_mem_cuts h'))
          · rcases List.mem_cons.mp h' with heq | h'
            · cases heq
              exact .inr (.inr (le_of_mem_cuts h))
            · exact ih h h'

theorem mem_words_of_mem_cuts (h : (i, w) ∈ cuts o ps) : w ∈ words ps := by
  induction ps generalizing o with
  | nil => cases h
  | cons p ps ih =>
      cases p with
      | keep b => exact ih h
      | cut u =>
          rcases List.mem_cons.mp h with heq | h
          · cases heq
            exact List.mem_cons_self
          · exact List.mem_cons_of_mem _ (ih h)

/-- The letters of a word that has been cut out are not kept. -/
theorem trace_of_mem_cuts (h : (j, w) ∈ cuts o ps) (hj : j ≤ k) (hk : k < j + w.length) :
    ∃ a, (trace ps)[k - o]? = some (a, false) := by
  induction ps generalizing o with
  | nil => cases h
  | cons p ps ih =>
      cases p with
      | keep b =>
          obtain ⟨a, ha⟩ := ih h
          have hle : o + 1 ≤ j := le_of_mem_cuts h
          refine ⟨a, ?_⟩
          rw [trace_keep, show k - o = k - (o + 1) + 1 by omega, List.getElem?_cons_succ]
          exact ha
      | cut u =>
          rw [trace_cut]
          rcases List.mem_cons.mp h with heq | h
          · cases heq
            have hlt : k - j < w.length := by omega
            refine ⟨w[k - j], ?_⟩
            rw [List.getElem?_append_left (by simpa using hlt), List.getElem?_map,
              List.getElem?_eq_getElem hlt, Option.map_some]
          · obtain ⟨a, ha⟩ := ih h
            have hle : o + u.length ≤ j := le_of_mem_cuts h
            refine ⟨a, ?_⟩
            rw [List.getElem?_append_right (by rw [List.length_map]; omega), List.length_map]
            rw [show k - o - u.length = k - (o + u.length) by omega]
            exact ha

/-- A letter that is not kept is in a word that has been cut out. -/
theorem exists_cut_of_getElem? (o : Nat) (h : (trace ps)[k]? = some (a, false)) :
    ∃ j w, (j, w) ∈ cuts o ps ∧ j ≤ o + k ∧ o + k < j + w.length ∧
      w <+: (text ps).drop (j - o) := by
  induction ps generalizing o k with
  | nil => cases h
  | cons p ps ih =>
      cases p with
      | keep b =>
          cases k with
          | zero => cases h
          | succ k =>
              obtain ⟨j, w, hmem, hj, hk, hpre⟩ := ih (k := k) (o + 1) h
              have hle : o + 1 ≤ j := le_of_mem_cuts hmem
              refine ⟨j, w, hmem, by omega, by omega, ?_⟩
              rw [text_keep, show j - o = j - (o + 1) + 1 by omega, List.drop_succ_cons]
              exact hpre
      | cut u =>
          by_cases hlt : k < u.length
          · refine ⟨o, u, List.mem_cons_self, Nat.le_add_right _ _, by omega, ?_⟩
            rw [Nat.sub_self, List.drop_zero, text_cut]
            exact List.prefix_append u _
          · rw [trace_cut, List.getElem?_append_right (by rw [List.length_map]; omega),
              List.length_map] at h
            obtain ⟨j, w, hmem, hj, hk, hpre⟩ := ih (o + u.length) h
            have hle : o + u.length ≤ j := le_of_mem_cuts hmem
            refine ⟨j, w, List.mem_cons_of_mem _ hmem, by omega, by omega, ?_⟩
            rw [text_cut, show j - o = u.length + (j - (o + u.length)) by omega,
              List.drop_length_add_append]
            exact hpre

/-- A mark with a place is a letter that is kept there. -/
theorem trace_of_mem_marks (h : (a, some k) ∈ marks m o ps) :
    o ≤ k ∧ (trace ps)[k - o]? = some (a, true) := by
  induction ps generalizing o with
  | nil => cases h
  | cons p ps ih =>
      cases p with
      | keep b =>
          rcases List.mem_cons.mp h with heq | h
          · cases heq
            exact ⟨Nat.le_refl _, by rw [Nat.sub_self]; rfl⟩
          · obtain ⟨hle, hget⟩ := ih h
            refine ⟨Nat.le_of_succ_le hle, ?_⟩
            rw [trace_keep, show k - o = k - (o + 1) + 1 by omega, List.getElem?_cons_succ]
            exact hget
      | cut u =>
          rcases List.mem_append.mp h with h | h
          · obtain ⟨_, _, heq⟩ := List.mem_map.mp h
            cases heq
          · obtain ⟨hle, hget⟩ := ih h
            refine ⟨Nat.le_trans (Nat.le_add_right _ _) hle, ?_⟩
            rw [trace_cut, List.getElem?_append_right (by rw [List.length_map]; omega),
              List.length_map, show k - o - u.length = k - (o + u.length) by omega]
            exact hget

theorem mem_marks_of_trace (h : (trace ps)[k]? = some (a, true)) :
    (a, some (o + k)) ∈ marks m o ps := by
  induction ps generalizing o k with
  | nil => cases h
  | cons p ps ih =>
      cases p with
      | keep b =>
          cases k with
          | zero =>
              cases h
              exact List.mem_cons_self
          | succ k =>
              have hrest := ih (o := o + 1) (k := k) h
              rw [show o + 1 + k = o + (k + 1) by omega] at hrest
              exact List.mem_cons_of_mem _ hrest
      | cut u =>
          by_cases hlt : k < u.length
          · rw [trace_cut, List.getElem?_append_left (by simpa using hlt), List.getElem?_map,
              List.getElem?_eq_getElem hlt, Option.map_some] at h
            cases h
          · rw [trace_cut, List.getElem?_append_right (by rw [List.length_map]; omega),
              List.length_map] at h
            have hrest := ih (o := o + u.length) h
            rw [show o + u.length + (k - u.length) = o + k by omega] at hrest
            exact List.mem_append_right _ hrest

theorem cuts_whole_append (o : Nat) (v : List α) (t : List (Piece α)) :
    cuts o (whole v ++ t) = cuts (o + v.length) t := by
  induction v generalizing o with
  | nil => rfl
  | cons a v ih =>
      have hstep : cuts o (whole (a :: v) ++ t) = cuts (o + 1) (whole v ++ t) := rfl
      rw [hstep, ih, List.length_cons, Nat.add_right_comm, Nat.add_assoc]

end Places

/-! ## Two cuttings of the same letters -/

section Compare

/-- Two words cut out at the same place, with what follows them. -/
theorem append_cut_eq {h f : List α} {x y : List (α × Bool)}
    (heq : h.map (fun a => (a, false)) ++ x = f.map (fun a => (a, false)) ++ y) :
    (∃ g, f = h ++ g ∧ x = g.map (fun a => (a, false)) ++ y) ∨
      ∃ r, h = f ++ r ∧ y = r.map (fun a => (a, false)) ++ x := by
  rcases List.append_eq_append_iff.mp heq with ⟨g', hf, hx⟩ | ⟨r', hh, hy⟩
  · obtain ⟨h', g, rfl, hh, rfl⟩ := List.map_eq_append_iff.mp hf
    have hinj : h' = h := List.map_injective_iff.mpr (fun _ _ hab => (Prod.mk.inj hab).1) hh
    exact .inl ⟨g, by rw [hinj], hx⟩
  · obtain ⟨f', r, rfl, hf, rfl⟩ := List.map_eq_append_iff.mp hh
    have hinj : f' = f := List.map_injective_iff.mpr (fun _ _ hab => (Prod.mk.inj hab).1) hf
    exact .inr ⟨r, by rw [hinj], hy⟩

/-- Letters that are not kept begin with a piece that has been cut out. -/
theorem exists_cut_of_trace {ps : List (Piece α)} (hne : [] ∉ words ps) {g : List α}
    (hg : g ≠ []) {y : List (α × Bool)}
    (heq : trace ps = g.map (fun a => (a, false)) ++ y) :
    ∃ h ps', ps = .cut h :: ps' ∧
      h.map (fun a => (a, false)) ++ trace ps' = g.map (fun a => (a, false)) ++ y := by
  obtain ⟨c, g, rfl⟩ := List.exists_cons_of_ne_nil hg
  cases ps with
  | nil => cases heq
  | cons p ps =>
      cases p with
      | keep a =>
          rw [trace_keep, List.map_cons, List.cons_append, List.cons.injEq] at heq
          cases heq.1
      | cut h => exact ⟨h, ps, rfl, heq⟩

/-- Two cuttings of the same letters begin alike. -/
theorem trace_eq_cases {ps qs : List (Piece α)} (hps : [] ∉ words ps) (hqs : [] ∉ words qs)
    (heq : trace ps = trace qs) :
    ps = [] ∧ qs = [] ∨
      (∃ a ps' qs', ps = .keep a :: ps' ∧ qs = .keep a :: qs' ∧ trace ps' = trace qs') ∨
      ∃ h ps' f qs', ps = .cut h :: ps' ∧ qs = .cut f :: qs' ∧
        h.map (fun a => (a, false)) ++ trace ps' = f.map (fun a => (a, false)) ++ trace qs' := by
  cases ps with
  | nil =>
      cases qs with
      | nil => exact .inl ⟨rfl, rfl⟩
      | cons q qs =>
          cases q with
          | keep b => cases heq
          | cut f =>
              have hf : f ≠ [] := fun hnil => hqs (hnil ▸ List.mem_cons_self)
              obtain ⟨_, _, hnil, _⟩ := exists_cut_of_trace hps hf heq
              cases hnil
  | cons p ps =>
      cases p with
      | keep a =>
          cases qs with
          | nil => cases heq
          | cons q qs =>
              cases q with
              | keep b =>
                  rw [trace_keep, trace_keep, List.cons.injEq] at heq
                  cases heq.1
                  exact .inr (.inl ⟨a, ps, qs, rfl, rfl, heq.2⟩)
              | cut f =>
                  have hf : f ≠ [] := fun hnil => hqs (hnil ▸ List.mem_cons_self)
                  obtain ⟨_, _, hcut, _⟩ := exists_cut_of_trace hps hf heq
                  cases hcut
      | cut h =>
          have hh : h ≠ [] := fun hnil => hps (hnil ▸ List.mem_cons_self)
          obtain ⟨f, qs', rfl, heq'⟩ := exists_cut_of_trace hqs hh heq.symm
          exact .inr (.inr ⟨h, ps, f, qs', rfl, rfl, heq'.symm⟩)

/-- `qs` has no more words than `ps`, whether both begin at the same place, `qs`
is ahead by the letters `g`, or `ps` is ahead by the letters `r`, in which no
word of `qs` lies. -/
structure Counts (ps qs : List (Piece α)) : Prop where
  same : trace ps = trace qs → (words qs).length ≤ (words ps).length ∧
    ((words qs).length = (words ps).length → ps = qs)
  behind : ∀ g, g ≠ [] → trace ps = g.map (fun a => (a, false)) ++ trace qs →
    (words qs).length + 1 ≤ (words ps).length
  ahead : ∀ r, r ≠ [] → (∀ f ∈ words qs, ¬ f <:+: r) →
    trace qs = r.map (fun a => (a, false)) ++ trace ps → (words qs).length ≤ (words ps).length

section Counts

variable {ps qs : List (Piece α)} {h f g r : List α}

/-- Both cut a word out at the same place. -/
theorem Counts.same_cut (hrec : Counts ps qs) (hin : f <:+: h → f = h)
    (heq : h.map (fun a => (a, false)) ++ trace ps = f.map (fun a => (a, false)) ++ trace qs) :
    (words qs).length ≤ (words ps).length ∧
      ((words qs).length = (words ps).length → h = f ∧ ps = qs) := by
  rcases append_cut_eq heq with ⟨g, rfl, hx⟩ | ⟨r, rfl, hy⟩
  · by_cases hg : g = []
    · subst hg
      obtain ⟨hle, heqv⟩ := hrec.same hx
      exact ⟨hle, fun hn => ⟨(List.append_nil h).symm, heqv hn⟩⟩
    · have hlt := hrec.behind g hg hx
      exact ⟨by omega, fun hn => by omega⟩
  · have hr : r = [] := by simpa using hin (List.prefix_append f r).isInfix
    subst hr
    obtain ⟨hle, heqv⟩ := hrec.same hy.symm
    exact ⟨hle, fun hn => ⟨List.append_nil f, heqv hn⟩⟩

/-- `ps` cuts a word out where `qs` is ahead: a word of `qs` that goes over the
end of it costs one. -/
theorem Counts.behind_cut (hrec : Counts ps qs) (hg : g ≠ [])
    (hin : ∀ f ∈ words qs, f <:+: h → f = h)
    (heq : h.map (fun a => (a, false)) ++ trace ps = g.map (fun a => (a, false)) ++ trace qs) :
    (words qs).length ≤ (words ps).length := by
  rcases append_cut_eq heq with ⟨g', rfl, hx⟩ | ⟨r, rfl, hy⟩
  · by_cases hg' : g' = []
    · subst hg'
      exact (hrec.same hx).1
    · exact Nat.le_of_succ_le (hrec.behind g' hg' hx)
  · by_cases hr : r = []
    · subst hr
      exact (hrec.same hy.symm).1
    · refine hrec.ahead r hr (fun f hf hfr => ?_) hy
      have hsame := hin f hf (hfr.trans (List.suffix_append g r).isInfix)
      have hlen := hfr.length_le
      rw [hsame, List.length_append] at hlen
      have hpos := List.length_pos_of_ne_nil hg
      omega

/-- `qs` cuts a word out where `ps` is ahead. -/
theorem Counts.ahead_cut (hrec : Counts ps qs) (hout : ¬ f <:+: r)
    (heq : f.map (fun a => (a, false)) ++ trace qs = r.map (fun a => (a, false)) ++ trace ps) :
    (words qs).length + 1 ≤ (words ps).length := by
  rcases append_cut_eq heq with ⟨g, rfl, _⟩ | ⟨g, rfl, hy⟩
  · exact (hout (List.prefix_append f g).isInfix).elim
  · by_cases hg : g = []
    · subst hg
      rw [List.append_nil] at hout
      exact (hout (List.infix_refl r)).elim
    · exact hrec.behind g hg hy

end Counts

/-- **Two cuttings of the same letters**, by induction on their pieces, if no word
of `qs` lies properly inside one of `ps`. -/
theorem counts (n : Nat) : ∀ ps qs : List (Piece α), ps.length + qs.length ≤ n →
    [] ∉ words ps → [] ∉ words qs →
    (∀ h ∈ words ps, ∀ f ∈ words qs, f <:+: h → f = h) → Counts ps qs := by
  induction n with
  | zero =>
      intro ps qs hlen hps hqs hin
      obtain rfl : ps = [] := List.length_eq_zero_iff.mp (by omega)
      obtain rfl : qs = [] := List.length_eq_zero_iff.mp (by omega)
      refine ⟨fun _ => ⟨Nat.le_refl _, fun _ => rfl⟩, fun g hg heq => ?_, fun r hr _ heq => ?_⟩
      · obtain ⟨_, _, hnil, _⟩ := exists_cut_of_trace hps hg heq
        cases hnil
      · obtain ⟨_, _, hnil, _⟩ := exists_cut_of_trace hqs hr heq
        cases hnil
  | succ n ih =>
      intro ps qs hlen hps hqs hin
      refine ⟨fun heq => ?_, fun g hg heq => ?_, fun r hr hout heq => ?_⟩
      · rcases trace_eq_cases hps hqs heq with ⟨rfl, rfl⟩ | ⟨a, ps', qs', rfl, rfl, heq'⟩ |
          ⟨h, ps', f, qs', rfl, rfl, heq'⟩
        · exact ⟨Nat.le_refl _, fun _ => rfl⟩
        · have hrec := ih ps' qs' (by simp at hlen; omega) hps hqs hin
          obtain ⟨hle, heqv⟩ := hrec.same heq'
          exact ⟨hle, fun hn => by rw [heqv hn]⟩
        · rw [words_cut, List.mem_cons, not_or] at hps hqs
          have hrec := ih ps' qs' (by simp at hlen; omega) hps.2 hqs.2
            fun h hh f hf => hin h (List.mem_cons_of_mem _ hh) f (List.mem_cons_of_mem _ hf)
          obtain ⟨hle, heqv⟩ :=
            hrec.same_cut (hin h List.mem_cons_self f List.mem_cons_self) heq'
          refine ⟨Nat.succ_le_succ hle, fun hn => ?_⟩
          obtain ⟨rfl, rfl⟩ := heqv (Nat.succ.inj hn)
          rfl
      · obtain ⟨h, ps', rfl, heq'⟩ := exists_cut_of_trace hps hg heq
        rw [words_cut, List.mem_cons, not_or] at hps
        have hrec := ih ps' qs (by simp at hlen; omega) hps.2 hqs
          fun h hh => hin h (List.mem_cons_of_mem _ hh)
        exact Nat.succ_le_succ (hrec.behind_cut hg (hin h List.mem_cons_self) heq')
      · obtain ⟨f, qs', rfl, heq'⟩ := exists_cut_of_trace hqs hr heq
        rw [words_cut, List.mem_cons, not_or] at hqs
        have hrec := ih ps qs' (by simp at hlen; omega) hps hqs.2
          fun h hh f hf => hin h hh f (List.mem_cons_of_mem _ hf)
        exact hrec.ahead_cut (hout f List.mem_cons_self) heq'

theorem ne_nil_of_concat {ws : List (List α)} {w : List α} (hws : ∀ v ∈ ws ++ [w], v ≠ []) :
    (∀ v ∈ ws, v ≠ []) ∧ w ≠ [] :=
  ⟨fun v hv => hws v (List.mem_append_left _ hv), hws w (by simp)⟩

end Compare

variable [DecidableEq α]

/-! ## What the text that is shown says of the letters -/

section Letters

variable {m : List α} {ps qs : List (Piece α)}

/-- The letters that are shown and not of the mask are kept ones. -/
theorem filter_shown (m : List α) (i : Nat) (ps : List (Piece α)) :
    ((marks m i ps).map Prod.fst).filter (· ∉ m) =
      ((trace ps).filter fun x => x.2 && x.1 ∉ m).map Prod.fst := by
  induction ps generalizing i with
  | nil => rfl
  | cons p ps ih =>
      cases p with
      | keep a =>
          rw [marks, List.map_cons, trace_keep, List.filter_cons, List.filter_cons, ih]
          by_cases ha : a ∈ m
          · simp [ha]
          · simp [ha]
      | cut v =>
          have hmask : ((m.map fun a => ((a, none) : α × Option Nat)).map Prod.fst).filter
              (· ∉ m) = [] := by
            simp [List.filter_eq_nil_iff]
          have hnone : (v.map fun a => (a, false)).filter (fun x => x.2 && x.1 ∉ m) = [] := by
            simp [List.filter_eq_nil_iff]
          rw [marks, List.map_append, List.filter_append, hmask, List.nil_append, ih, trace_cut,
            List.filter_append, hnone, List.nil_append]

/-- Two readings of the same letters: where everything kept in one is kept in
the other, the other keeps more, or the same. -/
theorem eq_of_filter_length {l l' : List (α × Bool)} (hfst : l.map Prod.fst = l'.map Prod.fst)
    (hkept : ∀ (k : Nat) (a : α), l[k]? = some (a, true) → l'[k]? = some (a, true))
    (hfree : ∀ a, (a, false) ∈ l → a ∉ m) :
    (l.filter fun x => x.2 && x.1 ∉ m).length ≤ (l'.filter fun x => x.2 && x.1 ∉ m).length ∧
      ((l.filter fun x => x.2 && x.1 ∉ m).length =
        (l'.filter fun x => x.2 && x.1 ∉ m).length → l = l') := by
  induction l generalizing l' with
  | nil =>
      rw [List.map_nil, eq_comm, List.map_eq_nil_iff] at hfst
      rw [hfst]
      exact ⟨Nat.le_refl _, fun _ => rfl⟩
  | cons x l ih =>
      cases l' with
      | nil => cases hfst
      | cons x' l' =>
          obtain ⟨a, b⟩ := x
          obtain ⟨a', b'⟩ := x'
          rw [List.map_cons, List.map_cons, List.cons.injEq] at hfst
          obtain ⟨rfl, hfst⟩ := hfst
          obtain ⟨hle, heq⟩ := ih hfst (fun k c hk => hkept (k + 1) c hk)
            fun c hc => hfree c (List.mem_cons_of_mem _ hc)
          rw [List.filter_cons, List.filter_cons]
          cases b with
          | true =>
              have hb' := hkept 0 a rfl
              simp only [List.getElem?_cons_zero, Option.some.injEq, Prod.mk.injEq] at hb'
              obtain rfl := hb'.2
              split_ifs
              · rw [List.length_cons, List.length_cons]
                exact ⟨Nat.succ_le_succ hle, fun hn => by rw [heq (Nat.succ.inj hn)]⟩
              · exact ⟨hle, fun hn => by rw [heq hn]⟩
          | false =>
              have ha : a ∉ m := hfree a List.mem_cons_self
              cases b' with
              | false => exact ⟨hle, fun hn => by rw [heq hn]⟩
              | true =>
                  simp only [Bool.false_and, Bool.false_eq_true, if_false, Bool.true_and, ha,
                    not_false_eq_true, decide_true, if_true, List.length_cons]
                  exact ⟨by omega, fun hn => by omega⟩

/-- **What is shown decides what is kept**, of two cuttings of one text, one of
which keeps what the other keeps, when no letter cut out is one of the mask. -/
theorem trace_eq_of_shown (htext : text ps = text qs)
    (hkept : ∀ (k : Nat) (a : α),
      (trace ps)[k]? = some (a, true) → (trace qs)[k]? = some (a, true))
    (hfree : ∀ a, (a, false) ∈ trace ps → a ∉ m) (hshown : shown m ps = shown m qs) :
    trace ps = trace qs := by
  refine (eq_of_filter_length htext hkept hfree).2 ?_
  have hfilter := congrArg (fun t => (t.filter (· ∉ m)).length) hshown
  simp only [shown, filter_shown, List.length_map] at hfilter
  exact hfilter

end Letters

/-! ## A scan for one word -/

/-- Replace `w`, as `f` reads it, by `rep`; `skip` entries belong to the
occurrence just replaced. -/
def replaceOn (f : β → α) (w : List α) (rep : List β) : Nat → List β → List β
  | _, [] => []
  | skip + 1, _ :: t => replaceOn f w rep skip t
  | 0, c :: t =>
      if w.isPrefixOf ((c :: t).map f) then rep ++ replaceOn f w rep (w.length - 1) t
      else c :: replaceOn f w rep 0 t

section Scan

variable {f : β → α} {w : List α} {rep : List β}

/-- Skipped entries are dropped. -/
theorem replaceOn_drop (skip : Nat) (l : List β) :
    replaceOn f w rep skip l = replaceOn f w rep 0 (l.drop skip) := by
  induction skip generalizing l with
  | zero => rfl
  | succ skip ih =>
      cases l with
      | nil => rfl
      | cons c t => exact ih t

/-- A hit. -/
theorem replaceOn_hit (hw : w ≠ []) {a : List β} (ha : a.map f = w) (t : List β) :
    replaceOn f w rep 0 (a ++ t) = rep ++ replaceOn f w rep 0 t := by
  cases a with
  | nil => exact (hw ha.symm).elim
  | cons c a =>
      have hlen : w.length - 1 = a.length := by
        rw [← ha, List.length_map, List.length_cons, Nat.add_sub_cancel]
      have hpre : w.isPrefixOf ((c :: (a ++ t)).map f) = true := by
        rw [List.isPrefixOf_iff_prefix, ← List.cons_append, List.map_append, ha]
        exact List.prefix_append w _
      rw [List.cons_append, replaceOn, if_pos hpre, hlen, replaceOn_drop, List.drop_left]

/-- A miss. -/
theorem replaceOn_miss {c : β} {t : List β} (h : ¬ w <+: (c :: t).map f) :
    replaceOn f w rep 0 (c :: t) = c :: replaceOn f w rep 0 t := by
  rw [replaceOn, if_neg]
  rwa [List.isPrefixOf_iff_prefix]

/-- **How a scan goes through a list.** -/
theorem scan_induction (f : β → α) (hw : w ≠ []) {P : List β → Prop} (nil : P [])
    (hit : ∀ a t, a.map f = w → P t → P (a ++ t))
    (miss : ∀ c t, ¬ w <+: (c :: t).map f → P t → P (c :: t)) : ∀ l, P l := by
  have hlen : ∀ n, ∀ l : List β, l.length ≤ n → P l := by
    intro n
    induction n with
    | zero =>
        intro l hl
        rw [List.length_eq_zero_iff.mp (Nat.le_zero.mp hl)]
        exact nil
    | succ n ih =>
        intro l hl
        cases l with
        | nil => exact nil
        | cons c t =>
            by_cases hpre : w <+: (c :: t).map f
            · have hpos : 0 < w.length := List.length_pos_of_ne_nil hw
              have htake : ((c :: t).take w.length).map f = w := by
                rw [List.map_take]
                exact (List.prefix_iff_eq_take.mp hpre).symm
              have hrest : ((c :: t).drop w.length).length ≤ n := by
                rw [List.length_drop]
                omega
              rw [← List.take_append_drop w.length (c :: t)]
              exact hit _ _ htake (ih _ hrest)
            · exact miss c t hpre (ih t (Nat.le_of_succ_le_succ hl))
  exact fun l => hlen l.length l (Nat.le_refl _)

/-- A scan goes through entries at none of which the word begins. -/
theorem replaceOn_through {a t : List β}
    (h : ∀ s, s ≠ [] → s <:+ a → ¬ w <+: (s ++ t).map f) :
    replaceOn f w rep 0 (a ++ t) = a ++ replaceOn f w rep 0 t := by
  induction a with
  | nil => rfl
  | cons c a ih =>
      have hmiss := h (c :: a) (List.cons_ne_nil c a) (List.suffix_refl _)
      rw [List.cons_append] at hmiss ⊢
      rw [replaceOn_miss hmiss, List.cons_append]
      rw [ih fun s hs hsuf => h s hs (hsuf.trans (List.suffix_cons c a))]

/-- What a scan reads. -/
theorem map_replaceOn (skip : Nat) (l : List β) :
    (replaceOn f w rep skip l).map f = replaceOn id w (rep.map f) skip (l.map f) := by
  fun_induction replaceOn f w rep skip l with
  | case1 => rfl
  | case2 skip c t ih => exact ih
  | case3 c t hpre ih =>
      rw [List.map_append, ih, List.map_cons, replaceOn, if_pos]
      simpa using hpre
  | case4 c t hpre ih =>
      rw [List.map_cons, ih, List.map_cons, replaceOn, if_neg]
      simpa using hpre

end Scan

/-! ## A scan that cuts its word out -/

/-- A scan that cuts `w` out. -/
def cutOut (w : List α) (ps : List (Piece α)) : List (Piece α) :=
  replaceOn Piece.letter (w.map some) [.cut w] 0 ps

/-- Scans for the words `ws`, one after another. -/
def cutAll (ws : List (List α)) (l : List α) : List (Piece α) :=
  ws.foldl (fun ps w => cutOut w ps) (whole l)

example : cutAll [['a', 'b'], ['b', 'c']] ['a', 'b', 'c'] = [.cut ['a', 'b'], .keep 'c'] := by
  decide

section CutOut

variable {w z : List α} {ps : List (Piece α)}

/-- **The cases of a scan** for a word. -/
@[elab_as_elim]
theorem cutOut_induction (hw : w ≠ []) {P : List (Piece α) → Prop} (nil : P [])
    (hit : ∀ t, P t → P (whole w ++ t))
    (miss : ∀ c t, ¬ whole w <+: c :: t → P t → P (c :: t)) (ps) : P ps := by
  have hw' : w.map some ≠ [] := fun h => hw (List.map_eq_nil_iff.mp h)
  refine scan_induction Piece.letter hw' nil (fun a t ha => ?_) (fun c t hc => ?_) ps
  · rw [eq_whole_of_map_letter ha]
    exact hit t
  · exact miss c t fun h => hc (whole_prefix_iff.mp h)

theorem cutOut_hit (hw : w ≠ []) (t : List (Piece α)) :
    cutOut w (whole w ++ t) = .cut w :: cutOut w t :=
  replaceOn_hit (fun h => hw (List.map_eq_nil_iff.mp h)) (map_letter_whole w) t

theorem cutOut_miss {c : Piece α} {t : List (Piece α)} (h : ¬ whole w <+: c :: t) :
    cutOut w (c :: t) = c :: cutOut w t :=
  replaceOn_miss fun hpre => h (whole_prefix_iff.mpr hpre)

/-- A scan goes over a piece that has been cut out. -/
theorem cutOut_cut (hw : w ≠ []) (v : List α) (t : List (Piece α)) :
    cutOut w (.cut v :: t) = .cut v :: cutOut w t := cutOut_miss (not_prefix_cut hw)

/-- A scan leaves the text. -/
theorem text_cutOut (hw : w ≠ []) (ps : List (Piece α)) : text (cutOut w ps) = text ps := by
  induction ps using cutOut_induction hw with
  | nil => rfl
  | hit t ih => rw [cutOut_hit hw, text_cut, text_append, text_whole, ih]
  | miss c t hc ih =>
      rw [cutOut_miss hc]
      cases c with
      | keep a => rw [text_keep, text_keep, ih]
      | cut v => rw [text_cut, text_cut, ih]

/-- A scan cuts out nothing but its word, where that is left. -/
theorem mem_words_cutOut (hw : w ≠ []) (h : z ∈ words (cutOut w ps)) :
    z = w ∧ whole w <:+: ps ∨ z ∈ words ps := by
  induction ps using cutOut_induction hw with
  | nil => cases h
  | hit t ih =>
      rw [cutOut_hit hw, words_cut, List.mem_cons] at h
      rw [words_append, words_whole, List.nil_append]
      rcases h with rfl | h
      · exact .inl ⟨rfl, (List.prefix_append _ t).isInfix⟩
      · exact (ih h).imp (fun ⟨heq, hin⟩ => ⟨heq, hin.trans (List.suffix_append _ t).isInfix⟩) id
  | miss c t hc ih =>
      have hrest : z ∈ words (cutOut w t) → z = w ∧ whole w <:+: c :: t ∨ z ∈ words t :=
        fun h => (ih h).imp (fun ⟨heq, hin⟩ => ⟨heq, List.infix_cons hin⟩) id
      rw [cutOut_miss hc] at h
      cases c with
      | keep a => exact hrest h
      | cut v =>
          rw [words_cut, List.mem_cons] at h ⊢
          rcases h with h | h
          · exact .inr (.inl h)
          · exact (hrest h).imp id .inr

/-! ### What is left of a word -/

/-- Kept letters at the head of what a scan leaves were there before. -/
theorem prefix_of_prefix_cutOut (hw : w ≠ []) (h : whole z <+: cutOut w ps) :
    whole z <+: ps := by
  induction ps using cutOut_induction hw generalizing z with
  | nil => exact h
  | hit t ih =>
      rw [cutOut_hit hw] at h
      by_cases hz : z = []
      · rw [hz]
        exact List.nil_prefix
      · exact (not_prefix_cut hz h).elim
  | miss c t hc ih =>
      cases z with
      | nil => exact List.nil_prefix
      | cons a z =>
          rw [cutOut_miss hc] at h
          obtain ⟨hp, hrest⟩ := List.cons_prefix_cons.mp h
          exact List.cons_prefix_cons.mpr ⟨hp, ih hrest⟩

/-- A scan spells no word anew. -/
theorem infix_of_infix_cutOut (hw : w ≠ []) (hz : z ≠ []) (h : whole z <:+: cutOut w ps) :
    whole z <:+: ps := by
  induction ps using cutOut_induction hw with
  | nil => exact h
  | hit t ih =>
      rw [cutOut_hit hw] at h
      rcases List.infix_cons_iff.mp h with hpre | hin
      · exact (not_prefix_cut hz hpre).elim
      · exact (ih hin).trans (List.suffix_append _ _).isInfix
  | miss c t hc ih =>
      have hkept : cutOut w (c :: t) = c :: cutOut w t := cutOut_miss hc
      rw [hkept] at h
      rcases List.infix_cons_iff.mp h with hpre | hin
      · exact (prefix_of_prefix_cutOut hw (hkept ▸ hpre)).isInfix
      · exact List.infix_cons (ih hin)

/-- Nothing is left of the word that is cut out. -/
theorem not_infix_cutOut (hw : w ≠ []) (ps : List (Piece α)) :
    ¬ whole w <:+: cutOut w ps := by
  induction ps using cutOut_induction hw with
  | nil =>
      intro h
      exact hw (List.map_eq_nil_iff.mp (List.infix_nil.mp h))
  | hit t ih =>
      intro h
      rw [cutOut_hit hw] at h
      rcases List.infix_cons_iff.mp h with hpre | hin
      · exact not_prefix_cut hw hpre
      · exact ih hin
  | miss c t hc ih =>
      intro h
      have hkept : cutOut w (c :: t) = c :: cutOut w t := cutOut_miss hc
      rw [hkept] at h
      rcases List.infix_cons_iff.mp h with hpre | hin
      · exact hc (prefix_of_prefix_cutOut hw (hkept ▸ hpre))
      · exact ih hin

/-- A scan for a word that is not left does nothing. -/
theorem cutOut_of_absent (hw : w ≠ []) (h : ¬ whole w <:+: ps) : cutOut w ps = ps := by
  induction ps using cutOut_induction hw with
  | nil => rfl
  | hit t ih => exact (h (List.prefix_append _ _).isInfix).elim
  | miss c t hc ih =>
      rw [cutOut_miss hc, ih fun hin => h (List.infix_cons hin)]

/-- A scan goes through letters at none of which its word begins. -/
theorem cutOut_through {v : List α} {t : List (Piece α)}
    (h : ∀ s, s ≠ [] → s <:+ v → ¬ whole w <+: whole s ++ t) :
    cutOut w (whole v ++ t) = whole v ++ cutOut w t := by
  induction v with
  | nil => rfl
  | cons a v ih =>
      have hmiss := h (a :: v) (List.cons_ne_nil a v) (List.suffix_refl _)
      have hrest := ih fun s hs hsuf => h s hs (hsuf.trans (List.suffix_cons a v))
      exact (cutOut_miss hmiss).trans (congrArg (Piece.keep a :: ·) hrest)

end CutOut

/-! ## The text that is shown, under a scan -/

section ShownScan

variable {m w : List α} {ps : List (Piece α)}

/-- **A scan over the text that is shown**, where it meets no mask, is one over
the pieces. -/
theorem replaceOn_marks (hm : m ≠ []) (hw : w ≠ []) (i : Nat)
    (h : OnKept w (marks m i ps)) :
    replaceOn Prod.fst w (m.map fun a => (a, none)) 0 (marks m i ps) =
      marks m i (cutOut w ps) := by
  -- where the word is shown, kept letters spell it
  have hspell : ∀ {i : Nat} {ps : List (Piece α)} {l : List (α × Option Nat)},
      OnKept w l → l = marks m i ps → w <+: l.map Prod.fst → whole w <+: ps := by
    intro i ps l hl heq hpre
    have htake : (l.take w.length).map Prod.fst = w := by
      rw [List.map_take]
      exact (List.prefix_iff_eq_take.mp hpre).symm
    have hb : l.take w.length <+: marks m i ps := heq ▸ List.take_prefix _ _
    rw [← htake]
    exact whole_prefix_of_marks hm hb (hl _ (List.take_prefix _ _).isInfix htake)
  induction ps using cutOut_induction hw generalizing i with
  | nil => rfl
  | hit t ih =>
      obtain ⟨a, ha, heq⟩ := marks_whole_append (m := m) i w t
      rw [heq] at h
      rw [cutOut_hit hw, heq, replaceOn_hit hw ha, marks,
        ih (i + w.length) (h.suffix (List.suffix_append _ _))]
  | miss c t hc ih =>
      rw [cutOut_miss hc]
      cases c with
      | keep a =>
          have hmiss : ¬ w <+: (marks m i (.keep a :: t)).map Prod.fst :=
            fun hpre => hc (hspell h rfl hpre)
          rw [marks] at h hmiss ⊢
          rw [replaceOn_miss hmiss, marks, ih (i + 1) (h.suffix (List.suffix_cons _ _))]
      | cut v =>
          rw [marks] at h ⊢
          rw [replaceOn_through, marks, ih _ (h.suffix (List.suffix_append _ _))]
          -- a word that begins inside the mask would meet it
          intro s hs hsuf hpre
          obtain ⟨r, hr⟩ := hsuf
          have hl : s ++ marks m (i + v.length) t <:+
              (m.map fun a => ((a, none) : α × Option Nat)) ++ marks m (i + v.length) t :=
            ⟨r, by rw [← List.append_assoc, hr]⟩
          obtain ⟨x, s', rfl⟩ := List.exists_cons_of_ne_nil hs
          have hx : x.2 = none := by
            have hmem : x ∈ m.map fun a => ((a, none) : α × Option Nat) := by
              rw [← hr]
              exact List.mem_append_right _ List.mem_cons_self
            obtain ⟨a, _, rfl⟩ := List.mem_map.mp hmem
            rfl
          obtain ⟨b, w', rfl⟩ := List.exists_cons_of_ne_nil hw
          have htake : ((x :: s' ++ marks m (i + v.length) t).take (b :: w').length).map
              Prod.fst = b :: w' := by
            rw [List.map_take]
            exact (List.prefix_iff_eq_take.mp hpre).symm
          exact h _ ((List.take_prefix _ _).isInfix.trans hl.isInfix) htake x
            (by simp) hx

end ShownScan

/-! ## Scans one after another -/

section Scans

variable {w z : List α} {l : List α} {ws us : List (List α)} {ps : List (Piece α)} {i j o : Nat}

theorem cutAll_concat (ws : List (List α)) (w l : List α) :
    cutAll (ws ++ [w]) l = cutOut w (cutAll ws l) := by
  simp [cutAll]

theorem text_cutAll (hws : ∀ v ∈ ws, v ≠ []) (l : List α) : text (cutAll ws l) = l := by
  induction ws using List.reverseRecOn with
  | nil => exact text_whole l
  | append_singleton ws w ih =>
      obtain ⟨hws', hw⟩ := ne_nil_of_concat hws
      rw [cutAll_concat, text_cutOut hw, ih hws']

theorem words_cutAll (hws : ∀ v ∈ ws, v ≠ []) (h : z ∈ words (cutAll ws l)) : z ∈ ws := by
  induction ws using List.reverseRecOn with
  | nil =>
      rw [show cutAll [] l = whole l from rfl, words_whole] at h
      cases h
  | append_singleton ws w ih =>
      obtain ⟨hws', hw⟩ := ne_nil_of_concat hws
      rw [cutAll_concat] at h
      rw [List.mem_append, List.mem_singleton]
      exact (mem_words_cutOut hw h).symm.imp (ih hws') fun h => h.1

/-- Nothing is left of a word that has been scanned for. -/
theorem not_infix_cutAll (hws : ∀ v ∈ ws, v ≠ []) (h : z ∈ ws) :
    ¬ whole z <:+: cutAll ws l := by
  induction ws using List.reverseRecOn with
  | nil => cases h
  | append_singleton ws w ih =>
      obtain ⟨hws', hw⟩ := ne_nil_of_concat hws
      rw [cutAll_concat]
      rcases List.mem_append.mp h with h' | h'
      · exact fun hin => ih hws' h' (infix_of_infix_cutOut hw (hws z h) hin)
      · rw [List.mem_singleton.mp h']
        exact not_infix_cutOut hw _

/-- **Short words first**: no other word is left inside a word that is cut out. -/
theorem eq_of_infix_cutAll (hws : ∀ v ∈ ws, v ≠ [])
    (hsorted : ws.Pairwise fun v w => v.length ≤ w.length) :
    ∀ h ∈ words (cutAll ws l), ∀ f ∈ ws, f <:+: h → f = h := by
  induction ws using List.reverseRecOn with
  | nil => exact fun _ _ f hf => by cases hf
  | append_singleton ws w ih =>
      obtain ⟨hws', hw⟩ := ne_nil_of_concat hws
      obtain ⟨hsorted', _, hle⟩ := List.pairwise_append.mp hsorted
      intro h hh f hf hin
      rw [cutAll_concat] at hh
      rcases mem_words_cutOut hw hh with ⟨rfl, hleft⟩ | hold
      · -- a word that has been scanned for is not left in the one cut out last
        rcases List.mem_append.mp hf with hf' | hf'
        · refine (not_infix_cutAll (l := l) hws' hf' ?_).elim
          obtain ⟨a, b, rfl⟩ := hin
          refine List.IsInfix.trans ⟨whole a, whole b, ?_⟩ hleft
          rw [whole_append, whole_append]
        · exact List.mem_singleton.mp hf'
      · rcases List.mem_append.mp hf with hf' | hf'
        · exact ih hws' hsorted' h hold f hf' hin
        · have hlen := hle h (words_cutAll hws' hold) w (by simp)
          rw [List.mem_singleton.mp hf'] at hin ⊢
          exact hin.eq_of_length_le hlen

/-- **Another order of the scans** that cuts out as many words from the same
letters as the one with short words first has cut out the same ones. -/
theorem cutAll_eq_of_trace (hws : ∀ v ∈ ws, v ≠ [])
    (hsorted : ws.Pairwise fun v w => v.length ≤ w.length) (hus : ∀ v ∈ us, v ∈ ws)
    (htrace : trace (cutAll ws l) = trace (cutAll us l))
    (hlen : (words (cutAll us l)).length = (words (cutAll ws l)).length) :
    cutAll us l = cutAll ws l := by
  have hne : ∀ vs : List (List α), (∀ v ∈ vs, v ≠ []) → [] ∉ words (cutAll vs l) :=
    fun vs hvs hmem => hvs _ (words_cutAll hvs hmem) rfl
  have hus' : ∀ v ∈ us, v ≠ [] := fun v hv => hws v (hus v hv)
  have hin : ∀ h ∈ words (cutAll ws l), ∀ f ∈ words (cutAll us l), f <:+: h → f = h :=
    fun h hh f hf => eq_of_infix_cutAll hws hsorted h hh f (hus f (words_cutAll hus' hf))
  have hcounts := counts _ _ _ (Nat.le_refl _) (hne ws hws) (hne us hus') hin
  exact ((hcounts.same htrace).2 hlen).symm

end Scans

/-! ## What a scan finds by itself -/

/-- The words that are not in `ws` are put back. -/
def uncut (ws : List (List α)) (ps : List (Piece α)) : List (Piece α) :=
  ps.flatMap fun p =>
    match p with
    | .keep a => [.keep a]
    | .cut w => if w ∈ ws then [.cut w] else whole w

/-- Where a scan for the word finds it in the text. -/
def picks (w l : List α) : List Nat := (cuts 0 (cutOut w (whole l))).map Prod.fst

example : picks ['a', 'a'] ['a', 'a', 'a', 'a', 'a'] = [0, 2] := by decide

section Alone

variable {w z v : List α} {l : List α} {ws us : List (List α)} {ps : List (Piece α)}
  {i j o : Nat}

@[simp] theorem uncut_keep (ws : List (List α)) (a : α) (ps : List (Piece α)) :
    uncut ws (.keep a :: ps) = .keep a :: uncut ws ps := rfl

theorem uncut_cut (ws : List (List α)) (w : List α) (ps : List (Piece α)) :
    uncut ws (.cut w :: ps) = (if w ∈ ws then [.cut w] else whole w) ++ uncut ws ps := rfl

@[simp] theorem uncut_append (ws : List (List α)) (ps qs : List (Piece α)) :
    uncut ws (ps ++ qs) = uncut ws ps ++ uncut ws qs := List.flatMap_append

@[simp] theorem uncut_whole (ws : List (List α)) (l : List α) :
    uncut ws (whole l) = whole l := by
  induction l with
  | nil => rfl
  | cons a l ih => exact congrArg (Piece.keep a :: ·) ih

@[simp] theorem text_uncut (ws : List (List α)) (ps : List (Piece α)) :
    text (uncut ws ps) = text ps := by
  induction ps with
  | nil => rfl
  | cons p ps ih =>
      cases p with
      | keep a => rw [uncut_keep, text_keep, text_keep, ih]
      | cut w =>
          rw [uncut_cut, text_append, text_cut, ih]
          split_ifs <;> simp

theorem uncut_nil (ps : List (Piece α)) : uncut [] ps = whole (text ps) := by
  induction ps with
  | nil => rfl
  | cons p ps ih =>
      cases p with
      | keep a => exact congrArg (Piece.keep a :: ·) ih
      | cut w => rw [uncut_cut, if_neg (List.not_mem_nil), ih, text_cut, whole_append]

theorem uncut_of_words (h : ∀ w ∈ words ps, w ∈ ws) : uncut ws ps = ps := by
  induction ps with
  | nil => rfl
  | cons p ps ih =>
      cases p with
      | keep a => rw [uncut_keep, ih h]
      | cut w =>
          rw [uncut_cut, if_pos (h w List.mem_cons_self),
            ih fun v hv => h v (List.mem_cons_of_mem _ hv), List.singleton_append]

theorem uncut_congr (h : ∀ w, w ∈ ws ↔ w ∈ us) : uncut ws ps = uncut us ps := by
  simp only [uncut, h]

/-- A scan for a word that is put back leaves no trace. -/
theorem uncut_cutOut (hz : z ≠ []) (hws : z ∉ ws) : uncut ws (cutOut z ps) = uncut ws ps := by
  induction ps using cutOut_induction hz with
  | nil => rfl
  | hit t ih =>
      rw [cutOut_hit hz, uncut_cut, if_neg hws, ih, uncut_append, uncut_whole]
  | miss c t hc ih =>
      rw [cutOut_miss hc]
      cases c with
      | keep a => rw [uncut_keep, uncut_keep, ih]
      | cut v => rw [uncut_cut, uncut_cut, ih]

theorem mem_cuts_uncut :
    (i, w) ∈ cuts o (uncut ws ps) ↔ (i, w) ∈ cuts o ps ∧ w ∈ ws := by
  induction ps generalizing o with
  | nil => simp [uncut, cuts]
  | cons p ps ih =>
      cases p with
      | keep a => exact ih
      | cut v =>
          rw [uncut_cut, cuts, List.mem_cons]
          split_ifs with hv
          · rw [List.singleton_append, cuts, List.mem_cons, ih]
            constructor
            · rintro (heq | ⟨h, hw⟩)
              · exact ⟨.inl heq, (Prod.mk.inj heq).2 ▸ hv⟩
              · exact ⟨.inr h, hw⟩
            · rintro ⟨heq | h, hw⟩
              · exact .inl heq
              · exact .inr ⟨h, hw⟩
          · rw [cuts_whole_append, ih]
            constructor
            · rintro ⟨h, hw⟩
              exact ⟨.inr h, hw⟩
            · rintro ⟨heq | h, hw⟩
              · exact (hv ((Prod.mk.inj heq).2 ▸ hw)).elim
              · exact ⟨h, hw⟩

theorem mem_picks (hw : w ≠ []) : i ∈ picks w l ↔ (i, w) ∈ cuts 0 (cutOut w (whole l)) := by
  rw [picks, List.mem_map]
  constructor
  · rintro ⟨⟨j, v⟩, hmem, rfl⟩
    rcases mem_words_cutOut hw (mem_words_of_mem_cuts hmem) with ⟨rfl, _⟩ | hv
    · exact hmem
    · rw [words_whole] at hv
      cases hv
  · exact fun h => ⟨_, h, rfl⟩

/-- Where a scan has left all letters of `v`, its word does not begin. -/
theorem through_of_cutOut (hw : w ≠ []) {r q : List (Piece α)}
    (h : cutOut w (whole v ++ r) = whole v ++ q) :
    (∀ s, s ≠ [] → s <:+ v → ¬ whole w <+: whole s ++ r) ∧ cutOut w r = q := by
  induction v with
  | nil =>
      refine ⟨fun s hs hsuf => ?_, h⟩
      exact (hs (List.suffix_nil.mp hsuf)).elim
  | cons a v ih =>
      have hmiss : ¬ whole w <+: whole (a :: v) ++ r := by
        rintro ⟨t, ht⟩
        rw [← ht, cutOut_hit hw] at h
        cases h
      have hstep : cutOut w (whole (a :: v) ++ r) = .keep a :: cutOut w (whole v ++ r) :=
        cutOut_miss hmiss
      rw [hstep] at h
      obtain ⟨hin, htail⟩ := ih (List.cons.inj h).2
      refine ⟨fun s hs hsuf => ?_, htail⟩
      rcases List.suffix_cons_iff.mp hsuf with rfl | hsuf
      · exact hmiss
      · exact hin s hs hsuf

/-- **A scan finds in a cut text what it finds in the whole one**, if that is
what has been cut out of it. -/
theorem cutOut_uncut (hw : w ≠ []) (hT : cutOut w (whole (text ps)) = uncut [w] ps)
    (us : List (List α)) : cutOut w (uncut us ps) = uncut (w :: us) ps := by
  -- letters the scan leaves alone in the whole text, it leaves alone in a cut one
  have hpass : ∀ {v : List α} {t q : List (Piece α)},
      cutOut w (whole v ++ whole (text t)) = whole v ++ q →
      cutOut w (whole v ++ uncut us t) = whole v ++ cutOut w (uncut us t) := by
    intro v t q hq
    refine cutOut_through fun s hs hsuf hpre => (through_of_cutOut hw hq).1 s hs hsuf ?_
    have htext := prefix_text hpre
    rw [text_append, text_whole, text_uncut] at htext
    rw [← whole_append]
    exact htext.map Piece.keep
  induction ps with
  | nil => rfl
  | cons p ps ih =>
      cases p with
      | keep a =>
          have hq : cutOut w (whole [a] ++ whole (text ps)) = whole [a] ++ uncut [w] ps := hT
          have hrest := hpass hq
          rw [ih (through_of_cutOut hw hq).2] at hrest
          exact hrest
      | cut v =>
          rw [text_cut, whole_append, uncut_cut] at hT
          rw [uncut_cut, uncut_cut]
          by_cases hv : v = w
          · subst hv
            rw [cutOut_hit hw, if_pos List.mem_cons_self, List.singleton_append,
              List.cons.injEq] at hT
            rw [if_pos (List.mem_cons_self (a := v) (l := us)), ← ih hT.2]
            split_ifs
            · exact cutOut_cut hw v _
            · exact cutOut_hit hw _
          · rw [if_neg (by simpa using hv)] at hT
            have hrest := hpass hT
            rw [ih (through_of_cutOut hw hT).2] at hrest
            by_cases hus : v ∈ us
            · rw [if_pos hus, if_pos (List.mem_cons_of_mem _ hus), List.singleton_append,
                cutOut_cut hw, ih (through_of_cutOut hw hT).2]
              rfl
            · rw [if_neg hus, if_neg (by simpa [hv] using hus)]
              exact hrest

/-- Where no word has been cut out, the text spells kept letters. -/
theorem whole_prefix_of_cuts (hps : [] ∉ words ps) (h : w <+: text ps)
    (hcuts : ∀ j v, (j, v) ∈ cuts o ps → o + w.length ≤ j) : whole w <+: ps := by
  induction ps generalizing w o with
  | nil =>
      rw [text_nil, List.prefix_nil] at h
      rw [h]
      exact List.nil_prefix
  | cons p ps ih =>
      cases w with
      | nil => exact List.nil_prefix
      | cons b w =>
          cases p with
          | keep a =>
              obtain ⟨rfl, hrest⟩ := List.cons_prefix_cons.mp h
              refine List.cons_prefix_cons.mpr ⟨rfl, ih (o := o + 1) hps hrest fun j v hj => ?_⟩
              have hle := hcuts j v hj
              rw [List.length_cons] at hle
              omega
          | cut v =>
              have hle := hcuts o v List.mem_cons_self
              rw [List.length_cons] at hle
              omega

/-- A scan that finds nothing in `v` goes through it. -/
theorem cutOut_whole_append (hw : w ≠ [])
    (h : ∀ i, (i, w) ∈ cuts o (cutOut w (whole (v ++ l))) → o + v.length ≤ i) :
    cutOut w (whole v ++ whole l) = whole v ++ cutOut w (whole l) := by
  induction v generalizing o with
  | nil => rfl
  | cons a v ih =>
      have hmiss : ¬ whole w <+: whole (a :: v) ++ whole l := by
        rintro ⟨t, ht⟩
        rw [whole_append, ← ht, cutOut_hit hw] at h
        have hle := h o List.mem_cons_self
        rw [List.length_cons] at hle
        omega
      have hstep : cutOut w (whole (a :: v) ++ whole l) =
          .keep a :: cutOut w (whole v ++ whole l) := cutOut_miss hmiss
      rw [hstep, ih (o := o + 1) fun i hi => ?_]
      · rfl
      · have hle := h i (by rw [whole_append, hstep]; rwa [whole_append] at hi)
        rw [List.length_cons] at hle
        omega

/-- **A scan finds all its word has in the text**, if nothing that has been cut
out overlaps it. -/
theorem uncut_cutOut_self (hw : w ≠ []) (hps : [] ∉ words ps) (hno : w ∉ words ps)
    (hap : ∀ i j v, (i, w) ∈ cuts o (cutOut w (whole (text ps))) → (j, v) ∈ cuts o ps →
      i + w.length ≤ j ∨ j + v.length ≤ i) :
    uncut [w] (cutOut w ps) = cutOut w (whole (text ps)) := by
  induction ps using cutOut_induction hw generalizing o with
  | nil => rfl
  | hit t ih =>
      rw [words_append, words_whole, List.nil_append] at hps hno
      rw [text_append, text_whole, whole_append, cutOut_hit hw] at hap
      rw [text_append, text_whole, whole_append, cutOut_hit hw, cutOut_hit hw, uncut_cut,
        if_pos List.mem_cons_self, List.singleton_append]
      rw [ih (o := o + w.length) hps hno]
      intro i j v hi hj
      exact hap i j v (List.mem_cons_of_mem _ hi) (by rwa [cuts_whole_append])
  | miss c t hc ih =>
      rw [cutOut_miss hc]
      cases c with
      | keep a =>
          have hmiss : ¬ whole w <+: .keep a :: whole (text t) := by
            rintro ⟨r, hr⟩
            -- the word begins here, so nothing has been cut out of it
            have hhere : (o, w) ∈ cuts o (cutOut w (whole (text (.keep a :: t)))) := by
              have heq : whole (text (.keep a :: t)) = whole w ++ r := hr.symm
              rw [heq, cutOut_hit hw]
              exact List.mem_cons_self
            refine hc (whole_prefix_of_cuts (o := o) hps ?_ fun j v hj => ?_)
            · have htext := congrArg text hr
              rw [text_append, text_whole, text_keep, text_whole] at htext
              exact ⟨text r, htext⟩
            · have hle : o + 1 ≤ j := le_of_mem_cuts (show (j, v) ∈ cuts (o + 1) t from hj)
              rcases hap o j v hhere hj with h | h
              · exact h
              · omega
          have hstep : cutOut w (whole (text (.keep a :: t))) =
              .keep a :: cutOut w (whole (text t)) := cutOut_miss hmiss
          rw [hstep] at hap ⊢
          rw [uncut_keep, ih (o := o + 1) hps hno hap]
      | cut v =>
          rw [words_cut, List.mem_cons, not_or] at hps hno
          have hpass : cutOut w (whole v ++ whole (text t)) =
              whole v ++ cutOut w (whole (text t)) := by
            refine cutOut_whole_append (o := o) hw fun i hi => ?_
            have hle : o ≤ i := le_of_mem_cuts hi
            have hpos := List.length_pos_of_ne_nil hw
            rw [← text_cut] at hi
            rcases hap i o v hi List.mem_cons_self with h | h
            · omega
            · exact h
          rw [text_cut, whole_append, hpass] at hap ⊢
          rw [uncut_cut, if_neg (by simpa using Ne.symm hno.1), ih (o := o + v.length) hps.2 hno.2]
          intro i j u hi hj
          exact hap i j u (by rwa [cuts_whole_append]) (List.mem_cons_of_mem _ hj)

/-- The places of different words do not overlap. -/
def PicksApart (ws : List (List α)) (l : List α) : Prop :=
  ∀ x ∈ ws, ∀ y ∈ ws, x ≠ y → ∀ i ∈ picks x l, ∀ j ∈ picks y l,
    i + x.length ≤ j ∨ j + y.length ≤ i

/-- What scans have cut out of one word is what the scan for it finds by itself,
if the places of different words do not overlap. -/
theorem uncut_cutAll (hws : ∀ v ∈ ws, v ≠ []) (hap : PicksApart ws l) (hw : w ∈ ws) :
    uncut [w] (cutAll ws l) = cutOut w (whole l) := by
  induction ws using List.reverseRecOn generalizing w with
  | nil => cases hw
  | append_singleton ws z ih =>
      obtain ⟨hws', hz⟩ := ne_nil_of_concat hws
      have hap' : PicksApart ws l := fun x hx y hy =>
        hap x (List.mem_append_left _ hx) y (List.mem_append_left _ hy)
      rw [cutAll_concat]
      by_cases hwz : w = z
      · subst hwz
        by_cases hmem : w ∈ ws
        · rw [cutOut_of_absent hz (not_infix_cutAll hws' hmem), ih hws' hap' hmem]
        · have htext : text (cutAll ws l) = l := text_cutAll hws' l
          rw [uncut_cutOut_self (o := 0) hz, htext]
          · exact fun h => hws' [] (words_cutAll hws' h) rfl
          · exact fun h => hmem (words_cutAll hws' h)
          · intro i j v hi hj
            have hv := words_cutAll hws' (mem_words_of_mem_cuts hj)
            have hjv : j ∈ picks v l := by
              rw [mem_picks (hws' v hv), ← ih hws' hap' hv, mem_cuts_uncut]
              exact ⟨hj, List.mem_singleton_self v⟩
            rw [htext] at hi
            exact hap w (by simp) v (List.mem_append_left _ hv) (fun h => hmem (h ▸ hv)) i
              ((mem_picks hz).mpr hi) j hjv
      · have hw' : w ∈ ws := by simpa [hwz] using hw
        rw [uncut_cutOut hz (by simpa using Ne.symm hwz), ih hws' hap' hw']

/-- The same for the word that has been scanned for first. -/
theorem uncut_cutAll_cons (hws : ∀ v ∈ w :: us, v ≠ []) :
    uncut [w] (cutAll (w :: us) l) = cutOut w (whole l) := by
  have hw : w ≠ [] := hws w List.mem_cons_self
  induction us using List.reverseRecOn with
  | nil =>
      refine uncut_of_words fun v hv => ?_
      exact words_cutAll hws hv
  | append_singleton us z ih =>
      rw [← List.cons_append] at hws ⊢
      obtain ⟨hws', hz⟩ := ne_nil_of_concat hws
      rw [cutAll_concat]
      by_cases hwz : z = w
      · subst hwz
        rw [cutOut_of_absent hz (not_infix_cutAll hws' List.mem_cons_self), ih hws']
      · rw [uncut_cutOut hz (by simpa using hwz), ih hws']

/-- Scans cut out of the text what each of them finds by itself. -/
theorem cutAll_of_uncut (hus : ∀ v ∈ us, v ≠ [])
    (h : ∀ w ∈ us, cutOut w (whole (text ps)) = uncut [w] ps) :
    cutAll us (text ps) = uncut us ps := by
  induction us using List.reverseRecOn with
  | nil => exact (uncut_nil ps).symm
  | append_singleton us w ih =>
      obtain ⟨hus', hw⟩ := ne_nil_of_concat hus
      rw [cutAll_concat, ih hus' fun v hv => h v (List.mem_append_left _ hv),
        cutOut_uncut hw (h w (by simp))]
      refine uncut_congr fun v => ?_
      rw [List.mem_cons, List.mem_append, List.mem_singleton]
      exact Or.comm

/-- **The order of the scans is of no account** if the places of different words
do not overlap. -/
theorem cutAll_perm (hws : ∀ v ∈ ws, v ≠ []) (hap : PicksApart ws l) (hus : us.Perm ws) :
    cutAll us l = cutAll ws l := by
  have htext : text (cutAll ws l) = l := text_cutAll hws l
  have h : cutAll us (text (cutAll ws l)) = uncut us (cutAll ws l) := by
    refine cutAll_of_uncut (fun v hv => hws v (hus.mem_iff.mp hv)) fun w hw => ?_
    rw [htext, uncut_cutAll hws hap (hus.mem_iff.mp hw)]
  rw [htext] at h
  rw [h]
  exact uncut_of_words fun w hw => hus.mem_iff.mpr (words_cutAll hws hw)

end Alone

end Dokan.Verified.Cutting
