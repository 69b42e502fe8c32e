import Mathlib

/-!
# Texts that can be taken apart again

Concatenating fields loses where one ends and the next begins.  Two ways of
keeping it: a separator that does not occur in the field before it, and the
length of the field, in decimal and closed by a space, in front of it.

## Main results

* `append_cons_inj` — a field is found again before the first separator.
* `append_cons_inj_last` — and behind the last.
* `frame_append_inj` — a framed field is found again whatever follows it.
* `render_perm` — a map rendered as `name:value,name:value` is found again when
  its texts are free of the separators.
-/

namespace Dokan.Verified.Framing

universe u

variable {α : Type u}

/-! ## Separators -/

/-- Two lists that agree up to their first elements outside `p` agree in front
of, at, and after those. -/
theorem append_cons_inj {p : α → Prop} {l l' r r' : List α} {a a' : α}
    (hl : ∀ x ∈ l, p x) (hl' : ∀ x ∈ l', p x) (ha : ¬ p a) (ha' : ¬ p a')
    (h : l ++ a :: r = l' ++ a' :: r') : l = l' ∧ a = a' ∧ r = r' := by
  induction l generalizing l' with
  | nil =>
      cases l' with
      | nil => exact ⟨rfl, List.cons_eq_cons.mp h⟩
      | cons x l' =>
          obtain ⟨rfl, _⟩ := List.cons_eq_cons.mp h
          exact absurd (hl' a (by simp)) ha
  | cons x l ih =>
      cases l' with
      | nil =>
          obtain ⟨rfl, _⟩ := List.cons_eq_cons.mp h
          exact absurd (hl x (by simp)) ha'
      | cons x' l' =>
          obtain ⟨rfl, htail⟩ := List.cons_eq_cons.mp h
          obtain ⟨rfl, hrest⟩ := ih (fun y hy => hl y (by simp [hy]))
            (fun y hy => hl' y (by simp [hy])) htail
          exact ⟨rfl, hrest⟩

/-- Two lists that agree from their last elements outside `p` on agree in front of
those, at them, and after them. -/
theorem append_cons_inj_last {p : α → Prop} {l l' r r' : List α} {a a' : α}
    (hr : ∀ x ∈ r, p x) (hr' : ∀ x ∈ r', p x) (ha : ¬ p a) (ha' : ¬ p a')
    (h : l ++ a :: r = l' ++ a' :: r') : l = l' ∧ a = a' ∧ r = r' := by
  have hback := congrArg List.reverse h
  simp only [List.reverse_append, List.reverse_cons, List.append_assoc, List.singleton_append]
    at hback
  obtain ⟨hr, ha, hl⟩ := append_cons_inj (fun x hx => hr x (List.mem_reverse.mp hx))
    (fun x hx => hr' x (List.mem_reverse.mp hx)) ha ha' hback
  exact ⟨List.reverse_inj.mp hl, ha, List.reverse_inj.mp hr⟩

/-! ## Length prefixes -/

/-- A number in decimal, as ASCII bytes. -/
def decimal (n : Nat) : List UInt8 := (Nat.toDigits 10 n).map fun c => UInt8.ofNat c.toNat

/-- A field behind its length and a space. -/
def frame (body : List UInt8) : List UInt8 := decimal body.length ++ 32 :: body

/-- An ASCII digit. -/
def IsDigit (b : UInt8) : Prop := 48 ≤ b.toNat ∧ b.toNat ≤ 57

theorem digit_of_mem_toDigits {n : Nat} {c : Char} (hc : c ∈ Nat.toDigits 10 n) :
    48 ≤ c.toNat ∧ c.toNat ≤ 57 := by
  have hdigit := Nat.isDigit_of_mem_toDigits (by decide) (by decide) hc
  simp only [Char.isDigit, ge_iff_le, Bool.and_eq_true, decide_eq_true_eq] at hdigit
  exact hdigit

theorem toNat_ofNat_of_digit {c : Char} (hc : 48 ≤ c.toNat ∧ c.toNat ≤ 57) :
    (UInt8.ofNat c.toNat).toNat = c.toNat := by
  rw [UInt8.toNat_ofNat']
  omega

theorem isDigit_of_mem_decimal {n : Nat} {b : UInt8} (hb : b ∈ decimal n) : IsDigit b := by
  obtain ⟨c, hc, rfl⟩ := List.mem_map.mp hb
  have hdigit := digit_of_mem_toDigits hc
  rw [IsDigit, toNat_ofNat_of_digit hdigit]
  exact hdigit

theorem toDigits_inj {m n : Nat} (h : Nat.toDigits 10 m = Nat.toDigits 10 n) : m = n := by
  rw [← Nat.ofDigitChars_toDigits (by decide : 1 < 10) (by decide) (n := m), h,
    Nat.ofDigitChars_toDigits (by decide) (by decide)]

/-- The decimal text of an integer determines it. -/
theorem toString_inj {m n : Int} (h : toString m = toString n) : m = n := by
  have hpos : ∀ a : Nat, (toString (Int.ofNat a)).toList = Nat.toDigits 10 a :=
    fun a => Nat.toList_repr
  have hneg : ∀ a : Nat, (toString (Int.negSucc a)).toList = '-' :: Nat.toDigits 10 (a + 1) := by
    intro a
    show ("-" ++ Nat.repr (a + 1)).toList = _
    rw [String.toList_append, Nat.toList_repr]
    rfl
  have hsign : ∀ a b : Nat, Nat.toDigits 10 a ≠ '-' :: Nat.toDigits 10 b := by
    intro a b heq
    have hdigit := digit_of_mem_toDigits (n := a) (c := '-') (by rw [heq]; simp)
    exact absurd hdigit.1 (by decide)
  have hlist := congrArg String.toList h
  cases m with
  | ofNat a =>
      cases n with
      | ofNat b =>
          rw [hpos, hpos] at hlist
          rw [toDigits_inj hlist]
      | negSucc b =>
          rw [hpos, hneg] at hlist
          exact absurd hlist (hsign a _)
  | negSucc a =>
      cases n with
      | ofNat b =>
          rw [hneg, hpos] at hlist
          exact absurd hlist.symm (hsign b _)
      | negSucc b =>
          rw [hneg, hneg] at hlist
          have hsame : a + 1 = b + 1 := toDigits_inj (List.cons_eq_cons.mp hlist).2
          rw [Nat.succ.inj hsame]

theorem decimal_inj {m n : Nat} (h : decimal m = decimal n) : m = n := by
  have hdigits : ∀ k, (decimal k).map (fun b => Char.ofNat b.toNat) = Nat.toDigits 10 k := by
    intro k
    rw [decimal, List.map_map]
    refine (List.map_congr_left fun c hc => ?_).trans (List.map_id _)
    rw [Function.comp_apply, toNat_ofNat_of_digit (digit_of_mem_toDigits hc)]
    exact Char.ofNat_toNat c
  refine toDigits_inj ?_
  rw [← hdigits m, ← hdigits n, h]

/-- **Framed fields are found again.** -/
theorem frame_append_inj {a b r r' : List UInt8} (h : frame a ++ r = frame b ++ r') :
    a = b ∧ r = r' := by
  rw [frame, frame, List.append_assoc, List.append_assoc, List.cons_append,
    List.cons_append] at h
  obtain ⟨hlen, _, hrest⟩ := append_cons_inj (p := IsDigit)
    (fun _ => isDigit_of_mem_decimal) (fun _ => isDigit_of_mem_decimal)
    (by simp [IsDigit]) (by simp [IsDigit]) h
  exact List.append_inj hrest (decimal_inj hlen)

/-! ## Rendered maps -/

/-- One member. -/
def entry (p : String × String) : String := p.1 ++ ":" ++ p.2

/-- The members in the order of their texts, on one line. -/
def render (ps : List (String × String)) : String :=
  ",".intercalate ((ps.map entry).mergeSort fun s t => decide (s ≤ t))

/-- No separator that rendering relies on: no comma, and no colon in the value. -/
def Free (p : String × String) : Prop :=
  ',' ∉ p.1.toList ∧ ',' ∉ p.2.toList ∧ ':' ∉ p.2.toList

/-- The member of a text, cut at its last colon. -/
def unentry (s : String) : String × String :=
  let back := s.toList.reverse
  (String.ofList (back.dropWhile (· ≠ ':')).tail.reverse,
    String.ofList (back.takeWhile (· ≠ ':')).reverse)

theorem toList_entry (p : String × String) :
    (entry p).toList = p.1.toList ++ ':' :: p.2.toList := by
  simp [entry]

theorem unentry_entry {p : String × String} (hp : ':' ∉ p.2.toList) :
    unentry (entry p) = p := by
  have hback : (entry p).toList.reverse =
      p.2.toList.reverse ++ ':' :: p.1.toList.reverse := by
    simp [toList_entry]
  have hall : ∀ c ∈ p.2.toList.reverse, decide (c ≠ ':') = true := by
    intro c hc
    have hne : c ≠ ':' := by
      rintro rfl
      exact hp (List.mem_reverse.mp hc)
    simpa using hne
  rw [unentry, hback, List.takeWhile_append_of_pos hall, List.dropWhile_append_of_pos hall]
  simp

/-- The members' texts in order, with no comma in any and none of them empty. -/
theorem sorted_free {ps : List (String × String)} (hps : ∀ p ∈ ps, Free p) :
    ∀ l ∈ ((ps.map entry).mergeSort fun s t => decide (s ≤ t)).map String.toList,
      ',' ∉ l ∧ l ≠ [] := by
  intro l hl
  obtain ⟨s, hs, rfl⟩ := List.mem_map.mp hl
  obtain ⟨p, hp, rfl⟩ := List.mem_map.mp (List.mem_mergeSort.mp hs)
  obtain ⟨hname, hvalue, _⟩ := hps p hp
  rw [toList_entry]
  refine ⟨?_, by simp⟩
  simp [hname, hvalue]

/-- Lines of comma-free, nonempty texts are cut back into them. -/
theorem intercalate_inj {l l' : List (List Char)} (hl : ∀ x ∈ l, ',' ∉ x ∧ x ≠ [])
    (hl' : ∀ x ∈ l', ',' ∉ x ∧ x ≠ [])
    (h : [','].intercalate l = [','].intercalate l') : l = l' := by
  have hcut : ∀ m : List (List Char), (∀ x ∈ m, ',' ∉ x ∧ x ≠ []) → m ≠ [] →
      ([','].intercalate m).splitOn ',' = m :=
    fun m hm hne => List.splitOn_intercalate ',' (fun x hx => (hm x hx).1) hne
  have hnil : ∀ m : List (List Char), (∀ x ∈ m, ',' ∉ x ∧ x ≠ []) →
      [','].intercalate m = [] → m = [] := by
    intro m hm hempty
    by_contra hne
    have hm' := hcut m hm hne
    rw [hempty, List.splitOn_nil] at hm'
    exact (hm [] (hm' ▸ List.mem_singleton_self _)).2 rfl
  by_cases hne : l = []
  · subst hne
    exact (hnil l' hl' h.symm).symm
  · have hne' : l' ≠ [] := by
      rintro rfl
      exact hne (hnil l hl h)
    rw [← hcut l hl hne, h, hcut l' hl' hne']

/-- **Rendered maps are found again**, up to the order of their members. -/
theorem render_perm {ps qs : List (String × String)} (hps : ∀ p ∈ ps, Free p)
    (hqs : ∀ p ∈ qs, Free p) (h : render ps = render qs) : ps.Perm qs := by
  have hlines : ((ps.map entry).mergeSort fun s t => decide (s ≤ t)) =
      (qs.map entry).mergeSort fun s t => decide (s ≤ t) := by
    have hchars := congrArg String.toList h
    simp only [render, String.toList_intercalate] at hchars
    exact List.map_injective_iff.mpr (fun _ _ => String.toList_inj.mp)
      (intercalate_inj (sorted_free hps) (sorted_free hqs) hchars)
  have hentries : (ps.map entry).Perm (qs.map entry) :=
    ((List.mergeSort_perm _ _).symm.trans (List.Perm.of_eq hlines)).trans
      (List.mergeSort_perm _ _)
  have hback : ∀ rs : List (String × String), (∀ p ∈ rs, Free p) →
      (rs.map entry).map unentry = rs := by
    intro rs hrs
    rw [List.map_map]
    exact (List.map_congr_left fun p hp => unentry_entry (hrs p hp).2.2).trans
      (List.map_id _)
  rw [← hback ps hps, ← hback qs hqs]
  exact hentries.map unentry

end Dokan.Verified.Framing
