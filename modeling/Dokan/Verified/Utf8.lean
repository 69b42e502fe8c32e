import Mathlib

/-!
# Lossy UTF-8 decoding

`lossy` decodes bytes the way `String::from_utf8_lossy` does: every maximal
piece of an ill-formed sequence becomes one U+FFFD.  It is a machine over the
bytes; `Partial` is what it remembers inside a character: how many bytes are
owed, the range the next one must lie in, and the bits so far.

## Main results

* `Sound.step` — the range of a partial character never leaves the scalar
  values.
* `lossy_append` — bytes may be decoded in pieces that end between two
  characters.
* `nul_mem_lossy` — U+0000 is decoded from the byte `0` and from nothing else.
* `lossy_encode`, `encode_lossy_iff` — the bytes of a text are decoded to it, and
  from no others nothing is lost.
-/

namespace Dokan.Verified.Utf8

/-- U+FFFD. -/
def replacement : Char := Char.ofNat 0xFFFD

/-- A character of which `owed` bytes are missing, the next from `lo` to
`hi`. -/
structure Partial where
  owed : Nat
  lo : Nat
  hi : Nat
  bits : Nat
deriving DecidableEq

/-- What the first byte of a character tells: the characters it completes, or
the one it begins. -/
def first (b : Nat) : List Char × Option Partial :=
  if b < 0x80 then ([Char.ofNat b], none)
  else if b < 0xC2 then ([replacement], none)
  else if b < 0xE0 then ([], some ⟨1, 0x80, 0xBF, b - 0xC0⟩)
  else if b = 0xE0 then ([], some ⟨2, 0xA0, 0xBF, 0⟩)
  else if b = 0xED then ([], some ⟨2, 0x80, 0x9F, 0xD⟩)
  else if b < 0xF0 then ([], some ⟨2, 0x80, 0xBF, b - 0xE0⟩)
  else if b = 0xF0 then ([], some ⟨3, 0x90, 0xBF, 0⟩)
  else if b < 0xF4 then ([], some ⟨3, 0x80, 0xBF, b - 0xF0⟩)
  else if b = 0xF4 then ([], some ⟨3, 0x80, 0x8F, 4⟩)
  else ([replacement], none)

/-- The byte continues the character. -/
def Partial.accepts (p : Partial) (b : Nat) : Prop := p.lo ≤ b ∧ b ≤ p.hi

instance (p : Partial) (b : Nat) : Decidable (p.accepts b) :=
  inferInstanceAs (Decidable (_ ∧ _))

/-- The character with one more byte. -/
def Partial.next (p : Partial) (b : Nat) : Partial :=
  ⟨p.owed - 1, 0x80, 0xBF, p.bits * 64 + (b - 0x80)⟩

/-- Decode the rest of a stream inside a character, or between two. -/
def lossyFrom : Option Partial → List UInt8 → List Char
  | none, [] => []
  | some _, [] => [replacement]
  | none, b :: bs => (first b.toNat).1 ++ lossyFrom (first b.toNat).2 bs
  | some p, b :: bs =>
      if p.accepts b.toNat then
        if p.owed = 1 then Char.ofNat (p.next b.toNat).bits :: lossyFrom none bs
        else lossyFrom (some (p.next b.toNat)) bs
      else replacement :: ((first b.toNat).1 ++ lossyFrom (first b.toNat).2 bs)

/-- `String::from_utf8_lossy`. -/
def lossy (bs : List UInt8) : List Char := lossyFrom none bs

-- a two-byte character, a stray continuation byte, a cut three-byte character
example : lossy [0xC3, 0xA9, 0x80, 0xE2, 0x82, 0x41] =
    ['é', replacement, replacement, 'A'] := by decide

/-! ## Decoding in pieces -/

/-- What is remembered after some bytes. -/
def after : Option Partial → List UInt8 → Option Partial
  | o, [] => o
  | none, b :: bs => after (first b.toNat).2 bs
  | some p, b :: bs =>
      if p.accepts b.toNat then
        if p.owed = 1 then after none bs else after (some (p.next b.toNat)) bs
      else after (first b.toNat).2 bs

theorem lossyFrom_append (o : Option Partial) (a b : List UInt8) (h : after o a = none) :
    lossyFrom o (a ++ b) = lossyFrom o a ++ lossyFrom none b := by
  fun_induction after o a with
  | case1 o =>
      subst h
      simp [lossyFrom]
  | case2 x a ih => simp only [List.cons_append, lossyFrom, ih h, List.append_assoc]
  | case3 p x a hacc howed ih =>
      simp only [List.cons_append, lossyFrom, if_pos hacc, if_pos howed, ih h]
  | case4 p x a hacc howed ih =>
      simp only [List.cons_append, lossyFrom, if_pos hacc, if_neg howed, ih h]
  | case5 p x a hacc ih =>
      simp only [List.cons_append, lossyFrom, if_neg hacc, ih h, List.append_assoc]

/-- **Decoding in pieces** that end between two characters. -/
theorem lossy_append {a b : List UInt8} (h : after none a = none) :
    lossy (a ++ b) = lossy a ++ lossy b := lossyFrom_append none a b h

/-! ## No character decodes to U+0000 by accident -/

/-- The least character the partial one may become. -/
def Partial.least (p : Partial) : Nat :=
  (p.bits * 64 + (p.lo - 0x80)) * 64 ^ (p.owed - 1)

/-- One more than the greatest. -/
def Partial.bound (p : Partial) : Nat :=
  (p.bits * 64 + (p.hi - 0x80) + 1) * 64 ^ (p.owed - 1)

/-- All characters the partial one may become are scalar values but U+0000. -/
structure Sound (p : Partial) : Prop where
  owed : 0 < p.owed
  lo : 0x80 ≤ p.lo
  least : 0 < p.least
  scalar : p.bound ≤ 0xD800 ∨ (0xE000 ≤ p.least ∧ p.bound ≤ 0x110000)

/-- A character begun by its first byte. -/
theorem first_sound {b : Nat} (hb : b < 256) {p : Partial} (h : (first b).2 = some p) :
    Sound p := by
  unfold first at h
  repeat' split at h
  all_goals cases h
  all_goals
    refine ⟨?_, ?_, ?_, ?_⟩ <;>
      simp only [Partial.least, Partial.bound, Nat.reduceSub, Nat.reducePow] <;> omega

/-- A character with one more byte. -/
theorem Sound.step {p : Partial} (hp : Sound p) {b : Nat} (hb : p.accepts b)
    (howed : p.owed ≠ 1) : Sound (p.next b) := by
  obtain ⟨hlo, hhi⟩ := hb
  have hpow : 64 ^ (p.owed - 1) = 64 * 64 ^ (p.owed - 1 - 1) := by
    rw [← Nat.pow_succ']
    congr 1
    have := hp.owed
    omega
  have hbits : (p.next b).bits = p.bits * 64 + (b - 0x80) := rfl
  have hleast : (p.next b).least = (p.bits * 64 + (b - 0x80)) * 64 ^ (p.owed - 1) := by
    simp only [Partial.least, Partial.next, Nat.sub_self, Nat.add_zero]
    rw [hpow, Nat.mul_assoc]
  have hbound : (p.next b).bound = (p.bits * 64 + (b - 0x80) + 1) * 64 ^ (p.owed - 1) := by
    rw [hpow, ← Nat.mul_assoc, Nat.add_mul _ 1 64]
    simp only [Partial.bound, Partial.next, Nat.reduceSub, Nat.add_assoc, Nat.reduceAdd,
      Nat.one_mul]
  have hge : p.least ≤ (p.next b).least := by
    rw [hleast, Partial.least]
    exact Nat.mul_le_mul_right _ (by omega)
  have hle : (p.next b).bound ≤ p.bound := by
    rw [hbound, Partial.bound]
    exact Nat.mul_le_mul_right _ (by omega)
  refine ⟨?_, Nat.le_refl _, Nat.lt_of_lt_of_le hp.least hge, ?_⟩
  · have hne := hp.owed
    simp only [Partial.next]
    omega
  · rcases hp.scalar with hs | ⟨hs, hs'⟩
    · exact Or.inl (Nat.le_trans hle hs)
    · exact Or.inr ⟨Nat.le_trans hs hge, Nat.le_trans hle hs'⟩

theorem ofNat_eq_nul {n : Nat} (h : n.isValidChar) : Char.ofNat n = '\x00' ↔ n = 0 := by
  constructor
  · intro heq
    have hnat := congrArg Char.toNat heq
    rw [Char.ofNat, dif_pos h] at hnat
    exact hnat
  · rintro rfl
    rfl

/-- A character completed by its last byte is not U+0000. -/
theorem Sound.last {p : Partial} (hp : Sound p) {b : Nat} (hb : p.accepts b)
    (howed : p.owed = 1) : Char.ofNat (p.next b).bits ≠ '\x00' := by
  obtain ⟨hlo, hhi⟩ := hb
  have hleast := hp.least
  have hscalar := hp.scalar
  simp only [Partial.least, Partial.bound, howed, Nat.sub_self, Nat.pow_zero,
    Nat.mul_one] at hleast hscalar
  have hbits : (p.next b).bits = p.bits * 64 + (b - 0x80) := rfl
  have hvalid : (p.next b).bits.isValidChar := by
    rw [hbits]
    rcases hscalar with hs | ⟨hs, hs'⟩
    · exact Or.inl (by omega)
    · exact Or.inr ⟨by omega, by omega⟩
  rw [Ne, ofNat_eq_nul hvalid]
  omega

/-- A first byte tells U+0000 only if it is `0`. -/
theorem nul_mem_first (b : Nat) : '\x00' ∈ (first b).1 ↔ b = 0 := by
  have hrep : '\x00' ≠ replacement := by decide
  by_cases h : b < 0x80
  · -- an ASCII byte is its own character
    have hchar := @ofNat_eq_nul b (Or.inl (by omega))
    rw [first, if_pos h, List.mem_singleton, eq_comm, hchar]
  · -- any other byte is no character of its own
    have hne : b ≠ 0 := by omega
    rw [first, if_neg h]
    repeat' split
    all_goals simp [hrep, hne]

/-- The decoded text of a stream inside a sound character. -/
theorem nul_mem_lossyFrom (o : Option Partial) (bs : List UInt8)
    (ho : ∀ p, o = some p → Sound p) : '\x00' ∈ lossyFrom o bs ↔ (0 : UInt8) ∈ bs := by
  have hrep : '\x00' ≠ replacement := by decide
  have hbyte : ∀ b : UInt8, '\x00' ∈ (first b.toNat).1 ↔ 0 = b := by
    intro b
    rw [nul_mem_first b.toNat, ← UInt8.toNat_inj, eq_comm]
    rfl
  have hfirst : ∀ (b : UInt8) p, (first b.toNat).2 = some p → Sound p :=
    fun b p h => first_sound b.toNat_lt h
  fun_induction lossyFrom o bs with
  | case1 => simp
  | case2 p => simpa using hrep
  | case3 b bs ih =>
      have hrest := ih (hfirst b)
      simp only [List.mem_append, List.mem_cons, hbyte, hrest]
  | case4 p b bs hacc howed ih =>
      have hsound := ho p rfl
      have hne : (0 : UInt8) ≠ b := by
        rintro rfl
        exact absurd hacc.1 (by have := hsound.lo; simp; omega)
      have hrest := ih fun _ h => by cases h
      simp only [List.mem_cons, hrest]
      simp [hne, (hsound.last hacc howed).symm]
  | case5 p b bs hacc howed ih =>
      have hsound := ho p rfl
      have hne : (0 : UInt8) ≠ b := by
        rintro rfl
        exact absurd hacc.1 (by have := hsound.lo; simp; omega)
      have hrest := ih fun _ h => by cases h; exact hsound.step hacc howed
      simp only [List.mem_cons, hrest]
      simp [hne]
  | case6 p b bs hacc ih =>
      have hrest := ih (hfirst b)
      simp only [List.mem_cons, List.mem_append, hbyte, hrest]
      simp [hrep]

/-- **U+0000** is decoded from the byte `0` and from nothing else. -/
theorem nul_mem_lossy (bs : List UInt8) : '\x00' ∈ lossy bs ↔ (0 : UInt8) ∈ bs :=
  nul_mem_lossyFrom none bs fun _ h => by cases h

/-! ## The bytes of a text -/

/-- The bytes of a text. -/
def encode (cs : List Char) : List UInt8 := cs.flatMap String.utf8EncodeChar

/-- The first byte of a character, and what it leaves to be read. -/
theorem lossyFrom_first {b : Nat} (hb : b < 256) (bs : List UInt8) :
    lossyFrom none (UInt8.ofNat b :: bs) = (first b).1 ++ lossyFrom (first b).2 bs := by
  rw [lossyFrom, UInt8.toNat_ofNat_of_lt' hb]

/-- A further byte. -/
theorem lossyFrom_next {p : Partial} {b : Nat} (hb : b < 256) (hacc : p.accepts b)
    (howed : p.owed ≠ 1) (bs : List UInt8) :
    lossyFrom (some p) (UInt8.ofNat b :: bs) = lossyFrom (some (p.next b)) bs := by
  rw [lossyFrom, UInt8.toNat_ofNat_of_lt' hb, if_pos hacc, if_neg howed]

/-- The last one. -/
theorem lossyFrom_last {p : Partial} {b : Nat} (hb : b < 256) (hacc : p.accepts b)
    (howed : p.owed = 1) (bs : List UInt8) :
    lossyFrom (some p) (UInt8.ofNat b :: bs) =
      Char.ofNat (p.next b).bits :: lossyFrom none bs := by
  rw [lossyFrom, UInt8.toNat_ofNat_of_lt' hb, if_pos hacc, if_pos howed]

theorem first_two {b : Nat} (hlo : 0xC2 ≤ b) (hhi : b < 0xE0) :
    first b = ([], some ⟨1, 0x80, 0xBF, b - 0xC0⟩) := by
  rw [first, if_neg (by omega), if_neg (by omega), if_pos hhi]

/-- The range of the second byte, of three or four, leaves out what has a shorter
form and the surrogates. -/
theorem first_three {b : Nat} (hlo : 0xE0 ≤ b) (hhi : b < 0xF0) :
    first b = ([], some ⟨2, if b = 0xE0 then 0xA0 else 0x80, if b = 0xED then 0x9F else 0xBF,
      b - 0xE0⟩) := by
  rw [first, if_neg (by omega), if_neg (by omega), if_neg (by omega)]
  by_cases h0 : b = 0xE0
  · subst h0; rfl
  · by_cases hd : b = 0xED
    · subst hd; rfl
    · simp [h0, hd, hhi]

theorem first_four {b : Nat} (hlo : 0xF0 ≤ b) (hhi : b < 0xF5) :
    first b = ([], some ⟨3, if b = 0xF0 then 0x90 else 0x80, if b = 0xF4 then 0x8F else 0xBF,
      b - 0xF0⟩) := by
  rw [first, if_neg (by omega), if_neg (by omega), if_neg (by omega), if_neg (by omega),
    if_neg (by omega), if_neg (by omega)]
  by_cases h0 : b = 0xF0
  · subst h0; rfl
  · by_cases h4 : b = 0xF4
    · subst h4; rfl
    · simp [h0, h4, show b < 0xF4 by omega]

/-- A character is decoded from its bytes. -/
theorem lossyFrom_char (c : Char) (bs : List UInt8) :
    lossyFrom none (String.utf8EncodeChar c ++ bs) = c :: lossyFrom none bs := by
  have hchar : Char.ofNat c.val.toNat = c := Char.ofNat_toNat c
  have hvalid : c.val.toNat < 0xD800 ∨ 0xDFFF < c.val.toNat ∧ c.val.toNat < 0x110000 := c.valid
  unfold String.utf8EncodeChar
  generalize c.val.toNat = v at hchar hvalid
  simp only
  split
  case isTrue h1 =>
    rw [List.cons_append, lossyFrom_first (by omega), first, if_pos (by omega), hchar]
    rfl
  split
  case isTrue h1 h2 =>
    rw [List.cons_append, List.cons_append, lossyFrom_first (by omega),
      first_two (by omega) (by omega), List.nil_append,
      lossyFrom_last (by omega) ⟨by dsimp only; omega, by dsimp only; omega⟩ rfl]
    have hbits : (v / 64 % 32 + 192 - 192) * 64 + (v % 64 + 128 - 128) = v := by omega
    simp only [Partial.next, hbits, hchar, List.nil_append]
  split
  case isTrue h1 h2 h3 =>
    rw [List.cons_append, List.cons_append, List.cons_append, lossyFrom_first (by omega),
      first_three (by omega) (by omega), List.nil_append,
      lossyFrom_next (by omega) ⟨by dsimp only; split <;> omega, by dsimp only; split <;> omega⟩
        (by simp),
      lossyFrom_last (by omega) ⟨by simp [Partial.next], by simp [Partial.next]; omega⟩ rfl]
    have hbits : ((v / 4096 % 16 + 224 - 224) * 64 + (v / 64 % 64 + 128 - 128)) * 64 +
        (v % 64 + 128 - 128) = v := by omega
    simp only [Partial.next, hbits, hchar, List.nil_append]
  case isFalse h1 h2 h3 =>
    rw [List.cons_append, List.cons_append, List.cons_append, List.cons_append,
      lossyFrom_first (by omega), first_four (by omega) (by omega), List.nil_append,
      lossyFrom_next (by omega) ⟨by dsimp only; split <;> omega, by dsimp only; split <;> omega⟩
        (by simp),
      lossyFrom_next (by omega) ⟨by simp [Partial.next], by simp [Partial.next]; omega⟩
        (by simp [Partial.next]),
      lossyFrom_last (by omega) ⟨by simp [Partial.next], by simp [Partial.next]; omega⟩ rfl]
    have hbits : (((v / 262144 % 8 + 240 - 240) * 64 + (v / 4096 % 64 + 128 - 128)) * 64 +
        (v / 64 % 64 + 128 - 128)) * 64 + (v % 64 + 128 - 128) = v := by omega
    simp only [Partial.next, hbits, hchar, List.nil_append]

/-- **A text is decoded from its bytes.** -/
theorem lossy_encode (cs : List Char) : lossy (encode cs) = cs := by
  induction cs with
  | nil => rfl
  | cons c cs ih =>
      rw [lossy, encode, List.flatMap_cons, lossyFrom_char]
      exact congrArg (c :: ·) ih

/-- Nothing is lost exactly if the bytes are those of a text. -/
theorem encode_lossy_iff {bs : List UInt8} : encode (lossy bs) = bs ↔ ∃ cs, bs = encode cs := by
  constructor
  · intro h
    exact ⟨lossy bs, h.symm⟩
  · rintro ⟨cs, rfl⟩
    rw [lossy_encode]

end Dokan.Verified.Utf8
