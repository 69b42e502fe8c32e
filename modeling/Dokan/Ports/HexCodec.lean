import Dokan.Ports.Receipt

/-!
# Hexadecimal text, exactly

`unhex` gives each slice of two characters to `u8::from_str_radix`, and that parser
takes a number with a plus sign in front.  Of a slice it reads two digits, or a sign
and one digit; the latter is no hexadecimal text, but it is decoded as if the sign
were a zero.

## Main results

* `unhex_eq_some_iff` — what an ASCII text is decoded to.
* `codec_exact_iff` — the texts on which the codec is exact.
-/

namespace Dokan.Ports.HexCodec

open Dokan.Verified.Json (Value)
open Dokan.Ports.Receipt

/-! ## What the codec is for -/

/-- A string of ASCII characters. -/
structure AsciiText where
  text : String
  ascii : ∀ c ∈ text.toList, c.toNat < 128

/-- `char::is_ascii_hexdigit`. -/
def isAsciiHexdigit (c : Char) : Bool :=
  ('0' ≤ c && c ≤ '9') || ('a' ≤ c && c ≤ 'f') || ('A' ≤ c && c ≤ 'F')

/-- An even number of digits. -/
def IsHex (s : String) : Prop := s.length % 2 = 0 ∧ ∀ c ∈ s.toList, isAsciiHexdigit c = true

/-- The text in lower case. -/
def lower (s : String) : String := String.ofList (s.toList.map Char.toLower)

/-- The text is decoded exactly if it is hexadecimal, to the bytes it is the text of. -/
structure Exact (s : AsciiText) : Prop where
  returns : ∃ o, unhex s.text = .ok o
  some_iff : (∃ bs, unhex s.text = .ok (some bs)) ↔ IsHex s.text
  hex_eq : ∀ bs, unhex s.text = .ok (some bs) → hex bs = lower s.text

/-- The slices of a text: its characters two by two. -/
def slices : List Char → List (Char × Char)
  | [] => []
  | [_] => []
  | c :: d :: rest => (c, d) :: slices rest

/-- Two digits, or a plus sign and a digit. -/
def Parses (w : Char × Char) : Prop :=
  (isAsciiHexdigit w.1 = true ∨ w.1 = '+') ∧ isAsciiHexdigit w.2 = true

/-- Every slice is parsed, one of them with a sign. -/
def Signed (s : AsciiText) : Prop :=
  s.text.length % 2 = 0 ∧ (∀ w ∈ slices s.text.toList, Parses w) ∧
    ∃ w ∈ slices s.text.toList, w.1 = '+'

/-! ## A digit -/

/-- The byte of an ASCII character. -/
def byteOf (c : Char) : UInt8 := c.val.toUInt8

/-- What holds of the ASCII characters holds of each. -/
theorem of_ascii {P : Char → Prop} (h : ∀ i : Fin 128, P (Char.ofNat i)) {c : Char}
    (hc : c.toNat < 128) : P c := by
  have hchar := h ⟨c.toNat, hc⟩
  rwa [Char.ofNat_toNat] at hchar

section Digit

variable {c d : Char}

theorem utf8_ascii (hc : c.toNat < 128) : String.utf8EncodeChar c = [byteOf c] :=
  of_ascii (P := fun c => String.utf8EncodeChar c = [byteOf c]) (by decide +kernel) hc

theorem continues_ascii (hc : c.toNat < 128) : continues (byteOf c) = false :=
  of_ascii (P := fun c => continues (byteOf c) = false) (by decide +kernel) hc

theorem byteOf_eq_plus (hc : c.toNat < 128) : byteOf c = 43 ↔ c = '+' :=
  of_ascii (P := fun c => byteOf c = 43 ↔ c = '+') (by decide +kernel) hc

theorem hexValue_isSome (hc : c.toNat < 128) :
    (hexValue (byteOf c)).isSome = isAsciiHexdigit c :=
  of_ascii (P := fun c => (hexValue (byteOf c)).isSome = isAsciiHexdigit c) (by decide +kernel) hc

/-- The value of a digit, and the digit of the value. -/
theorem digit_of_hexValue (hc : c.toNat < 128) {n : Nat} (h : hexValue (byteOf c) = some n) :
    n < 16 ∧ Value.hexDigit n = c.toLower := by
  have hall : (hexValue (byteOf c)).all fun n => n < 16 && Value.hexDigit n == c.toLower :=
    of_ascii (P := fun c =>
      (hexValue (byteOf c)).all (fun n => n < 16 && Value.hexDigit n == c.toLower) = true)
      (by decide +kernel) hc
  simpa [h] using hall

theorem hexByte_ofNat {n m : Nat} (hn : n < 16) (hm : m < 16) :
    hexByte (UInt8.ofNat (n * 16 + m)) = [Value.hexDigit n, Value.hexDigit m] := by
  have hsum : (UInt8.ofNat (n * 16 + m)).toNat = n * 16 + m :=
    UInt8.toNat_ofNat_of_lt' (show n * 16 + m < 256 by omega)
  rw [hexByte, hsum]
  congr 2
  · omega
  · congr 1
    omega

/-! ## A slice -/

/-- What a slice is decoded as: a sign counts as a zero. -/
def plain (w : Char × Char) : List Char :=
  [if w.1 = '+' then '0' else w.1.toLower, w.2.toLower]

/-- The parser takes two digits, and a sign with a digit. -/
theorem fromStrRadix_isSome (hc : c.toNat < 128) (hd : d.toNat < 128) :
    (fromStrRadix (byteOf c) (byteOf d)).isSome = true ↔ Parses (c, d) := by
  rw [fromStrRadix, Parses, ← hexValue_isSome hc, ← hexValue_isSome hd]
  by_cases hplus : c = '+'
  · rw [if_pos ((byteOf_eq_plus hc).mpr hplus), Option.isSome_map]
    simp [hplus]
  · rw [if_neg (mt (byteOf_eq_plus hc).mp hplus)]
    cases hexValue (byteOf c) <;> cases hexValue (byteOf d) <;> simp [hplus]

theorem hexByte_of_fromStrRadix (hc : c.toNat < 128) (hd : d.toNat < 128) {x : UInt8}
    (h : fromStrRadix (byteOf c) (byteOf d) = some x) : hexByte x = plain (c, d) := by
  rw [fromStrRadix] at h
  by_cases hplus : c = '+'
  · rw [if_pos ((byteOf_eq_plus hc).mpr hplus)] at h
    obtain ⟨m, hm, rfl⟩ := Option.map_eq_some_iff.mp h
    obtain ⟨hlt, hdigit⟩ := digit_of_hexValue hd hm
    have hbyte := hexByte_ofNat (n := 0) (by omega) hlt
    rw [Nat.zero_mul, Nat.zero_add, hdigit] at hbyte
    rw [hbyte, plain, if_pos hplus]
    rfl
  · rw [if_neg (mt (byteOf_eq_plus hc).mp hplus)] at h
    obtain ⟨n, hn, h⟩ := Option.bind_eq_some_iff.mp h
    obtain ⟨m, hm, h⟩ := Option.bind_eq_some_iff.mp h
    cases h
    obtain ⟨hnlt, hndigit⟩ := digit_of_hexValue hc hn
    obtain ⟨hmlt, hmdigit⟩ := digit_of_hexValue hd hm
    rw [hexByte_ofNat hnlt hmlt, hndigit, hmdigit, plain, if_neg hplus]

end Digit

/-! ## A text -/

theorem even_rest {c d : Char} {rest : List Char} (heven : (c :: d :: rest).length % 2 = 0) :
    rest.length % 2 = 0 := by
  simpa only [List.length_cons, Nat.add_assoc, Nat.add_mod_right] using heven

/-- Text of an even length is its slices. -/
theorem forall_slices {p : Char → Prop} {cs : List Char} (heven : cs.length % 2 = 0) :
    (∀ c ∈ cs, p c) ↔ ∀ w ∈ slices cs, p w.1 ∧ p w.2 := by
  fun_induction slices cs with
  | case1 => simp
  | case2 c => simp at heven
  | case3 c d rest ih =>
      have hrest := even_rest heven
      rw [List.forall_mem_cons, List.forall_mem_cons, List.forall_mem_cons, ih hrest, and_assoc]

/-- Without a sign a text is decoded as it is. -/
theorem flatMap_plain {cs : List Char} (heven : cs.length % 2 = 0)
    (hsign : ∀ w ∈ slices cs, w.1 ≠ '+') : (slices cs).flatMap plain = cs.map Char.toLower := by
  fun_induction slices cs with
  | case1 => rfl
  | case2 c => simp at heven
  | case3 c d rest ih =>
      have hrest := even_rest heven
      obtain ⟨hc, hsign⟩ := List.forall_mem_cons.mp hsign
      rw [List.flatMap_cons, ih hrest hsign, plain, if_neg hc]
      rfl

/-- The loop over the bytes of an ASCII text goes from slice to slice. -/
theorem unhexFrom_slices {cs : List Char} (hascii : ∀ c ∈ cs, c.toNat < 128) :
    ∃ o, unhexFrom (cs.map byteOf) = .ok o ∧ (o.isSome = true ↔ ∀ w ∈ slices cs, Parses w) ∧
      ∀ bs, o = some bs → bs.flatMap hexByte = (slices cs).flatMap plain := by
  fun_induction slices cs with
  | case1 => exact ⟨some [], rfl, by simp, fun bs hbs => by cases hbs; rfl⟩
  | case2 c => exact ⟨some [], rfl, by simp, fun bs hbs => by cases hbs; rfl⟩
  | case3 c d rest ih =>
      obtain ⟨hc, hascii⟩ := List.forall_mem_cons.mp hascii
      obtain ⟨hd, hascii⟩ := List.forall_mem_cons.mp hascii
      obtain ⟨o, hrest, hsome, hbytes⟩ := ih hascii
      -- a slice of ASCII text ends between two characters
      have hnext : (rest.map byteOf).head?.any continues = false := by
        cases rest with
        | nil => rfl
        | cons e rest => exact continues_ascii (hascii e List.mem_cons_self)
      have hparse := fromStrRadix_isSome hc hd
      rw [List.map_cons, List.map_cons, unhexFrom, continues_ascii hc, hnext, hrest]
      simp only [List.forall_mem_cons, ← hparse, ← hsome]
      cases hx : fromStrRadix (byteOf c) (byteOf d) with
      | none => exact ⟨none, rfl, by simp, fun bs hbs => by cases hbs⟩
      | some x =>
          refine ⟨o.map (x :: ·), rfl, by simp, fun bs hbs => ?_⟩
          obtain ⟨tail, rfl, rfl⟩ := Option.map_eq_some_iff.mp hbs
          rw [List.flatMap_cons, List.flatMap_cons, hexByte_of_fromStrRadix hc hd hx,
            hbytes tail rfl]

section Text

variable (s : AsciiText)

theorem utf8_text : utf8 s.text = s.text.toList.map byteOf := by
  have hflat : s.text.toList.flatMap String.utf8EncodeChar =
      s.text.toList.flatMap fun c => [byteOf c] :=
    List.flatMap_congr fun c hc => utf8_ascii (s.ascii c hc)
  rw [← String.ofList_toList (s := s.text), utf8_ofList, String.toList_ofList, hflat,
    List.map_eq_flatMap]

/-- Every text is decoded or refused: decoded if it has an even length and each slice is
parsed. -/
theorem unhex_returns : ∃ o, unhex s.text = .ok o ∧
    (o.isSome = true ↔ s.text.length % 2 = 0 ∧ ∀ w ∈ slices s.text.toList, Parses w) ∧
      ∀ bs, o = some bs → hex bs = String.ofList ((slices s.text.toList).flatMap plain) := by
  have hlen : (utf8 s.text).length = s.text.length := by
    rw [utf8_text, List.length_map, String.length_toList]
  rw [unhex, hlen]
  by_cases heven : s.text.length % 2 = 0
  · obtain ⟨o, hloop, hsome, hbytes⟩ := unhexFrom_slices s.ascii
    rw [if_pos heven, utf8_text]
    refine ⟨o, hloop, by rw [hsome, and_iff_right heven], fun bs hbs => ?_⟩
    rw [hex, hbytes bs hbs]
  · rw [if_neg heven]
    exact ⟨none, rfl, by simp [heven], fun bs hbs => by cases hbs⟩

/-- **What a text is decoded to**: the bytes whose text it is in lower case, with a zero
for each sign. -/
theorem unhex_eq_some_iff (bs : Bytes) : unhex s.text = .ok (some bs) ↔
    s.text.length % 2 = 0 ∧ (∀ w ∈ slices s.text.toList, Parses w) ∧
      hex bs = String.ofList ((slices s.text.toList).flatMap plain) := by
  obtain ⟨o, ho, hsome, hbytes⟩ := unhex_returns s
  rw [ho, ← and_assoc, ← hsome]
  constructor
  · intro h
    cases h
    exact ⟨rfl, hbytes bs rfl⟩
  · rintro ⟨hisSome, hhex⟩
    obtain ⟨bs', rfl⟩ := Option.isSome_iff_exists.mp hisSome
    rw [hex_inj ((hbytes bs' rfl).trans hhex.symm)]

end Text

/-! ## Where the codec is exact -/

theorem length_toList_even {s : String} (heven : s.length % 2 = 0) : s.toList.length % 2 = 0 := by
  rwa [String.length_toList]

/-- A text of digits alone is parsed slice by slice. -/
theorem IsHex.parses {s : String} (h : IsHex s) : ∀ w ∈ slices s.toList, Parses w := by
  intro w hw
  obtain ⟨hfst, hsnd⟩ := (forall_slices (length_toList_even h.1)).mp h.2 w hw
  exact ⟨.inl hfst, hsnd⟩

/-- What is parsed without a sign is a text of digits. -/
theorem isHex_of_parses {s : String} (heven : s.length % 2 = 0)
    (hparses : ∀ w ∈ slices s.toList, Parses w) (hsign : ∀ w ∈ slices s.toList, w.1 ≠ '+') :
    IsHex s := by
  refine ⟨heven, (forall_slices (length_toList_even heven)).mpr fun w hw => ?_⟩
  obtain ⟨hfst, hsnd⟩ := hparses w hw
  exact ⟨hfst.resolve_right (hsign w hw), hsnd⟩

theorem not_exact_of_signed {s : AsciiText} (h : Signed s) : ¬ Exact s := by
  obtain ⟨heven, hparses, w, hw, hplus⟩ := h
  intro hexact
  obtain ⟨o, ho, hsome, -⟩ := unhex_returns s
  obtain ⟨bs, rfl⟩ := Option.isSome_iff_exists.mp (hsome.mpr ⟨heven, hparses⟩)
  have hhex : IsHex s.text := hexact.some_iff.mp ⟨bs, ho⟩
  -- a sign is no digit
  have hdigit := ((forall_slices (length_toList_even heven)).mp hhex.2 w hw).1
  rw [hplus] at hdigit
  exact absurd hdigit (by decide)

theorem exact_of_not_signed {s : AsciiText} (h : ¬ Signed s) : Exact s := by
  obtain ⟨o, ho, hsome, -⟩ := unhex_returns s
  have hsign : ∀ bs, unhex s.text = .ok (some bs) → ∀ w ∈ slices s.text.toList, w.1 ≠ '+' := by
    intro bs hbs w hw hplus
    obtain ⟨heven, hparses, -⟩ := (unhex_eq_some_iff s bs).mp hbs
    exact h ⟨heven, hparses, w, hw, hplus⟩
  constructor
  case returns => exact ⟨o, ho⟩
  case some_iff =>
    constructor
    · rintro ⟨bs, hbs⟩
      obtain ⟨heven, hparses, -⟩ := (unhex_eq_some_iff s bs).mp hbs
      exact isHex_of_parses heven hparses (hsign bs hbs)
    · intro hhex
      obtain ⟨bs, rfl⟩ := Option.isSome_iff_exists.mp (hsome.mpr ⟨hhex.1, hhex.parses⟩)
      exact ⟨bs, ho⟩
  case hex_eq =>
    intro bs hbs
    obtain ⟨heven, -, hhex⟩ := (unhex_eq_some_iff s bs).mp hbs
    rw [hhex, flatMap_plain (length_toList_even heven) (hsign bs hbs), lower]

/-- **Exactness.**  The codec is exact on a text unless every slice is parsed and one of
them has a sign; and every byte string is read back from its text. -/
theorem codec_exact_iff (s : AsciiText) (bs : Bytes) :
    (Exact s ↔ ¬ Signed s) ∧ unhex (hex bs) = .ok (some bs) := by
  refine ⟨⟨fun hexact hsigned => ?_, exact_of_not_signed⟩, unhex_hex bs⟩
  exact not_exact_of_signed hsigned hexact

/-- A plus sign and a five. -/
def plusFive : AsciiText := ⟨"+5", by simp⟩

/-- They are decoded to the byte 5, and are no hexadecimal text. -/
theorem not_codec_exact :
    unhex plusFive.text = .ok (some [5]) ∧ ¬ IsHex plusFive.text ∧
      ¬ ((∀ s : AsciiText, Exact s) ∧ ∀ bs, unhex (hex bs) = .ok (some bs)) := by
  have hread : unhex plusFive.text = .ok (some [5]) := by
    decide +kernel
  have hno : ¬ IsHex plusFive.text := fun h => absurd (h.2 '+' (by decide)) (by decide)
  exact ⟨hread, hno, fun h => hno ((h.1 plusFive).some_iff.mp ⟨_, hread⟩)⟩

end Dokan.Ports.HexCodec
