import Dokan.Verified.JsonText
import Dokan.Ports.CacheKey

/-!
# What the run cache key determines

The byte `0x1f` stands between the fields of the message.  It does not occur in
a runtime, a digest or a canonical input, and the generation has eight bytes, so
the fields are found again if the source has none either.

## Main results

* `canonicalJson_inj` — inputs of one canonical text print alike.
* `keyMessage_inj` — messages determine their fields.
-/

namespace Dokan.Ports.CacheKey

open Dokan.Verified.Json
open Dokan.Verified.JsonText
open Dokan.Verified.Framing
open Dokan.Ports.Receipt

section Keys

variable {plain : Char → Bool}

/-! ## Inputs -/

/-- What stands behind the backslash of an escape of `Debug`. -/
def readDebugEscape : List Char → Option (Char × List Char)
  | '0' :: r => some (Char.ofNat 0, r)
  | 't' :: r => some ('\t', r)
  | 'r' :: r => some ('\r', r)
  | 'n' :: r => some ('\n', r)
  | '"' :: r => some ('"', r)
  | '\\' :: r => some ('\\', r)
  | 'u' :: '\x7b' :: r =>
      some (Char.ofNat (hexOf (r.takeWhile (· ≠ '\x7d'))), (r.dropWhile (· ≠ '\x7d')).tail)
  | _ => none

/-- The escapes of `Debug` are read back. -/
theorem debug_code (plain : Char → Bool) : PrefixCode (debugChar plain) '"' := by
  refine .of_read (readQuoted readDebugEscape) (fun c r => ?_) fun r => rfl
  unfold debugChar
  iterate 6
    split
    · rename_i h
      subst h
      rfl
  split
  · exact readQuoted_plain ‹_› ‹_› r
  · have hbrace : ∀ d ∈ Nat.toDigits 16 c.toNat, decide (d ≠ '\x7d') = true := fun d hd => by
      simpa using brace_not_mem_toDigits hd
    have hread : readQuoted readDebugEscape
        ('\\' :: 'u' :: '\x7b' :: (Nat.toDigits 16 c.toNat ++ ['\x7d']) ++ r) =
          some (Char.ofNat (hexOf ((Nat.toDigits 16 c.toNat ++ ['\x7d'] ++ r).takeWhile
            (· ≠ '\x7d'))), ((Nat.toDigits 16 c.toNat ++ ['\x7d'] ++ r).dropWhile
              (· ≠ '\x7d')).tail) := rfl
    rw [hread, List.append_assoc, List.takeWhile_append_of_pos hbrace,
      List.dropWhile_append_of_pos hbrace]
    simp [hexOf_toDigits]

theorem debugString_toList (k : String) :
    (debugString plain k).toList = '"' :: (k.toList.flatMap (debugChar plain) ++ ['"']) :=
  String.toList_ofList

/-- Keys are found again. -/
theorem debugString_code (plain : Char → Bool) :
    PrefixCode (fun k => (debugString plain k).toList) '\x7d' where
  inj := by
    intro k k' r r' h
    simp only [debugString_toList, List.cons_append, List.append_assoc, List.nil_append] at h
    obtain ⟨hchars, hr⟩ := (debug_code plain).flatMap_inj (List.cons_eq_cons.mp h).2
    exact ⟨String.toList_inj.mp hchars, hr⟩
  goes := by
    intro k r r' h
    rw [debugString_toList] at h
    cases (List.cons_eq_cons.mp h).1

/-- The texts behind the first stand each behind its comma. -/
theorem toList_intercalate (text : String) (texts : List String) :
    (",".intercalate (text :: texts)).toList =
      text.toList ++ texts.flatMap fun t => ',' :: t.toList := by
  induction texts generalizing text with
  | nil => simp
  | cons t texts ih =>
      rw [String.intercalate_cons_cons, String.toList_append, ih, List.flatMap_cons]
      simp

theorem flatMap_canonicalElems {key : String → List Char} {vs : List Value}
    (h : ∀ v ∈ vs, (canonicalJson plain v).toList = chars key v) :
    ((canonicalElems plain vs).flatMap fun t => ',' :: t.toList) ++ [']'] =
      elemsRest key vs := by
  induction vs with
  | nil => rfl
  | cons v vs ih =>
      rw [canonicalElems, List.flatMap_cons, List.append_assoc,
        ih fun x hx => h x (by simp [hx]), h v (by simp), elemsRest]
      rfl

theorem flatMap_canonicalMembers {ms : List (String × Value)}
    (h : ∀ p ∈ ms, (canonicalJson plain p.2).toList =
      chars (fun k => (debugString plain k).toList) p.2) :
    ((canonicalMembers plain ms).flatMap fun t => ',' :: t.toList) ++ ['\x7d'] =
      membersRest (fun k => (debugString plain k).toList) ms := by
  induction ms with
  | nil => rfl
  | cons p ms ih =>
      obtain ⟨k, v⟩ := p
      rw [canonicalMembers, List.flatMap_cons, List.append_assoc,
        ih fun x hx => h x (by simp [hx]), String.toList_append, String.toList_append,
        h (k, v) (by simp), membersRest]
      simp

/-- The canonical text is a text with `Debug` keys. -/
theorem toList_canonicalJson (plain : Char → Bool) (v : Value) :
    (canonicalJson plain v).toList = chars (fun k => (debugString plain k).toList) v := by
  induction v using value_ind with
  | null => simp [canonicalJson, Value.print, chars]
  | bool b => cases b <;> simp [canonicalJson, Value.print, chars]
  | num n => rfl
  | str s => rfl
  | arr a ih =>
      cases a with
      | nil => simp [canonicalJson, canonicalElems, chars, elemsChars]
      | cons v vs =>
          rw [canonicalJson, canonicalElems, String.toList_append, String.toList_append,
            toList_intercalate, ih v (by simp), chars, elemsChars,
            ← flatMap_canonicalElems fun x hx => ih x (by simp [hx])]
          simp
  | obj m ih =>
      cases m with
      | nil => simp [canonicalJson, canonicalMembers, chars, membersChars]
      | cons p ms =>
          obtain ⟨k, v⟩ := p
          rw [canonicalJson, canonicalMembers, String.toList_append, String.toList_append,
            toList_intercalate, String.toList_append, String.toList_append,
            ih (k, v) (by simp), chars, membersChars,
            ← flatMap_canonicalMembers fun x hx => ih x (by simp [hx])]
          simp

/-- **Inputs of one canonical text print alike.** -/
theorem canonicalJson_inj {v w : Value} (hv : Proper v) (hw : Proper w)
    (h : canonicalJson plain v = canonicalJson plain w) : v.print = w.print := by
  have hchars := congrArg String.toList h
  rw [toList_canonicalJson, toList_canonicalJson] at hchars
  have hend : Stops [] := fun c hc => by cases hc
  exact (chars_inj (debugString_code plain) v w [] [] hv hw hend hend
    (by rw [List.append_nil, List.append_nil, hchars])).1

theorem printable_debugString (hplain : ∀ c, plain c = true → 32 ≤ c.toNat) (k : String) :
    Printable (debugString plain k).toList := by
  have hdigit : ∀ i : Fin 16, 32 ≤ (Nat.digitChar i).toNat := by decide
  have hescape : ∀ c, Printable (debugChar plain c) := by
    intro c
    unfold debugChar
    iterate 6
      split
      · decide
    split
    · refine printable_cons (hplain c ‹_›) ?_
      rintro d hd
      cases hd
    · refine printable_cons (by decide) (printable_cons (by decide) (printable_cons (by decide)
        (printable_append ?_ (by decide))))
      intro d hd
      obtain ⟨i, hi, rfl⟩ := exists_digit_of_mem_toDigits hd
      exact hdigit ⟨i, hi⟩
  rw [debugString_toList]
  refine printable_cons (by decide) (printable_append ?_ (by decide))
  intro d hd
  obtain ⟨c, _, hd⟩ := List.mem_flatMap.mp hd
  exact hescape c d hd

/-! ## Bytes -/

/-- A byte below 32 in a text is a control character of it. -/
theorem toNat_eq_of_mem_utf8 {s : String} {b : UInt8} (hb : b.toNat < 32) (h : b ∈ utf8 s) :
    ∃ c ∈ s.toList, c.toNat = b.toNat := by
  rw [← String.ofList_toList (s := s), utf8_ofList] at h
  obtain ⟨c, hc, hmem⟩ := List.mem_flatMap.mp h
  refine ⟨c, hc, ?_⟩
  -- the bytes of a character of more than one byte are above 127
  have hhigh : ∀ n : Nat, 128 ≤ n → n < 256 → b = UInt8.ofNat n → False := by
    rintro n hn hlt rfl
    rw [UInt8.toNat_ofNat'] at hb
    omega
  unfold String.utf8EncodeChar at hmem
  simp only at hmem
  split at hmem
  · obtain rfl := List.mem_singleton.mp hmem
    rw [UInt8.toNat_ofNat']
    exact (Nat.mod_eq_of_lt (show c.val.toNat < 256 by omega)).symm
  · split at hmem
    · simp only [List.mem_cons, List.not_mem_nil, or_false] at hmem
      rcases hmem with h | h <;> exact (hhigh _ (by omega) (by omega) h).elim
    · split at hmem
      · simp only [List.mem_cons, List.not_mem_nil, or_false] at hmem
        rcases hmem with h | h | h <;> exact (hhigh _ (by omega) (by omega) h).elim
      · simp only [List.mem_cons, List.not_mem_nil, or_false] at hmem
        rcases hmem with h | h | h | h <;> exact (hhigh _ (by omega) (by omega) h).elim

/-- Bytes in order of weight determine the number up to the last. -/
theorem mod_eq_of_bytes {m n : Nat} (k : Nat)
    (h : ∀ i < k, m / 256 ^ i % 256 = n / 256 ^ i % 256) : m % 256 ^ k = n % 256 ^ k := by
  induction k with
  | zero => simp [Nat.mod_one]
  | succ k ih =>
      rw [Nat.mod_pow_succ, Nat.mod_pow_succ, h k (Nat.lt_succ_self k),
        ih fun i hi => h i (Nat.lt_succ_of_lt hi)]

theorem leBytes_inj {i j : Int} (hi : -2 ^ 63 ≤ i ∧ i < 2 ^ 63) (hj : -2 ^ 63 ≤ j ∧ j < 2 ^ 63)
    (h : leBytes i = leBytes j) : i = j := by
  have hbytes : ∀ k < 8, (i % 2 ^ 64).toNat / 256 ^ k % 256 =
      (j % 2 ^ 64).toNat / 256 ^ k % 256 := by
    intro k hk
    have hbyte := List.map_inj_left.mp h k (List.mem_range.mpr hk)
    have hnat := congrArg UInt8.toNat hbyte
    rwa [UInt8.toNat_ofNat', UInt8.toNat_ofNat'] at hnat
  have hmod := mod_eq_of_bytes 8 hbytes
  omega

theorem length_leBytes (i : Int) : (leBytes i).length = 8 := by
  simp [leBytes]

/-- A canonical text is free of the separator. -/
theorem sep_not_mem_canonicalJson (hplain : ∀ c, plain c = true → 32 ≤ c.toNat) {v : Value}
    (hv : Proper v) : (31 : UInt8) ∉ utf8 (canonicalJson plain v) := by
  intro h
  obtain ⟨c, hc, hnat⟩ := toNat_eq_of_mem_utf8 (by decide) h
  rw [toList_canonicalJson] at hc
  have hle := printable_chars (printable_debugString hplain) hv c hc
  rw [hnat] at hle
  exact absurd hle (by decide)

/-! ## Messages -/

/-- **Messages determine their fields**, if the source is one or free of the
separator. -/
theorem keyMessage_inj {runtime runtime' digest digest' source source' : String}
    {input input' : Value} {gen gen' : Int} {blobs blobs' : Option Value}
    (hplain : ∀ c, plain c = true → 32 ≤ c.toNat)
    (hruntime : (31 : UInt8) ∉ utf8 runtime) (hruntime' : (31 : UInt8) ∉ utf8 runtime')
    (hdigest : (31 : UInt8) ∉ utf8 digest) (hdigest' : (31 : UInt8) ∉ utf8 digest')
    (hsource : source = source' ∨ (31 : UInt8) ∉ utf8 source ∧ (31 : UInt8) ∉ utf8 source')
    (hinput : Proper input) (hinput' : Proper input')
    (hgen : -2 ^ 63 ≤ gen ∧ gen < 2 ^ 63) (hgen' : -2 ^ 63 ≤ gen' ∧ gen' < 2 ^ 63)
    (h : keyMessage plain runtime digest source input gen blobs =
      keyMessage plain runtime' digest' source' input' gen' blobs') :
    runtime = runtime' ∧ digest = digest' ∧ source = source' ∧ input.print = input'.print ∧
      gen = gen' ∧ canonicalInputBlobs blobs = canonicalInputBlobs blobs' := by
  -- a field is cut off at the first separator
  have hcut : ∀ {a b r r' : Bytes}, (31 : UInt8) ∉ a → (31 : UInt8) ∉ b →
      a ++ 31 :: r = b ++ 31 :: r' → a = b ∧ r = r' := by
    intro a b r r' ha hb heq
    obtain ⟨hab, _, hr⟩ := append_cons_inj (p := fun x : UInt8 => x ≠ 31)
      (fun x hx hx31 => ha (hx31 ▸ hx)) (fun x hx hx31 => hb (hx31 ▸ hx)) (fun hne => hne rfl)
      (fun hne => hne rfl) heq
    exact ⟨hab, hr⟩
  unfold keyMessage at h
  obtain ⟨hruntimes, h⟩ := hcut hruntime hruntime' h
  obtain ⟨hdigests, h⟩ := hcut hdigest hdigest' h
  have hsources : source = source' ∧
      utf8 (canonicalJson plain input) ++ 31 :: (leBytes gen ++ 31 ::
        utf8 (canonicalInputBlobs blobs)) =
      utf8 (canonicalJson plain input') ++ 31 :: (leBytes gen' ++ 31 ::
        utf8 (canonicalInputBlobs blobs')) := by
    rcases hsource with rfl | ⟨hfree, hfree'⟩
    · exact ⟨rfl, (List.cons_eq_cons.mp (List.append_cancel_left h)).2⟩
    · obtain ⟨hsources, h⟩ := hcut hfree hfree' h
      exact ⟨utf8_inj hsources, h⟩
  obtain ⟨hinputs, h⟩ := hcut (sep_not_mem_canonicalJson hplain hinput)
    (sep_not_mem_canonicalJson hplain hinput') hsources.2
  obtain ⟨hgens, h⟩ := List.append_inj h (by rw [length_leBytes, length_leBytes])
  exact ⟨utf8_inj hruntimes, utf8_inj hdigests, hsources.1,
    canonicalJson_inj hinput hinput' (utf8_inj hinputs), leBytes_inj hgen hgen' hgens,
    utf8_inj (List.cons_eq_cons.mp h).2⟩

end Keys

theorem sha256Hex_inj {C : Crypto} {m m' : Bytes} (hfree : C.sha256 m = C.sha256 m' → m = m')
    (h : sha256Hex C m = sha256Hex C m') : m = m' := hfree (hex_inj h)

end Dokan.Ports.CacheKey
