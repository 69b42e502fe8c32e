import Dokan.Verified.Framing
import Dokan.Verified.Json

/-!
# Compact texts of JSON values are found again

A value is written without spaces, an object's keys by some code of their own.
If keys are found again in front of what follows them, so are values: two texts
that agree are texts of values that print alike.

## Main results

* `PrefixCode.of_read`, `PrefixCode.flatMap_inj` — a code with a reader, and
  words over it.
* `escape_code` — the escapes of a JSON string.
* `chars_reads`, `chars_inj` — a value and its text are found again.
* `printable_chars` — it has no control characters.
-/

namespace Dokan.Verified.JsonText

open Dokan.Verified.Json
open Dokan.Verified.Framing

universe u v

/-! ## Codes -/

section Codes

variable {α : Type u} {β : Type v}

/-- The texts of `code` are found again in front of anything, and none starts with
`stop`. -/
structure PrefixCode (code : α → List β) (stop : β) : Prop where
  inj : ∀ a a' r r', code a ++ r = code a' ++ r' → a = a' ∧ r = r'
  goes : ∀ a r r', code a ++ r ≠ stop :: r'

theorem PrefixCode.of_read {code : α → List β} {stop : β}
    (read : List β → Option (α × List β)) (hread : ∀ a r, read (code a ++ r) = some (a, r))
    (hstop : ∀ r, read (stop :: r) = none) : PrefixCode code stop where
  inj := by
    intro a a' r r' h
    have hsame : some (a, r) = some (a', r') := by rw [← hread a r, h, hread]
    exact Prod.mk.inj (Option.some.inj hsame)
  goes := by
    intro a r r' h
    have hread' := hread a r
    rw [h, hstop] at hread'
    cases hread'

/-- Words are found again before the stop. -/
theorem PrefixCode.flatMap_inj {code : α → List β} {stop : β} (h : PrefixCode code stop)
    {l l' : List α} {r r' : List β}
    (heq : l.flatMap code ++ stop :: r = l'.flatMap code ++ stop :: r') : l = l' ∧ r = r' := by
  induction l generalizing l' with
  | nil =>
      cases l' with
      | nil => exact ⟨rfl, (List.cons_eq_cons.mp heq).2⟩
      | cons a l' =>
          rw [List.flatMap_cons, List.append_assoc] at heq
          exact absurd heq.symm (h.goes a _ _)
  | cons a l ih =>
      rw [List.flatMap_cons, List.append_assoc] at heq
      cases l' with
      | nil => exact absurd heq (h.goes a _ _)
      | cons a' l' =>
          rw [List.flatMap_cons, List.append_assoc] at heq
          obtain ⟨rfl, hrest⟩ := h.inj _ _ _ _ heq
          obtain ⟨rfl, hr⟩ := ih hrest
          exact ⟨rfl, hr⟩

end Codes

/-! ## Hexadecimal digits -/

/-- The value of a lower-case hexadecimal digit. -/
def hexVal (c : Char) : Nat := if c.toNat < 58 then c.toNat - 48 else c.toNat - 87

theorem hexVal_digitChar {n : Nat} (hn : n < 16) : hexVal (Nat.digitChar n) = n := by
  have h : ∀ i : Fin 16, hexVal (Nat.digitChar i) = i.1 := by decide
  exact h ⟨n, hn⟩

/-- The number a hexadecimal text stands for. -/
def hexOf (l : List Char) : Nat := l.foldl (fun n c => n * 16 + hexVal c) 0

theorem hexOf_toDigits (n : Nat) : hexOf (Nat.toDigits 16 n) = n := by
  induction n using Nat.strongRecOn with
  | ind n ih =>
      rw [Nat.toDigits_eq_if (by decide)]
      split
      · rename_i hn
        simpa [hexOf] using hexVal_digitChar hn
      · rename_i hn
        have hdiv := ih (n / 16) (by omega)
        rw [hexOf] at hdiv ⊢
        rw [List.foldl_append, hdiv]
        simp only [List.foldl_cons, List.foldl_nil]
        rw [hexVal_digitChar (Nat.mod_lt _ (by decide))]
        omega

theorem exists_digit_of_mem_toDigits {n : Nat} {c : Char} (hc : c ∈ Nat.toDigits 16 n) :
    ∃ i < 16, c = Nat.digitChar i := by
  induction n using Nat.strongRecOn with
  | ind n ih =>
      rw [Nat.toDigits_eq_if (by decide)] at hc
      split at hc
      · exact ⟨n, ‹_›, List.mem_singleton.mp hc⟩
      · rcases List.mem_append.mp hc with hc | hc
        · exact ih (n / 16) (by omega) hc
        · exact ⟨n % 16, Nat.mod_lt _ (by decide), List.mem_singleton.mp hc⟩

theorem brace_not_mem_toDigits {n : Nat} {c : Char} (hc : c ∈ Nat.toDigits 16 n) :
    c ≠ '\x7d' := by
  have hdigit : ∀ i : Fin 16, Nat.digitChar i ≠ '\x7d' := by decide
  obtain ⟨i, hi, rfl⟩ := exists_digit_of_mem_toDigits hc
  exact hdigit ⟨i, hi⟩

/-! ## Escapes -/

/-- What stands behind the backslash of a JSON escape. -/
def readJsonEscape : List Char → Option (Char × List Char)
  | '"' :: r => some ('"', r)
  | '\\' :: r => some ('\\', r)
  | 'b' :: r => some (Char.ofNat 8, r)
  | 'f' :: r => some (Char.ofNat 12, r)
  | 'n' :: r => some ('\n', r)
  | 'r' :: r => some ('\r', r)
  | 't' :: r => some ('\t', r)
  | 'u' :: '0' :: '0' :: a :: b :: r => some (Char.ofNat (hexVal a * 16 + hexVal b), r)
  | _ => none

/-- A character of a quoted text, and what follows it. -/
def readQuoted (escape : List Char → Option (Char × List Char)) :
    List Char → Option (Char × List Char)
  | [] => none
  | c :: r =>
      if c = '"' then none
      else if c = '\\' then escape r
      else some (c, r)

theorem readQuoted_plain {escape : List Char → Option (Char × List Char)} {c : Char}
    (hquote : c ≠ '"') (hslash : c ≠ '\\') (r : List Char) :
    readQuoted escape (c :: r) = some (c, r) := by
  rw [readQuoted, if_neg hquote, if_neg hslash]

/-- JSON strings are read back. -/
theorem escape_code : PrefixCode Value.escapeChar '"' := by
  refine .of_read (readQuoted readJsonEscape) (fun c r => ?_) fun r => rfl
  unfold Value.escapeChar
  iterate 7
    split
    · rename_i h
      subst h
      rfl
  split
  · rename_i hlow
    have hread : readQuoted readJsonEscape
        (['\\', 'u', '0', '0', Value.hexDigit (c.toNat / 16), Value.hexDigit (c.toNat % 16)] ++
          r) = some (Char.ofNat (hexVal (Value.hexDigit (c.toNat / 16)) * 16 +
            hexVal (Value.hexDigit (c.toNat % 16))), r) := rfl
    rw [hread, Value.hexDigit, Value.hexDigit, hexVal_digitChar (by omega),
      hexVal_digitChar (by omega), Nat.div_add_mod', Char.ofNat_toNat]
  · exact readQuoted_plain ‹_› ‹_› r

/-! ## Values -/

/-- The characters of a number. -/
def numberChar (c : Char) : Bool :=
  c.isDigit || c = '-' || c = '+' || c = '.' || c = 'e' || c = 'E'

/-- Induction on a value, with a hypothesis for each element and member. -/
theorem value_ind {motive : Value → Prop} (null : motive .null)
    (bool : ∀ b, motive (.bool b)) (num : ∀ n, motive (.num n)) (str : ∀ s, motive (.str s))
    (arr : ∀ a, (∀ v ∈ a, motive v) → motive (.arr a))
    (obj : ∀ m, (∀ p ∈ m, motive p.2) → motive (.obj m)) : ∀ v, motive v
  | .null => null
  | .bool b => bool b
  | .num n => num n
  | .str s => str s
  | .arr a => arr a fun v _ => value_ind null bool num str arr obj v
  | .obj m => obj m fun p _ => value_ind null bool num str arr obj p.2
termination_by v => sizeOf v
decreasing_by
  · have hlt := List.sizeOf_lt_of_mem ‹_›
    simp only [Value.arr.sizeOf_spec]
    omega
  · have hlt := List.sizeOf_lt_of_mem ‹_›
    have hsnd : sizeOf p.2 < sizeOf p := by
      obtain ⟨k, v⟩ := p
      simp only [Prod.mk.sizeOf_spec]
      omega
    simp only [Value.obj.sizeOf_spec]
    omega

mutual
/-- Floats are written in the characters of a number. -/
def Proper : Value → Prop
  | .num (.float text _) => text.toList ≠ [] ∧ ∀ c ∈ text.toList, numberChar c = true
  | .arr a => ProperElems a
  | .obj m => ProperMembers m
  | _ => True

def ProperElems : List Value → Prop
  | [] => True
  | v :: vs => Proper v ∧ ProperElems vs

def ProperMembers : List (String × Value) → Prop
  | [] => True
  | (_, v) :: ms => Proper v ∧ ProperMembers ms
end

mutual
/-- The text of a value whose keys are written by `key`. -/
def chars (key : String → List Char) : Value → List Char
  | .null => ['n', 'u', 'l', 'l']
  | .bool true => ['t', 'r', 'u', 'e']
  | .bool false => ['f', 'a', 'l', 's', 'e']
  | .num n => (Value.printNumber n).toList
  | .str s => (Value.quote s).toList
  | .arr a => '[' :: elemsChars key a
  | .obj m => '{' :: membersChars key m

/-- The elements, and the bracket behind them. -/
def elemsChars (key : String → List Char) : List Value → List Char
  | [] => [']']
  | v :: vs => chars key v ++ elemsRest key vs

/-- Further elements, each behind its comma. -/
def elemsRest (key : String → List Char) : List Value → List Char
  | [] => [']']
  | v :: vs => ',' :: (chars key v ++ elemsRest key vs)

def membersChars (key : String → List Char) : List (String × Value) → List Char
  | [] => ['}']
  | (k, v) :: ms => key k ++ ':' :: (chars key v ++ membersRest key ms)

def membersRest (key : String → List Char) : List (String × Value) → List Char
  | [] => ['}']
  | (k, v) :: ms => ',' :: (key k ++ ':' :: (chars key v ++ membersRest key ms))
end

mutual
/-- The value with its numbers kept by their texts only. -/
def texts : Value → Value
  | .num n => .num (.float (Value.printNumber n) false)
  | .arr a => .arr (textsElems a)
  | .obj m => .obj (textsMembers m)
  | v => v

def textsElems : List Value → List Value
  | [] => []
  | v :: vs => texts v :: textsElems vs

def textsMembers : List (String × Value) → List (String × Value)
  | [] => []
  | (k, v) :: ms => (k, texts v) :: textsMembers ms
end

theorem textsElems_eq_map (vs : List Value) : textsElems vs = vs.map texts := by
  induction vs with
  | nil => rfl
  | cons v vs ih => rw [textsElems, ih, List.map_cons]

theorem textsMembers_eq_map (ms : List (String × Value)) :
    textsMembers ms = ms.map fun p => (p.1, texts p.2) := by
  induction ms with
  | nil => rfl
  | cons p ms ih => rw [textsMembers, ih, List.map_cons]

theorem print_texts (v : Value) : (texts v).print = v.print := by
  induction v using value_ind with
  | arr a ih =>
      have helems : Value.printElems (textsElems a) = Value.printElems a := by
        induction a with
        | nil => rfl
        | cons v vs ihs =>
            rw [textsElems, Value.printElems, Value.printElems, ih v (by simp),
              ihs fun x hx => ih x (by simp [hx])]
      rw [texts, Value.print, Value.print, helems]
  | obj m ih =>
      have hmembers : Value.printMembers (textsMembers m) = Value.printMembers m := by
        induction m with
        | nil => rfl
        | cons p ms ihs =>
            rw [textsMembers, Value.printMembers, Value.printMembers, ih p (by simp),
              ihs fun x hx => ih x (by simp [hx])]
      rw [texts, Value.print, Value.print, hmembers]
  | _ => rfl

/-- A text does not tell how numbers are kept. -/
theorem chars_texts (key : String → List Char) (v : Value) :
    chars key (texts v) = chars key v := by
  induction v using value_ind with
  | arr a ih =>
      have hrest : ∀ vs : List Value, (∀ v ∈ vs, chars key (texts v) = chars key v) →
          elemsRest key (textsElems vs) = elemsRest key vs := by
        intro vs hvs
        induction vs with
        | nil => rfl
        | cons v vs ihs =>
            rw [textsElems, elemsRest, elemsRest, hvs v (by simp),
              ihs fun x hx => hvs x (by simp [hx])]
      rw [texts, chars, chars]
      cases a with
      | nil => rfl
      | cons v vs =>
          rw [textsElems, elemsChars, elemsChars, ih v (by simp),
            hrest vs fun x hx => ih x (by simp [hx])]
  | obj m ih =>
      have hrest : ∀ ms : List (String × Value),
          (∀ p ∈ ms, chars key (texts p.2) = chars key p.2) →
            membersRest key (textsMembers ms) = membersRest key ms := by
        intro ms hms
        induction ms with
        | nil => rfl
        | cons p ms ihs =>
            rw [textsMembers, membersRest, membersRest, hms p (by simp),
              ihs fun x hx => hms x (by simp [hx])]
      rw [texts, chars, chars]
      cases m with
      | nil => rfl
      | cons p ms =>
          rw [textsMembers, membersChars, membersChars, ih p (by simp),
            hrest ms fun x hx => ih x (by simp [hx])]
  | _ => rfl

/-- What tells the kinds of values apart. -/
def tag : Value → Nat
  | .null => 0
  | .bool true => 1
  | .bool false => 2
  | .num _ => 3
  | .str _ => 4
  | .arr _ => 5
  | .obj _ => 6

/-- The kind of the values whose text starts with a character. -/
def tagOf (c : Char) : Nat :=
  if numberChar c then 3
  else if c = 'n' then 0
  else if c = 't' then 1
  else if c = 'f' then 2
  else if c = '"' then 4
  else if c = '[' then 5
  else if c = '{' then 6
  else 7

theorem numberChar_of_mem_printNumber {n : Number} (h : Proper (.num n)) :
    (Value.printNumber n).toList ≠ [] ∧
      ∀ c ∈ (Value.printNumber n).toList, numberChar c = true := by
  have hdigits : ∀ m : Nat, ∀ c ∈ Nat.toDigits 10 m, numberChar c = true := by
    intro m c hc
    simp [numberChar, Nat.isDigit_of_mem_toDigits (by decide) (by decide) hc]
  cases n with
  | int i =>
      cases i with
      | ofNat m =>
          have htext : (Value.printNumber (.int (.ofNat m))).toList = Nat.toDigits 10 m :=
            Nat.toList_repr
          rw [htext]
          exact ⟨Nat.toDigits_ne_nil, hdigits m⟩
      | negSucc m =>
          have htext : (Value.printNumber (.int (.negSucc m))).toList =
              '-' :: Nat.toDigits 10 (m + 1) := by
            show ("-" ++ Nat.repr (m + 1)).toList = _
            rw [String.toList_append, Nat.toList_repr]
            rfl
          rw [htext]
          refine ⟨List.cons_ne_nil _ _, fun c hc => ?_⟩
          rcases List.mem_cons.mp hc with rfl | hc
          · rfl
          · exact hdigits (m + 1) c hc
  | float text zero => exact h

/-- The first character tells the kind. -/
theorem chars_head (key : String → List Char) {v : Value} (h : Proper v) :
    ∃ c cs, chars key v = c :: cs ∧ tagOf c = tag v := by
  cases v with
  | null => exact ⟨_, _, rfl, rfl⟩
  | bool b => cases b <;> exact ⟨_, _, rfl, rfl⟩
  | num n =>
      obtain ⟨hne, hall⟩ := numberChar_of_mem_printNumber h
      obtain ⟨c, cs, hcs⟩ := List.exists_cons_of_ne_nil hne
      refine ⟨c, cs, hcs, ?_⟩
      rw [tagOf, if_pos (hall c (by simp [hcs])), tag]
  | str s => exact ⟨'"', s.toList.flatMap Value.escapeChar ++ ['"'], by
      simp [chars, Value.quote], rfl⟩
  | arr a => exact ⟨_, _, rfl, rfl⟩
  | obj m => exact ⟨_, _, rfl, rfl⟩

/-- What follows a value does not go on with a number. -/
def Stops (s : List Char) : Prop := ∀ c ∈ s.head?, numberChar c = false

theorem stops_elemsRest (key : String → List Char) (vs : List Value) (s : List Char) :
    Stops (elemsRest key vs ++ s) := by
  cases vs <;> rintro c hc <;> cases hc <;> rfl

theorem stops_membersRest (key : String → List Char) (ms : List (String × Value))
    (s : List Char) : Stops (membersRest key ms ++ s) := by
  rcases ms with _ | ⟨⟨k, v⟩, ms⟩ <;> rintro c hc <;> cases hc <;> rfl

/-- A number ends where its characters end. -/
theorem number_inj {l l' s t : List Char} (hl : ∀ c ∈ l, numberChar c = true)
    (hl' : ∀ c ∈ l', numberChar c = true) (hs : Stops s) (ht : Stops t)
    (h : l ++ s = l' ++ t) : l = l' ∧ s = t := by
  induction l generalizing l' with
  | nil =>
      cases l' with
      | nil => exact ⟨rfl, h⟩
      | cons c l' =>
          have hnot := hs c (by rw [List.nil_append] at h; rw [h]; rfl)
          rw [hl' c (by simp)] at hnot
          cases hnot
  | cons c l ih =>
      cases l' with
      | nil =>
          have hnot := ht c (by rw [List.nil_append] at h; rw [← h]; rfl)
          rw [hl c (by simp)] at hnot
          cases hnot
      | cons c' l' =>
          obtain ⟨rfl, hrest⟩ := List.cons_eq_cons.mp h
          obtain ⟨rfl, hst⟩ := ih (fun x hx => hl x (by simp [hx]))
            (fun x hx => hl' x (by simp [hx])) hrest
          exact ⟨rfl, hst⟩

theorem quote_inj {a b : String} {s t : List Char}
    (h : (Value.quote a).toList ++ s = (Value.quote b).toList ++ t) : a = b ∧ s = t := by
  simp only [Value.quote, String.toList_ofList, List.cons_append, List.append_assoc,
    List.nil_append] at h
  obtain ⟨hchars, hst⟩ := escape_code.flatMap_inj (List.cons_eq_cons.mp h).2
  exact ⟨String.toList_inj.mp hchars, hst⟩

section Values

variable {key : String → List Char}

/-- A text does not start as an array or an object ends. -/
theorem chars_ne (hclose : tagOf c = 7) {v : Value} (hv : Proper v) (s t : List Char) :
    chars key v ++ s ≠ c :: t := by
  intro h
  obtain ⟨d, ds, hds, htag⟩ := chars_head key hv
  rw [hds] at h
  obtain ⟨rfl, _⟩ := List.cons_eq_cons.mp h
  rw [hclose] at htag
  cases v with
  | bool b => cases b <;> cases htag
  | _ => cases htag

/-- The text of `v` is found again. -/
def Found (key : String → List Char) (v : Value) : Prop :=
  ∀ w s t, Proper v → Proper w → Stops s → Stops t →
    chars key v ++ s = chars key w ++ t → v.print = w.print ∧ s = t

/-- `v` is found again in its text, up to how its numbers are kept. -/
def Reads (key : String → List Char) (v : Value) : Prop :=
  ∀ w s t, Proper v → Proper w → Stops s → Stops t →
    chars key v ++ s = chars key w ++ t → texts v = texts w ∧ s = t

theorem tag_eq {v w : Value} {s t : List Char} (hv : Proper v) (hw : Proper w)
    (h : chars key v ++ s = chars key w ++ t) : tag v = tag w := by
  obtain ⟨c, cs, hcs, hc⟩ := chars_head key hv
  obtain ⟨d, ds, hds, hd⟩ := chars_head key hw
  rw [hcs, hds] at h
  rw [← hc, ← hd, (List.cons_eq_cons.mp h).1]

theorem reads_null : Reads key .null := by
  intro w s t hv hw _ _ h
  have htag := tag_eq hv hw h
  cases w with
  | null => exact ⟨rfl, List.append_cancel_left h⟩
  | bool b => cases b <;> cases htag
  | _ => cases htag

theorem reads_bool (b : Bool) : Reads key (.bool b) := by
  intro w s t hv hw _ _ h
  have htag := tag_eq hv hw h
  cases w with
  | bool c => cases b <;> cases c <;> first | exact ⟨rfl, List.append_cancel_left h⟩ | cases htag
  | _ => cases b <;> cases htag

theorem reads_num (n : Number) : Reads key (.num n) := by
  intro w s t hv hw hs ht h
  have htag := tag_eq hv hw h
  cases w with
  | num m =>
      obtain ⟨htext, hst⟩ := number_inj (numberChar_of_mem_printNumber hv).2
        (numberChar_of_mem_printNumber hw).2 hs ht h
      exact ⟨by rw [texts, texts, String.toList_inj.mp htext], hst⟩
  | bool b => cases b <;> cases htag
  | _ => cases htag

theorem reads_str (a : String) : Reads key (.str a) := by
  intro w s t hv hw _ _ h
  have htag := tag_eq hv hw h
  cases w with
  | str b =>
      obtain ⟨rfl, hst⟩ := quote_inj h
      exact ⟨rfl, hst⟩
  | bool b => cases b <;> cases htag
  | _ => cases htag

theorem elemsRest_inj {vs : List Value} (hreads : ∀ v ∈ vs, Reads key v) :
    ∀ ws s t, ProperElems vs → ProperElems ws →
      elemsRest key vs ++ s = elemsRest key ws ++ t →
      textsElems vs = textsElems ws ∧ s = t := by
  induction vs with
  | nil =>
      intro ws s t _ _ h
      cases ws with
      | nil => exact ⟨rfl, (List.cons_eq_cons.mp h).2⟩
      | cons w ws => cases (List.cons_eq_cons.mp h).1
  | cons v vs ih =>
      intro ws s t hv hw h
      cases ws with
      | nil => cases (List.cons_eq_cons.mp h).1
      | cons w ws =>
          rw [elemsRest, elemsRest, List.cons_append, List.cons_append, List.append_assoc,
            List.append_assoc] at h
          obtain ⟨htexts, hrest⟩ := hreads v (by simp) w _ _ hv.1 hw.1 (stops_elemsRest _ _ _)
            (stops_elemsRest _ _ _) (List.cons_eq_cons.mp h).2
          obtain ⟨hrests, hst⟩ := ih (fun x hx => hreads x (by simp [hx])) ws s t hv.2 hw.2
            hrest
          exact ⟨by rw [textsElems, textsElems, htexts, hrests], hst⟩

theorem reads_arr {vs : List Value} (hreads : ∀ v ∈ vs, Reads key v) :
    Reads key (.arr vs) := by
  intro w s t hv hw _ _ h
  have htag := tag_eq hv hw h
  cases w with
  | arr ws =>
      have helems : textsElems vs = textsElems ws ∧ s = t := by
        have h : elemsChars key vs ++ s = elemsChars key ws ++ t := (List.cons_eq_cons.mp h).2
        rcases vs with _ | ⟨v, vs⟩ <;> rcases ws with _ | ⟨w, ws⟩
        · exact ⟨rfl, (List.cons_eq_cons.mp h).2⟩
        · rw [elemsChars, elemsChars, List.append_assoc] at h
          exact absurd h.symm (chars_ne rfl hw.1 _ _)
        · rw [elemsChars, elemsChars, List.append_assoc] at h
          exact absurd h (chars_ne rfl hv.1 _ _)
        · rw [elemsChars, elemsChars, List.append_assoc, List.append_assoc] at h
          obtain ⟨htexts, hrest⟩ := hreads v (by simp) w _ _ hv.1 hw.1 (stops_elemsRest _ _ _)
            (stops_elemsRest _ _ _) h
          obtain ⟨hrests, hst⟩ := elemsRest_inj (fun x hx => hreads x (by simp [hx])) ws s t
            hv.2 hw.2 hrest
          exact ⟨by rw [textsElems, textsElems, htexts, hrests], hst⟩
      exact ⟨by rw [texts, texts, helems.1], helems.2⟩
  | bool b => cases b <;> cases htag
  | _ => cases htag

/-- A key, its colon and its value are found again. -/
theorem member_inj (hkey : PrefixCode key '\x7d') {k k' : String} {v w : Value}
    {ms ns : List (String × Value)} {s t : List Char} (hreads : Reads key v) (hv : Proper v)
    (hw : Proper w)
    (h : key k ++ ':' :: (chars key v ++ membersRest key ms) ++ s =
      key k' ++ ':' :: (chars key w ++ membersRest key ns) ++ t) :
    k = k' ∧ texts v = texts w ∧ membersRest key ms ++ s = membersRest key ns ++ t := by
  rw [List.append_assoc, List.append_assoc] at h
  obtain ⟨rfl, hrest⟩ := hkey.inj _ _ _ _ h
  rw [List.cons_append, List.cons_append, List.append_assoc, List.append_assoc] at hrest
  obtain ⟨htexts, hrest⟩ := hreads w _ _ hv hw (stops_membersRest _ _ _) (stops_membersRest _ _ _)
    (List.cons_eq_cons.mp hrest).2
  exact ⟨rfl, htexts, hrest⟩

theorem membersRest_inj (hkey : PrefixCode key '\x7d') {ms : List (String × Value)}
    (hreads : ∀ p ∈ ms, Reads key p.2) :
    ∀ ns s t, ProperMembers ms → ProperMembers ns →
      membersRest key ms ++ s = membersRest key ns ++ t →
      textsMembers ms = textsMembers ns ∧ s = t := by
  induction ms with
  | nil =>
      intro ns s t _ _ h
      cases ns with
      | nil => exact ⟨rfl, (List.cons_eq_cons.mp h).2⟩
      | cons p ns => cases (List.cons_eq_cons.mp h).1
  | cons p ms ih =>
      intro ns s t hv hw h
      cases ns with
      | nil => cases (List.cons_eq_cons.mp h).1
      | cons q ns =>
          obtain ⟨hk, htexts, hrest⟩ := member_inj hkey (hreads p (by simp)) hv.1 hw.1
            (List.cons_eq_cons.mp h).2
          obtain ⟨hrests, hst⟩ := ih (fun x hx => hreads x (by simp [hx])) ns s t hv.2 hw.2
            hrest
          exact ⟨by rw [textsMembers, textsMembers, hk, htexts, hrests], hst⟩

theorem reads_obj (hkey : PrefixCode key '\x7d') {ms : List (String × Value)}
    (hreads : ∀ p ∈ ms, Reads key p.2) : Reads key (.obj ms) := by
  intro w s t hv hw _ _ h
  have htag := tag_eq hv hw h
  cases w with
  | obj ns =>
      have hmembers : textsMembers ms = textsMembers ns ∧ s = t := by
        have h : membersChars key ms ++ s = membersChars key ns ++ t :=
          (List.cons_eq_cons.mp h).2
        rcases ms with _ | ⟨p, ms⟩ <;> rcases ns with _ | ⟨q, ns⟩
        · exact ⟨rfl, (List.cons_eq_cons.mp h).2⟩
        · rw [membersChars, membersChars, List.append_assoc] at h
          exact absurd h.symm (hkey.goes q.1 _ _)
        · rw [membersChars, membersChars, List.append_assoc] at h
          exact absurd h (hkey.goes p.1 _ _)
        · obtain ⟨hk, htexts, hrest⟩ := member_inj hkey (hreads p (by simp)) hv.1 hw.1 h
          obtain ⟨hrests, hst⟩ := membersRest_inj hkey (fun x hx => hreads x (by simp [hx]))
            ns s t hv.2 hw.2 hrest
          exact ⟨by rw [textsMembers, textsMembers, hk, htexts, hrests], hst⟩
      exact ⟨by rw [texts, texts, hmembers.1], hmembers.2⟩
  | bool b => cases b <;> cases htag
  | _ => cases htag

/-- **A value is found again in its text**, up to how its numbers are kept. -/
theorem chars_reads (hkey : PrefixCode key '\x7d') (v : Value) : Reads key v := by
  induction v using value_ind with
  | null => exact reads_null
  | bool b => exact reads_bool b
  | num n => exact reads_num n
  | str s => exact reads_str s
  | arr a ih => exact reads_arr ih
  | obj m ih => exact reads_obj hkey ih

/-- **The text of a value is found again.** -/
theorem chars_inj (hkey : PrefixCode key '\x7d') (v : Value) : Found key v := by
  intro w s t hv hw hs ht h
  obtain ⟨htexts, hst⟩ := chars_reads hkey v w s t hv hw hs ht h
  exact ⟨by rw [← print_texts v, htexts, print_texts], hst⟩

/-! ## No control characters -/

/-- A text without control characters. -/
def Printable (l : List Char) : Prop := ∀ c ∈ l, 32 ≤ c.toNat

instance (l : List Char) : Decidable (Printable l) := List.decidableBAll _ l

theorem printable_append {l l' : List Char} (h : Printable l) (h' : Printable l') :
    Printable (l ++ l') := by
  intro c hc
  exact (List.mem_append.mp hc).elim (h c) (h' c)

theorem printable_cons {c : Char} {l : List Char} (hc : 32 ≤ c.toNat) (h : Printable l) :
    Printable (c :: l) := by
  intro d hd
  rcases List.mem_cons.mp hd with rfl | hd
  · exact hc
  · exact h d hd

theorem le_of_numberChar {c : Char} (h : numberChar c = true) : 32 ≤ c.toNat := by
  simp only [numberChar, Bool.or_eq_true, decide_eq_true_eq] at h
  rcases h with ((((h | rfl) | rfl) | rfl) | rfl) | rfl
  · simp only [Char.isDigit, ge_iff_le, Bool.and_eq_true, decide_eq_true_eq] at h
    exact Nat.le_trans (by decide) h.1
  all_goals decide

theorem printable_quote (s : String) : Printable (Value.quote s).toList := by
  have hdigit : ∀ i : Fin 16, 32 ≤ (Nat.digitChar i).toNat := by decide
  have hescape : ∀ c, Printable (Value.escapeChar c) := by
    intro c
    unfold Value.escapeChar
    iterate 7
      split
      · decide
    split
    · rename_i hlow
      have hhi := hdigit ⟨c.toNat / 16, by omega⟩
      have hlo := hdigit ⟨c.toNat % 16, by omega⟩
      refine printable_cons (by decide) (printable_cons (by decide) (printable_cons (by decide)
        (printable_cons (by decide) (printable_cons hhi (printable_cons hlo ?_)))))
      rintro d hd
      cases hd
    · rename_i hhigh
      refine printable_cons (by omega) ?_
      rintro d hd
      cases hd
  rw [Value.quote, String.toList_ofList]
  refine printable_cons (by decide) (printable_append ?_ (by decide))
  intro d hd
  obtain ⟨c, _, hd⟩ := List.mem_flatMap.mp hd
  exact hescape c d hd

theorem printable_elemsRest {vs : List Value}
    (h : ∀ v ∈ vs, Proper v → Printable (chars key v)) (hv : ProperElems vs) :
    Printable (elemsRest key vs) := by
  induction vs with
  | nil => exact printable_cons (by decide) (by decide)
  | cons v vs ih =>
      have hrest := ih (fun x hx => h x (by simp [hx])) hv.2
      exact printable_cons (by decide) (printable_append (h v (by simp) hv.1) hrest)

theorem printable_membersRest (hkey : ∀ k, Printable (key k)) {ms : List (String × Value)}
    (h : ∀ p ∈ ms, Proper p.2 → Printable (chars key p.2)) (hv : ProperMembers ms) :
    Printable (membersRest key ms) := by
  induction ms with
  | nil => exact printable_cons (by decide) (by decide)
  | cons p ms ih =>
      have hrest := ih (fun x hx => h x (by simp [hx])) hv.2
      have hvalue := printable_append (h p (by simp) hv.1) hrest
      exact printable_cons (by decide) (printable_append (hkey p.1)
        (printable_cons (by decide) hvalue))

/-- **The text of a value has no control characters** if its keys have none. -/
theorem printable_chars (hkey : ∀ k, Printable (key k)) {v : Value} (hv : Proper v) :
    Printable (chars key v) := by
  induction v using value_ind with
  | null => exact (by decide : Printable ['n', 'u', 'l', 'l'])
  | bool b =>
      cases b with
      | true => exact (by decide : Printable ['t', 'r', 'u', 'e'])
      | false => exact (by decide : Printable ['f', 'a', 'l', 's', 'e'])
  | num n => exact fun c hc => le_of_numberChar ((numberChar_of_mem_printNumber hv).2 c hc)
  | str s => exact printable_quote s
  | arr a ih =>
      refine printable_cons (by decide) ?_
      cases a with
      | nil => exact printable_cons (by decide) (by decide)
      | cons v vs =>
          exact printable_append (ih v (by simp) hv.1)
            (printable_elemsRest (fun x hx => ih x (by simp [hx])) hv.2)
  | obj m ih =>
      refine printable_cons (by decide) ?_
      cases m with
      | nil => exact printable_cons (by decide) (by decide)
      | cons p ms =>
          have hrest := printable_membersRest hkey (fun x hx => ih x (by simp [hx])) hv.2
          exact printable_append (hkey p.1) (printable_cons (by decide)
            (printable_append (ih p (by simp) hv.1) hrest))

end Values

end Dokan.Verified.JsonText
