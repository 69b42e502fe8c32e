import Dokan.Ports.ReceiptVerify

/-!
# Where verifying panics

`unhex` slices the signature text two bytes at a time, and the text is any
string.  A slice that ends inside a character panics: pairs of hexadecimal
digits are passed, and behind them stands a character of three bytes or more, or
one of a single byte and then one of several.  Text of an odd number of bytes is
refused before.  The verifiers reach it with a payload that decodes to something
and a public key that decodes to a key, both of which the receipt brings itself.

`verify_hmac` slices nothing, its embedding has no error.

## Main results

* `unhex_panics_iff` — the texts at which `unhex` panics.
* `returns_iff` — the arguments at which every verifier returns.
-/

namespace Dokan.Ports.Receipt

open Dokan.Verified.Json

/-- `u8::from_str_radix` reads two characters of one byte. -/
def digitPair (c d : Char) : Bool := (fromStrRadix c.val.toUInt8 d.val.toUInt8).isSome

/-- Behind pairs of digits stands a character that a slice of two bytes cuts. -/
def cutsChar : List Char → Bool
  | [] => false
  | [c] => 3 ≤ c.utf8Size
  | c :: d :: rest =>
      if c.utf8Size = 1 then
        if d.utf8Size = 1 then digitPair c d && cutsChar rest else true
      else 3 ≤ c.utf8Size

/-- The signature text is cut inside a character. -/
def straddles (s : String) : Bool := (utf8 s).length % 2 = 0 && cutsChar s.toList

/-- The text is a public key. -/
def decodesKey (C : Crypto) (publicB64 : String) : Bool :=
  (C.decodeBase64 publicB64).any fun pk => pk.length = 32 && C.validKey pk

/-- The receipt has a payload of at least one byte. -/
def hasPayload (C : Crypto) (receipt : Value) : Bool :=
  (C.decodeBase64 (textOr "" (embeddedPayload receipt))).any fun bs => !bs.isEmpty

/-- The signature text of the receipt. -/
def signatureText (receipt : Value) : String :=
  textOr "" (do (← signature0 receipt).get? "sig")

/-- The verifiers return a value. -/
structure Returns (C : Crypto) (receipt : Value) (trusted : Option (List String))
    (publicB64 payloadType : String) (payload : Bytes) (sigHex : String) : Prop where
  report : ∃ rep, verifyReceiptWith C receipt trusted = .ok rep
  verdict : ∃ verdict, classifyWith C receipt trusted = .ok verdict
  signature : ∃ valid, edVerify C publicB64 payloadType payload sigHex = .ok valid

/-! ## The bytes of a character -/

/-- A byte begins the character, the others continue it. -/
structure Encodes (c : Char) (b : UInt8) (bs : Bytes) : Prop where
  bytes : String.utf8EncodeChar c = b :: bs
  begins : continues b = false
  rest : ∀ x ∈ bs, continues x = true
  wide : bs ≠ [] → 192 ≤ b.toNat

theorem Encodes.length {c : Char} {b : UInt8} {bs : Bytes} (h : Encodes c b bs) :
    c.utf8Size = bs.length + 1 := by
  rw [← String.length_utf8EncodeChar, h.bytes, List.length_cons]

theorem continues_tail (n : Nat) : continues (UInt8.ofNat (n % 64 + 128)) = true := by
  have hlt : n % 64 < 64 := Nat.mod_lt _ (by omega)
  simp only [continues, UInt8.toNat_ofNat', Bool.and_eq_true, decide_eq_true_eq]
  omega

theorem lead_wide {n m k : Nat} (hm : 0 < m) (hk : 192 ≤ k) (hle : m + k ≤ 256) :
    192 ≤ (UInt8.ofNat (n % m + k)).toNat := by
  have hlt : n % m < m := Nat.mod_lt _ hm
  rw [UInt8.toNat_ofNat']
  omega

/-- A character of several bytes. -/
theorem encodes_of_wide {c : Char} {b : UInt8} {bs : Bytes}
    (hbytes : String.utf8EncodeChar c = b :: bs) (hb : 192 ≤ b.toNat)
    (hbs : ∀ x ∈ bs, continues x = true) : Encodes c b bs where
  bytes := hbytes
  begins := by
    simp only [continues, Bool.and_eq_false_iff, decide_eq_false_iff_not]
    omega
  rest := hbs
  wide _ := hb

/-- Every character is encoded so. -/
theorem encodes (c : Char) : ∃ b bs, Encodes c b bs := by
  by_cases hone : c.val.toNat ≤ 0x7f
  · refine ⟨UInt8.ofNat c.val.toNat, [], by simp only [String.utf8EncodeChar, if_pos hone], ?_,
      fun x hx => (List.not_mem_nil hx).elim, fun h => (h rfl).elim⟩
    simp only [continues, UInt8.toNat_ofNat', Bool.and_eq_false_iff, decide_eq_false_iff_not]
    omega
  by_cases htwo : c.val.toNat ≤ 0x7ff
  · refine ⟨_, _, encodes_of_wide
      (by simp only [String.utf8EncodeChar, if_neg hone, if_pos htwo]; rfl)
      (lead_wide (by omega) (by omega) (by omega)) ?_⟩
    simp only [List.mem_singleton, forall_eq]
    exact continues_tail _
  by_cases hthree : c.val.toNat ≤ 0xffff
  · refine ⟨_, _, encodes_of_wide
      (by simp only [String.utf8EncodeChar, if_neg hone, if_neg htwo, if_pos hthree]; rfl)
      (lead_wide (by omega) (by omega) (by omega)) ?_⟩
    simp only [List.forall_mem_cons, List.not_mem_nil, false_implies, implies_true, and_true]
    exact ⟨continues_tail _, continues_tail _⟩
  · refine ⟨_, _, encodes_of_wide
      (by simp only [String.utf8EncodeChar, if_neg hone, if_neg htwo, if_neg hthree]; rfl)
      (lead_wide (by omega) (by omega) (by omega)) ?_⟩
    simp only [List.forall_mem_cons, List.not_mem_nil, false_implies, implies_true, and_true]
    exact ⟨continues_tail _, continues_tail _, continues_tail _⟩

/-- A character of one byte. -/
theorem encode_one {c : Char} (h : c.utf8Size = 1) :
    String.utf8EncodeChar c = [c.val.toUInt8] := String.utf8EncodeChar_eq_singleton h

/-- No text begins with a byte that continues a character. -/
theorem head_text (cs : List Char) :
    (cs.flatMap String.utf8EncodeChar).head?.any continues = false := by
  cases cs with
  | nil => rfl
  | cons c cs =>
      obtain ⟨b, bs, hc⟩ := encodes c
      rw [List.flatMap_cons, hc.bytes]
      exact hc.begins

/-! ## Where `unhex` panics -/

/-- A byte that begins a wider character is no digit. -/
theorem fromStrRadix_wide {a b : UInt8} (h : 192 ≤ a.toNat) : fromStrRadix a b = none := by
  have hplus : a ≠ 43 := by
    rintro rfl
    exact absurd h (by decide)
  have hdigit : hexValue a = none := by
    simp only [hexValue]
    rw [if_neg (by omega), if_neg (by omega), if_neg (by omega)]
  rw [fromStrRadix, if_neg hplus, hdigit]
  rfl

/-- A slice of two bytes. -/
theorem unhexFrom_cons (a b : UInt8) (rest : Bytes) :
    unhexFrom (a :: b :: rest) = .error .charBoundary ↔
      (continues a || rest.head?.any continues) = true ∨
        ((fromStrRadix a b).isSome = true ∧ unhexFrom rest = .error .charBoundary) := by
  by_cases hcut : (continues a || rest.head?.any continues) = true
  · rw [unhexFrom, if_pos hcut]
    exact ⟨fun _ => .inl hcut, fun _ => rfl⟩
  · rw [unhexFrom, if_neg hcut]
    cases hx : fromStrRadix a b with
    | none =>
        refine ⟨fun h => (by cases h), fun h => ?_⟩
        rcases h with h | ⟨h, _⟩
        · exact (hcut h).elim
        · cases h
    | some x =>
        cases hrest : unhexFrom rest with
        | error e =>
            cases e
            exact ⟨fun _ => .inr ⟨rfl, rfl⟩, fun _ => rfl⟩
        | ok r =>
            refine ⟨fun h => (by cases h), fun h => ?_⟩
            rcases h with h | ⟨_, h⟩
            · exact (hcut h).elim
            · cases h

/-- A wider character is cut if it has three bytes or more. -/
theorem unhexFrom_wide {c : Char} (cs : List Char) (h : c.utf8Size ≠ 1) :
    unhexFrom ((c :: cs).flatMap String.utf8EncodeChar) = .error .charBoundary ↔
      3 ≤ c.utf8Size := by
  obtain ⟨b, bs, hc⟩ := encodes c
  have hsize := hc.length
  rw [List.flatMap_cons, hc.bytes]
  rcases bs with _ | ⟨x, _ | ⟨y, bs⟩⟩
  · exact (h hsize).elim
  · have hhead := head_text cs
    have hnone : fromStrRadix b x = none := fromStrRadix_wide (hc.wide (List.cons_ne_nil _ _))
    rw [List.cons_append, List.cons_append, List.nil_append, unhexFrom_cons, hc.begins, hhead,
      hnone, hsize]
    simp
  · have hy : continues y = true :=
      hc.rest y (List.mem_cons_of_mem _ List.mem_cons_self)
    rw [List.cons_append, List.cons_append, List.cons_append, unhexFrom_cons, hsize,
      List.head?_cons, Option.any_some, hy, Bool.or_true]
    simp only [List.length_cons, true_or, true_iff]
    omega

/-- The loop panics where a character is cut. -/
theorem unhexFrom_text (cs : List Char) :
    unhexFrom (cs.flatMap String.utf8EncodeChar) = .error .charBoundary ↔
      cutsChar cs = true := by
  fun_induction cutsChar cs with
  | case1 =>
      refine ⟨fun h => ?_, fun h => ?_⟩ <;> cases h
  | case2 c =>
      by_cases hone : c.utf8Size = 1
      · rw [List.flatMap_cons, encode_one hone, hone]
        exact ⟨fun h => (by cases h), fun h => (by cases h)⟩
      · rw [unhexFrom_wide [] hone, decide_eq_true_eq]
  | case3 c d rest hc hd ih =>
      have hchar : continues c.val.toUInt8 = false := by
        have h := head_text [c]
        rwa [List.flatMap_cons, encode_one hc] at h
      rw [List.flatMap_cons, List.flatMap_cons, encode_one hc, encode_one hd, List.cons_append,
        List.nil_append, List.cons_append, List.nil_append, unhexFrom_cons, hchar, head_text, ih,
        Bool.and_eq_true, digitPair]
      simp
  | case4 c d rest hc hd =>
      obtain ⟨b, bs, hwide⟩ := encodes d
      have hsize := hwide.length
      rw [List.flatMap_cons, List.flatMap_cons, encode_one hc, hwide.bytes]
      rcases bs with _ | ⟨x, bs⟩
      · exact (hd hsize).elim
      · have hx : continues x = true := hwide.rest x List.mem_cons_self
        rw [List.cons_append, List.nil_append, List.cons_append, List.cons_append, unhexFrom_cons,
          List.head?_cons, Option.any_some, hx, Bool.or_true]
        simp only [true_or]
  | case5 c d rest hc => rw [unhexFrom_wide (d :: rest) hc, decide_eq_true_eq]

/-- **Where `unhex` panics**: at text of even length that is cut inside a
character. -/
theorem unhex_panics_iff (s : String) :
    unhex s = .error .charBoundary ↔ straddles s = true := by
  have hbytes : utf8 s = s.toList.flatMap String.utf8EncodeChar := by
    rw [← utf8_ofList, String.ofList_toList]
  rw [unhex, straddles, Bool.and_eq_true, decide_eq_true_eq]
  by_cases heven : (utf8 s).length % 2 = 0
  · rw [if_pos heven, ← unhexFrom_text, ← hbytes]
    exact (and_iff_right heven).symm
  · rw [if_neg heven]
    exact ⟨fun h => (by cases h), fun h => (heven h.1).elim⟩

/-! ## Where the verifiers return -/

/-- A computation returns or panics. -/
theorem returns_or {α : Type} (x : Except Panic α) :
    (∃ a, x = .ok a) ↔ x ≠ .error .charBoundary := by
  cases x with
  | error e =>
      cases e
      exact ⟨fun ⟨_, h⟩ => (by cases h), fun h => (h rfl).elim⟩
  | ok a => exact ⟨fun _ h => (by cases h), fun _ => ⟨a, rfl⟩⟩

theorem edVerify_panics_iff (C : Crypto) (publicB64 payloadType : String) (payload : Bytes)
    (sigHex : String) :
    edVerify C publicB64 payloadType payload sigHex = .error .charBoundary ↔
      decodesKey C publicB64 = true ∧ straddles sigHex = true := by
  rw [← unhex_panics_iff, edVerify, decodesKey]
  cases C.decodeBase64 publicB64 with
  | none => exact ⟨fun h => (by cases h), fun h => (by cases h.1)⟩
  | some pk =>
      have hkey : (Option.any (fun pk => decide (pk.length = 32) && C.validKey pk) (some pk)) =
          !(decide (pk.length ≠ 32) || !C.validKey pk) := by
        rw [Option.any_some, Bool.not_or, Bool.not_not, decide_not, Bool.not_not]
      rw [hkey]
      dsimp only
      by_cases hbad : (decide (pk.length ≠ 32) || !C.validKey pk) = true
      · rw [if_pos hbad, hbad]
        exact ⟨fun h => (by cases h), fun h => (by cases h.1)⟩
      · rw [if_neg hbad, Bool.eq_false_of_not_eq_true hbad]
        cases hx : unhex sigHex with
        | error e =>
            cases e
            exact ⟨fun _ => ⟨rfl, rfl⟩, fun _ => rfl⟩
        | ok sig =>
            refine ⟨fun h => ?_, fun h => (by cases h.2)⟩
            cases sig <;> cases h

theorem verifyReceiptWith_panics_iff (C : Crypto) (receipt : Value)
    (trusted : Option (List String)) :
    verifyReceiptWith C receipt trusted = .error .charBoundary ↔
      hasPayload C receipt = true ∧
        decodesKey C (textOr "" (embeddedKey receipt)) = true ∧
          straddles (signatureText receipt) = true := by
  have hpayload : hasPayload C receipt = !(payloadBytes C receipt).isEmpty := by
    rw [hasPayload, payloadBytes]
    cases C.decodeBase64 (textOr "" (embeddedPayload receipt)) <;> rfl
  rw [hpayload, verifyReceiptWith, ← edVerify_panics_iff C _
    (textOr dssePayloadType (do (← receipt.get? "dsse").get? "payloadType"))
    (payloadBytes C receipt)]
  by_cases hempty : (payloadBytes C receipt).isEmpty = true
  · rw [if_pos hempty, hempty]
    exact ⟨fun h => (by cases h), fun h => (by cases h.1)⟩
  · rw [if_neg hempty, Bool.eq_false_of_not_eq_true hempty, signatureText]
    cases edVerify C (textOr "" (embeddedKey receipt)) _ (payloadBytes C receipt) _ with
    | error e =>
        cases e
        exact ⟨fun _ => ⟨rfl, rfl⟩, fun _ => rfl⟩
    | ok valid => exact ⟨fun h => (by cases h), fun h => (by cases h.2)⟩

/-- The verdict adds no panic. -/
theorem classifyWith_panics_iff (C : Crypto) (receipt : Value)
    (trusted : Option (List String)) :
    classifyWith C receipt trusted = .error .charBoundary ↔
      verifyReceiptWith C receipt trusted = .error .charBoundary := by
  rw [classifyWith]
  cases verifyReceiptWith C receipt trusted with
  | error e =>
      cases e
      exact ⟨fun _ => rfl, fun _ => rfl⟩
  | ok rep => exact ⟨fun h => (by cases h), fun h => (by cases h)⟩

/-- **Where verifying returns.**  A public key that decodes does not meet
signature text that is cut inside a character: not in the arguments of
`ed_verify`, and not in a receipt whose payload decodes to at least one byte. -/
theorem returns_iff (C : Crypto) (receipt : Value) (trusted : Option (List String))
    (publicB64 payloadType : String) (payload : Bytes) (sigHex : String) :
    Returns C receipt trusted publicB64 payloadType payload sigHex ↔
      ¬ (decodesKey C publicB64 = true ∧ straddles sigHex = true) ∧
        ¬ (hasPayload C receipt = true ∧
          decodesKey C (textOr "" (embeddedKey receipt)) = true ∧
            straddles (signatureText receipt) = true) := by
  have hsignature := edVerify_panics_iff C publicB64 payloadType payload sigHex
  have hreport := verifyReceiptWith_panics_iff C receipt trusted
  have hverdict := classifyWith_panics_iff C receipt trusted
  constructor
  · intro h
    exact ⟨fun hcut => (returns_or _).mp h.signature (hsignature.mpr hcut),
      fun hcut => (returns_or _).mp h.report (hreport.mpr hcut)⟩
  · intro ⟨hsig, hrec⟩
    exact
      { report := (returns_or _).mpr fun h => hrec (hreport.mp h)
        verdict := (returns_or _).mpr fun h => hrec (hreport.mp (hverdict.mp h))
        signature := (returns_or _).mpr fun h => hsig (hsignature.mp h) }

/-- Its signature is a letter and a character of three bytes. -/
def euroReceipt : Value :=
  .object
    [ ("dsse", .object
        [ ("payload", .str "e30=")
        , ("signatures", .arr [.object [("sig", .str "a€")]]) ])
    , ("ed25519", .object [("public_key", .str devKey)]) ]

/-- The receipt panics both verifiers, its texts `ed_verify`. -/
theorem not_returns :
    ¬ ∀ C receipt trusted publicB64 payloadType payload sigHex,
      Returns C receipt trusted publicB64 payloadType payload sigHex := by
  intro h
  have hcut : hasPayload (demoSigned (.obj []) devSignature) euroReceipt = true ∧
      decodesKey (demoSigned (.obj []) devSignature) (textOr "" (embeddedKey euroReceipt)) = true ∧
        straddles (signatureText euroReceipt) = true := by decide +kernel
  obtain ⟨rep, hrep⟩ :=
    (h (demoSigned (.obj []) devSignature) euroReceipt none devKey dssePayloadType [] "a€").report
  rw [(verifyReceiptWith_panics_iff _ _ _).mpr hcut] at hrep
  cases hrep

end Dokan.Ports.Receipt
