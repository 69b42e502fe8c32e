import Dokan.Verified.Framing
import Dokan.Verified.Json

/-!
# Receipts: building and offline verification

`Executor::build_receipt` and the two verifiers of `receipt.rs`.  A receipt is
a JSON object; its signed part is an in-toto statement in a DSSE envelope, its
other fields repeat the statement's predicate outside the signature.

SHA-256, HMAC, Ed25519, base64 and the JSON parser are the functions of a
`Crypto`; nothing is assumed of them here.  A slice of a string at a place that
is not between two characters panics, which is the error of `Except`.

## Main results

* `unhex_hex` — hexadecimal text is read back.
* `pae_inj` — the bytes that are signed determine payload type and payload.
* `entries_perm` — equal renderings of separator-free blob maps are renderings
  of one map.
-/

namespace Dokan.Ports.Receipt

open Dokan.Verified.Json
open Dokan.Verified.Framing

/-! ## Bytes and hexadecimal -/

abbrev Bytes := List UInt8

/-- The third-party functions `receipt.rs` calls. -/
structure Crypto where
  sha256 : Bytes → Bytes
  hmacSha256 : Bytes → Bytes → Bytes
  encodeBase64 : Bytes → String
  decodeBase64 : String → Option Bytes
  /-- `VerifyingKey::from_bytes` accepts the key -/
  validKey : Bytes → Bool
  /-- `verify_strict`: key, message, signature -/
  verifyStrict : Bytes → Bytes → Bytes → Bool
  /-- `serde_json::from_slice` -/
  fromSlice : Bytes → Option Value

/-- The UTF-8 bytes of a string. -/
def utf8 (s : String) : Bytes := s.toUTF8.data.toList

/-- `serde_json::to_vec`. -/
def toVec (v : Value) : Bytes := utf8 v.print

/-- Two lower-case digits. -/
def hexByte (b : UInt8) : List Char :=
  [Value.hexDigit (b.toNat / 16), Value.hexDigit (b.toNat % 16)]

/-- `receipt::hex`. -/
def hex (bs : Bytes) : String := String.ofList (bs.flatMap hexByte)

/-- A slice of a string off the boundary of a character. -/
inductive Panic
  | charBoundary
deriving DecidableEq

/-- A byte that continues a character. -/
def continues (b : UInt8) : Bool := 128 ≤ b.toNat && b.toNat < 192

/-- An ASCII hexadecimal digit. -/
def hexValue (b : UInt8) : Option Nat :=
  let n := b.toNat
  if 48 ≤ n ∧ n ≤ 57 then some (n - 48)
  else if 97 ≤ n ∧ n ≤ 102 then some (n - 87)
  else if 65 ≤ n ∧ n ≤ 70 then some (n - 55)
  else none

/-- `u8::from_str_radix` of two bytes; a leading plus sign is allowed. -/
def fromStrRadix (a b : UInt8) : Option UInt8 :=
  if a = 43 then (hexValue b).map UInt8.ofNat
  else do return UInt8.ofNat ((← hexValue a) * 16 + (← hexValue b))

/-- The loop of `unhex` over the bytes of a string of even length. -/
def unhexFrom : Bytes → Except Panic (Option Bytes)
  | a :: b :: rest => do
      if continues a || rest.head?.any continues then throw .charBoundary
      match fromStrRadix a b with
      | none => return none
      | some x => return (← unhexFrom rest).map (x :: ·)
  | _ => return some []

/-- `receipt::unhex`. -/
def unhex (s : String) : Except Panic (Option Bytes) :=
  if (utf8 s).length % 2 = 0 then unhexFrom (utf8 s) else return none

/-- `receipt::sha256_hex`. -/
def sha256Hex (C : Crypto) (bs : Bytes) : String := hex (C.sha256 bs)

/-! ## Signing -/

def dssePayloadType : String := "application/vnd.in-toto+json"

def predicateType : String := "https://dokan.dev/Run/v1"

/-- `receipt::dsse_pae`. -/
def dssePae (payloadType : String) (payload : Bytes) : Bytes :=
  utf8 "DSSEv1 " ++ (frame (utf8 payloadType) ++ 32 :: frame payload)

/-- `receipt::Signer`. -/
structure Signer where
  key : Bytes
  /-- Ed25519 over a message -/
  edSign : Bytes → Bytes
  edPublic : Bytes

/-- `Signer::sign`. -/
def Signer.sign (C : Crypto) (s : Signer) (payload : String) : String :=
  hex (C.hmacSha256 s.key (utf8 payload))

/-- The first sixteen digits of the hash of a public key. -/
def keyidOf (C : Crypto) (edPublic : Bytes) : String :=
  String.ofList ((sha256Hex C edPublic).toList.take 16)

/-- `mcp::canonical_input_blobs` of the members of an object. -/
def blobTexts (m : List (String × Value)) : List (String × String) :=
  m.map fun p => (p.1, p.2.asStr?.getD "")

/-- The members of an object; anything else has none. -/
def members : Option Value → List (String × Value)
  | some (.obj m) => m
  | _ => []

/-- `mcp::canonical_input_blobs`. -/
def canonicalInputBlobs (blobs : Option Value) : String := render (blobTexts (members blobs))

/-- What `build_receipt` is called with, and what it reads. -/
structure Binding where
  runId : Int
  image : String
  source : String
  input : Value
  result : Option Value
  exitCode : Int
  network : Bool
  inputBlobs : Option Value
  outputBlobs : Option Value
  /-- `pool.digest(image)` or the image's name -/
  digest : String
  /-- `secrets_generation` -/
  secretsGen : Int

/-- The hash of the result's text, of nothing without a result. -/
def outputHash (C : Crypto) (result : Option Value) : String :=
  sha256Hex C (utf8 ((result.map Value.print).getD ""))

def sourceHash (C : Crypto) (source : String) : String := sha256Hex C (utf8 source)

def inputHash (C : Crypto) (input : Value) : String := sha256Hex C (toVec input)

def showBool (b : Bool) : String := if b then "true" else "false"

/-- The text under the HMAC. -/
def bindingText (digest sourceSha inputSha : String) (secretsGen : Int)
    (outputSha : String) (exit : Int) (network : Bool) (blobs outputBlobs : String) :
    String :=
  "|".intercalate
    ["v1", digest, sourceSha, inputSha, toString secretsGen, outputSha, toString exit,
      showBool network, blobs, outputBlobs]

def subjectOf (name sha : String) : Value :=
  .object [("name", .str name), ("digest", .object [("sha256", .str sha)])]

/-- The predicate of the statement. -/
def predicate (C : Crypto) (b : Binding) : Value :=
  .object
    [ ("builder", .object [("id", .str "dokan"), ("version", .str "0.5.0")])
    , ("invocation", .object
        [("invocationId", .str (toString b.runId)), ("image", .str b.image)])
    , ("image_digest", .str b.digest)
    , ("source_sha256", .str (sourceHash C b.source))
    , ("input_sha256", .str (inputHash C b.input))
    , ("secrets_generation", .num (.int b.secretsGen))
    , ("output_sha256", .str (outputHash C b.result))
    , ("exit", .num (.int b.exitCode))
    , ("network", .bool b.network)
    , ("hermetic", .bool (!b.network))
    , ("input_blobs", b.inputBlobs.getD .null)
    , ("output_blobs", b.outputBlobs.getD .null) ]

/-- The in-toto statement. -/
def statement (C : Crypto) (b : Binding) : Value :=
  .object
    [ ("_type", .str "https://in-toto.io/Statement/v1")
    , ("subject", .arr (subjectOf "result" (outputHash C b.result) ::
        (members b.outputBlobs).filterMap fun p =>
          p.2.asStr?.map fun sha => subjectOf p.1 sha))
    , ("predicateType", .str predicateType)
    , ("predicate", predicate C b) ]

/-- `Executor::build_receipt`. -/
def buildReceipt (C : Crypto) (s : Signer) (b : Binding) : Value :=
  let sig := s.sign C (bindingText b.digest (sourceHash C b.source) (inputHash C b.input)
    b.secretsGen (outputHash C b.result) b.exitCode b.network
    (canonicalInputBlobs b.inputBlobs) (canonicalInputBlobs b.outputBlobs))
  let payload := toVec (statement C b)
  let keyid := keyidOf C s.edPublic
  .object
    [ ("v", .num (.int 1))
    , ("image_digest", .str b.digest)
    , ("source_sha256", .str (sourceHash C b.source))
    , ("input_sha256", .str (inputHash C b.input))
    , ("secrets_generation", .num (.int b.secretsGen))
    , ("output_sha256", .str (outputHash C b.result))
    , ("exit", .num (.int b.exitCode))
    , ("network", .bool b.network)
    , ("deterministic", .bool (!b.network))
    , ("hermetic", .bool (!b.network))
    , ("input_blobs", b.inputBlobs.getD .null)
    , ("output_blobs", b.outputBlobs.getD .null)
    , ("alg", .str "hmac-sha256")
    , ("sig", .str sig)
    , ("statement", statement C b)
    , ("dsse", .object
        [ ("payloadType", .str dssePayloadType)
        , ("payload", .str (C.encodeBase64 payload))
        , ("signatures", .arr [.object
            [ ("keyid", .str keyid)
            , ("sig", .str (hex (s.edSign (dssePae dssePayloadType payload)))) ]]) ])
    , ("ed25519", .object
        [("keyid", .str keyid), ("public_key", .str (C.encodeBase64 s.edPublic))]) ]

/-! ## Verifying -/

/-- `Signer::verify_hmac`. -/
def verifyHmac (C : Crypto) (s : Signer) (receipt : Value) : Bool :=
  let str (k : String) : Option String := (receipt.get? k).bind Value.asStr?
  let int (k : String) : Option Int := (receipt.get? k).bind Value.asI64?
  let bool (k : String) : Option Bool := (receipt.get? k).bind Value.asBool?
  (do
    let digest ← str "image_digest"
    let sourceSha ← str "source_sha256"
    let inputSha ← str "input_sha256"
    let outputSha ← str "output_sha256"
    let sig ← str "sig"
    let secretsGen ← int "secrets_generation"
    let exit ← int "exit"
    let network ← bool "network"
    let text := bindingText digest sourceSha inputSha secretsGen outputSha exit network
      (canonicalInputBlobs (receipt.get? "input_blobs"))
      (canonicalInputBlobs (receipt.get? "output_blobs"))
    return s.sign C text == sig).getD false

/-- `receipt::ed_verify`. -/
def edVerify (C : Crypto) (publicB64 payloadType : String) (payload : Bytes)
    (sigHex : String) : Except Panic Bool :=
  match C.decodeBase64 publicB64 with
  | none => return false
  | some pk =>
      if pk.length ≠ 32 || !C.validKey pk then return false
      else do
        match ← unhex sigHex with
        | none => return false
        | some sig =>
            return sig.length = 64 && C.verifyStrict pk (dssePae payloadType payload) sig

/-- `receipt::VerifyReport`. -/
structure VerifyReport where
  ed25519Valid : Bool
  bindingConsistent : Bool
  hermetic : Bool
  keyid : String
  trustEnforced : Bool
  pinned : Bool
deriving DecidableEq

/-- `VerifyReport::ok`. -/
def VerifyReport.ok (r : VerifyReport) : Bool :=
  r.ed25519Valid && r.bindingConsistent && (!r.trustEnforced || r.pinned)

/-- `.get(0)` of an array. -/
def firstOf : Value → Option Value
  | .arr a => a.head?
  | _ => none

/-- The first signature of the envelope. -/
def signature0 (receipt : Value) : Option Value := do
  firstOf (← (← receipt.get? "dsse").get? "signatures")

def embeddedKey (receipt : Value) : Option Value := do
  (← receipt.get? "ed25519").get? "public_key"

def embeddedPayload (receipt : Value) : Option Value := do
  (← receipt.get? "dsse").get? "payload"

/-- A string, or the default. -/
def textOr (dflt : String) (v : Option Value) : String := (v.bind Value.asStr?).getD dflt

/-- The bytes of the payload, none if they do not decode. -/
def payloadBytes (C : Crypto) (receipt : Value) : Bytes :=
  (C.decodeBase64 (textOr "" (embeddedPayload receipt))).getD []

/-- The predicate inside the payload. -/
def signedPredicate (C : Crypto) (receipt : Value) : Option Value := do
  (← C.fromSlice (payloadBytes C receipt)).get? "predicate"

/-- The statement attests what the receipt claims at top level. -/
def bindingConsistent (C : Crypto) (receipt : Value) : Bool :=
  match (receipt.get? "output_sha256").bind Value.asStr?, signedPredicate C receipt with
  | some out, some pred =>
      (pred.get? "output_sha256").bind Value.asStr? = some out &&
        canonicalInputBlobs (receipt.get? "input_blobs") =
          canonicalInputBlobs (pred.get? "input_blobs") &&
        canonicalInputBlobs (receipt.get? "output_blobs") =
          canonicalInputBlobs (pred.get? "output_blobs")
  | _, _ => false

/-- The report once the signature is checked. -/
def reportOf (C : Crypto) (receipt : Value) (trusted : Option (List String))
    (ed25519Valid : Bool) : VerifyReport where
  ed25519Valid
  bindingConsistent := bindingConsistent C receipt
  hermetic := ((receipt.get? "hermetic").bind Value.asBool?).getD false
  keyid := textOr "" (do (← signature0 receipt).get? "keyid")
  trustEnforced := trusted.isSome
  pinned := trusted.any fun set =>
    textOr "" (embeddedKey receipt) ≠ "" && set.contains (textOr "" (embeddedKey receipt))

/-- `receipt::verify_receipt_with`. -/
def verifyReceiptWith (C : Crypto) (receipt : Value) (trusted : Option (List String)) :
    Except Panic VerifyReport :=
  let payloadType := textOr dssePayloadType (do (← receipt.get? "dsse").get? "payloadType")
  let sig := textOr "" (do (← signature0 receipt).get? "sig")
  let payload := payloadBytes C receipt
  if payload.isEmpty then return reportOf C receipt trusted false
  else do
    let valid ← edVerify C (textOr "" (embeddedKey receipt)) payloadType payload sig
    return reportOf C receipt trusted valid

/-- `receipt::Verdict`. -/
inductive Verdict
  | verified
  | tampered
  | untrusted
  | inconclusive
deriving DecidableEq

/-- `receipt::has_ed25519_signature`. -/
def hasEd25519Signature (receipt : Value) : Bool :=
  let nonempty (v : Option Value) : Bool := (v.bind Value.asStr?).any (· ≠ "")
  nonempty (do (← signature0 receipt).get? "sig") && nonempty (embeddedKey receipt) &&
    nonempty (embeddedPayload receipt)

/-- The verdict on a report. -/
def verdictOf (receipt : Value) (rep : VerifyReport) : Verdict :=
  if !hasEd25519Signature receipt then .inconclusive
  else if rep.ok then .verified
  else if rep.ed25519Valid && rep.bindingConsistent && rep.trustEnforced && !rep.pinned then
    .untrusted
  else .tampered

/-- `receipt::classify_with`. -/
def classifyWith (C : Crypto) (receipt : Value) (trusted : Option (List String)) :
    Except Panic (Verdict × VerifyReport) := do
  let rep ← verifyReceiptWith C receipt trusted
  return (verdictOf receipt rep, rep)

/-! ## Hexadecimal text is read back -/

theorem utf8_ofList (cs : List Char) :
    utf8 (String.ofList cs) = cs.flatMap String.utf8EncodeChar := by
  show (List.utf8Encode cs).data.toList = _
  simp [List.utf8Encode]

/-- The byte of a digit. -/
def hexDigitByte (n : Nat) : UInt8 := UInt8.ofNat (Value.hexDigit n).toNat

theorem utf8_hexDigit {n : Nat} (hn : n < 16) :
    String.utf8EncodeChar (Value.hexDigit n) = [hexDigitByte n] := by
  have h : ∀ i : Fin 16,
      String.utf8EncodeChar (Value.hexDigit i) = [hexDigitByte i] := by decide
  exact h ⟨n, hn⟩

theorem hexDigitByte_spec {n : Nat} (hn : n < 16) :
    hexValue (hexDigitByte n) = some n ∧ continues (hexDigitByte n) = false ∧
      hexDigitByte n ≠ 43 := by
  have h : ∀ i : Fin 16, hexValue (hexDigitByte i) = some i.1 ∧
      continues (hexDigitByte i) = false ∧ hexDigitByte i ≠ 43 := by decide
  exact h ⟨n, hn⟩

/-- The bytes of the hexadecimal text. -/
def hexBytes (bs : Bytes) : Bytes :=
  bs.flatMap fun b => [hexDigitByte (b.toNat / 16), hexDigitByte (b.toNat % 16)]

theorem utf8_hex (bs : Bytes) : utf8 (hex bs) = hexBytes bs := by
  rw [hex, utf8_ofList, List.flatMap_assoc]
  refine congrArg (fun f => List.flatMap f bs) (funext fun b => ?_)
  have hb := b.toNat_lt
  simp [hexByte, utf8_hexDigit (show b.toNat / 16 < 16 by omega),
    utf8_hexDigit (show b.toNat % 16 < 16 by omega)]

/-- The characters of hexadecimal text. -/
theorem exists_digit_of_mem_hex {bs : Bytes} {c : Char} (hc : c ∈ (hex bs).toList) :
    ∃ i : Fin 16, c = Value.hexDigit i := by
  rw [hex, String.toList_ofList] at hc
  obtain ⟨b, -, hc⟩ := List.mem_flatMap.mp hc
  have hb := b.toNat_lt
  simp only [hexByte, List.mem_cons, List.not_mem_nil, or_false] at hc
  rcases hc with rfl | rfl
  · exact ⟨⟨b.toNat / 16, by omega⟩, rfl⟩
  · exact ⟨⟨b.toNat % 16, by omega⟩, rfl⟩

theorem unhexFrom_hexBytes (bs : Bytes) : unhexFrom (hexBytes bs) = .ok (some bs) := by
  induction bs with
  | nil => rfl
  | cons b bs ih =>
      have hb := b.toNat_lt
      obtain ⟨hhi, hchi, hsign⟩ := hexDigitByte_spec (show b.toNat / 16 < 16 by omega)
      obtain ⟨hlo, -, -⟩ := hexDigitByte_spec (show b.toNat % 16 < 16 by omega)
      have hnext : (hexBytes bs).head?.any continues = false := by
        cases bs with
        | nil => rfl
        | cons c cs =>
            have hc := c.toNat_lt
            exact (hexDigitByte_spec (show c.toNat / 16 < 16 by omega)).2.1
      have hradix : fromStrRadix (hexDigitByte (b.toNat / 16)) (hexDigitByte (b.toNat % 16)) =
          some b := by
        have hsum : b.toNat / 16 * 16 + b.toNat % 16 = b.toNat := by omega
        simp only [fromStrRadix, if_neg hsign, hhi, hlo, Option.bind_eq_bind,
          Option.bind_some, hsum, UInt8.ofNat_toNat]
        rfl
      have hcons : hexBytes (b :: bs) = hexDigitByte (b.toNat / 16) ::
          hexDigitByte (b.toNat % 16) :: hexBytes bs := rfl
      rw [hcons, unhexFrom, hchi, hnext, hradix, ih]
      rfl

/-- **Hexadecimal text is read back.** -/
theorem unhex_hex (bs : Bytes) : unhex (hex bs) = .ok (some bs) := by
  have hlength : (hexBytes bs).length = 2 * bs.length := by
    induction bs with
    | nil => rfl
    | cons b bs ih =>
        simp only [hexBytes, List.flatMap_cons, List.length_append, List.length_cons,
          List.length_nil] at ih ⊢
        omega
  rw [unhex, utf8_hex, if_pos (by omega), unhexFrom_hexBytes]

/-! ## What signatures and renderings determine -/

theorem utf8_inj {s t : String} (h : utf8 s = utf8 t) : s = t := by
  have hdata : s.toByteArray.data = t.toByteArray.data := Array.toList_inj.mp h
  exact String.toByteArray_inj.mp (ByteArray.ext hdata)

theorem utf8_append (s t : String) : utf8 (s ++ t) = utf8 s ++ utf8 t := by
  simp [utf8]

theorem hex_inj {bs bs' : Bytes} (h : hex bs = hex bs') : bs = bs' := by
  have hback := congrArg unhex h
  rw [unhex_hex, unhex_hex] at hback
  exact Option.some.inj (Except.ok.inj hback)

/-- **The signed bytes determine what was signed.** -/
theorem pae_inj {t t' : String} {p p' : Bytes} (h : dssePae t p = dssePae t' p') :
    t = t' ∧ p = p' := by
  obtain ⟨htype, hrest⟩ := frame_append_inj (List.append_cancel_left h)
  have hpayload : frame p ++ [] = frame p' ++ [] := by
    rw [List.append_nil, List.append_nil]
    exact (List.cons_eq_cons.mp hrest).2
  exact ⟨utf8_inj htype, (frame_append_inj hpayload).1⟩

/-- **Pre-authentication encodings are equal** only for one type and one payload. -/
theorem dssePae_eq_iff (t t' : String) (p p' : Bytes) :
    dssePae t p = dssePae t' p' ↔ t = t' ∧ p = p' := by
  constructor
  · exact pae_inj
  · rintro ⟨rfl, rfl⟩
    rfl

/-- Nothing in a blob map that its rendering relies on: every value is a string,
and the texts are free of separators. -/
def Separable (m : List (String × Value)) : Prop :=
  ∀ p ∈ m, ∃ sha, p.2 = .str sha ∧ Free (p.1, sha)

/-- Separable maps of one rendering are one map. -/
theorem entries_perm {m m' : List (String × Value)} (hm : Separable m) (hm' : Separable m')
    (h : render (blobTexts m) = render (blobTexts m')) : m.Perm m' := by
  have hfree : ∀ n, Separable n → ∀ p ∈ blobTexts n, Free p := by
    intro n hn p hp
    obtain ⟨q, hq, rfl⟩ := List.mem_map.mp hp
    obtain ⟨sha, hsha, hfree⟩ := hn q hq
    rw [hsha]
    exact hfree
  have hback : ∀ n, Separable n → (blobTexts n).map (fun p => (p.1, Value.str p.2)) = n := by
    intro n hn
    rw [blobTexts, List.map_map]
    refine (List.map_congr_left fun q hq => ?_).trans (List.map_id _)
    obtain ⟨sha, hsha, _⟩ := hn q hq
    obtain ⟨name, value⟩ := q
    cases hsha
    rfl
  have hperm := render_perm (hfree m hm) (hfree m' hm') h
  rw [← hback m hm, ← hback m' hm']
  exact hperm.map _

end Dokan.Ports.Receipt
