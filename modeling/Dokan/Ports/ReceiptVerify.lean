import Dokan.Ports.Receipt

/-!
# What a verified receipt says

`classify_with` answers `Verified` when the signature over the payload checks
under a trusted key and the payload's predicate attests the output hash and the
blob maps of the receipt.  Its report also shows `hermetic`, read from the top
level, and `keyid`, read from the envelope; neither is compared with anything,
and the blob maps are compared through their renderings only.

The hypothesis on the signatures is that Ed25519 is unforgeable and that the
holders of the trusted keys sign nothing but statements of `build_receipt`.

## Main results

* `verified_genuine` — the payload of a verified receipt is a statement that was
  signed.
* `classifyWith_of_checked` — a receipt as built is verified.
* `verified_iff` — what the report and the receipt show is what was signed
  exactly when the fields that are not checked say so.
-/

namespace Dokan.Ports.Receipt

open Dokan.Verified.Json
open Dokan.Verified.Framing

/-- Trusted keys verify statements of `build_receipt` only, those in `signed`,
and the parser reads them back. -/
structure Holders (C : Crypto) (trusted : List String) (signed : Binding → Prop) :
    Prop where
  unforgeable : ∀ k ∈ trusted, ∀ pk, C.decodeBase64 k = some pk → ∀ msg sig,
    C.verifyStrict pk msg sig = true →
      ∃ b, signed b ∧ msg = dssePae dssePayloadType (toVec (statement C b))
  parses : ∀ b, signed b → C.fromSlice (toVec (statement C b)) = some (statement C b)

/-- The report and the top level of the receipt say what was signed: the
predicate `pred`, under the key `pk`. -/
structure MeansSigned (C : Crypto) (receipt : Value) (rep : VerifyReport) (pred : Value)
    (pk : Bytes) : Prop where
  hermetic : pred.get? "hermetic" = some (.bool rep.hermetic)
  keyid : rep.keyid = keyidOf C pk
  output : receipt.get? "output_sha256" = pred.get? "output_sha256"
  inputBlobs : (members (receipt.get? "input_blobs")).Perm
    (members (pred.get? "input_blobs"))
  outputBlobs : (members (receipt.get? "output_blobs")).Perm
    (members (pred.get? "output_blobs"))

/-- The blob map at `k` is the signed one, or both are free of the separators
their renderings rely on. -/
def BlobsSound (receipt pred : Value) (k : String) : Prop :=
  (members (receipt.get? k)).Perm (members (pred.get? k)) ∨
    (Separable (members (receipt.get? k)) ∧ Separable (members (pred.get? k)))

/-- What nothing checks is as `build_receipt` wrote it: `hermetic` (read as false
when it is no boolean) is the signed one, the key id of the first signature is
the embedded key's, and the blob maps are sound. -/
structure Untouched (C : Crypto) (receipt pred : Value) (pk : Bytes) : Prop where
  hermetic : pred.get? "hermetic" =
    some (.bool (((receipt.get? "hermetic").bind Value.asBool?).getD false))
  keyid : textOr "" (do (← signature0 receipt).get? "keyid") = keyidOf C pk
  inputBlobs : BlobsSound receipt pred "input_blobs"
  outputBlobs : BlobsSound receipt pred "output_blobs"

section Verified

variable {C : Crypto} {receipt : Value} {trusted : List String} {rep : VerifyReport}

theorem ok_of_verdict (h : verdictOf receipt rep = .verified) : rep.ok = true := by
  unfold verdictOf at h
  split at h
  · cases h
  · split at h
    · assumption
    · split at h <;> cases h

/-- Both parts of a computation that returned. -/
theorem bind_eq_ok {ε α β : Type} {x : Except ε α} {f : α → Except ε β} {y : β}
    (h : (x >>= f) = .ok y) : ∃ a, x = .ok a ∧ f a = .ok y := by
  cases x with
  | error e => cases h
  | ok a => exact ⟨a, rfl, h⟩

/-- A verified receipt has a report that is sound. -/
theorem ok_of_verified {trust : Option (List String)}
    (h : classifyWith C receipt trust = .ok (.verified, rep)) :
    verifyReceiptWith C receipt trust = .ok rep ∧ rep.ok = true := by
  obtain ⟨rep', hrep, h⟩ := bind_eq_ok h
  obtain ⟨hverdict, rfl⟩ := Prod.mk.inj (Except.ok.inj h)
  exact ⟨hrep, ok_of_verdict hverdict⟩

/-- What a sound report has checked. -/
theorem checked_of_ok (h : verifyReceiptWith C receipt (some trusted) = .ok rep)
    (hok : rep.ok = true) :
    rep = reportOf C receipt (some trusted) true ∧
      (∃ t sig, edVerify C (textOr "" (embeddedKey receipt)) t (payloadBytes C receipt) sig =
        .ok true) ∧
      bindingConsistent C receipt = true ∧ textOr "" (embeddedKey receipt) ∈ trusted := by
  -- a report with an invalid signature is not sound
  have hvalid : ∀ valid, rep = reportOf C receipt (some trusted) valid → valid = true := by
    rintro valid rfl
    simp only [VerifyReport.ok, reportOf, Bool.and_eq_true] at hok
    exact hok.1.1
  simp only [verifyReceiptWith] at h
  split at h
  · cases hvalid false (Except.ok.inj h).symm
  · obtain ⟨valid, hsig, h⟩ := bind_eq_ok h
    have hrep : rep = reportOf C receipt (some trusted) valid := (Except.ok.inj h).symm
    cases hvalid valid hrep
    refine ⟨hrep, ⟨_, _, hsig⟩, ?_⟩
    subst hrep
    simp only [VerifyReport.ok, reportOf, Option.isSome_some, Bool.not_true,
      Bool.false_or, Option.any_some, Bool.and_eq_true] at hok
    exact ⟨hok.1.2, by simpa using hok.2.2⟩

/-- A signature that verifies does so under the decoded key. -/
theorem edVerify_true {k t : String} {payload : Bytes} {sig : String}
    (h : edVerify C k t payload sig = .ok true) :
    ∃ pk s, C.decodeBase64 k = some pk ∧ C.verifyStrict pk (dssePae t payload) s = true := by
  unfold edVerify at h
  split at h
  · cases h
  · rename_i pk hpk
    split at h
    · cases h
    · simp only [bind, Except.bind] at h
      split at h
      · cases h
      · split at h
        · cases h
        · rename_i s _
          simp only [pure, Except.pure, Except.ok.injEq, Bool.and_eq_true] at h
          exact ⟨pk, s, hpk, h.2⟩

/-- The predicate of a payload that is a statement. -/
theorem signedPredicate_of_payload {b : Binding}
    (hpayload : payloadBytes C receipt = toVec (statement C b))
    (hparses : C.fromSlice (toVec (statement C b)) = some (statement C b)) :
    signedPredicate C receipt = some (predicate C b) := by
  simp only [signedPredicate, hpayload, hparses, Option.bind_eq_bind, Option.bind_some]
  simp [statement, Value.object]

variable {signed : Binding → Prop}

/-- **The payload of a verified receipt was signed.** -/
theorem verified_genuine (hH : Holders C trusted signed)
    (h : classifyWith C receipt (some trusted) = .ok (.verified, rep)) :
    ∃ b pk, signed b ∧ C.decodeBase64 (textOr "" (embeddedKey receipt)) = some pk ∧
      payloadBytes C receipt = toVec (statement C b) ∧
      signedPredicate C receipt = some (predicate C b) := by
  obtain ⟨hrep, hok⟩ := ok_of_verified h
  obtain ⟨_, ⟨t, sig, hsig⟩, _, hmem⟩ := checked_of_ok hrep hok
  obtain ⟨pk, s, hpk, hverify⟩ := edVerify_true hsig
  obtain ⟨b, hb, hmsg⟩ := hH.unforgeable _ hmem pk hpk _ s hverify
  obtain ⟨_, hpayload⟩ := pae_inj hmsg
  exact ⟨b, pk, hb, hpk, hpayload, signedPredicate_of_payload hpayload (hH.parses b hb)⟩

/-- Consistent blob maps that are sound are one map. -/
theorem BlobsSound.perm {pred : Value} {k : String} (h : BlobsSound receipt pred k)
    (hsame : canonicalInputBlobs (receipt.get? k) = canonicalInputBlobs (pred.get? k)) :
    (members (receipt.get? k)).Perm (members (pred.get? k)) := by
  rcases h with hperm | ⟨hfree, hfree'⟩
  · exact hperm
  · exact entries_perm hfree hfree' hsame

/-- What the binding check compares. -/
theorem bindingConsistent_some {pred : Value} (hpred : signedPredicate C receipt = some pred)
    (h : bindingConsistent C receipt = true) :
    receipt.get? "output_sha256" = pred.get? "output_sha256" ∧
      canonicalInputBlobs (receipt.get? "input_blobs") =
        canonicalInputBlobs (pred.get? "input_blobs") ∧
      canonicalInputBlobs (receipt.get? "output_blobs") =
        canonicalInputBlobs (pred.get? "output_blobs") := by
  have hstr : ∀ (v : Option Value) s, v.bind Value.asStr? = some s → v = some (.str s) := by
    intro v s hv
    obtain ⟨x, rfl, hx⟩ := Option.bind_eq_some_iff.mp hv
    cases x <;> cases hx
    rfl
  unfold bindingConsistent at h
  split at h
  · rename_i out pred' hout hpred'
    cases hpred.symm.trans hpred'
    simp only [Bool.and_eq_true, decide_eq_true_eq] at h
    obtain ⟨⟨hpredOut, hin⟩, hblobs⟩ := h
    exact ⟨(hstr _ _ hout).trans (hstr _ _ hpredOut).symm, hin, hblobs⟩
  · cases h

end Verified

/-! ## What a receipt as built says -/

/-- The functions do on the statement of `b` what they are for, under the key of
`s`. -/
structure Works (C : Crypto) (s : Signer) (b : Binding) : Prop where
  text : ∀ bs, bs ≠ [] → C.encodeBase64 bs ≠ ""
  payload : C.decodeBase64 (C.encodeBase64 (toVec (statement C b))) =
    some (toVec (statement C b))
  key : C.decodeBase64 (C.encodeBase64 s.edPublic) = some s.edPublic
  keyLength : s.edPublic.length = 32
  keyValid : C.validKey s.edPublic = true
  signatureLength :
    (s.edSign (dssePae dssePayloadType (toVec (statement C b)))).length = 64
  verifies : C.verifyStrict s.edPublic (dssePae dssePayloadType (toVec (statement C b)))
    (s.edSign (dssePae dssePayloadType (toVec (statement C b)))) = true
  parses : C.fromSlice (toVec (statement C b)) = some (statement C b)

/-- There is no trust anchor, or it has the key of `s`. -/
def Trusts (C : Crypto) (s : Signer) (trusted : Option (List String)) : Prop :=
  ∀ set, trusted = some set → C.encodeBase64 s.edPublic ∈ set

theorem trusts_some {C : Crypto} {s : Signer} {set : List String}
    (h : C.encodeBase64 s.edPublic ∈ set) : Trusts C s (some set) := by
  intro set' hset
  cases hset
  exact h

/-- The members of a receipt that `classify_with` depends on, its report apart. -/
def checkedKeys : List String :=
  ["dsse", "ed25519", "output_sha256", "input_blobs", "output_blobs"]

theorem toVec_object_ne_nil (pairs : List (String × Value)) :
    toVec (.object pairs) ≠ [] := by
  intro h
  have hempty : (Value.object pairs).print = "" := utf8_inj h
  have hlist := congrArg String.toList hempty
  simp [Value.object, Value.print] at hlist

section AsBuilt

variable {C : Crypto} {s : Signer} {b : Binding} {receipt : Value}

/-- What the checks read of a receipt as built. -/
structure ReadsBack (C : Crypto) (s : Signer) (b : Binding) (receipt : Value) : Prop where
  payloadType : (do (← receipt.get? "dsse").get? "payloadType" : Option Value) =
    some (.str dssePayloadType)
  payload : embeddedPayload receipt = some (.str (C.encodeBase64 (toVec (statement C b))))
  signature : (do (← signature0 receipt).get? "sig" : Option Value) =
    some (.str (hex (s.edSign (dssePae dssePayloadType (toVec (statement C b))))))
  key : embeddedKey receipt = some (.str (C.encodeBase64 s.edPublic))
  output : receipt.get? "output_sha256" = some (.str (outputHash C b.result))
  inputBlobs : receipt.get? "input_blobs" = some (b.inputBlobs.getD .null)
  outputBlobs : receipt.get? "output_blobs" = some (b.outputBlobs.getD .null)

theorem readsBack
    (hsame : ∀ k ∈ checkedKeys, receipt.get? k = (buildReceipt C s b).get? k) :
    ReadsBack C s b receipt := by
  have hdsse := hsame "dsse" (by simp [checkedKeys])
  have hed := hsame "ed25519" (by simp [checkedKeys])
  have hout := hsame "output_sha256" (by simp [checkedKeys])
  have hin := hsame "input_blobs" (by simp [checkedKeys])
  have hblobs := hsame "output_blobs" (by simp [checkedKeys])
  simp [buildReceipt, Value.object] at hdsse hed hout hin hblobs
  exact
    { payloadType := by simp [hdsse]
      payload := by simp [embeddedPayload, hdsse]
      signature := by simp [signature0, hdsse, firstOf]
      key := by simp [embeddedKey, hed]
      output := hout
      inputBlobs := hin
      outputBlobs := hblobs }

theorem payloadBytes_of_readsBack (hW : Works C s b) (hR : ReadsBack C s b receipt) :
    payloadBytes C receipt = toVec (statement C b) := by
  rw [payloadBytes, hR.payload]
  exact congrArg (Option.getD · []) hW.payload

/-- **A receipt as built is verified**, whatever its unchecked members say. -/
theorem classifyWith_of_checked {trusted : Option (List String)} (hW : Works C s b)
    (htrusted : Trusts C s trusted)
    (hsame : ∀ k ∈ checkedKeys, receipt.get? k = (buildReceipt C s b).get? k) :
    classifyWith C receipt trusted = .ok (.verified, reportOf C receipt trusted true) := by
  have hR := readsBack hsame
  have hbytes := payloadBytes_of_readsBack hW hR
  have hpred := signedPredicate_of_payload hbytes hW.parses
  have hpayload : toVec (statement C b) ≠ [] := toVec_object_ne_nil _
  have hpublic : s.edPublic ≠ [] := by
    intro hnil
    have hlength := hW.keyLength
    rw [hnil] at hlength
    cases hlength
  have hsig : hex (s.edSign (dssePae dssePayloadType (toVec (statement C b)))) ≠ "" := by
    intro hempty
    have hread := unhex_hex (s.edSign (dssePae dssePayloadType (toVec (statement C b))))
    rw [hempty] at hread
    have hlength := hW.signatureLength
    rw [← Option.some.inj (Except.ok.inj hread)] at hlength
    cases hlength
  have hkey : textOr "" (embeddedKey receipt) = C.encodeBase64 s.edPublic := by
    rw [hR.key]
    rfl
  -- the signature checks
  have hvalid : edVerify C (C.encodeBase64 s.edPublic) dssePayloadType
      (toVec (statement C b))
      (hex (s.edSign (dssePae dssePayloadType (toVec (statement C b))))) = .ok true := by
    simp only [edVerify, hW.key, hW.keyLength, hW.keyValid, unhex_hex]
    simp [hW.signatureLength, hW.verifies, pure, Except.pure, bind, Except.bind]
  have hverify : verifyReceiptWith C receipt trusted =
      .ok (reportOf C receipt trusted true) := by
    have htype : textOr dssePayloadType
        (do (← receipt.get? "dsse").get? "payloadType" : Option Value) = dssePayloadType := by
      rw [hR.payloadType]
      rfl
    have htext : textOr "" (do (← signature0 receipt).get? "sig" : Option Value) =
        hex (s.edSign (dssePae dssePayloadType (toVec (statement C b)))) := by
      rw [hR.signature]
      rfl
    have hfull : (toVec (statement C b)).isEmpty = false :=
      List.isEmpty_eq_false_iff.mpr hpayload
    simp only [verifyReceiptWith, htype, htext, hkey, hbytes, hfull, hvalid]
    rfl
  -- the payload attests the members it is compared with
  have hbinding : bindingConsistent C receipt = true := by
    simp [bindingConsistent, hpred, hR.output, hR.inputBlobs, hR.outputBlobs, Value.asStr?,
      predicate, Value.object]
  have hsigned : hasEd25519Signature receipt = true := by
    simp only [hasEd25519Signature, hR.signature, hR.key, hR.payload, Option.bind_some,
      Value.asStr?, Option.any_some, decide_eq_true hsig, decide_eq_true (hW.text _ hpublic),
      decide_eq_true (hW.text _ hpayload), Bool.and_self]
  have hok : (reportOf C receipt trusted true).ok = true := by
    cases trusted with
    | none => simp [VerifyReport.ok, reportOf, hbinding]
    | some set =>
        have hmem : C.encodeBase64 s.edPublic ∈ set := htrusted set rfl
        simp [VerifyReport.ok, reportOf, hbinding, hkey, hW.text _ hpublic, hmem]
  have hverdict : verdictOf receipt (reportOf C receipt trusted true) = .verified := by
    simp [verdictOf, hsigned, hok]
  rw [← hverdict, classifyWith, hverify]
  rfl

end AsBuilt

/-! ## What `Verified` means -/

/-- **What `Verified` means.**  A verified receipt carries a statement that a
trusted holder signed; the report and the top level say what that statement says
exactly when what nothing checks was left as built. -/
theorem verified_iff (C : Crypto) (trusted : List String) (signed : Binding → Prop)
    (hH : Holders C trusted signed) (receipt : Value) (rep : VerifyReport)
    (h : classifyWith C receipt (some trusted) = .ok (.verified, rep)) :
    ∃ b pk, signed b ∧ signedPredicate C receipt = some (predicate C b) ∧
      C.decodeBase64 (textOr "" (embeddedKey receipt)) = some pk ∧
      (MeansSigned C receipt rep (predicate C b) pk ↔
        Untouched C receipt (predicate C b) pk) := by
  obtain ⟨b, pk, hb, hpk, _, hpred⟩ := verified_genuine hH h
  obtain ⟨hrep, hok⟩ := ok_of_verified h
  obtain ⟨rfl, _, hbinding, _⟩ := checked_of_ok hrep hok
  obtain ⟨hout, hin, hblobs⟩ := bindingConsistent_some hpred hbinding
  refine ⟨b, pk, hb, hpred, hpk, ⟨fun hmeans => ?_, fun huntouched => ?_⟩⟩
  · exact
      { hermetic := hmeans.hermetic
        keyid := hmeans.keyid
        inputBlobs := Or.inl hmeans.inputBlobs
        outputBlobs := Or.inl hmeans.outputBlobs }
  · exact
      { hermetic := huntouched.hermetic
        keyid := huntouched.keyid
        output := hout
        inputBlobs := huntouched.inputBlobs.perm hin
        outputBlobs := huntouched.outputBlobs.perm hblobs }

/-! ## A receipt of the development signer -/

/-- The hash of the texts below. -/
def demoSha (bs : Bytes) : Bytes :=
  if bs = utf8 "echo 42" then
    [244, 21, 97, 67, 34, 148, 38, 199, 77, 225, 20, 215, 217, 98, 80, 173, 198, 202, 197,
      46, 234, 241, 232, 14, 209, 97, 2, 58, 196, 37, 195, 217]
  else if bs = utf8 "\x7b\x7d" then
    [68, 19, 111, 163, 85, 179, 103, 138, 17, 70, 173, 22, 247, 232, 100, 158, 148, 251, 79,
      194, 31, 231, 126, 131, 16, 192, 96, 246, 28, 170, 255, 138]
  else if bs = [] then
    [227, 176, 196, 66, 152, 252, 28, 20, 154, 251, 244, 200, 153, 111, 185, 36, 39, 174, 65,
      228, 100, 155, 147, 76, 164, 149, 153, 27, 120, 82, 184, 85]
  else
    [74, 100, 5, 36, 199, 174, 44, 151, 159, 59, 210, 220, 87, 138, 32, 110, 19, 84, 197, 203,
      93, 75, 123, 125, 18, 82, 152, 118, 247, 11, 80, 242]

theorem length_demoSha (bs : Bytes) : (demoSha bs).length = 32 := by
  unfold demoSha
  split_ifs <;> rfl

/-- The public key of the development seed. -/
def devPublic : Bytes :=
  [76, 77, 167, 123, 83, 65, 120, 160, 103, 138, 93, 235, 43, 51, 166, 177, 167, 73, 244,
    125, 174, 39, 142, 19, 62, 200, 215, 139, 251, 238, 147, 213]

/-- Its signature of the statement below. -/
def devSignature : Bytes :=
  [52, 74, 215, 74, 227, 12, 249, 147, 94, 159, 94, 162, 93, 172, 99, 17, 57, 174, 187, 26,
    222, 76, 60, 226, 172, 51, 94, 1, 63, 151, 220, 170, 63, 41, 224, 79, 231, 167, 243, 19,
    37, 218, 226, 111, 200, 81, 23, 167, 253, 187, 147, 102, 12, 122, 215, 87, 52, 235, 91,
    236, 107, 37, 128, 11]

def devMac : Bytes :=
  [117, 65, 252, 3, 102, 10, 0, 211, 138, 132, 93, 186, 143, 226, 72, 68, 251, 48, 161, 207,
    86, 105, 141, 191, 48, 110, 187, 47, 190, 16, 82, 136]

/-- A digit of the standard base64 alphabet. -/
def base64Digit (n : Nat) : Char :=
  if n < 26 then Char.ofNat (65 + n)
  else if n < 52 then Char.ofNat (71 + n)
  else if n < 62 then Char.ofNat (n - 4)
  else if n = 62 then '+'
  else '/'

/-- Standard base64 with padding. -/
def base64 : Bytes → List Char
  | [] => []
  | [a] =>
      let n := a.toNat * 16
      [base64Digit (n / 64), base64Digit (n % 64), '=', '=']
  | [a, b] =>
      let n := (a.toNat * 256 + b.toNat) * 4
      [base64Digit (n / 4096), base64Digit (n / 64 % 64), base64Digit (n % 64), '=']
  | a :: b :: c :: rest =>
      let n := (a.toNat * 256 + b.toNat) * 256 + c.toNat
      base64Digit (n / 262144) :: base64Digit (n / 4096 % 64) ::
        base64Digit (n / 64 % 64) :: base64Digit (n % 64) :: base64 rest

/-- Hashes with the real one at one message, and longer ones elsewhere, are
apart. -/
theorem marked_injective (m : Bytes) {t : Bytes} (ht : t.length % 2 = 0) :
    Function.Injective fun bs : Bytes => if bs = m then t else bs ++ bs ++ [0] := by
  intro a b h
  dsimp only at h
  split_ifs at h with ha hb hb
  · rw [ha, hb]
  · have hodd := congrArg List.length h
    simp only [List.length_append, List.length_singleton] at hodd
    omega
  · have hodd := congrArg List.length h
    simp only [List.length_append, List.length_singleton] at hodd
    omega
  · have hodd := congrArg List.length h
    simp only [List.length_append, List.length_singleton] at hodd
    exact (List.append_inj (List.append_cancel_right h) (by omega)).1

/-- A run of `echo 42` with the network on. -/
def demoBinding : Binding where
  runId := 1
  image := "alpine:3.20"
  source := "echo 42"
  input := .obj []
  result := none
  exitCode := 0
  network := true
  inputBlobs := none
  outputBlobs := none
  digest := "alpine:3.20"
  secretsGen := 0

/-- The functions on the texts of the run; `statement` uses the hash alone. -/
def demoHash : Crypto where
  sha256 := demoSha
  hmacSha256 _ _ := devMac
  encodeBase64 bs := String.ofList (base64 bs)
  decodeBase64 _ := none
  validKey _ := true
  verifyStrict _ _ _ := false
  fromSlice _ := none

def demoStatement : Value := statement demoHash demoBinding

def demoDecode (st : Value) (s : String) : Option Bytes :=
  if s.toList = base64 devPublic then some devPublic
  else if s.toList = base64 (toVec st) then some (toVec st)
  else none

/-- One signature of one message. -/
def demoVerify (st : Value) (signature pk msg sig : Bytes) : Bool :=
  pk = devPublic && sig = signature && msg = dssePae dssePayloadType (toVec st)

def demoSlice (st : Value) (bs : Bytes) : Option Value :=
  if bs = toVec st then some st else none

/-- The functions on one statement and its signature. -/
def demoSigned (st : Value) (signature : Bytes) : Crypto :=
  { demoHash with
    decodeBase64 := demoDecode st
    verifyStrict := demoVerify st signature
    fromSlice := demoSlice st }

def demo : Crypto := demoSigned demoStatement devSignature

def devSigner : Signer where
  key := utf8 "dokan-dev-receipt-key"
  edSign _ := devSignature
  edPublic := devPublic

def demoReceipt : Value := buildReceipt demo devSigner demoBinding

/-- A receipt with one member replaced. -/
def forge (k : String) (v : Value) : Value → Value
  | .obj m => .obj (Value.insertKey k v m)
  | receipt => receipt

/-- A trusted key. -/
def devKey : String := "TE2ne1NBeKBnil3rKzOmsadJ9H2uJ44TPsjXi/vuk9U="

section Signed

variable {st : Value} {signature : Bytes}

/-- The two agree on the hash. -/
theorem statement_demo (b : Binding) :
    statement (demoSigned st signature) b = statement demoHash b := rfl

theorem demo_encodeBase64 (bs : Bytes) :
    (demoSigned st signature).encodeBase64 bs = String.ofList (base64 bs) := rfl

theorem demo_decodeBase64 : (demoSigned st signature).decodeBase64 = demoDecode st := rfl

theorem demo_verifyStrict :
    (demoSigned st signature).verifyStrict = demoVerify st signature := rfl

theorem demo_fromSlice : (demoSigned st signature).fromSlice = demoSlice st := rfl

/-- The functions do on one statement what they are for. -/
theorem works_demoSigned {b : Binding} {s : Signer}
    (hne : base64 (toVec (statement demoHash b)) ≠ base64 devPublic)
    (hpublic : s.edPublic = devPublic)
    (hsign : s.edSign (dssePae dssePayloadType (toVec (statement demoHash b))) = signature)
    (hlength : signature.length = 64) :
    Works (demoSigned (statement demoHash b) signature) s b where
  text := by
    intro bs hbs hempty
    obtain ⟨b, bs, rfl⟩ := List.exists_cons_of_ne_nil hbs
    have hlist : base64 (b :: bs) = [] := by
      have h := congrArg String.toList hempty
      rwa [demo_encodeBase64, String.toList_ofList] at h
    rcases bs with _ | ⟨c, _ | ⟨d, bs⟩⟩ <;> cases hlist
  payload := by
    rw [statement_demo, demo_encodeBase64, demo_decodeBase64, demoDecode,
      String.toList_ofList, if_neg hne, if_pos rfl]
  key := by
    rw [hpublic, demo_encodeBase64, demo_decodeBase64, demoDecode, String.toList_ofList]
    exact if_pos rfl
  keyLength := by rw [hpublic]; rfl
  keyValid := rfl
  signatureLength := by rw [statement_demo, hsign, hlength]
  verifies := by
    rw [demo_verifyStrict, demoVerify, statement_demo, hsign, hpublic]
    simp
  parses := by
    rw [statement_demo, demo_fromSlice, demoSlice, if_pos rfl]

end Signed

theorem demo_works : Works demo devSigner demoBinding :=
  works_demoSigned (by decide +kernel) rfl rfl rfl

theorem demo_holders :
    Holders demo [devKey] (· = demoBinding) where
  unforgeable := by
    intro k _ pk _ msg sig hverify
    rw [demo, demo_verifyStrict, demoVerify, Bool.and_eq_true, decide_eq_true_eq] at hverify
    refine ⟨demoBinding, rfl, ?_⟩
    rw [demo, statement_demo]
    exact hverify.2
  parses := by
    rintro b rfl
    exact demo_works.parses

theorem devKey_eq : String.ofList (base64 devPublic) = devKey := by decide +kernel

theorem demo_trusts : Trusts demo devSigner (some [devKey]) :=
  trusts_some (List.mem_singleton.mpr devKey_eq)

/-- The statement holds of an honest receipt. -/
theorem verified_iff_demo :
    classifyWith demo demoReceipt (some [devKey]) =
        .ok (.verified, reportOf demo demoReceipt (some [devKey]) true) ∧
      ∃ b pk, b = demoBinding ∧ signedPredicate demo demoReceipt = some (predicate demo b) ∧
        demo.decodeBase64 (textOr "" (embeddedKey demoReceipt)) = some pk ∧
        (MeansSigned demo demoReceipt (reportOf demo demoReceipt (some [devKey]) true)
            (predicate demo b) pk ↔
          Untouched demo demoReceipt (predicate demo b) pk) := by
  have hverified : classifyWith demo demoReceipt (some [devKey]) =
      .ok (.verified, reportOf demo demoReceipt (some [devKey]) true) :=
    classifyWith_of_checked demo_works demo_trusts fun _ _ => rfl
  exact ⟨hverified, verified_iff demo [devKey] (· = demoBinding) demo_holders demoReceipt _
    hverified⟩

/-- The flag that says the run had no network, set on the receipt of a run that
had it, is shown by a verified report. -/
theorem not_verified_means_signed :
    ¬ ∀ (C : Crypto) (trusted : List String) (signed : Binding → Prop),
      Holders C trusted signed → ∀ (receipt : Value) (rep : VerifyReport),
        classifyWith C receipt (some trusted) = .ok (.verified, rep) →
        ∀ pred pk, signedPredicate C receipt = some pred →
          C.decodeBase64 (textOr "" (embeddedKey receipt)) = some pk →
          MeansSigned C receipt rep pred pk := by
  intro hall
  have hget : ∀ k, (forge "hermetic" (.bool true) demoReceipt).get? k =
      if k = "hermetic" then some (.bool true) else demoReceipt.get? k := by
    intro k
    exact Value.get?_insertKey ..
  have hsame : ∀ k ∈ checkedKeys,
      (forge "hermetic" (.bool true) demoReceipt).get? k = demoReceipt.get? k := by
    intro k hk
    rw [hget, if_neg]
    rintro rfl
    simp [checkedKeys] at hk
  have hverified := classifyWith_of_checked demo_works demo_trusts hsame
  obtain ⟨b, pk, rfl, hpk, _, hpred⟩ := verified_genuine demo_holders hverified
  have hmeans := (hall demo [devKey] (· = demoBinding) demo_holders _ _ hverified _ _ hpred
    hpk).hermetic
  simp [reportOf, hget, Value.asBool?, predicate, Value.object, demoBinding] at hmeans

end Dokan.Ports.Receipt
