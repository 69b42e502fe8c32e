import Dokan.Ports.ReceiptVerify

/-!
# A receipt as built passes both verifiers

`build_receipt` writes the bound values three times: into the text under the
HMAC, at the top level and into the signed statement.  `verify_hmac` rebuilds
the text from the top level, `classify_with` compares the top level with the
decoded statement.  A run without a result, a blob map that is null or no
object and a negative exit code read the same in all three.

## Main results

* `verifyHmac_buildReceipt` — the key that signed accepts.
* `receipt_complete` — so does the public verifier, with no trust anchor and
  with every trust anchor that has the key.
-/

namespace Dokan.Ports.Receipt

open Dokan.Verified.Json

/-- The values of an `i64`. -/
def I64 (n : Int) : Prop := -2 ^ 63 ≤ n ∧ n < 2 ^ 63

instance (n : Int) : Decidable (I64 n) := inferInstanceAs (Decidable (_ ∧ _))

/-- The numbers `build_receipt` is called with are of their type. -/
structure Binding.Typed (b : Binding) : Prop where
  exitCode : I64 b.exitCode
  secretsGen : I64 b.secretsGen

/-- A blob map is rendered as the receipt that leaves it out renders it. -/
theorem canonicalInputBlobs_getD (blobs : Option Value) :
    canonicalInputBlobs (some (blobs.getD .null)) = canonicalInputBlobs blobs := by
  cases blobs with
  | none => rfl
  | some v => rfl

/-- `verify_hmac` accepts what the same key has sealed. -/
theorem verifyHmac_buildReceipt (C : Crypto) (s : Signer) {b : Binding} (hb : b.Typed) :
    verifyHmac C s (buildReceipt C s b) = true := by
  have hgen : (Value.num (.int b.secretsGen)).asI64? = some b.secretsGen := if_pos hb.secretsGen
  have hexit : (Value.num (.int b.exitCode)).asI64? = some b.exitCode := if_pos hb.exitCode
  simp [verifyHmac, buildReceipt, Value.object, Value.asStr?, Value.asBool?, hgen, hexit,
    canonicalInputBlobs_getD]

/-- `classify_with` accepts a receipt as built. -/
theorem classifyWith_buildReceipt {C : Crypto} {s : Signer} {b : Binding}
    {trusted : Option (List String)} (hW : Works C s b) (htrusted : Trusts C s trusted) :
    classifyWith C (buildReceipt C s b) trusted =
      .ok (.verified, reportOf C (buildReceipt C s b) trusted true) :=
  classifyWith_of_checked hW htrusted fun _ _ => rfl

/-- **Receipts are complete.**  The receipt of any run is accepted by the key
that signed it, and verified without a trust anchor and with any that has the
public key. -/
theorem receipt_complete (C : Crypto) (s : Signer) (b : Binding) (hb : b.Typed)
    (hW : Works C s b) :
    verifyHmac C s (buildReceipt C s b) = true ∧
      (∃ rep, classifyWith C (buildReceipt C s b) none = .ok (.verified, rep)) ∧
      ∀ set, C.encodeBase64 s.edPublic ∈ set →
        ∃ rep, classifyWith C (buildReceipt C s b) (some set) = .ok (.verified, rep) := by
  have hverified : ∀ trusted, Trusts C s trusted →
      ∃ rep, classifyWith C (buildReceipt C s b) trusted = .ok (.verified, rep) := by
    intro trusted htrusted
    exact ⟨_, classifyWith_buildReceipt hW htrusted⟩
  refine ⟨verifyHmac_buildReceipt C s hb, hverified none ?_, ?_⟩
  · intro set hset
    cases hset
  · intro set hmem
    exact hverified (some set) (trusts_some hmem)

theorem demo_typed : demoBinding.Typed where
  exitCode := by decide
  secretsGen := by decide

/-- The statement at a run of `echo 42` without a result, and its signature. -/
theorem receipt_complete_demo :
    verifyHmac demo devSigner demoReceipt = true ∧
      (∃ rep, classifyWith demo demoReceipt none = .ok (.verified, rep)) ∧
      ∀ set, demo.encodeBase64 devSigner.edPublic ∈ set →
        ∃ rep, classifyWith demo demoReceipt (some set) = .ok (.verified, rep) :=
  receipt_complete demo devSigner demoBinding demo_typed demo_works

end Dokan.Ports.Receipt
