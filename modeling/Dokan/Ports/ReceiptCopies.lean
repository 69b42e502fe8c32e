import Dokan.Verified.Machine
import Dokan.Ports.ReceiptComplete

/-!
# Whose receipt `verify` looks at

The `verify` tool and `verify_run` read the receipt off the row of the run they
are asked about and check it against itself.  The run id is in the signed
statement only, and neither of them compares it with the id of the row: a
receipt that was copied to another row verifies there.

The rows are written by executions, each of which stores the receipt it built
for its own run, and by someone who copies receipts between rows and can sign
nothing.  `Stored.origin` remembers which run's execution wrote a receipt.

## Main results

* `genuine_run` — every stored receipt was built for its origin.
* `verify_own_iff` — a row verifies as its own run's exactly if its receipt is
  its own, or the signer is not trusted at all.
* `not_verify_own` — a copied receipt is answered with `ok`.
-/

namespace Dokan.Ports.Receipt

open Dokan.Verified.Json
open Dokan.Verified.Machine
open Dokan.Verified.Framing (toString_inj)

abbrev RunId := Int

/-! ## The two tools -/

/-- What the `verify` tool answers. -/
structure VerifyReply where
  runId : RunId
  ok : Bool
  ed25519Valid : Bool
  hmacValid : Bool
  bindingConsistent : Bool
  hermetic : Bool
  deterministic : Bool
  keyid : String
  trustEnforced : Bool
  pinned : Bool

/-- The receipts of the rows of `runs`. -/
abbrev Column := RunId → Option Value

/-- `receipt.get("deterministic")`, false if it is no boolean. -/
def deterministic (receipt : Value) : Bool :=
  ((receipt.get? "deterministic").bind Value.asBool?).getD false

def verifyReply (runId : RunId) (receipt : Value) (rep : VerifyReport) (hmacValid : Bool) :
    VerifyReply where
  runId
  ok := rep.ok && hmacValid
  ed25519Valid := rep.ed25519Valid
  hmacValid
  bindingConsistent := rep.bindingConsistent
  hermetic := rep.hermetic
  deterministic := deterministic receipt
  keyid := rep.keyid
  trustEnforced := rep.trustEnforced
  pinned := rep.pinned

/-- `Dokan::verify`; there is no answer without a receipt. -/
def verify (C : Crypto) (s : Signer) (trusted : Option (List String)) (column : Column)
    (runId : RunId) : Except Panic (Option VerifyReply) :=
  match column runId with
  | none => return none
  | some receipt => do
      let rep ← verifyReceiptWith C receipt trusted
      return some (verifyReply runId receipt rep (verifyHmac C s receipt))

/-- What `verify_run` answers. -/
structure VerifyRunReply where
  runId : RunId
  ok : Bool
  ed25519Valid : Bool
  bindingConsistent : Bool
  hermetic : Bool
  deterministic : Bool
  keyid : String
  trustEnforced : Bool
  pinned : Bool

def verifyRunReply (runId : RunId) (receipt : Value) (rep : VerifyReport) :
    VerifyRunReply where
  runId
  ok := rep.ok
  ed25519Valid := rep.ed25519Valid
  bindingConsistent := rep.bindingConsistent
  hermetic := rep.hermetic
  deterministic := deterministic receipt
  keyid := rep.keyid
  trustEnforced := rep.trustEnforced
  pinned := rep.pinned

theorem verifyReply_ok (r : RunId) (receipt : Value) (rep : VerifyReport) (hmacValid : Bool) :
    (verifyReply r receipt rep hmacValid).ok = (rep.ok && hmacValid) := rfl

theorem verifyRunReply_ok (r : RunId) (receipt : Value) (rep : VerifyReport) :
    (verifyRunReply r receipt rep).ok = rep.ok := rfl

/-- `http::verify_run`: the same without the key of the daemon. -/
def verifyRun (C : Crypto) (trusted : Option (List String)) (column : Column)
    (runId : RunId) : Except Panic (Option VerifyRunReply) :=
  match column runId with
  | none => return none
  | some receipt => do
      let rep ← verifyReceiptWith C receipt trusted
      return some (verifyRunReply runId receipt rep)

/-- The run the signed statement inside a receipt is about. -/
def signedInvocation (C : Crypto) (receipt : Value) : Option String := do
  let invocation ← (← signedPredicate C receipt).get? "invocation"
  (← invocation.get? "invocationId").asStr?

/-! ## The rows and who writes them -/

/-- A receipt and the run whose execution stored it first. -/
structure Stored where
  receipt : Value
  origin : RunId

/-- The rows that have a receipt. -/
abbrev Rows := RunId → Option Stored

/-- What the tools see of the rows. -/
def Rows.column (t : Rows) : Column := fun r => (t r).map Stored.receipt

inductive Write
  /-- an execution stores the receipt it built -/
  | execute (b : Binding)
  /-- a receipt, or none, is copied over -/
  | copy (src dst : RunId)

def write (C : Crypto) (s : Signer) (t : Rows) : Write → Option Rows
  | .execute b =>
      some (Function.update t b.runId (some ⟨buildReceipt C s b, b.runId⟩))
  | .copy src dst => some (Function.update t dst (t src))

/-- No run has a receipt yet. -/
def Rows.empty : Rows := fun _ => none

/-- The functions work on what an execution signs. -/
def Executes (C : Crypto) (s : Signer) : Write → Prop
  | .execute b => Works C s b ∧ b.Typed
  | .copy _ _ => True

/-- The receipt was built for its origin. -/
def Genuine (C : Crypto) (s : Signer) (t : Rows) : Prop :=
  ∀ r stored, t r = some stored → ∃ b : Binding, b.runId = stored.origin ∧
    stored.receipt = buildReceipt C s b ∧ Works C s b ∧ b.Typed

section Column

variable {C : Crypto} {s : Signer} {trusted : Option (List String)} {t : Rows}

theorem Genuine.write {a : Write} {t' : Rows} (hG : Genuine C s t) (ha : Executes C s a)
    (h : Receipt.write C s t a = some t') : Genuine C s t' := by
  intro r stored hstored
  cases a with
  | execute b =>
      cases h
      by_cases hr : r = b.runId
      · subst hr
        rw [Function.update_self] at hstored
        cases hstored
        exact ⟨b, rfl, rfl, ha.1, ha.2⟩
      · rw [Function.update_of_ne hr] at hstored
        exact hG r stored hstored
  | copy src dst =>
      cases h
      by_cases hr : r = dst
      · subst hr
        rw [Function.update_self] at hstored
        exact hG src stored hstored
      · rw [Function.update_of_ne hr] at hstored
        exact hG r stored hstored

/-- **Every stored receipt was built for its origin**, wherever it was copied. -/
theorem genuine_run {l : List Write} (hl : ∀ a ∈ l, Executes C s a)
    (h : run (Receipt.write C s) Rows.empty l = some t) : Genuine C s t := by
  have hstart : ∀ l (t : Rows), (∀ a ∈ l, Executes C s a) → Genuine C s t →
      ∀ t', run (Receipt.write C s) t l = some t' → Genuine C s t' := by
    intro l
    induction l with
    | nil =>
        intro t _ hG t' h
        cases h
        exact hG
    | cons a l ih =>
        intro t hl hG t' h
        obtain ⟨m, hm, hrest⟩ := run_cons_some h
        exact ih m (fun a' ha' => hl a' (List.mem_cons_of_mem a ha'))
          (hG.write (hl a List.mem_cons_self) hm) t' hrest
  refine hstart l Rows.empty hl ?_ t h
  intro r stored hstored
  cases hstored

/-- The statement of a receipt as built is about the run it was built for. -/
theorem signedInvocation_buildReceipt {b : Binding} (hW : Works C s b) :
    signedInvocation C (buildReceipt C s b) = some (toString b.runId) := by
  have hbytes : payloadBytes C (buildReceipt C s b) = toVec (statement C b) :=
    payloadBytes_of_readsBack hW (readsBack fun _ _ => rfl)
  have hpred := signedPredicate_of_payload hbytes hW.parses
  simp [signedInvocation, hpred, predicate, Value.object, Value.asStr?]

theorem verify_eq {column : Column} {r : RunId} {receipt : Value} {rep : VerifyReport}
    (hcolumn : column r = some receipt) (hrep : verifyReceiptWith C receipt trusted = .ok rep) :
    verify C s trusted column r =
      .ok (some (verifyReply r receipt rep (verifyHmac C s receipt))) := by
  rw [verify, hcolumn]
  simp only [hrep]
  rfl

theorem verifyRun_eq {column : Column} {r : RunId} {receipt : Value} {rep : VerifyReport}
    (hcolumn : column r = some receipt) (hrep : verifyReceiptWith C receipt trusted = .ok rep) :
    verifyRun C trusted column r = .ok (some (verifyRunReply r receipt rep)) := by
  rw [verifyRun, hcolumn]
  simp only [hrep]
  rfl

/-- A receipt as built is answered with `ok` by both tools, on whatever row it
stands. -/
theorem verify_of_genuine {r : RunId} {stored : Stored} {b : Binding}
    (htrusted : Trusts C s trusted) (hr : t r = some stored)
    (hb : stored.receipt = buildReceipt C s b) (hW : Works C s b) (htyped : b.Typed) :
    (∃ rep, verify C s trusted t.column r = .ok (some rep) ∧ rep.ok = true) ∧
      ∃ rep, verifyRun C trusted t.column r = .ok (some rep) ∧ rep.ok = true := by
  obtain ⟨hrep, hok⟩ := ok_of_verified (classifyWith_buildReceipt hW htrusted)
  have hcolumn : t.column r = some (buildReceipt C s b) := by
    rw [Rows.column, hr, Option.map_some, hb]
  have hmac := verifyHmac_buildReceipt C s htyped
  refine ⟨⟨_, verify_eq hcolumn hrep, ?_⟩, ⟨_, verifyRun_eq hcolumn hrep, ?_⟩⟩
  · rw [verifyReply_ok, hmac, hok]
    rfl
  · rw [verifyRunReply_ok, hok]

/-- A receipt under a key that is not trusted is not answered with `ok`. -/
theorem trusts_of_ok {b : Binding} {rep : VerifyReport}
    (h : verifyReceiptWith C (buildReceipt C s b) trusted = .ok rep) (hok : rep.ok = true) :
    Trusts C s trusted := by
  intro set hset
  subst hset
  obtain ⟨_, _, _, hmem⟩ := checked_of_ok h hok
  have hR : ReadsBack C s b (buildReceipt C s b) := readsBack fun _ _ => rfl
  rw [hR.key] at hmem
  exact hmem

end Column

/-! ## Whose receipt it is -/

/-- Whatever `verify` answers `ok` to for run `r` was signed for run `r`. -/
def VerifyOwn (C : Crypto) (s : Signer) (trusted : Option (List String)) (column : Column)
    (r : RunId) : Prop :=
  ∀ rep receipt, verify C s trusted column r = .ok (some rep) → rep.ok = true →
    column r = some receipt → signedInvocation C receipt = some (toString r)

/-- The same of `verify_run`. -/
def VerifyRunOwn (C : Crypto) (trusted : Option (List String)) (column : Column)
    (r : RunId) : Prop :=
  ∀ rep receipt, verifyRun C trusted column r = .ok (some rep) → rep.ok = true →
    column r = some receipt → signedInvocation C receipt = some (toString r)

/-- The receipt on the row of `r`, if there is one and its key is trusted, was
stored first by an execution of `r`. -/
def Own (C : Crypto) (s : Signer) (trusted : Option (List String)) (t : Rows) (r : RunId) :
    Prop :=
  Trusts C s trusted → ∀ stored, t r = some stored → stored.origin = r

/-- **Whose receipt verifies.**  After any executions and any copying of
receipts between rows, in any order: both tools answer `ok` for a run only to a
statement signed for it exactly if the receipt on its row is its own. -/
theorem verify_own_iff (C : Crypto) (s : Signer) (trusted : Option (List String))
    (l : List Write) (t : Rows) (hl : ∀ a ∈ l, Executes C s a)
    (h : run (write C s) Rows.empty l = some t) (r : RunId) :
    (VerifyOwn C s trusted t.column r ↔ Own C s trusted t r) ∧
      (VerifyRunOwn C trusted t.column r ↔ Own C s trusted t r) := by
  have hG := genuine_run hl h
  have hforward : ∀ stored, t r = some stored → Trusts C s trusted →
      signedInvocation C stored.receipt = some (toString r) → stored.origin = r := by
    intro stored hr _ hsigned
    obtain ⟨b, hb, hreceipt, hW, _⟩ := hG r stored hr
    rw [hreceipt, signedInvocation_buildReceipt hW] at hsigned
    rw [← hb]
    exact toString_inj (Option.some.inj hsigned)
  have hback : ∀ receipt, t.column r = some receipt → ∀ rep,
      verifyReceiptWith C receipt trusted = .ok rep → rep.ok = true → Own C s trusted t r →
      signedInvocation C receipt = some (toString r) := by
    intro receipt hcolumn rep hrep hok hown
    obtain ⟨stored, hr, rfl⟩ := Option.map_eq_some_iff.mp hcolumn
    obtain ⟨b, hb, hreceipt, hW, _⟩ := hG r stored hr
    rw [hreceipt] at hrep ⊢
    rw [signedInvocation_buildReceipt hW, hb, hown (trusts_of_ok hrep hok) stored hr]
  refine ⟨⟨fun hverify htrusted stored hr => ?_, fun hown rep receipt hrep hok hcolumn => ?_⟩,
    ⟨fun hverify htrusted stored hr => ?_, fun hown rep receipt hrep hok hcolumn => ?_⟩⟩
  · obtain ⟨b, _, hreceipt, hW, htyped⟩ := hG r stored hr
    obtain ⟨⟨rep, hrep, hok⟩, _⟩ := verify_of_genuine htrusted hr hreceipt hW htyped
    exact hforward stored hr htrusted
      (hverify rep _ hrep hok (by rw [Rows.column, hr, Option.map_some]))
  · rw [verify, hcolumn] at hrep
    obtain ⟨report, hreport, hreply⟩ := bind_eq_ok hrep
    cases hreply
    exact hback receipt hcolumn report hreport (Bool.and_eq_true_iff.mp hok).1 hown
  · obtain ⟨b, _, hreceipt, hW, htyped⟩ := hG r stored hr
    obtain ⟨_, rep, hrep, hok⟩ := verify_of_genuine htrusted hr hreceipt hW htyped
    exact hforward stored hr htrusted
      (hverify rep _ hrep hok (by rw [Rows.column, hr, Option.map_some]))
  · rw [verifyRun, hcolumn] at hrep
    obtain ⟨report, hreport, hreply⟩ := bind_eq_ok hrep
    cases hreply
    exact hback receipt hcolumn report hreport hok hown

/-! ## A copied receipt -/

/-- Run 1 is executed and its receipt copied to run 2. -/
def copied : List Write := [.execute demoBinding, .copy 1 2]

theorem copied_executes : ∀ a ∈ copied, Executes demo devSigner a := by
  intro a ha
  rcases List.mem_cons.mp ha with rfl | ha
  · exact ⟨demo_works, demo_typed⟩
  · cases List.mem_singleton.mp ha
    trivial

/-- The rows after the execution. -/
def executedRows : Rows := Function.update Rows.empty 1 (some ⟨demoReceipt, 1⟩)

/-- The rows after the copy. -/
def copiedRows : Rows := Function.update executedRows 2 (executedRows 1)

theorem copied_runs : run (write demo devSigner) Rows.empty copied = some copiedRows := rfl

theorem copiedRows_copy : copiedRows 2 = some ⟨demoReceipt, 1⟩ := by
  rw [copiedRows, Function.update_self, executedRows, Function.update_self]

/-- The statement at both rows: run 1 has its own receipt, run 2 has not. -/
theorem verify_own_iff_copied :
    ((VerifyOwn demo devSigner (some [devKey]) copiedRows.column 1 ↔
          Own demo devSigner (some [devKey]) copiedRows 1) ∧
        (VerifyRunOwn demo (some [devKey]) copiedRows.column 1 ↔
          Own demo devSigner (some [devKey]) copiedRows 1)) ∧
      (VerifyOwn demo devSigner (some [devKey]) copiedRows.column 2 ↔
          Own demo devSigner (some [devKey]) copiedRows 2) ∧
        (VerifyRunOwn demo (some [devKey]) copiedRows.column 2 ↔
          Own demo devSigner (some [devKey]) copiedRows 2) :=
  ⟨verify_own_iff demo devSigner _ copied copiedRows copied_executes copied_runs 1,
    verify_own_iff demo devSigner _ copied copiedRows copied_executes copied_runs 2⟩

/-- Run 2 is answered `ok`, by both tools, to the statement of run 1. -/
theorem not_verify_own :
    ¬ ∀ (C : Crypto) (s : Signer) (trusted : Option (List String)) (l : List Write)
        (t : Rows), (∀ a ∈ l, Executes C s a) → run (write C s) Rows.empty l = some t →
        ∀ r, VerifyOwn C s trusted t.column r ∧ VerifyRunOwn C trusted t.column r := by
  intro hall
  have hcolumn : copiedRows.column 2 = some demoReceipt := by
    rw [Rows.column, copiedRows_copy, Option.map_some]
  obtain ⟨⟨rep, hrep, hok⟩, _⟩ :=
    verify_of_genuine demo_trusts copiedRows_copy rfl demo_works demo_typed
  have hsigned := (hall demo devSigner (some [devKey]) copied copiedRows copied_executes
    copied_runs 2).1 rep demoReceipt hrep hok hcolumn
  rw [demoReceipt, signedInvocation_buildReceipt demo_works] at hsigned
  have hsame : (1 : Int) = 2 := toString_inj (Option.some.inj hsigned)
  cases hsame

end Dokan.Ports.Receipt
