import Dokan.Ports.CronTick
import Dokan.Ports.Enqueue
import Dokan.Ports.ReceiptVerify
import Dokan.Ports.RunScript

/-!
# Who shares a run

Webhook deliveries, schedule ticks and callers of `run_script` insert into one
table, under one unique index.  The daemon makes the keys of the first two, and
makes them so that two tokens or two schedules never meet.  A caller's key is
used as it is, and an insert that meets it looks at nothing else: neither at the
script nor at the agent, and a caller may even choose the key of a tick.

Rows of `webhooks` and `schedules` are never updated, and a token is drawn once;
the tables here are all rows there ever are.

## Main results

* `webhookIdempotencyKey_token`, `tickKey_id` — a key of the daemon determines
  its source.
* `recalled_source` — who may be answered with whose run, and which requests
  keep the sources apart.
-/

namespace Dokan.Ports.EnqueueSources

open Dokan.Verified
open Dokan.Verified.Framing
open Dokan.Verified.Json
open Dokan.Verified.KeyedInsert
open Dokan.Ports.AgentQuota (Refusal)
open Dokan.Ports.CronTick (Schedule tickKey)
open Dokan.Ports.Enqueue (RunRequest)
open Dokan.Ports.Receipt
open Dokan.Ports.RunRow
open Dokan.Ports.RunScript (RunArgs World)

/-! ## Webhooks -/

/-- A row of `webhooks`. -/
structure Webhook where
  targetKind : String
  targetId : Int
  agentId : Option String

/-- Header names, in lower case, and values. -/
abbrev HeaderMap := List (String × Bytes)

/-- `HeaderValue::to_str`. -/
def toStr (v : Bytes) : Option (List Char) :=
  if v.all fun b => (32 ≤ b && b < 127) || b = 9 then some (v.map fun b => Char.ofNat b.toNat)
  else none

/-- `headers.get(h)`, read and trimmed; an empty value counts as none. -/
def deliveryId (headers : HeaderMap) (h : String) : Option String :=
  (((headers.find? fun p => p.1 = h).bind fun p => toStr p.2).map PumpLogs.trim).bind fun v =>
    if v.isEmpty then none else some (String.ofList v)

def deliveryHeaders : List String :=
  ["idempotency-key", "x-idempotency-key", "x-github-delivery", "x-request-id"]

/-- `webhook_idempotency_key`. -/
def webhookIdempotencyKey (C : Crypto) (token : String) (headers : HeaderMap) (body : Bytes) :
    String :=
  match deliveryHeaders.findSome? fun h => (deliveryId headers h).map fun v => (h, v) with
  | some (h, v) => s!"wh:{token}:{h}:{v}"
  | none =>
      let digest := sha256Hex C (utf8 token ++ 31 :: body)
      s!"wh:{token}:body:{digest}"

/-- A byte of a token: alphanumeric, `-` or `_`. -/
def tokenByte (b : UInt8) : Bool :=
  (48 ≤ b && b ≤ 57) || (65 ≤ b && b ≤ 90) || (97 ≤ b && b ≤ 122) || b = 45 || b = 95

/-- `is_well_formed_webhook_token`. -/
def isWellFormedWebhookToken (t : String) : Bool :=
  6 ≤ (utf8 t).length && (utf8 t).length ≤ 128 && (utf8 t).all tokenByte

/-! ## The requests -/

/-- The rows a producer looks up. -/
structure Registry extends World where
  webhooks : String → Option Webhook
  schedules : Int → Option Schedule
  schedule_id : ∀ id s, schedules id = some s → s.id = id

/-- What comes in. -/
inductive Producer
  | webhookFire (token : String) (headers : HeaderMap) (body : Bytes)
  /-- a tick, and what the quota says to it -/
  | enqueueTick (scheduleId tickEpoch : Int) (refusal : Option Refusal)
  /-- a call of `run_script` that has come to its insert -/
  | runScript (a : RunArgs) (inputBlobs : Option Value)

/-- Where it comes from. -/
inductive Source
  | webhook (token : String)
  | schedule (id : Int)
  | caller (agent : String) (key : Option String)
deriving DecidableEq

def Producer.source : Producer → Source
  | .webhookFire token _ _ => .webhook token
  | .enqueueTick id _ _ => .schedule id
  | .runScript a _ => .caller a.aid a.idempotencyKey

/-- The insert of a delivery to a webhook of a script. -/
def Registry.webhookFire (R : Registry) (token : String) (headers : HeaderMap) (body : Bytes) :
    Option RunRequest :=
  if isWellFormedWebhookToken token then
    (R.webhooks token).bind fun w =>
      if w.targetKind = "flow" then none
      else
        let key := webhookIdempotencyKey R.crypto token headers body
        some (.insertRunIdempotent
          { scriptId := w.targetId
            input := (R.crypto.fromSlice body).getD
              (.obj [("raw", .str (String.ofList (Utf8.lossy body)))])
            agentId := w.agentId, inputBlobs := none, captureOutput := false
            idempotencyKey := some key } key)
  else none

/-- The insert of a tick; the quota is that of an agent. -/
def enqueueTick (s : Schedule) (tickEpoch : Int) (refusal : Option Refusal) :
    Option RunRequest :=
  let key := if s.idempotency then some (tickKey s.id tickEpoch) else none
  match refusal with
  | some refusal =>
      if s.agentId.isSome then some (.insertRefusedRun (s.newRun key) refusal.reason key)
      else none
  | none =>
      match key with
      | some k => some (.insertRunIdempotent (s.newRun key) k)
      | none => some (.insertRunWithBlobs (s.newRun key))

/-- The insert of a call of `run_script`. -/
def runScript (W : World) (a : RunArgs) (inputBlobs : Option Value) : Option RunRequest :=
  if a.aid.toList.isEmpty then none
  else
    match a.idempotencyKey with
    | some k => some (.insertRunIdempotent (a.newRun W inputBlobs) k)
    | none => some (.insertRunWithBlobs (a.newRun W inputBlobs))

/-- The insert a producer makes, if it makes one. -/
def Registry.enqueue (R : Registry) : Producer → Option RunRequest
  | .webhookFire token headers body => R.webhookFire token headers body
  | .enqueueTick id tickEpoch refusal =>
      (R.schedules id).bind fun s => enqueueTick s tickEpoch refusal
  | .runScript a inputBlobs => runScript R.toWorld a inputBlobs

/-- An insert and who makes it. -/
structure Request (R : Registry) where
  producer : Producer
  insert : RunRequest
  made : R.enqueue producer = some insert

variable {R : Registry}

def Request.scriptId (q : Request R) : Int := q.insert.columns.scriptId

def Request.key (q : Request R) : Option String := q.insert.columns.idempotencyKey

/-- The request is a call of `run_script`. -/
def Request.isCaller (q : Request R) : Prop := ∃ a blobs, q.producer = .runScript a blobs

/-- One script, and one source. -/
def SameSource (q q' : Request R) : Prop :=
  q.scriptId = q'.scriptId ∧ q.producer.source = q'.producer.source

/-- `runs`, with the requests of this daemon. -/
def sourcesTable (R : Registry) : Table (Request R) String Empty Empty where
  key := Request.key
  recalls q := q.insert.recalls
  children _ := []
  childId := id

/-- The calls on `runs`. -/
abbrev Calls (R : Registry) := State (Request R) Nat Empty

/-! ## What a request is made of -/

theorem Request.webhookFire {q : Request R} {token : String} {headers : HeaderMap} {body : Bytes}
    (hq : q.producer = .webhookFire token headers body) :
    ∃ w, R.webhooks token = some w ∧ isWellFormedWebhookToken token = true ∧
      q.scriptId = w.targetId ∧
      q.key = some (webhookIdempotencyKey R.crypto token headers body) := by
  have hmade := q.made
  rw [hq] at hmade
  simp only [Registry.enqueue, Registry.webhookFire] at hmade
  split_ifs at hmade with hform
  obtain ⟨w, hw, hins⟩ := Option.bind_eq_some_iff.mp hmade
  split_ifs at hins
  have hins := Option.some.inj hins
  refine ⟨w, hw, hform, ?_, ?_⟩
  · rw [Request.scriptId, ← hins]
    rfl
  · rw [Request.key, ← hins]
    rfl

theorem Request.enqueueTick {q : Request R} {id tickEpoch : Int} {refusal : Option Refusal}
    (hq : q.producer = .enqueueTick id tickEpoch refusal) :
    ∃ s, R.schedules id = some s ∧ q.scriptId = s.scriptId ∧
      ∀ k, q.key = some k → k = tickKey id tickEpoch := by
  have hmade := q.made
  rw [hq] at hmade
  obtain ⟨s, hs, hins⟩ := Option.bind_eq_some_iff.mp hmade
  obtain rfl := R.schedule_id id s hs
  refine ⟨s, hs, ?_⟩
  simp only [EnqueueSources.enqueueTick] at hins
  -- a schedule without `idempotency` has no key
  have hkey : ∀ k, (if s.idempotency then some (tickKey s.id tickEpoch) else none) = some k →
      k = tickKey s.id tickEpoch := by
    intro k hk
    split_ifs at hk
    exact (Option.some.inj hk).symm
  generalize (if s.idempotency then some (tickKey s.id tickEpoch) else none) = key at hins hkey
  rw [Request.scriptId, Request.key]
  cases refusal with
  | some refusal =>
      split_ifs at hins
      rw [← Option.some.inj hins]
      exact ⟨rfl, hkey⟩
  | none =>
      cases key with
      | some k₀ =>
          rw [← Option.some.inj hins]
          exact ⟨rfl, hkey⟩
      | none =>
          rw [← Option.some.inj hins]
          exact ⟨rfl, hkey⟩

theorem Request.runScript {q : Request R} {a : RunArgs} {blobs : Option Value}
    (hq : q.producer = .runScript a blobs) :
    q.scriptId = a.scriptId ∧ q.key = a.idempotencyKey ∧
      q.insert.recalls = a.idempotencyKey.isSome := by
  have hmade := q.made
  rw [hq] at hmade
  simp only [Registry.enqueue, EnqueueSources.runScript] at hmade
  split_ifs at hmade
  rw [Request.scriptId, Request.key]
  cases hkey : a.idempotencyKey with
  | some k =>
      rw [hkey] at hmade
      rw [← Option.some.inj hmade]
      exact ⟨rfl, rfl, rfl⟩
  | none =>
      rw [hkey] at hmade
      rw [← Option.some.inj hmade]
      exact ⟨rfl, rfl, rfl⟩

/-! ## Keys the daemon makes -/

/-- The colon that closes a token is the first one after `wh:`. -/
theorem colon_not_mem_token {t : String} (h : isWellFormedWebhookToken t = true) :
    ':' ∉ t.toList := by
  intro hc
  have hbyte : (58 : UInt8) ∈ utf8 t := by
    rw [← String.ofList_toList (s := t), utf8_ofList]
    exact List.mem_flatMap.mpr ⟨':', hc, by decide⟩
  have hall : (utf8 t).all tokenByte = true := by
    simp only [isWellFormedWebhookToken, Bool.and_eq_true] at h
    exact h.2
  have htok := List.all_eq_true.mp hall 58 hbyte
  exact absurd htok (by decide)

/-- No decimal has a colon. -/
theorem colon_not_mem_toString (n : Int) : ':' ∉ (toString n).toList := by
  have hdigits : ∀ a : Nat, ':' ∉ Nat.toDigits 10 a := by
    intro a ha
    exact absurd (digit_of_mem_toDigits ha).2 (by decide)
  cases n with
  | ofNat a =>
      have hlist : (toString (Int.ofNat a)).toList = Nat.toDigits 10 a := Nat.toList_repr
      rw [hlist]
      exact hdigits a
  | negSucc a =>
      show ':' ∉ ("-" ++ Nat.repr (a + 1)).toList
      rw [String.toList_append, Nat.toList_repr]
      simpa using hdigits (a + 1)

theorem toList_webhookIdempotencyKey (C : Crypto) (token : String) (headers : HeaderMap)
    (body : Bytes) : ∃ rest, (webhookIdempotencyKey C token headers body).toList =
      "wh:".toList ++ (token.toList ++ ':' :: rest) := by
  unfold webhookIdempotencyKey
  split
  · next h v _ =>
      refine ⟨h.toList ++ ':' :: v.toList, ?_⟩
      simp only [String.toList_append, List.append_assoc]
      rfl
  · refine ⟨"body:".toList ++ (sha256Hex C (utf8 token ++ 31 :: body)).toList, ?_⟩
    simp only [String.toList_append, List.append_assoc]
    rfl

theorem toList_tickKey (id tickEpoch : Int) : (tickKey id tickEpoch).toList =
    "schedule:".toList ++ ((toString id).toList ++ ':' :: (toString tickEpoch).toList) := by
  simp only [tickKey, String.toList_append, List.append_assoc]
  rfl

/-- **Two webhooks never collide.** -/
theorem webhookIdempotencyKey_token {C : Crypto} {t t' : String} {hs hs' : HeaderMap}
    {b b' : Bytes} (ht : isWellFormedWebhookToken t = true)
    (ht' : isWellFormedWebhookToken t' = true)
    (h : webhookIdempotencyKey C t hs b = webhookIdempotencyKey C t' hs' b') : t = t' := by
  obtain ⟨rest, hrest⟩ := toList_webhookIdempotencyKey C t hs b
  obtain ⟨rest', hrest'⟩ := toList_webhookIdempotencyKey C t' hs' b'
  have hlist := List.append_cancel_left ((hrest.symm.trans (congrArg _ h)).trans hrest')
  have hcut := append_cons_inj (p := fun c => c ≠ ':')
    (fun c hc heq => colon_not_mem_token ht (heq ▸ hc))
    (fun c hc heq => colon_not_mem_token ht' (heq ▸ hc)) (by simp) (by simp) hlist
  exact String.toList_inj.mp hcut.1

/-- **Two schedules never collide**, nor two ticks of one schedule. -/
theorem tickKey_id {id id' e e' : Int} (h : tickKey id e = tickKey id' e') :
    id = id' ∧ e = e' := by
  have hlist : _ = _ := congrArg String.toList h
  rw [toList_tickKey, toList_tickKey] at hlist
  have hcut := append_cons_inj (p := fun c => c ≠ ':')
    (fun c hc heq => colon_not_mem_toString id (heq ▸ hc))
    (fun c hc heq => colon_not_mem_toString id' (heq ▸ hc)) (by simp) (by simp)
    (List.append_cancel_left hlist)
  exact ⟨toString_inj (String.toList_inj.mp hcut.1),
    toString_inj (String.toList_inj.mp hcut.2.2)⟩

/-- A delivery and a tick never collide. -/
theorem webhookIdempotencyKey_ne_tickKey {C : Crypto} {t : String} {hs : HeaderMap} {b : Bytes}
    {id e : Int} : webhookIdempotencyKey C t hs b ≠ tickKey id e := by
  intro h
  obtain ⟨rest, hrest⟩ := toList_webhookIdempotencyKey C t hs b
  rw [h, toList_tickKey] at hrest
  have hhead := congrArg List.head? hrest
  simp at hhead

/-- Two requests of one key, neither of them a caller's, have one source. -/
theorem sameSource_of_key {q q' : Request R} {k : String} (hq : ¬ q.isCaller)
    (hq' : ¬ q'.isCaller) (hk : q.key = some k) (hk' : q'.key = some k) : SameSource q q' := by
  cases hp : q.producer with
  | webhookFire t hs b =>
      obtain ⟨w, hw, ht, hscript, hkey⟩ := q.webhookFire hp
      rw [hk] at hkey
      obtain rfl := Option.some.inj hkey
      cases hp' : q'.producer with
      | webhookFire t' hs' b' =>
          obtain ⟨w', hw', ht', hscript', hkey'⟩ := q'.webhookFire hp'
          rw [hk'] at hkey'
          obtain rfl := webhookIdempotencyKey_token ht ht' (Option.some.inj hkey')
          rw [hw] at hw'
          obtain rfl := Option.some.inj hw'
          refine ⟨hscript.trans hscript'.symm, ?_⟩
          rw [hp, hp']
          rfl
      | enqueueTick id' e' r' =>
          obtain ⟨s', _, _, hkey'⟩ := q'.enqueueTick hp'
          exact absurd (hkey' _ hk') webhookIdempotencyKey_ne_tickKey
      | runScript a' blobs' => exact absurd ⟨a', blobs', hp'⟩ hq'
  | enqueueTick id e r =>
      obtain ⟨s, hs, hscript, hkey⟩ := q.enqueueTick hp
      obtain rfl := hkey k hk
      cases hp' : q'.producer with
      | webhookFire t' hs' b' =>
          obtain ⟨w', _, _, _, hkey'⟩ := q'.webhookFire hp'
          rw [hk'] at hkey'
          exact absurd (Option.some.inj hkey').symm webhookIdempotencyKey_ne_tickKey
      | enqueueTick id' e' r' =>
          obtain ⟨s', hs', hscript', hkey'⟩ := q'.enqueueTick hp'
          obtain ⟨rfl, _⟩ := tickKey_id (hkey' _ hk')
          rw [hs] at hs'
          obtain rfl := Option.some.inj hs'
          refine ⟨hscript.trans hscript'.symm, ?_⟩
          rw [hp, hp']
          rfl
      | runScript a' blobs' => exact absurd ⟨a', blobs', hp'⟩ hq'
  | runScript a blobs => exact absurd ⟨a, blobs, hp⟩ hq

/-! ## Answers -/

/-- What holds of every table that requests of `Q` may leave, however they
interleave. -/
def Always (Q : Request R → Prop) (P : Calls R → Prop) : Prop :=
  ∀ l s, MadeOf Q l → Machine.run (step (sourcesTable R)) .empty l = some s → P s

/-- Whoever is answered with an existing run is answered with one of `S`. -/
def Recalls (S : Request R → Request R → Prop) (s : Calls R) : Prop :=
  ∀ c q id, s.calls c = some ⟨q, .recalled id⟩ →
    ∃ r, s.rows id = some r ∧ S r.request q

/-- One key; two sources only if a caller chose it. -/
def SharesKey (q q' : Request R) : Prop :=
  q.key = q'.key ∧ (SameSource q q' ∨ q.isCaller ∨ q'.isCaller)

/-- Whoever else uses the key of a caller is a caller too, of the same agent and
for the same script. -/
def CallerKeysApart (Q : Request R → Prop) : Prop :=
  ∀ q q' a blobs k, Q q → Q q' → q.producer = .runScript a blobs →
    a.idempotencyKey = some k → q'.key = some k →
    ∃ a' blobs', q'.producer = .runScript a' blobs' ∧ a'.scriptId = a.scriptId ∧ a'.aid = a.aid

/-- A recalled row has the key of the call, and is that of a request. -/
theorem recalled_row {Q : Request R → Prop} {l : List (Label (Request R) Nat)} {s : Calls R}
    (hl : MadeOf Q l) (hrun : Machine.run (step (sourcesTable R)) .empty l = some s) {c : Nat}
    {q : Request R} {id : Nat} (hc : s.calls c = some ⟨q, .recalled id⟩) :
    Q q ∧ ∃ r k, s.rows id = some r ∧ Q r.request ∧ q.key = some k ∧
      r.request.key = some k := by
  have hI : Inv (sourcesTable R) s := inv_run hrun
  have hq : Q q := requests_run hl hrun hc
  obtain ⟨k, hk, r, hr, _, hkr⟩ := hI.call c _ hc
  obtain ⟨phase, howner⟩ := hI.row_requested hr
  exact ⟨hq, r, k, hr, requests_run hl hrun howner, hk, hkr⟩

/-- Two requests of one key that are apart have one source. -/
theorem sameSource_of_apart {Q : Request R → Prop} (hQ : CallerKeysApart Q) {q q' : Request R}
    {k : String} (hq : Q q) (hq' : Q q') (hk : q.key = some k) (hk' : q'.key = some k) :
    SameSource q' q := by
  -- `q` is a caller, and so `q'` is one
  have hcaller : ∀ {p p' : Request R} {a : RunArgs} {blobs : Option Value}, Q p → Q p' →
      p.producer = .runScript a blobs → p.key = some k → p'.key = some k → SameSource p' p := by
    intro p p' a blobs hp hp' hprod hkp hkp'
    obtain ⟨hscript, hkey, _⟩ := p.runScript hprod
    have hak : a.idempotencyKey = some k := hkey.symm.trans hkp
    obtain ⟨a', blobs', hprod', hs, haid⟩ := hQ p p' a blobs k hp hp' hprod hak hkp'
    obtain ⟨hscript', hkey', _⟩ := p'.runScript hprod'
    have hak' : a'.idempotencyKey = some k := hkey'.symm.trans hkp'
    refine ⟨by rw [hscript, hscript', hs], ?_⟩
    rw [hprod, hprod', Producer.source, Producer.source, haid, hak, hak']
  by_cases hcq : q.isCaller
  · obtain ⟨a, blobs, hprod⟩ := hcq
    exact hcaller hq hq' hprod hk hk'
  · by_cases hcq' : q'.isCaller
    · obtain ⟨a, blobs, hprod⟩ := hcq'
      have hsame := hcaller hq' hq hprod hk' hk
      exact ⟨hsame.1.symm, hsame.2.symm⟩
    · exact sameSource_of_key hcq' hcq hk' hk

/-- Two requests of one key may meet, whatever their sources. -/
theorem exists_recalled {Q : Request R → Prop} {q q' : Request R} {k : String} (hq : Q q)
    (hq' : Q q') (hk : q.key = some k) (hk' : q'.key = some k)
    (hrec : q.insert.recalls = true) :
    ∃ l s r, MadeOf Q l ∧ Machine.run (step (sourcesTable R)) .empty l = some s ∧
      s.calls 1 = some ⟨q, .recalled 0⟩ ∧ s.rows 0 = some r ∧ r.request = q' := by
  have hne : (1 : Nat) ≠ 0 := by decide
  obtain ⟨s, r, hrun, hc, hr, hreq⟩ := run_twoCalls (T := sourcesTable R) hne hk' hk rfl hrec
  refine ⟨_, s, r, ?_, hrun, hc, hr, hreq⟩
  intro c p hmem
  simp only [twoCalls, List.mem_cons, Label.begin.injEq, reduceCtorEq, false_or, or_false,
    List.not_mem_nil] at hmem
  rcases hmem with ⟨_, rfl⟩ | ⟨_, rfl⟩
  · exact hq'
  · exact hq

/-- **Who is answered with whose run.**  Whatever the requests and however they
interleave, a request is answered with an existing run only if that has its key,
and a run of another source or script only where one of the two is a caller of
`run_script`.  Runs are answered only to the source that created them, and for
the script they were created for, in every interleaving of a set of requests,
exactly if no caller among them uses a key of another source of the set, agents
and scripts counted apart. -/
theorem recalled_source (R : Registry) (Q : Request R → Prop) :
    Always Q (Recalls SharesKey) ∧ (Always Q (Recalls SameSource) ↔ CallerKeysApart Q) := by
  refine ⟨?_, ?_, ?_⟩
  · intro l s hl hrun c q id hc
    obtain ⟨_, r, k, hr, _, hk, hk'⟩ := recalled_row hl hrun hc
    refine ⟨r, hr, hk'.trans hk.symm, ?_⟩
    by_cases hcq : q.isCaller
    · exact .inr (.inr hcq)
    · by_cases hcr : r.request.isCaller
      · exact .inr (.inl hcr)
      · exact .inl (sameSource_of_key hcr hcq hk' hk)
  · intro h q q' a blobs k hq hq' hprod hak hk'
    obtain ⟨hscript, hkey, hrec⟩ := q.runScript hprod
    have hk : q.key = some k := hkey.trans hak
    rw [hak] at hrec
    obtain ⟨l, s, r, hl, hrun, hc, hr, rfl⟩ := exists_recalled hq hq' hk hk' hrec
    obtain ⟨r', hr', hsame, hsource⟩ := h l s hl hrun 1 q 0 hc
    rw [hr] at hr'
    obtain rfl := Option.some.inj hr'
    rw [hprod] at hsource
    -- only a caller has a caller's source
    cases hp : r.request.producer with
    | webhookFire t hs b =>
        rw [hp] at hsource
        cases hsource
    | enqueueTick id e refusal =>
        rw [hp] at hsource
        cases hsource
    | runScript a' blobs' =>
        rw [hp, Producer.source, Producer.source, Source.caller.injEq] at hsource
        refine ⟨a', blobs', rfl, ?_, hsource.1⟩
        rw [← (r.request.runScript hp).1, hsame, hscript]
  · intro hQ l s hl hrun c q id hc
    obtain ⟨hq, r, k, hr, hq', hk, hk'⟩ := recalled_row hl hrun hc
    exact ⟨r, hr, sameSource_of_apart hQ hq hq' hk hk'⟩

/-! ## A caller in the place of a tick -/

/-- Schedule 1 runs script 1, once a second. -/
def everySecond : Schedule where
  id := 1
  scriptId := 1
  input := .object []
  agentId := none
  inputBlobs := none
  captureOutput := false
  idempotency := true
  timezone := none

/-- Schedule 1 and no webhooks. -/
def oneSchedule : Registry where
  crypto := demo
  plain := fun _ => true
  fromStr := fun _ => none
  webhooks := fun _ => none
  schedules := fun id => if id = 1 then some everySecond else none
  schedule_id := by
    intro id s h
    split_ifs at h with hid
    rw [hid, ← Option.some.inj h]
    rfl

/-- An agent enqueues script 2 under the key of the tick at second 60. -/
def callerOfTick : Request oneSchedule where
  producer := .runScript
    { scriptId := 2, input := none, cache := none, agentId := "a"
      idempotencyKey := some (tickKey 1 60), files := none, captureOutput := none } none
  insert := _
  made := rfl

/-- The tick. -/
def tickAtSixty : Request oneSchedule where
  producer := .enqueueTick 1 60 none
  insert := _
  made := rfl

/-- The tick is answered with the agent's run, and script 1 does not run. -/
theorem not_recalled_source :
    ¬ ∀ (R : Registry) (Q : Request R → Prop), Always Q (Recalls SameSource) := by
  intro h
  have hk : tickAtSixty.key = some (tickKey 1 60) := rfl
  have hk' : callerOfTick.key = some (tickKey 1 60) := rfl
  obtain ⟨l, s, r, hl, hrun, hc, hr, hreq⟩ :=
    exists_recalled (Q := fun _ => True) trivial trivial hk hk' rfl
  obtain ⟨r', hr', hscript, _⟩ := h oneSchedule (fun _ => True) l s hl hrun 1 tickAtSixty 0 hc
  rw [hr] at hr'
  obtain rfl := Option.some.inj hr'
  rw [hreq] at hscript
  exact absurd hscript (by decide)

end Dokan.Ports.EnqueueSources
