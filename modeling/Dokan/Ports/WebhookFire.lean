import Dokan.Ports.ClientIp
import Dokan.Ports.EnqueueSources

/-!
# The way of a delivery to the database

A delivery to a webhook passes the limiter of its client, the test of its token's
shape and the limiter of its token before `webhook_fire` asks the database
anything.  Deliveries are handled side by side, so their two checks interleave;
each limiter is behind a mutex, and the two are apart.

A token is what authorizes a delivery, and it is a secret: whoever does not know
it cannot name it.

## Main results

* `database_pressure` — what gets past the checks, in any interval.
* `outsiders_unseen` — clients that do not know a token cannot make its deliveries
  be refused.
* `same_run_iff` — which deliveries are answered with one run.
-/

namespace Dokan.Ports.WebhookFire

open Dokan.Verified
open Dokan.Verified.FixedWindow
open Dokan.Verified.Framing
open Dokan.Verified.KeyedInsert
open Dokan.Ports.ClientIp (IpAddr clientIp)
open Dokan.Ports.EnqueueSources
open Dokan.Ports.RateLimit
open Dokan.Ports.Receipt

/-! ## The checks -/

/-- A `POST` to `/hook/<token>`, with the time its handler has read. -/
structure Delivery where
  now : Nat
  peer : IpAddr
  headers : HeaderMap
  token : String
  body : Bytes
deriving DecidableEq

/-- Where the handler of a delivery goes on. -/
inductive Step
  /-- it begins: the limiter of its client, and the shape of its token -/
  | arrive (d : Delivery)
  /-- the limiter of its token -/
  | resume (d : Delivery)
deriving DecidableEq

def Step.delivery : Step → Delivery
  | .arrive d => d
  | .resume d => d

/-- A step, and whether its limiter has let it pass. -/
structure Event where
  step : Step
  admitted : Bool
deriving DecidableEq

/-- The limiters, the deliveries between their two checks, and what has happened. -/
structure Server where
  ipLimiter : FixedWindowLimiter
  tokenLimiter : FixedWindowLimiter
  waiting : List Delivery
  log : List Event

def start : Server := ⟨webhookIpLimiter, webhookLimiter, [], []⟩

/-- What a handler answers without having asked the database: its status and text. -/
abbrev Refusal := Nat × String

/-- The two refusals of `webhook_fire` before its first query. -/
def Event.refusal (e : Event) : Option Refusal :=
  if e.admitted then
    match e.step with
    | .arrive d => if isWellFormedWebhookToken d.token then none else some (404, "no such webhook")
    | .resume _ => none
  else some (429, "rate limited")

/-- The event is the first query of a delivery: `find_webhook_by_token`. -/
def Event.asks (e : Event) : Bool :=
  match e.step with
  | .arrive _ => false
  | .resume _ => e.admitted

variable (trusted : List IpAddr)

/-- The key of the per-IP limiter. -/
def Delivery.client (d : Delivery) : String := clientIp d.headers d.peer trusted

/-- The limiter of the client, and the shape of the token. -/
def Server.arrive (s : Server) (d : Delivery) : Server :=
  let check := s.ipLimiter.checkAt (d.client trusted) d.now
  { s with
    ipLimiter := check.1
    waiting := if check.2 && isWellFormedWebhookToken d.token then s.waiting ++ [d] else s.waiting
    log := s.log ++ [⟨.arrive d, check.2⟩] }

/-- The limiter of the token. -/
def Server.resume (s : Server) (d : Delivery) : Server :=
  let check := s.tokenLimiter.checkAt d.token d.now
  { s with
    tokenLimiter := check.1
    waiting := s.waiting.erase d
    log := s.log ++ [⟨.resume d, check.2⟩] }

/-- `webhook_fire` up to its first query. -/
def step (s : Server) : Step → Option Server
  | .arrive d => some (s.arrive trusted d)
  | .resume d => if d ∈ s.waiting then some (s.resume d) else none

/-- The calls of the per-IP limiter. -/
def ipCall : Step → Option (Call String)
  | .arrive d => some (d.client trusted, d.now)
  | .resume _ => none

/-- The calls of the per-token limiter. -/
def tokenCall : Step → Option (Call String)
  | .arrive _ => none
  | .resume d => some (d.token, d.now)

/-- Neither limiter sees the clock go back. -/
def InTime (l : List Step) : Prop :=
  Sorted (l.filterMap (ipCall trusted)) ∧ Sorted (l.filterMap tokenCall)

variable {trusted} {s s' : Server} {l : List Step}

/-! ## What the limiters were asked -/

/-- The calls of one limiter in a log, with its answers. -/
def callsOf (call : Step → Option (Call String)) (log : List Event) : List (Call String × Bool) :=
  log.filterMap fun e => (call e.step).map fun c => (c, e.admitted)

/-- **A step**, in the log and in the limiters. -/
theorem step_spec {a : Step} (h : step trusted s a = some s') :
    ∃ ok, s'.log = s.log ++ [⟨a, ok⟩] ∧
      (∀ c, ipCall trusted a = some c → (s'.ipLimiter, ok) = s.ipLimiter.checkAt c.1 c.2) ∧
      (ipCall trusted a = none → s'.ipLimiter = s.ipLimiter) ∧
      (∀ c, tokenCall a = some c → (s'.tokenLimiter, ok) = s.tokenLimiter.checkAt c.1 c.2) ∧
      (tokenCall a = none → s'.tokenLimiter = s.tokenLimiter) := by
  cases a with
  | arrive d =>
      simp only [step, Option.some.injEq] at h
      subst h
      exact ⟨_, rfl, fun c hc => (by cases hc; rfl), fun h => (by cases h),
        fun c hc => (by cases hc), fun _ => rfl⟩
  | resume d =>
      simp only [step] at h
      split_ifs at h
      cases h
      exact ⟨_, rfl, fun c hc => (by cases hc), fun _ => rfl, fun c hc => (by cases hc; rfl),
        fun h => (by cases h)⟩

/-- What a run adds to the log. -/
theorem log_run (h : Machine.run (step trusted) s l = some s') :
    ∃ new, s'.log = s.log ++ new ∧ new.map Event.step = l ∧
      callsOf (ipCall trusted) new = (l.filterMap (ipCall trusted)).zip
        (answersOf FixedWindowLimiter.checkAt s.ipLimiter (l.filterMap (ipCall trusted))) ∧
      callsOf tokenCall new = (l.filterMap tokenCall).zip
        (answersOf FixedWindowLimiter.checkAt s.tokenLimiter (l.filterMap tokenCall)) := by
  induction l generalizing s with
  | nil =>
      cases h
      exact ⟨[], (List.append_nil _).symm, rfl, rfl, rfl⟩
  | cons a l ih =>
      obtain ⟨m, hm, hrest⟩ := Machine.run_cons_some h
      obtain ⟨ok, hlog, hip, hip', htok, htok'⟩ := step_spec hm
      obtain ⟨new, hnew, hsteps, hips, htoks⟩ := ih hrest
      have hsplit : ∀ (call : Step → Option (Call String)) (L L' : FixedWindowLimiter),
          (∀ c, call a = some c → (L', ok) = L.checkAt c.1 c.2) → (call a = none → L' = L) →
          callsOf call new = (l.filterMap call).zip
            (answersOf FixedWindowLimiter.checkAt L' (l.filterMap call)) →
          callsOf call (⟨a, ok⟩ :: new) = ((a :: l).filterMap call).zip
            (answersOf FixedWindowLimiter.checkAt L ((a :: l).filterMap call)) := by
        intro call L L' hsome hnone hcalls
        cases hc : call a with
        | none =>
            rw [List.filterMap_cons_none hc, ← hnone hc, ← hcalls, callsOf,
              List.filterMap_cons_none]
            · rfl
            · rw [hc]
              rfl
        | some c =>
            have hcheck := hsome c hc
            have hhead : callsOf call (⟨a, ok⟩ :: new) = (c, ok) :: callsOf call new := by
              rw [callsOf, List.filterMap_cons_some (b := (c, ok))]
              · rfl
              · rw [hc]
                rfl
            rw [hhead, hcalls, List.filterMap_cons_some hc, answersOf, List.zip_cons_cons,
              ← hcheck]
      refine ⟨⟨a, ok⟩ :: new, ?_, ?_, hsplit _ _ _ hip hip' hips, hsplit _ _ _ htok htok' htoks⟩
      · rw [hnew, hlog, List.append_assoc]
        rfl
      · rw [List.map_cons, hsteps]

/-! ## From the first check to the second -/

/-- The delivery of an event that goes on to the second check. -/
def Event.goesOn? (e : Event) : Option Delivery :=
  match e.step with
  | .arrive d => if e.admitted && isWellFormedWebhookToken d.token then some d else none
  | .resume _ => none

/-- The delivery of an event that is its second check. -/
def Event.resumes? (e : Event) : Option Delivery :=
  match e.step with
  | .arrive _ => none
  | .resume d => some d

/-- Who has gone on is waiting, or has come to the second check. -/
def Accounted (s : Server) : Prop :=
  (s.log.filterMap Event.goesOn?).Perm (s.waiting ++ s.log.filterMap Event.resumes?)

theorem Accounted.step {a : Step} (hI : Accounted s) (h : step trusted s a = some s') :
    Accounted s' := by
  unfold Accounted at hI ⊢
  cases a with
  | arrive d =>
      simp only [WebhookFire.step, Option.some.injEq] at h
      subst h
      simp only [Server.arrive, List.filterMap_append, List.filterMap_cons, List.filterMap_nil,
        Event.goesOn?, Event.resumes?, List.append_nil]
      split_ifs with hok
      · refine (hI.append_right [d]).trans ?_
        rw [List.append_assoc, List.append_assoc]
        exact List.perm_append_comm.append_left _
      · rw [List.append_nil]
        exact hI
  | resume d =>
      simp only [WebhookFire.step] at h
      split_ifs at h with hwait
      cases h
      simp only [Server.resume, List.filterMap_append, List.filterMap_cons, List.filterMap_nil,
        Event.goesOn?, Event.resumes?, List.append_nil]
      refine hI.trans ?_
      rw [← List.append_assoc]
      refine (((List.perm_cons_erase hwait).append_right _).trans ?_)
      exact @List.perm_append_comm _ [d] _

theorem accounted_run (h : Machine.run (step trusted) start l = some s) : Accounted s :=
  Machine.inv_run (C := fun _ _ => True) (fun _ _ _ hI _ hs => hI.step hs)
    (show Accounted start from .refl _) (Machine.along_of_forall fun _ _ => trivial) h

/-- The second checks of some deliveries are no more than the first that passed. -/
theorem countP_resumes_le (trusted : List IpAddr) (hI : Accounted s) (p : Delivery → Bool) :
    (s.log.countP fun e => e.asks && p e.step.delivery) ≤
      s.log.countP fun e => (ipCall trusted e.step).isSome && e.admitted && p e.step.delivery := by
  calc (s.log.countP fun e => e.asks && p e.step.delivery)
      ≤ (s.log.filterMap Event.resumes?).countP p := by
        rw [List.countP_filterMap]
        refine List.countP_mono_left fun e _ he => ?_
        rcases e with ⟨_ | d, ok⟩
        · simp [Event.asks] at he
        · have hp : p d = true := (Bool.and_eq_true_iff.mp he).2
          simpa [Event.resumes?] using hp
    _ ≤ (s.waiting ++ s.log.filterMap Event.resumes?).countP p := by
        rw [List.countP_append]
        exact Nat.le_add_left _ _
    _ = (s.log.filterMap Event.goesOn?).countP p := (hI.countP_eq p).symm
    _ ≤ s.log.countP fun e => (ipCall trusted e.step).isSome && e.admitted && p e.step.delivery := by
        rw [List.countP_filterMap]
        refine List.countP_mono_left fun e _ he => ?_
        rcases e with ⟨d | _, ok⟩
        · simp only [Event.goesOn?] at he
          split_ifs at he with hok
          · have hp : p d = true := by simpa using he
            have hok' : ok = true := (Bool.and_eq_true_iff.mp hok).1
            simp [ipCall, Step.delivery, hok', hp]
          · simp at he
        · simp [Event.goesOn?] at he

/-! ## The pressure on the database -/

/-- A fresh limiter has no windows. -/
theorem sane_empty (max : Nat) (k : String) (calls : List (Call String)) :
    Sane max Table.empty k calls :=
  ⟨fun _ hw => (by cases hw), fun _ hw => (by cases hw)⟩

/-- The answers of a fresh limiter, within an interval. -/
theorem span_answersOf {windowSecs : Nat} (max : Nat) {calls : List (Call String)}
    (hsorted : Sorted calls) (hwindow : 0 < windowSecs) (k : String) (lo : Nat) :
    span k lo (lo + windowSecs) (calls.zip (answersOf FixedWindowLimiter.checkAt
      (FixedWindowLimiter.new windowSecs max) calls)) ≤ 2 * max := by
  rw [answersOf_eq follows_checkAt (sim_new windowSecs max) hsorted fun _ _ => Nat.zero_le _]
  exact (Nat.le_add_right _ _).trans (span_le hwindow le_rfl (sane_empty max k calls) hsorted)

/-- The answers of a fresh limiter, at one time. -/
theorem instant_answersOf {windowSecs : Nat} (max : Nat) {calls : List (Call String)}
    (hsorted : Sorted calls) (hwindow : 0 < windowSecs) (k : String) (t : Nat) :
    span k t (t + 1) (calls.zip (answersOf FixedWindowLimiter.checkAt
      (FixedWindowLimiter.new windowSecs max) calls)) ≤ max := by
  rw [answersOf_eq follows_checkAt (sim_new windowSecs max) hsorted fun _ _ => Nat.zero_le _]
  exact (Nat.le_add_right _ _).trans (instant_le hwindow t (sane_empty max k calls) hsorted)

/-- **The pressure on the database.**  However many deliveries there are and however
their handlers interleave, the database is asked for well-formed tokens only: at
most 200 times for the deliveries of one client that began within 10 consecutive
seconds, and at most 20 times for those of one token that began within one second. -/
theorem database_pressure (hrun : Machine.run (step trusted) start l = some s)
    (htime : InTime trusted l) :
    (∀ e ∈ s.log, e.asks = true → isWellFormedWebhookToken e.step.delivery.token = true) ∧
    (∀ client t, (s.log.countP fun e => e.asks && decide (e.step.delivery.client trusted = client ∧
      t ≤ e.step.delivery.now ∧ e.step.delivery.now < t + 10)) ≤ 200) ∧
    ∀ token t, (s.log.countP fun e => e.asks && decide (e.step.delivery.token = token ∧
      e.step.delivery.now = t)) ≤ 20 := by
  have hI := accounted_run hrun
  obtain ⟨new, hlog, _, hips, htoks⟩ := log_run hrun
  have hlog' : s.log = new := hlog
  refine ⟨fun e he hasks => ?_, fun client t => ?_, fun token t => ?_⟩
  · rcases e with ⟨_ | d, ok⟩
    · cases hasks
    · have hmem : d ∈ s.waiting ++ s.log.filterMap Event.resumes? :=
        List.mem_append_right _ (List.mem_filterMap.mpr ⟨_, he, rfl⟩)
      obtain ⟨⟨d' | _, ok'⟩, _, hgo⟩ := List.mem_filterMap.mp (hI.mem_iff.mpr hmem)
      · simp only [Event.goesOn?] at hgo
        split_ifs at hgo with hok
        cases hgo
        exact (Bool.and_eq_true_iff.mp hok).2
      · cases hgo
  · refine (countP_resumes_le trusted hI fun d => decide (d.client trusted = client ∧
      t ≤ d.now ∧ d.now < t + 10)).trans ?_
    refine le_trans ?_ (span_answersOf 100 htime.1 (by decide : 0 < 10) client t)
    have hspan : span client t (t + 10) (callsOf (ipCall trusted) s.log) =
        span client t (t + 10) ((l.filterMap (ipCall trusted)).zip
          (answersOf FixedWindowLimiter.checkAt webhookIpLimiter
            (l.filterMap (ipCall trusted)))) := by
      rw [hlog', hips]
      rfl
    refine le_trans ?_ hspan.le
    rw [span, callsOf, List.countP_filterMap]
    refine List.countP_mono_left fun e _ he => ?_
    rcases e with ⟨d | d, ok⟩
    · obtain ⟨hok, hin⟩ := Bool.and_eq_true_iff.mp he
      obtain ⟨hclient, hle, hlt⟩ : d.client trusted = client ∧ t ≤ d.now ∧ d.now < t + 10 :=
        of_decide_eq_true hin
      replace hok : ok = true := (Bool.and_eq_true_iff.mp hok).2
      simp [ipCall, hok, hclient, hle, hlt]
    · simp [ipCall] at he
  · refine le_trans ?_ (instant_answersOf 20 htime.2 (by decide : 0 < 1) token t)
    have hspan : span token t (t + 1) (callsOf tokenCall s.log) =
        span token t (t + 1) ((l.filterMap tokenCall).zip
          (answersOf FixedWindowLimiter.checkAt webhookLimiter (l.filterMap tokenCall))) := by
      rw [hlog', htoks]
      rfl
    refine le_trans ?_ hspan.le
    rw [span, callsOf, List.countP_filterMap]
    refine List.countP_mono_left fun e _ he => ?_
    rcases e with ⟨d | d, ok⟩
    · simp [Event.asks] at he
    · obtain ⟨hok, hin⟩ := Bool.and_eq_true_iff.mp he
      obtain ⟨htok, hnow⟩ : d.token = token ∧ d.now = t := of_decide_eq_true hin
      replace hok : ok = true := hok
      simp [tokenCall, hok, htok, hnow]

/-! ### One webhook and a client that guesses -/

/-- The client 1.2.3.4 delivers to its webhook. -/
def delivered : Delivery :=
  { now := 7, peer := .v4 1 2 3 4, headers := [], token := "0f3a-deploy", body := [] }

/-- The client 6.6.6.6 guesses a token. -/
def guessed : Delivery :=
  { now := 7, peer := .v4 6 6 6 6, headers := [], token := "guess-1", body := [] }

/-- 25 guesses at once, and a delivery among them. -/
def guesses : List Step :=
  List.replicate 25 (.arrive guessed) ++ [.arrive delivered] ++
    List.replicate 25 (.resume guessed) ++ [.resume delivered]

theorem inTime_guesses : InTime [] guesses := by
  unfold InTime Sorted
  decide +kernel

theorem database_pressure_guesses :
    ∃ s, Machine.run (step []) start guesses = some s ∧ InTime [] guesses ∧
      (∀ e ∈ s.log, e.asks = true → isWellFormedWebhookToken e.step.delivery.token = true) ∧
      (∀ client t, (s.log.countP fun e => e.asks && decide (e.step.delivery.client [] = client ∧
        t ≤ e.step.delivery.now ∧ e.step.delivery.now < t + 10)) ≤ 200) ∧
      ∀ token t, (s.log.countP fun e => e.asks && decide (e.step.delivery.token = token ∧
        e.step.delivery.now = t)) ≤ 20 := by
  have hruns : (Machine.run (step []) start guesses).isSome = true := by decide +kernel
  obtain ⟨s, hs⟩ := Option.isSome_iff_exists.mp hruns
  exact ⟨s, hs, inTime_guesses, database_pressure hs inTime_guesses⟩

/-! ## Clients that do not know a token -/

/-- Two limiters that no call with a key of `sees` can tell apart. -/
def Agrees (width max : Nat) (sees : String → Bool) (t : Nat) (L L' : FixedWindowLimiter) : Prop :=
  ∃ T T', Sim width max t L T ∧ Sim width max t L' T' ∧ ∀ k, sees k = true → T k = T' k

section Agrees

variable {width max t now : Nat} {sees : String → Bool} {L L' : FixedWindowLimiter} {k : String}

theorem Agrees.refl_new (width max : Nat) (sees : String → Bool) :
    Agrees width max sees 0 (.new width max) (.new width max) :=
  ⟨_, _, sim_new width max, sim_new width max, fun _ _ => rfl⟩

/-- The same call to both. -/
theorem Agrees.both (h : Agrees width max sees t L L') (ht : t ≤ now) (k : String) :
    Agrees width max sees now (L.checkAt k now).1 (L'.checkAt k now).1 ∧
      (sees k = true → (L.checkAt k now).2 = (L'.checkAt k now).2) := by
  obtain ⟨T, T', hT, hT', hsame⟩ := h
  obtain ⟨hans, hsim⟩ := follows_checkAt _ _ _ _ _ k now hT ht
  obtain ⟨hans', hsim'⟩ := follows_checkAt _ _ _ _ _ k now hT' ht
  refine ⟨⟨_, _, hsim, hsim', fun k' hk' => ?_⟩, fun hk => ?_⟩
  · by_cases hkk : k' = k
    · subst hkk
      have hself := hit_self width max T (k', now)
      have hself' := hit_self width max T' (k', now)
      simp only at hself hself'
      rw [hself, hself', hsame k' hk']
    · have hother : (hit width max T (k, now)).1 k' = T k' := hit_of_ne hkk
      have hother' : (hit width max T' (k, now)).1 k' = T' k' := hit_of_ne hkk
      rw [hother, hother', hsame k' hk']
  · rw [hans, hans', hit_snd, hit_snd, hsame k hk]

/-- A call to one of them, with a key that does not count. -/
theorem Agrees.left (h : Agrees width max sees t L L') (ht : t ≤ now) (hk : sees k = false) :
    Agrees width max sees now (L.checkAt k now).1 L' := by
  obtain ⟨T, T', hT, hT', hsame⟩ := h
  obtain ⟨_, hsim⟩ := follows_checkAt _ _ _ _ _ k now hT ht
  refine ⟨_, _, hsim, ⟨hT'.windowSecs, hT'.max, hT'.map.mono ht⟩, fun k' hk' => ?_⟩
  have hne : k' ≠ k := by
    rintro rfl
    rw [hk] at hk'
    cases hk'
  have hother : (hit width max T (k, now)).1 k' = T k' := hit_of_ne hne
  rw [hother, hsame k' hk']

end Agrees

section Outsiders

variable (trusted) (inside secret : String → Bool)

/-- The step of an insider. -/
def ofInside (a : Step) : Bool := inside (a.delivery.client trusted)

/-- The checks of insiders, the second one where the token is secret. -/
def tells (e : Event) : Bool :=
  ofInside trusted inside e.step &&
    match e.step with
    | .arrive _ => true
    | .resume d => secret d.token

/-- Two servers that insiders cannot tell apart by their own deliveries. -/
structure Alike (t u : Nat) (s s' : Server) : Prop where
  ip : Agrees 10 100 inside t s.ipLimiter s'.ipLimiter
  token : Agrees 1 20 secret u s.tokenLimiter s'.tokenLimiter
  waiting : s'.waiting = s.waiting.filter fun d => inside (d.client trusted)
  log : s'.log.filter (tells trusted inside secret) = s.log.filter (tells trusted inside secret)

variable {trusted inside secret} {t u : Nat} {m : Server} {d : Delivery}

/-- What insiders notice of a log that goes on. -/
theorem filter_tells {log log' : List Event} {e e' : Event}
    (h : log'.filter (tells trusted inside secret) = log.filter (tells trusted inside secret))
    (he : tells trusted inside secret e = true → e' = e)
    (he' : tells trusted inside secret e' = tells trusted inside secret e) :
    (log' ++ [e']).filter (tells trusted inside secret) =
      (log ++ [e]).filter (tells trusted inside secret) := by
  rw [List.filter_append, List.filter_append, h]
  cases htells : tells trusted inside secret e with
  | true => rw [he htells]
  | false =>
      rw [List.filter_cons_of_neg (by rw [he', htells]; decide),
        List.filter_cons_of_neg (by rw [htells]; decide)]

/-- An outsider's first check. -/
theorem Alike.outsider_arrives (h : Alike trusted inside secret t u s s') (ht : t ≤ d.now)
    (hout : inside (d.client trusted) = false) (hm : step trusted s (.arrive d) = some m) :
    Alike trusted inside secret d.now u m s' := by
  simp only [step, Option.some.injEq] at hm
  subst hm
  refine ⟨h.ip.left ht hout, h.token, ?_, ?_⟩
  · rw [h.waiting, Server.arrive]
    split_ifs
    · rw [List.filter_append, List.filter_cons_of_neg (by simp [hout]), List.filter_nil,
        List.append_nil]
    · rfl
  · rw [h.log, Server.arrive, List.filter_append, List.filter_cons_of_neg, List.filter_nil,
      List.append_nil]
    simp [tells, ofInside, Step.delivery, hout]

/-- An outsider's second check. -/
theorem Alike.outsider_resumes (h : Alike trusted inside secret t u s s') (hu : u ≤ d.now)
    (hout : inside (d.client trusted) = false) (hsecret : secret d.token = false)
    (hm : step trusted s (.resume d) = some m) : Alike trusted inside secret t d.now m s' := by
  simp only [step] at hm
  split_ifs at hm
  cases hm
  refine ⟨h.ip, h.token.left hu hsecret, ?_, ?_⟩
  · rw [h.waiting, Server.resume, ← List.erase_filter, List.erase_of_not_mem]
    rw [List.mem_filter, hout]
    exact fun h => by cases h.2
  · rw [h.log, Server.resume, List.filter_append, List.filter_cons_of_neg, List.filter_nil,
      List.append_nil]
    simp [tells, ofInside, Step.delivery, hout]

/-- An insider's first check, in both. -/
theorem Alike.insider_arrives (h : Alike trusted inside secret t u s s') (ht : t ≤ d.now)
    (hin : inside (d.client trusted) = true) (hm : step trusted s (.arrive d) = some m) :
    ∃ m', step trusted s' (.arrive d) = some m' ∧ Alike trusted inside secret d.now u m m' := by
  simp only [step, Option.some.injEq] at hm
  subst hm
  obtain ⟨hip, hans⟩ := h.ip.both ht (d.client trusted)
  refine ⟨_, rfl, hip, h.token, ?_, ?_⟩
  · simp only [Server.arrive]
    rw [← hans hin, h.waiting]
    split_ifs
    · rw [List.filter_append, List.filter_cons_of_pos (by simpa using hin), List.filter_nil]
    · rfl
  · exact filter_tells h.log (fun _ => congrArg (Event.mk _) (hans hin).symm) rfl

/-- An insider's second check, in both. -/
theorem Alike.insider_resumes (h : Alike trusted inside secret t u s s') (hu : u ≤ d.now)
    (hin : inside (d.client trusted) = true) (hm : step trusted s (.resume d) = some m) :
    ∃ m', step trusted s' (.resume d) = some m' ∧ Alike trusted inside secret t d.now m m' := by
  simp only [step] at hm
  split_ifs at hm with hwait
  cases hm
  obtain ⟨htok, hans⟩ := h.token.both hu d.token
  have hwait' : d ∈ s'.waiting := by
    rw [h.waiting, List.mem_filter]
    exact ⟨hwait, hin⟩
  refine ⟨s'.resume d, by rw [step, if_pos hwait'], h.ip, htok, ?_, ?_⟩
  · simp only [Server.resume]
    rw [h.waiting, List.erase_filter]
  · refine filter_tells h.log (fun htells => ?_) rfl
    exact congrArg (Event.mk _) (hans (Bool.and_eq_true_iff.mp htells).2).symm

/-- Runs that differ in the steps of outsiders. -/
theorem Alike.run (h : Alike trusted inside secret t u s s')
    (hip : ∀ c ∈ l.filterMap (ipCall trusted), t ≤ c.2)
    (htok : ∀ c ∈ l.filterMap tokenCall, u ≤ c.2) (htime : InTime trusted l)
    (hsecret : ∀ a ∈ l, ofInside trusted inside a = false → secret a.delivery.token = false)
    (hrun : Machine.run (step trusted) s l = some m) :
    ∃ m', Machine.run (step trusted) s' (l.filter (ofInside trusted inside)) = some m' ∧
      m'.log.filter (tells trusted inside secret) = m.log.filter (tells trusted inside secret) := by
  induction l generalizing s s' t u with
  | nil =>
      cases hrun
      exact ⟨s', rfl, h.log⟩
  | cons a l ih =>
      obtain ⟨n, hn, hrest⟩ := Machine.run_cons_some hrun
      have hsecret' : ∀ a ∈ l, ofInside trusted inside a = false →
          secret a.delivery.token = false := fun a ha => hsecret a (List.mem_cons_of_mem _ ha)
      obtain ⟨hsip, hstok⟩ := htime
      cases a with
      | arrive d =>
          have hcall : ipCall trusted (.arrive d) = some (d.client trusted, d.now) := rfl
          have hnone : tokenCall (.arrive d) = none := rfl
          rw [List.filterMap_cons_some hcall] at hip hsip
          rw [List.filterMap_cons_none hnone] at htok hstok
          have ht : t ≤ d.now := hip _ List.mem_cons_self
          obtain ⟨hlater, hsip⟩ := List.pairwise_cons.mp hsip
          cases hin : ofInside trusted inside (.arrive d) with
          | false =>
              rw [List.filter_cons_of_neg (by rw [hin]; decide)]
              exact ih (h.outsider_arrives ht hin hn) hlater htok ⟨hsip, hstok⟩ hsecret' hrest
          | true =>
              rw [List.filter_cons_of_pos hin, Machine.run_cons]
              obtain ⟨n', hn', halike⟩ := h.insider_arrives ht hin hn
              rw [hn', Option.bind_some]
              exact ih halike hlater htok ⟨hsip, hstok⟩ hsecret' hrest
      | resume d =>
          have hcall : tokenCall (.resume d) = some (d.token, d.now) := rfl
          have hnone : ipCall trusted (.resume d) = none := rfl
          rw [List.filterMap_cons_some hcall] at htok hstok
          rw [List.filterMap_cons_none hnone] at hip hsip
          have hu : u ≤ d.now := htok _ List.mem_cons_self
          obtain ⟨hlater, hstok⟩ := List.pairwise_cons.mp hstok
          cases hin : ofInside trusted inside (.resume d) with
          | false =>
              rw [List.filter_cons_of_neg (by rw [hin]; decide)]
              have hs := hsecret _ List.mem_cons_self hin
              exact ih (h.outsider_resumes hu hin hs hn) hip hlater ⟨hsip, hstok⟩ hsecret' hrest
          | true =>
              rw [List.filter_cons_of_pos hin, Machine.run_cons]
              obtain ⟨n', hn', halike⟩ := h.insider_resumes hu hin hn
              rw [hn', Option.bind_some]
              exact ih halike hip hlater ⟨hsip, hstok⟩ hsecret' hrest

/-- The client that delivers. -/
def delivers (client : String) : Bool := client = "1.2.3.4"

/-- The token it has. -/
def held (token : String) : Bool := token = "0f3a-deploy"

end Outsiders

/-! ## Which deliveries are one -/

/-- What a delivery is known by, if it says: the first header of `deliveryHeaders`
with an id, and the id. -/
def identity (headers : HeaderMap) : Option (String × String) :=
  deliveryHeaders.findSome? fun h => (deliveryId headers h).map fun v => (h, v)

/-- The rest of a key, after the token. -/
def keyTail (C : Crypto) (token : String) (headers : HeaderMap) (body : Bytes) : List Char :=
  match identity headers with
  | some (h, v) => h.toList ++ ':' :: v.toList
  | none => "body".toList ++ ':' :: (sha256Hex C (utf8 token ++ 31 :: body)).toList

theorem toList_key (C : Crypto) (token : String) (headers : HeaderMap) (body : Bytes) :
    (webhookIdempotencyKey C token headers body).toList =
      "wh:".toList ++ (token.toList ++ ':' :: keyTail C token headers body) := by
  have hfold : (deliveryHeaders.findSome? fun h => (deliveryId headers h).map fun v => (h, v)) =
      identity headers := rfl
  rw [webhookIdempotencyKey, hfold, keyTail]
  cases identity headers with
  | some p =>
      simp only [String.toList_append, List.append_assoc]
      rfl
  | none =>
      simp only [String.toList_append, List.append_assoc]
      rfl

theorem name_of_identity {headers : HeaderMap} {h v : String}
    (hid : identity headers = some (h, v)) : ':' ∉ h.toList ∧ h ≠ "body" := by
  obtain ⟨name, hname, hv⟩ := List.exists_of_findSome?_eq_some hid
  obtain ⟨_, _, heq⟩ := Option.map_eq_some_iff.mp hv
  obtain ⟨rfl, rfl⟩ := Prod.mk.inj heq
  have hall : ∀ n ∈ deliveryHeaders, ':' ∉ n.toList ∧ n ≠ "body" := by decide
  exact hall _ hname

/-- Two deliveries are one: to one webhook, with one id, or neither with an id and
with bodies of one digest. -/
def SameDelivery (C : Crypto) (t t' : String) (hs hs' : HeaderMap) (b b' : Bytes) : Prop :=
  t = t' ∧ identity hs = identity hs' ∧
    (identity hs = none →
      sha256Hex C (utf8 t ++ 31 :: b) = sha256Hex C (utf8 t' ++ 31 :: b'))

/-- **What a key tells.** -/
theorem key_eq_iff (C : Crypto) {t t' : String} {hs hs' : HeaderMap} {b b' : Bytes}
    (ht : isWellFormedWebhookToken t = true) (ht' : isWellFormedWebhookToken t' = true) :
    webhookIdempotencyKey C t hs b = webhookIdempotencyKey C t' hs' b' ↔
      SameDelivery C t t' hs hs' b b' := by
  constructor
  · intro h
    obtain rfl := webhookIdempotencyKey_token ht ht' h
    have htail : keyTail C t hs b = keyTail C t hs' b' := by
      have hlist := congrArg String.toList h
      rw [toList_key, toList_key] at hlist
      have hcut := List.append_cancel_left (List.append_cancel_left hlist)
      exact (List.cons.inj hcut).2
    have hbody : ':' ∉ "body".toList := by decide
    -- a name ends at the first colon
    have hcut : ∀ {n n' r r' : List Char}, ':' ∉ n → ':' ∉ n' → n ++ ':' :: r = n' ++ ':' :: r' →
        n = n' ∧ r = r' := by
      intro n n' r r' hn hn' heq
      obtain ⟨h₁, _, h₂⟩ := append_cons_inj (p := fun c => c ≠ ':') (fun c hc he => hn (he ▸ hc))
        (fun c hc he => hn' (he ▸ hc)) (by simp) (by simp) heq
      exact ⟨h₁, h₂⟩
    refine ⟨rfl, ?_⟩
    rw [keyTail, keyTail] at htail
    cases hid : identity hs with
    | some p =>
        obtain ⟨hname, hne⟩ := name_of_identity hid
        cases hid' : identity hs' with
        | some p' =>
            rw [hid, hid'] at htail
            obtain ⟨h₁, h₂⟩ := hcut hname (name_of_identity hid').1 htail
            refine ⟨congrArg some (Prod.ext ?_ ?_), fun h => by cases h⟩
            · exact String.toList_inj.mp h₁
            · exact String.toList_inj.mp h₂
        | none =>
            rw [hid, hid'] at htail
            exact absurd (String.toList_inj.mp (hcut hname hbody htail).1) hne
    | none =>
        cases hid' : identity hs' with
        | some p' =>
            rw [hid, hid'] at htail
            obtain ⟨hname, hne⟩ := name_of_identity hid'
            exact absurd (String.toList_inj.mp (hcut hname hbody htail.symm).1) hne
        | none =>
            rw [hid, hid'] at htail
            exact ⟨rfl, fun _ => String.toList_inj.mp (hcut hbody hbody htail).2⟩
  · rintro ⟨rfl, hid, hdigest⟩
    rw [← String.toList_inj, toList_key, toList_key, keyTail, keyTail, ← hid]
    cases hcase : identity hs with
    | some p => rfl
    | none => simp only [hdigest hcase]

/-- A call that came back has the row of its key. -/
theorem row_of_returned {R : Registry} {s : Calls R} (hI : KeyedInsert.Inv (sourcesTable R) s)
    {c : Nat} {q : Request R} {p : Phase Empty} (hc : s.calls c = some ⟨q, p⟩) {id : Nat}
    {created : Bool} (hp : p.returned = some (id, created)) {k : String} (hk : q.key = some k) :
    ∃ r, s.rows id = some r ∧ r.request.key = some k := by
  have hok := hI.call c _ hc
  cases p with
  | inserted id' =>
      cases hp
      obtain ⟨r, hr, _, rfl, _⟩ := hok
      exact ⟨r, hr, hk⟩
  | recalled id' =>
      cases hp
      obtain ⟨k', hk', r, hr, _, hkr⟩ := hok
      have hkk : q.key = some k' := hk'
      rw [hk] at hkk
      cases hkk
      exact ⟨r, hr, hkr⟩
  | _ => cases hp

/-- **Which deliveries are answered with one run.**  Whatever else the daemon
enqueues, and however the inserts interleave, two deliveries to webhooks of scripts
that have both been answered have been answered with one run exactly if they are one
delivery. -/
theorem same_run_iff {R : Registry} {l : List (Label (Request R) Nat)} {s : Calls R}
    (hrun : Machine.run (KeyedInsert.step (sourcesTable R)) .empty l = some s) {c c' : Nat}
    {q q' : Request R} {p p' : Phase Empty} (hc : s.calls c = some ⟨q, p⟩)
    (hc' : s.calls c' = some ⟨q', p'⟩) {id id' : Nat} {created created' : Bool}
    (hp : p.returned = some (id, created)) (hp' : p'.returned = some (id', created'))
    {t t' : String} {hs hs' : HeaderMap} {b b' : Bytes}
    (hq : q.producer = .webhookFire t hs b) (hq' : q'.producer = .webhookFire t' hs' b') :
    id = id' ↔ SameDelivery R.crypto t t' hs hs' b b' := by
  have hI : KeyedInsert.Inv (sourcesTable R) s := inv_run hrun
  obtain ⟨_, _, ht, _, hk⟩ := q.webhookFire hq
  obtain ⟨_, _, ht', _, hk'⟩ := q'.webhookFire hq'
  obtain ⟨r, hr, hkr⟩ := row_of_returned hI hc hp hk
  obtain ⟨r', hr', hkr'⟩ := row_of_returned hI hc' hp' hk'
  rw [← key_eq_iff R.crypto ht ht']
  constructor
  · rintro rfl
    cases hr.symm.trans hr'
    exact Option.some.inj (hkr.symm.trans hkr')
  · intro heq
    exact hI.unique id id' r r' _ hr hr' (hkr.trans (congrArg some heq)) hkr'

/-- One webhook, of script 1. -/
def oneWebhook : Registry where
  crypto := demo
  plain := fun _ => true
  fromStr := fun _ => none
  webhooks := fun t => if t = "0f3a-deploy" then some ⟨"script", 1, none⟩ else none
  schedules := fun _ => none
  schedule_id := fun _ _ h => by cases h

/-- A delivery with an id. -/
def pushed (delivery : Bytes) : Request oneWebhook where
  producer := .webhookFire "0f3a-deploy" [("x-github-delivery", delivery)] []
  insert := _
  made := rfl

/-- A delivery comes twice, the second time with a blank before its id. -/
def redelivered : Option (Calls oneWebhook) :=
  Machine.run (KeyedInsert.step (sourcesTable oneWebhook)) .empty
    (twoCalls 0 1 (pushed [55]) (pushed [32, 55]))

theorem same_run_iff_redelivered :
    ∃ s, redelivered = some s ∧ s.calls 0 = some ⟨pushed [55], .inserted 0⟩ ∧
      s.calls 1 = some ⟨pushed [32, 55], .recalled 0⟩ ∧
      (0 = 0 ↔ SameDelivery demo "0f3a-deploy" "0f3a-deploy" [("x-github-delivery", [55])]
        [("x-github-delivery", [32, 55])] [] []) := by
  obtain ⟨s, hrun, hc, hc'⟩ : ∃ s, redelivered = some s ∧
      s.calls 0 = some ⟨pushed [55], .inserted 0⟩ ∧
      s.calls 1 = some ⟨pushed [32, 55], .recalled 0⟩ := ⟨_, rfl, rfl, rfl⟩
  have hfirst : (Phase.inserted 0 : Phase Empty).returned = some (0, true) := rfl
  have hagain : (Phase.recalled 0 : Phase Empty).returned = some (0, false) := rfl
  have hprod : ∀ delivery, (pushed delivery).producer =
      .webhookFire "0f3a-deploy" [("x-github-delivery", delivery)] [] := fun _ => rfl
  exact ⟨s, hrun, hc, hc',
    same_run_iff hrun hc hc' hfirst hagain (hprod [55]) (hprod [32, 55])⟩

end Dokan.Ports.WebhookFire
